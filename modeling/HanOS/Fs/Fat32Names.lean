import HanOS.Fs.Fat32Dir

/-!
# File names in directory entries (`fs/fat32.h`)

`fat32_get_short_filename`, `fat32_get_long_filename` and `fat32_checksum`, on the bytes of a
buffer.
-/

namespace HanOS.Fs

open HanOS.Foundations HanOS.Lib

abbrev FatDirEntry := Fin 32 → Byte

def dirEntryAt (bytes : Mem) (position : Nat) : FatDirEntry := fun k => bytes (position + k)

instance entryNeZero : NeZero 32 := ⟨by decide⟩

namespace FatDirEntry

def fileNameAndExt (fe : FatDirEntry) (k : Fin 11) : Byte := fe ⟨k, by omega⟩

def attr (fe : FatDirEntry) : Byte := fe 11

def sequenceNumber (fe : FatDirEntry) : Byte := fe 0

def dosChecksum (fe : FatDirEntry) : Byte := fe 13

end FatDirEntry

/-! ## Short names -/

def untilBlank (field : CString) : CString := field.takeWhile fun c => c ≠ 0x20 ∧ c ≠ 0

def fat32GetShortFilename (name : Fin 11 → Byte) : CString :=
  let fn := untilBlank ((List.finRange 11).take 8 |>.map name)
  let ext := untilBlank ((List.finRange 11).drop 8 |>.map name)
  if ext = [] then fn else fn ++ dot :: ext

def fat32Checksum (name : Fin 11 → Byte) : Byte :=
  ((List.finRange 11).map name).foldl (fun s c => (s <<< 7) + (s >>> 1) + c) 0

/-! ## Long names -/

/-- Where `name1`, `name2` and `name3` have the low bytes of their characters. -/
def lfnOffsets : List (Fin 32) := [1, 3, 5, 7, 9, 14, 16, 18, 20, 22, 24, 28, 30]

/-- What `fat32_name_copy` takes of the three parts of a name. -/
def lfnChars (fe : FatDirEntry) : CString := lfnOffsets.map fe

/-- The loop of `fat32_get_long_filename` over the entries from `lfne` to `last`; `none` when the
    name does not fit its 256 bytes. -/
def longFilenameLoop (bytes : Mem) (last : Nat) : Nat → Nat → Nat → Nat → CString →
    Option (Nat × CString)
  | 0, _, _, _, _ => none
  | fuel + 1, lfne, count, entryNum, fname =>
    let fe := dirEntryAt bytes lfne
    let count := count + 1
    let idx := (fe.sequenceNumber &&& 0x3F).toNat
    let first : Bool := fe.sequenceNumber &&& 0x40 ≠ 0
    let fname := (lfnChars fe).takeWhile (· ≠ 0) ++ fname
    if vfsMaxNameLen ≤ fname.length then none
    else
      let entryNum := if first then idx else entryNum
      if idx = 1 ∧ count = entryNum then some (count, fname)
      else if lfne = last then some (0, fname)
      else longFilenameLoop bytes last fuel (lfne + 32) count entryNum fname

/-- `fat32_get_long_filename`: the number of entries of the name, or 0 if it is not complete at
    `last`. -/
def fat32GetLongFilename (bytes : Mem) (lfne last : Nat) : Option (Nat × CString) :=
  longFilenameLoop bytes last ((last - lfne) / 32 + 1) lfne 0 0 []

end HanOS.Fs
