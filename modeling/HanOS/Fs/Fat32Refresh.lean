import HanOS.Fs.Fat32Datetime
import HanOS.Fs.VfsCalls

/-!
# Refreshing a directory (`fs/fat32.c`)

The pass of `fat32_refresh` over the entries in its buffer, and `fat32_getdent`.  Where an entry
behind the buffer is read, a cluster is read behind it or a name gets too long, there is no result,
and neither is there one where `fat32_get_datetime` does not come back.
-/

namespace HanOS.Fs

open HanOS.Foundations HanOS.Lib HanOS.Core

structure Fat32IdentItem where
  entry : FatDirEntry
  tm : Tm
  name : CString
  parent : Addr

/-- The buffer and the index of the pass, and `fat32.filelist`. -/
structure Refreshing where
  i : Nat
  tempBuffer : Mem
  tempLen : Nat
  filelist : List Fat32IdentItem

/-- What `fat32_refresh` takes from outside: `this`, the blocks `kmalloc` gives for a buffer that is
    longer, and what the block for an item has in its `tm`. -/
structure RefreshCall where
  this : Addr
  kmalloc : Refreshing → Mem
  tm : Refreshing → Tm

section Pass

variable (vol : Volume) (call : RefreshCall)

/-- The end of the pass over an entry: a short name's entry becomes an item.  The loops for its date
    end within 138 passes, or never (`fat32GetDatetime_isSome_iff`). -/
def pushItem (s : Refreshing) (index : Nat) (fn : CString) : Option Refreshing :=
  if s.tempLen < index * 32 + 32 then none
  else
    let fe := dirEntryAt s.tempBuffer (index * 32)
    let fn := if fn = [] then fat32GetShortFilename fe.fileNameAndExt else fn
    (fat32GetDatetime 138 fe (call.tm s)).map fun tm =>
      { s with
        i := index + 1
        filelist := s.filelist ++ [{ entry := fe, tm, name := fn, parent := call.this }] }

/-- A long name is cut off by the end of the buffer: the rest moves to the start of a new buffer and
    the next cluster is read to where the name began. -/
def loadMore (next : Nat) (s : Refreshing) : Option Refreshing :=
  let start := s.i * 32
  let tempLen := s.tempLen + vol.bytesPerCluster - start
  if tempLen < start + vol.bytesPerCluster then none
  else
    let buf := blit (call.kmalloc s) 0 s.tempBuffer start (s.tempLen - start)
    let buf := vol.ataPioRead28 (vol.clusterLba next) vol.bs.sectorsPerCluster buf start
    some { s with i := 0, tempBuffer := buf, tempLen }

/-- The loop over the entries in the buffer; `next` is `temp_cluster`. -/
def entryLoop (next : Nat) : Nat → Refreshing → Option Refreshing
  | 0, _ => none
  | fuel + 1, s =>
    if s.tempLen / 32 ≤ s.i then some s
    else
      let fe := dirEntryAt s.tempBuffer (s.i * 32)
      if fe.attr = 0 then entryLoop next fuel { s with i := s.i + 1 }
      else if fe.attr &&& 0x0F ≠ 0 then
        match fat32GetLongFilename s.tempBuffer (s.i * 32) (s.tempLen - 32) with
        | none => none
        | some (0, _) =>
          if next = 0 ∨ 0xFFFFFFF8 ≤ next then some s
          else (loadMore vol call next s).bind (entryLoop next fuel)
        | some (count, fn) => (pushItem call s (s.i + count) fn).bind (entryLoop next fuel)
      else (pushItem call s s.i []).bind (entryLoop next fuel)

/-- The pass, for `fat32Refresh`: the buffer, its length and the list. -/
def refreshPass (fuel : Nat) (tempBuffer : Mem) (next : Nat) :
    Option (Nat × List Fat32IdentItem) → Mem × Option (Nat × List Fat32IdentItem)
  | none => (tempBuffer, none)
  | some (tempLen, filelist) =>
    match entryLoop vol call next fuel { i := 0, tempBuffer, tempLen, filelist } with
    | none => (tempBuffer, none)
    | some s => (s.tempBuffer, some (s.tempLen, s.filelist))

/-- `fat32.filelist` after `fat32_refresh`; `fuel` bounds the passes of the loop over a buffer. -/
def refreshFilelist (fuel : Nat) (entry : Fat32Entry) (tempBuffer : Mem)
    (filelist : List Fat32IdentItem) : Option (List Fat32IdentItem) :=
  (fat32Refresh vol (refreshPass vol call fuel) entry tempBuffer
    (some (vol.bytesPerCluster, filelist))).bind fun (_, items) => items.map Prod.snd

end Pass

/-! ## Bounds for the passes -/

section Fuel

variable {vol : Volume} {call : RefreshCall} {next fuel fuel' start passes : Nat} {s s' : Refreshing}
  {tempBuffer : Mem}

end Fuel

/-! ## `fat32_getdent` -/

def Fat32IdentItem.dirent (item : Fat32IdentItem) : Dirent where
  type := if item.entry.attr &&& fat32AttrDirectory ≠ 0 then .folder else .file
  tm := item.tm
  name := item.name

/-- What `fat32_getdent` gives for 0, 1 and so on, until it fails. -/
def direntsOf (this : Addr) (filelist : List Fat32IdentItem) : List Dirent :=
  (filelist.filter fun item => item.parent = this).map Fat32IdentItem.dirent

end HanOS.Fs
