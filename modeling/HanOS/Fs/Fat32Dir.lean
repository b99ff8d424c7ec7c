import HanOS.Fs.FileBase
import HanOS.Fs.Fat32

/-!
# Looking up a path (`fs/fat32.c`)

`fat32_read_entry`, `fat32_compare_entry_and_path` and `fat32_parse_path`.  The sector buffer of
`fat32_read_entry` has 512 bytes on the stack; a slot behind its first 16 is made of what the
stack holds there, which is a parameter.
-/

namespace HanOS.Fs

open HanOS.Foundations HanOS.Lib HanOS.Core

/-! ## Directory slots -/

/-- The `fat_dir_entry_t` at `position`, as `fat32_read_entry` copies it. -/
def slotEntry (bytes : Mem) (position cluster index : Nat) : Fat32Entry where
  name k := bytes (position + k)
  attr := bytes (position + 11)
  clusterBegin := loadLE bytes (position + 26) 2 ||| loadLE bytes (position + 20) 2 <<< 16
  fileSizeBytes := loadLE bytes (position + 28) 4
  dirEntryCluster := cluster
  dirEntryIndex := index

/-- `behind` is the stack behind the sector buffer. -/
def fat32ReadEntry (vol : Volume) (behind : Mem) (cluster index : Nat) : Fat32Entry :=
  let dd := vol.ataPioRead28 (vol.clusterLba cluster) 1 (fun _ => 0) 0
  slotEntry (fun x => if x < 512 then dd x else behind x) (index * 32) cluster index

/-! ## Names -/

def dot : Byte := 0x2E

def toupper (c : Byte) : Byte := if 0x61 ≤ c.toNat ∧ c.toNat ≤ 0x7A then c - 0x20 else c

/-- The buffer `name` of `fat32_compare_entry_and_path`, unless it copies behind its end. -/
def dosName (path : CString) (k : Fin 11) : Byte :=
  let base := path.takeWhile (· ≠ dot)
  let ext := path.drop (base.length + 1)
  toupper <|
    if dot ∈ path then
      if k.val < 8 then (base.take 8).getD k.val 0x20 else (ext.take 3).getD (k.val - 8) 0x20
    else (path.take 8).getD k.val 0x20

/-- `memcmp` returns true for equal bytes. -/
def fat32CompareEntryAndPath (ent : Fat32Entry) (path : CString) : Bool :=
  ∀ k, ent.name k = dosName path k

/-- The same with the byte in front of the path, which is `*(ext - 1)` where the path is empty: if
    that is a dot, the length of the first copy is -1. -/
def fat32CompareBehind (front : Byte) (ent : Fat32Entry) (path : CString) : Option Bool :=
  if path = [] ∧ front = dot then none else some (fat32CompareEntryAndPath ent path)

/-! ## The loop -/

structure ParseScan where
  cluster : Nat
  i : Nat
  path : CString

inductive ParseOutcome
  | next (scan : ParseScan)
  | found (ent : Fat32Entry)
  | missing

/-- `if (ent.name[0] == 0x05) ent.name[0] = 0xE5;` -/
def Fat32Entry.unescaped (ent : Fat32Entry) : Fat32Entry :=
  if ent.name 0 = 0x05 then { ent with name := Function.update ent.name 0 0xE5 } else ent

def Fat32Entry.skipped (ent : Fat32Entry) : Bool := ent.attr &&& 0x0F = 0x0F ∨ ent.name 0 = 0xE5

/-- The path behind its first slash; `none` for a path without one or with nothing behind it, which
    is looked up as it is. -/
def behindSlash (path : CString) : Option (CString × CString) :=
  let subElem := path.takeWhile (· ≠ slash)
  match path.drop (subElem.length + 1) with
  | [] => none
  | rest => some (subElem, rest)

/-- What the loop does with an entry; `cluster` and `i` are those of the loop by then. -/
def parseEntry (ent : Fat32Entry) (cluster i : Nat) (path : CString) : ParseOutcome :=
  if ent.skipped then .next { cluster, i := u32 (i + 1), path }
  else
    let ent := ent.unescaped
    match behindSlash path with
    | none =>
      if fat32CompareEntryAndPath ent path then .found ent
      else .next { cluster, i := u32 (i + 1), path }
    | some (subElem, path) =>
      if fat32CompareEntryAndPath ent subElem then .next { cluster := ent.clusterBegin, i := 1, path }
      -- the loop goes on in the same directory with the rest of the path
      else .next { cluster, i := u32 (i + 1), path }

def parseStep (vol : Volume) (behind : ParseScan → Mem) (scan : ParseScan) : ParseOutcome :=
  let ent := fat32ReadEntry vol (behind scan) scan.cluster scan.i
  if scan.i = vol.bs.sectorsPerCluster * 16 then
    let cluster := fat32GetNextCluster vol scan.cluster
    if vol.bs.totalSectors ≤ u32 (cluster * vol.bs.sectorsPerCluster + 16) then .missing
    else parseEntry ent cluster 0 scan.path
  else parseEntry ent scan.cluster scan.i scan.path

def parseLoop (vol : Volume) (behind : ParseScan → Mem) : Nat → ParseScan →
    Option (Option Fat32Entry)
  | 0, _ => none
  | fuel + 1, scan =>
    match parseStep vol behind scan with
    | .next scan => parseLoop vol behind fuel scan
    | .found ent => some (some ent)
    | .missing => some none

def Fat32Entry.zero : Fat32Entry := ⟨fun _ => 0, 0, 0, 0, 0, 0⟩

def rootEntry (vol : Volume) : Fat32Entry :=
  { name := fun k => if k = 0 then 0x20 else 0, attr := 0x10,
    clusterBegin := vol.bs.rootDirFirstCluster, fileSizeBytes := 0,
    dirEntryCluster := 0, dirEntryIndex := 0 }

/-- The loop starts in the root directory, behind the leading slash. -/
def parseStart (vol : Volume) (path : CString) : ParseScan :=
  { cluster := vol.bs.rootDirFirstCluster, i := 0, path := path.tail }

/-- `fat32_parse_path`; an empty path is read past its end. -/
def fat32ParsePath (vol : Volume) (behind : ParseScan → Mem) (fuel : Nat) (path : CString) :
    Option Fat32Entry :=
  if path = [] then none
  else if path = [slash] then some (rootEntry vol)
  else (parseLoop vol behind fuel (parseStart vol path)).map fun ent => ent.getD .zero

end HanOS.Fs
