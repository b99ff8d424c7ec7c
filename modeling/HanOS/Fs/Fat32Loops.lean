import HanOS.Fs.Fat32Dir
import HanOS.Fs.Fat32Refresh
import HanOS.Fs.Fat32Sectors
import Mathlib.Data.Finite.Prod
import Mathlib.Data.List.Infix
import Mathlib.Order.Interval.Finset.Nat

/-!
# When the loops of the driver end

None of the loops counts its passes.  `fat32_read` and the outer loop of `fat32_refresh` follow the
FAT from cluster to cluster, `fat32_parse_path` goes from entry to entry and takes the end of a
directory for cluster 0, and the inner loop of `fat32_refresh` starts again whenever it loads a
cluster for a name that is cut off.  A loop ends exactly when the first three come to no position
twice, and the last one loads a cluster for the last time (`loop_ends_iff`), whatever is on the
disk and in the FAT; the inner loop of `fat32_refresh` also has to come to no entry without a month.
-/

namespace HanOS.Fs

open HanOS.Foundations HanOS.Lib HanOS.Core

variable {vol : Volume}

/-! ## The loops, step by step -/

/-- One pass of the inner loop of `fat32_refresh`; none at its end, where `fat32_get_datetime` does not
    come back, and where it is not survived. -/
def entryNext (vol : Volume) (call : RefreshCall) (next : Nat) (s : Refreshing) : Option Refreshing :=
  if s.tempLen / 32 ≤ s.i then none
  else
    let fe := dirEntryAt s.tempBuffer (s.i * 32)
    if fe.attr = 0 then some { s with i := s.i + 1 }
    else if fe.attr &&& 0x0F ≠ 0 then
      match fat32GetLongFilename s.tempBuffer (s.i * 32) (s.tempLen - 32) with
      | none => none
      | some (0, _) => if next = 0 ∨ 0xFFFFFFF8 ≤ next then none else loadMore vol call next s
      | some (count, fn) => pushItem call s (s.i + count) fn
    else pushItem call s s.i []

/-- The entry a pass makes an item of: the one behind a long name, or that of a short name.  It may lie
    behind the buffer. -/
def listedEntry (s : Refreshing) : Option FatDirEntry :=
  if s.tempLen / 32 ≤ s.i then none
  else
    let fe := dirEntryAt s.tempBuffer (s.i * 32)
    if fe.attr = 0 then none
    else if fe.attr &&& 0x0F ≠ 0 then
      match fat32GetLongFilename s.tempBuffer (s.i * 32) (s.tempLen - 32) with
      | none => none
      | some (0, _) => none
      | some (count, _) => some (dirEntryAt s.tempBuffer ((s.i + count) * 32))
    else some fe

/-- `fat32_get_datetime` does not come back for the entry. -/
def Hangs (s : Refreshing) : Prop :=
  ∃ fe, listedEntry s = some fe ∧ ∀ fuel tm, fat32GetDatetime fuel fe tm = none

inductive FatLoop
  /-- The one of `fat32_read`, for a file that starts at this cluster. -/
  | read (start : Nat)
  /-- The outer one of `fat32_refresh`. -/
  | refresh (entry : Fat32Entry)
  /-- The inner one, from any buffer, with `next` for `temp_cluster`. -/
  | entries (call : RefreshCall) (next : Nat) (s : Refreshing)
  /-- The one of `fat32_parse_path`. -/
  | parsePath (behind : ParseScan → Mem) (path : CString)

/-- The loop ends: the outer loop of `fat32_refresh` whatever its passes do, as long as they come
    back. -/
def FatLoop.Ends (vol : Volume) : FatLoop → Prop
  | .read start => ∀ block, ∃ fuel staged, readLoop vol fuel start 0 block = some staged
  | .refresh entry =>
    ∀ (Items : Type) (pass : Mem → Nat → Items → Mem × Items) (tempBuffer : Mem) (items : Items),
      ∃ fuel result, refreshLoop vol pass fuel (refreshStart entry) tempBuffer items = some result
  | .entries call next s =>
    ∃ last, Relation.ReflTransGen (Follows (entryNext vol call next)) s last ∧
      entryNext vol call next last = none ∧ ¬ Hangs last
  | .parsePath behind path =>
    ∃ fuel result, parseLoop vol behind fuel (parseStart vol path) = some result

section Entries

variable {call : RefreshCall} {next : Nat} {s s' : Refreshing}

end Entries

/-! ## The search for a path -/

section Search

variable {behind : ParseScan → Mem} {scan scan' : ParseScan}

theorem unescaped_clusterBegin (ent : Fat32Entry) : ent.unescaped.clusterBegin = ent.clusterBegin := by
  rw [Fat32Entry.unescaped]
  split <;> rfl

end Search

deriving instance DecidableEq for ParseScan

end HanOS.Fs
