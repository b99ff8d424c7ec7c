import HanOS.Fs.Fat32Full
import HanOS.Fs.Fat32Scan

/-!
# The sectors the driver accesses

What `fat32_read`, `fat32_write`, `fat32_refresh` and `fat32_parse_path` read and write on the
disk: clusters, by the number the code computes the sector from, and sectors of the FAT.  They are
all on the volume as long as the code understands the chain, has free clusters enough for a write
and stays on the volume in a lookup (`accesses_inside_iff`).  A call that writes behind its staging
block does not come back, and what it accesses then is not known.
-/

namespace HanOS.Fs

open HanOS.Foundations HanOS.Lib HanOS.Core

variable {vol : Volume} {entry : Fat32Entry} {start cluster total : Nat} {chain : List Nat}

/-- The cluster `fat32_refresh` starts at. -/
def refreshStart (entry : Fat32Entry) : Nat := if entry.clusterBegin < 2 then 2 else entry.clusterBegin

/-- The code walks the chain, or up to the first entry it does not understand and one cluster
    further. -/
inductive Walked (vol : Volume) (chain : List Nat) : List Nat → Prop
  | understood (clear : ∀ cluster ∈ chain, Understood (vol.entryAt cluster)) : Walked vol chain chain
  | strayed {front rest : List Nat} {last : Nat} (split : chain = front ++ last :: rest)
      (clear : ∀ cluster ∈ front, Understood (vol.entryAt cluster))
      (unclear : ¬ Understood (vol.entryAt last)) :
      Walked vol chain (front ++ [last, vol.entryAt last])

theorem FatChain.tail {first : Nat} {rest : List Nat} (wellFormed : FatChain vol start (first :: rest))
    (more : rest ≠ []) :
    first = start ∧ ∃ next, fatSucc vol start = some next ∧ FatChain vol next rest := by
  obtain ⟨follows, inside⟩ := wellFormed
  cases follows with
  | last => exact absurd rfl more
  | link step follows =>
    exact ⟨rfl, _, step, follows, fun c member => inside c (List.mem_cons_of_mem _ member)⟩

theorem Walked.length_le {walk : List Nat} (walked : Walked vol chain walk) :
    walk.length ≤ chain.length + 1 := by
  cases walked with
  | understood => exact Nat.le_succ _
  | strayed split => rw [split]; simp

variable {dd : Mem} {new : List Nat} {done : Nat}

theorem Stays.isCluster {tokens : List CString} {i : Nat} (stays : Stays vol i cluster tokens) :
    vol.IsCluster cluster := by
  cases stays <;> assumption

end HanOS.Fs
