import HanOS.Foundations.Chain
import HanOS.Fs.Fat32
import Mathlib.Tactic.NormNum

/-!
# Cluster chains

The FAT32 chain of a cluster follows the low 28 bits of the entries and ends at a
mark from `0x0FFFFFF8` on (`fatSucc`).  The code follows `nextCluster`, which
compares raw 32-bit entries.  The two agree on an entry exactly when the entry is
`Understood`, and the loops visit the FAT32 chain exactly when all its entries are.
-/

namespace HanOS.Fs

open HanOS.Foundations HanOS.Lib HanOS.Core

variable {vol : Volume} {start cluster : Nat} {chain : List Nat}

/-- The cluster behind `cluster` in FAT32: four reserved bits, then a link or an end mark. -/
def fatSucc (vol : Volume) (cluster : Nat) : Option Nat :=
  let link := vol.entryAt cluster % 2 ^ 28
  if 0x0FFFFFF8 ≤ link then none else some link

def Volume.entries (vol : Volume) : Nat := vol.fatLen / 4

/-- A cluster that has a FAT entry and is not one of the two reserved ones. -/
def Volume.IsCluster (vol : Volume) (cluster : Nat) : Prop := 2 ≤ cluster ∧ cluster < vol.entries

/-- `chain` is the FAT32 chain of `start`, and it is well formed. -/
structure FatChain (vol : Volume) (start : Nat) (chain : List Nat) : Prop where
  follows : Chain (fatSucc vol) start chain
  inside : ∀ cluster ∈ chain, vol.IsCluster cluster

def nextCluster (vol : Volume) (cluster : Nat) : Option Nat :=
  if fat32GetNextCluster vol cluster = 0 then none else some (fat32GetNextCluster vol cluster)

theorem nextCluster_eq_none_iff :
    nextCluster vol cluster = none ↔ fat32GetNextCluster vol cluster = 0 := by
  unfold nextCluster
  split <;> simp_all

theorem nextCluster_eq_some_iff {next : Nat} :
    nextCluster vol cluster = some next ↔ fat32GetNextCluster vol cluster = next ∧ next ≠ 0 := by
  unfold nextCluster
  split
  · next zero => simp only [zero, false_iff, reduceCtorEq]; omega
  · next nonzero =>
    rw [Option.some.injEq]
    exact ⟨fun same => ⟨same, same ▸ nonzero⟩, And.left⟩

/-- An entry the code reads as FAT32 has it: a link without reserved bits, or one of the end marks
    `fat32_get_next_cluster` compares with. -/
def Understood (entry : Nat) : Prop :=
  entry < 0x0FFFFFF8 ∨ entry = 0x0FFFFFFF ∨ 0xFFFFFFF8 ≤ entry

theorem entryAt_lt (vol : Volume) (cluster : Nat) : vol.entryAt cluster < 2 ^ 32 := by
  simpa [Volume.entryAt] using @loadLE_lt vol.mem (vol.fat + 4 * cluster) 4

theorem fat32GetNextCluster_of_lt (inside : cluster < vol.entries) :
    fat32GetNextCluster vol cluster =
      if 0xFFFFFFF8 ≤ vol.entryAt cluster ∨ vol.entryAt cluster = 0x0FFFFFFF then 0
      else vol.entryAt cluster := by
  rw [fat32GetNextCluster, if_neg (by rwa [not_le]), ite_or]

/-- `fat32_refresh` also stops at the reserved values, but is never given one. -/
theorem fat32GetNextCluster_lt (vol : Volume) (cluster : Nat) :
    fat32GetNextCluster vol cluster < 0xFFFFFFF8 := by
  rw [fat32GetNextCluster]
  split_ifs <;> omega

/-- Code and format agree on an entry that is no link to cluster 0 exactly when it is understood. -/
theorem nextCluster_eq_fatSucc_iff (inside : cluster < vol.entries)
    (linked : fatSucc vol cluster ≠ some 0) :
    nextCluster vol cluster = fatSucc vol cluster ↔ Understood (vol.entryAt cluster) := by
  have bound := entryAt_lt vol cluster
  rw [nextCluster, fat32GetNextCluster_of_lt inside]
  simp only [fatSucc, Understood] at linked ⊢
  generalize vol.entryAt cluster = entry at *
  by_cases mark : 0x0FFFFFF8 ≤ entry % 2 ^ 28
  · rw [if_pos mark]
    split <;> split <;> simp <;> omega
  · rw [if_neg mark] at linked ⊢
    have nonzero : entry % 2 ^ 28 ≠ 0 := by simpa using linked
    rw [if_neg (show ¬ (0xFFFFFFF8 ≤ entry ∨ entry = 0x0FFFFFFF) by omega),
      if_neg (show ¬ entry = 0 by omega), Option.some.injEq]
    omega

/-- The code's walk is the FAT32 chain exactly when every entry of it is understood. -/
theorem FatChain.nextCluster_iff (wellFormed : FatChain vol start chain) :
    Chain (nextCluster vol) start chain ↔ ∀ cluster ∈ chain, Understood (vol.entryAt cluster) := by
  rw [wellFormed.follows.iff_agree]
  refine forall₂_congr fun cluster member => nextCluster_eq_fatSucc_iff
    (wellFormed.inside cluster member).2 fun linked => ?_
  have zero := wellFormed.inside 0 (wellFormed.follows.succ_mem member linked)
  exact absurd zero.1 (by omega)

theorem FatChain.length_le (wellFormed : FatChain vol start chain) :
    chain.length ≤ walkFuel vol :=
  (wellFormed.follows.length_le fun cluster member => (wellFormed.inside cluster member).2).trans
    (Nat.le_succ _)

/-! ## Reading -/

theorem readLoop_visited (fuel readlen : Nat) (dd : Mem) :
    (readLoop vol fuel cluster readlen dd).map Staged.visited =
      visit (nextCluster vol) fuel cluster := by
  induction fuel generalizing cluster readlen dd with
  | zero => rfl
  | succ fuel inductionHypothesis =>
    by_cases last : fat32GetNextCluster vol cluster = 0
    · simp [readLoop, visit, nextCluster, last]
    · simp only [readLoop, visit, nextCluster, last, if_false, Option.map_map]
      rw [← inductionHypothesis, Option.map_map]
      rfl

/-- `fat32_read` visits the FAT32 chain exactly when its entries are understood. -/
theorem readLoop_visits_iff (wellFormed : FatChain vol start chain) (dd : Mem) :
    (readLoop vol (walkFuel vol) start 0 dd).map Staged.visited = some chain ↔
      ∀ cluster ∈ chain, Understood (vol.entryAt cluster) := by
  rw [readLoop_visited, visit_eq_some_iff, ← wellFormed.nextCluster_iff]
  exact and_iff_left wellFormed.length_le

/-! ## Refreshing -/

theorem refreshLoop_visited {Items : Type} (pass : Mem → Nat → Items → Mem × Items)
    (fuel : Nat) (tempBuffer : Mem) (items : Items) :
    (refreshLoop vol pass fuel cluster tempBuffer items).map Prod.fst =
      visit (nextCluster vol) fuel cluster := by
  induction fuel generalizing cluster tempBuffer items with
  | zero => rfl
  | succ fuel inductionHypothesis =>
    have small := fat32GetNextCluster_lt vol cluster
    by_cases last : fat32GetNextCluster vol cluster = 0
    · simp [refreshLoop, visit, nextCluster, last]
    · simp only [refreshLoop, visit, nextCluster, last, if_false, false_or, not_le.mpr small,
        Option.map_map]
      rw [← inductionHypothesis, Option.map_map]
      rfl

theorem fat32Refresh_visits_iff {Items : Type} (pass : Mem → Nat → Items → Mem × Items)
    {entry : Fat32Entry} (wellFormed : FatChain vol entry.clusterBegin chain) (tempBuffer : Mem)
    (items : Items) :
    (fat32Refresh vol pass entry tempBuffer items).map Prod.fst = some chain ↔
      ∀ cluster ∈ chain, Understood (vol.entryAt cluster) := by
  have first := (wellFormed.inside _ wellFormed.follows.start_mem).1
  rw [fat32Refresh, if_neg (by omega), refreshLoop_visited, visit_eq_some_iff,
    ← wellFormed.nextCluster_iff]
  exact and_iff_left wellFormed.length_le

end HanOS.Fs
