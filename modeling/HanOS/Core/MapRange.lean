import HanOS.Core.VmmInit
import Mathlib.Data.Finset.Union

/-!
# Ranges mapped and unmapped

`vmm_map` gives every page of a range its frame and leaves the other pages where they were
(`vmmMap_walk`).  The tables it brings take the lowest free pages; `vmm_unmap` takes the
mappings away, and the tables that are empty then.
-/

namespace HanOS.Core

open HanOS.Foundations HanOS.Lib

variable {pm pm' start : PhysMem} {root x y vaddr paddr np flags : Nat} {path p : Path} {i j : Fin 512}
variable {starts : List Nat}

/-- What the walk through the four levels finds: the address of the frame, and the flags. -/
def walk (pm : PhysMem) (pml4 vaddr : Nat) : Option (Nat × Nat) :=
  let entry := leafEntry pm pml4 (tablePath vaddr) (pte vaddr)
  if isPresent entry then some (clear12 entry, entry % 0x1000) else none

/-! ## The loops -/

def OfRange (vaddr : Nat) (starts : List Nat) (path : Path) (i : Fin 512) : Prop :=
  ∃ start ∈ starts, path = tablePath (u64 (vaddr + start)) ∧ i = pte (u64 (vaddr + start))

theorem ofRange_cons {start : Nat} : OfRange vaddr (start :: starts) path i ↔
    (path = tablePath (u64 (vaddr + start)) ∧ i = pte (u64 (vaddr + start))) ∨
      OfRange vaddr starts path i := by
  simp only [OfRange, List.mem_cons, exists_eq_or_imp]

def rangeTables (vaddr : Nat) (starts : List Nat) : Finset Path :=
  starts.toFinset.biUnion fun start => tablesAbove (u64 (vaddr + start))

theorem rangeTables_cons {start : Nat} : rangeTables vaddr (start :: starts) =
    tablesAbove (u64 (vaddr + start)) ∪ rangeTables vaddr starts := by
  rw [rangeTables, List.toFinset_cons, Finset.biUnion_insert, rangeTables]

/-- What the loop of `vmm_map` does. -/
structure MappedRange (root : Nat) (pm pm' : PhysMem) (vaddr : Nat) (starts : List Nat) : Prop where
  tree : TreeOk root pm'
  keeps : Extends root pm pm'
  pool : SamePool root pm pm'
  brings : Brings root pm pm' (rangeTables vaddr starts)
  leaf : ∀ (p : Path) j, p.length = 3 → ¬ OfRange vaddr starts p j →
    leafEntry pm' root p j = leafEntry pm root p j

theorem vmmMap_spec (tree : TreeOk root pm)
    (entries : ∀ i, isPresent (makeTableEntry (clear12 (u64 (paddr + i))) flags) ∧
      makeTableEntry (clear12 (u64 (paddr + i))) flags < 2 ^ 64)
    (served : Along (fun pm i => mapPage root pm (u64 (vaddr + i)) (u64 (paddr + i)) flags)
      (fun pm i => PageServed root pm (u64 (vaddr + i))) pm starts) :
    ∃ pm', starts.foldlM (fun pm i => mapPage root pm (u64 (vaddr + i)) (u64 (paddr + i)) flags) pm =
        some pm' ∧ MappedRange root pm pm' vaddr starts ∧
      (starts.Pairwise (fun i j => ¬ SamePage (u64 (vaddr + i)) (u64 (vaddr + j))) →
        ∀ i ∈ starts, leafEntry pm' root (tablePath (u64 (vaddr + i))) (pte (u64 (vaddr + i))) =
          makeTableEntry (clear12 (u64 (paddr + i))) flags) := by
  induction starts generalizing pm with
  | nil => exact ⟨pm, rfl, ⟨tree, .refl _ _, .refl _ _, .refl _ _, fun _ _ _ _ => rfl⟩, fun _ => nofun⟩
  | cons start starts inductionHypothesis =>
    obtain ⟨here, later⟩ := served
    obtain ⟨next, mapped, remapped, _, keeps, pool, brings⟩ := mapPage_entry tree.tables tree.filled here rfl
      (entries start).1 (entries start).2
    obtain ⟨final, finished, range, exact_⟩ :=
      inductionHypothesis ⟨remapped.tables, remapped.filled⟩ (later next mapped)
    refine ⟨final, ?_, ⟨range.tree, keeps.trans range.keeps, pool.trans range.pool, ?_,
      fun p j last outside => ?_⟩, fun distinct i member => ?_⟩
    · rw [List.foldlM_cons, mapped]
      exact finished
    · rw [rangeTables_cons]
      exact brings.trans pool.physLimit range.brings
    · rw [ofRange_cons, not_or] at outside
      rw [range.leaf p j last outside.2, remapped.leaf p j last, if_neg outside.1]
    · obtain ⟨first, rest⟩ := List.pairwise_cons.mp distinct
      rcases List.mem_cons.mp member with rfl | member
      · rw [range.leaf _ _ length_tablePath, remapped.leaf _ _ length_tablePath, if_pos ⟨rfl, rfl⟩]
        rintro ⟨j, later, same⟩
        exact first j later (samePage_iff.mpr same)
      · exact exact_ rest i member

structure UnmappedRange (root : Nat) (pm pm' : PhysMem) (vaddr : Nat) (starts : List Nat) : Prop where
  tree : TreeOk root pm'
  keeps : Extends root pm' pm
  pool : SamePool root pm pm'
  leaf : ∀ (p : Path) j, p.length = 3 → ¬ OfRange vaddr starts p j →
    leafEntry pm' root p j = leafEntry pm root p j
  cleared : ∀ (p : Path) j, p.length = 3 → OfRange vaddr starts p j → leafEntry pm' root p j = 0

theorem unmapRange_spec {released : List Release} (tree : TreeOk root pm) :
    UnmappedRange root pm (starts.foldl (fun (pm, releases) i =>
      let (pm, more) := unmapPage root pm (u64 (vaddr + i))
      (pm, releases ++ more)) (pm, released)).1 vaddr starts := by
  induction starts generalizing pm released with
  | nil =>
    exact ⟨tree, .refl _ _, .refl _ _, fun _ _ _ _ => rfl, fun p j _ ⟨_, member, _⟩ => by cases member⟩
  | cons start starts inductionHypothesis =>
    obtain ⟨remapped, _, keeps, pool⟩ :=
      @unmapPage_pool pm root (u64 (vaddr + start)) tree.tables tree.filled
    rw [List.foldl_cons]
    dsimp only
    generalize unmapPage root pm (u64 (vaddr + start)) = result at *
    have rest := @inductionHypothesis result.1 (released ++ result.2)
      ⟨remapped.tables, remapped.filled⟩
    refine ⟨rest.tree, rest.keeps.trans keeps, pool.trans rest.pool, fun p j last outside => ?_,
      fun p j last inside => ?_⟩
    · rw [ofRange_cons, not_or] at outside
      rw [rest.leaf p j last outside.2, remapped.leaf p j last, if_neg outside.1]
    · by_cases later : OfRange vaddr starts p j
      · exact rest.cleared p j last later
      · rw [rest.leaf p j last later, remapped.leaf p j last,
          if_pos ((ofRange_cons.mp inside).resolve_right later)]

theorem vmmUnmap_spec (tree : TreeOk root pm) :
    UnmappedRange root pm (vmmUnmap root pm vaddr np).1 vaddr (pageStarts 0 np) :=
  unmapRange_spec tree

/-! ## What a range is mapped to -/

/-- A range of pages that ends within the address space of the walk, and so do its frames. -/
structure RangeOk (vaddr paddr np : Nat) : Prop where
  virtual : pageSize ∣ vaddr
  physical : pageSize ∣ paddr
  virtualEnd : vaddr + np * pageSize ≤ 2 ^ 64
  physicalEnd : paddr + np * pageSize ≤ 2 ^ 64
  pages : np ≤ 2 ^ 36

theorem walk_entry (valid : ValidFlags flags) (aligned : pageSize ∣ paddr)
    (entry : leafEntry pm root (tablePath vaddr) (pte vaddr) = makeTableEntry (clear12 paddr) flags) :
    walk pm root vaddr = some (paddr, flags) := by
  have flag : isPresent flags := decide_eq_true valid.1
  have low := valid.2
  rw [clear12_of_dvd aligned, makeTableEntry_eq low, clear12_of_dvd aligned] at entry
  obtain ⟨count, rfl⟩ := aligned
  have present : isPresent (pageSize * count + flags) := by
    rw [isPresent_iff] at flag ⊢
    rw [pageSize]
    omega
  have address : clear12 (pageSize * count + flags) = pageSize * count := by
    simp only [clear12, pageSize]
    omega
  have rest : (pageSize * count + flags) % 0x1000 = flags := by
    rw [pageSize]
    omega
  rw [walk, entry, if_pos present, address, rest]

/-- After `vmm_map` the walk finds the frames of the range with the flags, and what it found
    everywhere else. -/
theorem vmmMap_walk (tree : TreeOk root pm) (valid : ValidFlags flags) (range : RangeOk vaddr paddr np)
    (enough : EnoughPages root pm vaddr paddr np flags) :
    ∃ pm', vmmMap root pm vaddr paddr np flags = some pm' ∧ TreeOk root pm' ∧
      (∀ i < np, walk pm' root (vaddr + i * pageSize) = some (paddr + i * pageSize, flags)) ∧
      ∀ other, (∀ i < np, ¬ SamePage other (vaddr + i * pageSize)) →
        walk pm' root other = walk pm root other := by
  obtain ⟨⟨v, virtual⟩, ⟨f, physical⟩, virtualEnd, physicalEnd, pages⟩ := range
  have starts := @pageStarts_page 0 np (by simp only [pageSize, mul_pageSize]; omega)
  rw [Nat.zero_mul] at starts
  have addresses : ∀ i < np, u64 (vaddr + i * pageSize) = vaddr + i * pageSize ∧
      u64 (paddr + i * pageSize) = paddr + i * pageSize := fun i below => by
    simp only [u64, pageSize, mul_pageSize] at *
    omega
  obtain ⟨pm', mapped, spec, entries⟩ := vmmMap_spec tree
    (fun i => valid.tableEntry (Nat.mod_lt _ (Nat.two_pow_pos 64))) enough
  have distinct : (pageStarts 0 np).Pairwise
      fun i j => ¬ SamePage (u64 (vaddr + i)) (u64 (vaddr + j)) := by
    rw [starts, List.pairwise_map]
    refine List.Pairwise.imp_of_mem (fun {i j} iIn jIn less same => ?_) List.pairwise_lt_range'
    have iBelow := (List.mem_range'_1.mp iIn).2
    have jBelow := (List.mem_range'_1.mp jIn).2
    rw [(addresses i (by omega)).1, (addresses j (by omega)).1, virtual, SamePage] at same
    simp only [pageSize, mul_pageSize] at same
    omega
  refine ⟨pm', mapped, spec.tree, fun i below => ?_, fun other outside => ?_⟩
  · have entry := entries distinct (i * pageSize) (by
      rw [starts]
      exact List.mem_map.mpr ⟨i, List.mem_range'_1.mpr ⟨Nat.zero_le i, by omega⟩, rfl⟩)
    rw [(addresses i below).1, (addresses i below).2] at entry
    refine walk_entry valid ?_ entry
    rw [physical]
    exact Nat.dvd_add (Nat.dvd_mul_right ..) (Nat.dvd_mul_left ..)
  · rw [walk, walk, spec.leaf _ _ length_tablePath]
    rintro ⟨start, member, same⟩
    rw [starts] at member
    obtain ⟨i, inRange, rfl⟩ := List.mem_map.mp member
    have below := (List.mem_range'_1.mp inRange).2
    rw [(addresses i (by omega)).1] at same
    exact outside i (by omega) (samePage_iff.mpr same)

/-- Three pages, the last of them in the next page table. -/
theorem vmmMap_walk_smallMem :
    ∃ pm', vmmMap 0x2000 smallMem 0x3FE000 0x5000 3 vmmFlagsDefault = some pm' ∧
      TreeOk 0x2000 pm' ∧
      (∀ i < 3, walk pm' 0x2000 (0x3FE000 + i * pageSize) =
        some (0x5000 + i * pageSize, vmmFlagsDefault)) ∧
      ∀ other, (∀ i < 3, ¬ SamePage other (0x3FE000 + i * pageSize)) →
        walk pm' 0x2000 other = walk smallMem 0x2000 other :=
  vmmMap_walk smallMem_empty.treeOk validFlags_default
    ⟨by decide, by decide, by decide, by decide, by decide⟩ (smallMem_enough (by decide))

end HanOS.Core
