import HanOS.Core.Pmm
import Mathlib.Tactic.Ring

/-!
# What the physical memory manager does to pages

The operations of `Pmm` in terms of page numbers: which pages are free afterwards,
what becomes of `free_size`, and which bytes of memory are written.  `Allocated` and
`Freed` say all an allocation and a release do; `pmmGet` is the lowest window of free
pages.
-/

namespace HanOS.Core

open HanOS.Foundations HanOS.Lib

variable {pm pm' : PhysMem} {page p q n addr : Nat}

def PhysMem.isFree (pm : PhysMem) (page : Nat) : Bool :=
  bitAt pm.mem (pm.bitmap + page / 8) (page % 8)

def PhysMem.bitByte (pm : PhysMem) (page : Nat) : Nat := pm.bitmap + page / 8

theorem byteOf_page : pm.byteOf (q * pageSize) = pm.bitByte q := by
  simp only [PhysMem.byteOf, PhysMem.bitByte, pageSize, bmpPagesPerByte]
  omega

theorem bitOf_page : PhysMem.bitOf (q * pageSize) = q % 8 := by
  simp only [PhysMem.bitOf, pageSize, bmpPagesPerByte]
  omega

theorem pageStarts_page (nowrap : (q + n) * pageSize < 2 ^ 64) :
    pageStarts (q * pageSize) n = (List.range' q n).map (· * pageSize) := by
  have bytes : n * pageSize < 2 ^ 64 ∧ q * pageSize + n * pageSize < 2 ^ 64 := by
    simp only [pageSize, mul_pageSize] at *
    omega
  have count : (n * pageSize + (pageSize - 1)) / pageSize = n := by
    simp only [pageSize, mul_pageSize]
    omega
  rw [pageStarts, u64_of_lt bytes.1, u64_of_lt bytes.2, Nat.add_sub_cancel_left, count,
    List.range'_eq_map_range, List.map_map]
  refine List.map_congr_left fun k _ => ?_
  simp only [Function.comp_apply]
  ring

/-! ## Single pages -/

theorem same_bit : p / 8 = q / 8 ∧ p % 8 = q % 8 ↔ p = q := by omega

theorem isFree_markused :
    (pm.markused (q * pageSize)).isFree p = if p = q then false else pm.isFree p := by
  simp only [PhysMem.isFree, PhysMem.markused, byteOf_page, bitOf_page]
  rw [bitAt_withoutBit (Nat.mod_lt _ (by omega)) (Nat.mod_lt _ (by omega))]
  simp only [PhysMem.bitByte, Nat.add_left_cancel_iff, same_bit]

theorem isFree_markfree :
    (pm.markfree (q * pageSize)).isFree p = if p = q then true else pm.isFree p := by
  simp only [PhysMem.isFree, PhysMem.markfree, byteOf_page, bitOf_page]
  rw [bitAt_withBit (Nat.mod_lt _ (by omega)) (Nat.mod_lt _ (by omega))]
  simp only [PhysMem.bitByte, Nat.add_left_cancel_iff, same_bit]

theorem bitmapIsfree_iff (nowrap : (q + n) * pageSize < 2 ^ 64) :
    bitmapIsfree pm (q * pageSize) n ↔ ∀ p, q ≤ p → p < q + n → pm.isFree p := by
  rw [bitmapIsfree, pageStarts_page nowrap]
  simp only [List.all_map, List.all_eq_true, Function.comp_apply, byteOf_page, bitOf_page,
    List.mem_range'_1, and_imp, PhysMem.isFree, PhysMem.bitByte]

/-! ## Ranges of pages -/

/-- What a change of the bits of the pages `q` to `q + n` leaves alone. -/
structure SameButBits (pm pm' : PhysMem) (q n : Nat) : Prop where
  bitmap : pm'.bitmap = pm.bitmap
  physLimit : pm'.physLimit = pm.physLimit
  totalSize : pm'.totalSize = pm.totalSize
  mem : ∀ x, (∀ p, q ≤ p → p < q + n → x ≠ pm.bitByte p) → pm'.mem x = pm.mem x

theorem SameButBits.refl (pm : PhysMem) (q n : Nat) : SameButBits pm pm q n :=
  ⟨rfl, rfl, rfl, fun _ _ => rfl⟩

theorem SameButBits.cons {middle : PhysMem} (first : SameButBits pm middle q 1)
    (rest : SameButBits middle pm' (q + 1) n) : SameButBits pm pm' q (n + 1) where
  bitmap := rest.bitmap.trans first.bitmap
  physLimit := rest.physLimit.trans first.physLimit
  totalSize := rest.totalSize.trans first.totalSize
  mem x outside := by
    rw [rest.mem x fun p low high => by
        rw [PhysMem.bitByte, first.bitmap]
        exact outside p (by omega) (by omega),
      first.mem x fun p low high => outside p (by omega) (by omega)]

theorem markused_same : SameButBits pm (pm.markused (q * pageSize)) q 1 :=
  ⟨rfl, rfl, rfl, fun _ outside =>
    withoutBit_outside (byteOf_page ▸ outside q le_rfl (Nat.lt_succ_self q))⟩

theorem markfree_same : SameButBits pm (pm.markfree (q * pageSize)) q 1 :=
  ⟨rfl, rfl, rfl, fun _ outside =>
    withBit_outside (byteOf_page ▸ outside q le_rfl (Nat.lt_succ_self q))⟩

theorem bitmapMarkused_spec (pm : PhysMem) (nowrap : (q + n) * pageSize < 2 ^ 64) :
    SameButBits pm (bitmapMarkused pm (q * pageSize) n) q n ∧
      (bitmapMarkused pm (q * pageSize) n).freeSize = pm.freeSize ∧
      ∀ p, (bitmapMarkused pm (q * pageSize) n).isFree p =
        if q ≤ p ∧ p < q + n then false else pm.isFree p := by
  rw [bitmapMarkused, pageStarts_page nowrap, List.foldl_map]
  clear nowrap
  induction n generalizing pm q with
  | zero => exact ⟨.refl .., rfl, fun p => by rw [if_neg (by omega)]; rfl⟩
  | succ n inductionHypothesis =>
    obtain ⟨same, freeSize, bits⟩ :=
      @inductionHypothesis (q + 1) (pm.markused (q * pageSize))
    rw [List.range'_succ, List.foldl_cons]
    refine ⟨markused_same.cons same, freeSize, fun p => ?_⟩
    rw [bits, isFree_markused]
    split_ifs <;> first | rfl | omega

def usedPages (pm : PhysMem) (q n : Nat) : Nat := (List.range' q n).countP fun p => !pm.isFree p

theorem release_spec (pm : PhysMem) (nowrap : (q + 1) * pageSize < 2 ^ 64) :
    SameButBits pm (pm.release (q * pageSize)) q 1 ∧
      (pm.release (q * pageSize)).freeSize =
        (if pm.isFree q then pm.freeSize else u64 (pm.freeSize + pageSize)) ∧
      ∀ p, (pm.release (q * pageSize)).isFree p = if p = q then true else pm.isFree p := by
  have single : bitmapIsfree pm (q * pageSize) 1 = pm.isFree q := by
    rw [Bool.eq_iff_iff, bitmapIsfree_iff nowrap]
    exact ⟨fun all => all q le_rfl (Nat.lt_succ_self q),
      fun free p low high => (show q = p by omega) ▸ free⟩
  rw [PhysMem.release, single]
  generalize u64 (pm.freeSize + pageSize) = added
  cases pm.isFree q with
  | true => exact ⟨markfree_same, rfl, fun p => isFree_markfree⟩
  | false =>
    exact ⟨⟨rfl, rfl, rfl, (@markfree_same { pm with freeSize := _ } q).mem⟩, rfl,
      fun p => isFree_markfree⟩

theorem pmmFree_spec (pm : PhysMem) (nowrap : (q + n) * pageSize < 2 ^ 64) (small : pm.freeSize < 2 ^ 64) :
    SameButBits pm (pmmFree pm (q * pageSize) n) q n ∧
      (pmmFree pm (q * pageSize) n).freeSize =
        u64 (pm.freeSize + usedPages pm q n * pageSize) ∧
      ∀ p, (pmmFree pm (q * pageSize) n).isFree p =
        if q ≤ p ∧ p < q + n then true else pm.isFree p := by
  rw [pmmFree, pageStarts_page nowrap, List.foldl_map]
  induction n generalizing pm q with
  | zero =>
    refine ⟨.refl .., ?_, fun p => by rw [if_neg (by omega)]; rfl⟩
    rw [usedPages, List.range'_zero, List.countP_nil, Nat.zero_mul, Nat.add_zero, u64_of_lt small]
    rfl
  | succ n inductionHypothesis =>
    have first : (q + 1) * pageSize < 2 ^ 64 := by simp only [pageSize, mul_pageSize] at *; omega
    obtain ⟨firstSame, firstSize, firstBits⟩ := release_spec pm first
    have firstSmall : (pm.release (q * pageSize)).freeSize < 2 ^ 64 := by
      rw [firstSize]
      split
      · exact small
      · exact Nat.mod_lt _ (by omega)
    obtain ⟨same, freeSize, bits⟩ := @inductionHypothesis (q + 1)
      (pm.release (q * pageSize)) (by rw [Nat.add_right_comm, Nat.add_assoc]; exact nowrap) firstSmall
    have others : usedPages (pm.release (q * pageSize)) (q + 1) n = usedPages pm (q + 1) n := by
      refine List.countP_congr fun p member => ?_
      rw [List.mem_range'_1] at member
      rw [firstBits, if_neg (by omega)]
    rw [List.range'_succ, List.foldl_cons]
    refine ⟨firstSame.cons same, ?_, fun p => ?_⟩
    · rw [freeSize, others, firstSize, usedPages, usedPages, List.range'_succ, List.countP_cons]
      cases pm.isFree q <;> simp only [u64, pageSize, Bool.not_true, Bool.not_false, if_true,
        Bool.false_eq_true, if_false] <;> omega
    · rw [bits, firstBits]
      split_ifs <;> first | rfl | omega

/-! ## Allocation -/

structure Allocated (pm pm' : PhysMem) (q n : Nat) : Prop where
  wasFree : ∀ p, q ≤ p → p < q + n → pm.isFree p
  same : SameButBits pm pm' q n
  isFree : ∀ p, pm'.isFree p = if q ≤ p ∧ p < q + n then false else pm.isFree p
  freeSize : pm'.freeSize = sub64 pm.freeSize (n * pageSize)

theorem pmmAlloc_eq_some (nowrap : (q + n) * pageSize < 2 ^ 64)
    (allocated : pmmAlloc pm (q * pageSize) n = some pm') : Allocated pm pm' q n := by
  rw [pmmAlloc] at allocated
  split at allocated
  · cases allocated
  · next free =>
    obtain rfl := Option.some.inj allocated
    obtain ⟨same, freeSize, bits⟩ := bitmapMarkused_spec pm nowrap
    refine ⟨(bitmapIsfree_iff nowrap).mp (by simpa using free),
      ⟨same.bitmap, same.physLimit, same.totalSize, same.mem⟩, bits, ?_⟩
    simp only [freeSize]
    rw [u64_of_lt]
    simp only [pageSize, mul_pageSize] at *
    omega

theorem pmmAlloc_isSome_iff (nowrap : (q + n) * pageSize < 2 ^ 64) :
    (pmmAlloc pm (q * pageSize) n).isSome ↔ ∀ p, q ≤ p → p < q + n → pm.isFree p := by
  rw [← bitmapIsfree_iff nowrap, pmmAlloc]
  split <;> simp_all

def PhysMem.Window (pm : PhysMem) (q n : Nat) : Prop := ∀ p, q ≤ p → p < q + n → pm.isFree p

def PhysMem.InLimit (pm : PhysMem) (q : Nat) : Prop := q * pageSize < pm.physLimit

theorem candidates_zero : candidates pm 0 =
    (List.range ((pm.physLimit + (pageSize - 1)) / pageSize)).map (· * pageSize) := by
  simp [candidates]

theorem inLimit_iff : pm.InLimit q ↔ q < (pm.physLimit + (pageSize - 1)) / pageSize := by
  simp only [PhysMem.InLimit, pageSize]
  omega

/-- A search through numbers stops at the first one that succeeds. -/
theorem findSome?_range {α : Type*} {f : Nat → Option α} {count : Nat} {found : α}
    (bound : q < count) (success : f q = some found) (earlier : ∀ j < q, f j = none) :
    (List.range count).findSome? f = some found := by
  induction count with
  | zero => exact absurd bound (Nat.not_lt_zero q)
  | succ count inductionHypothesis =>
    rw [List.range_succ, List.findSome?_append]
    rcases Nat.lt_succ_iff_lt_or_eq.mp bound with below | rfl
    · rw [inductionHypothesis below, Option.some_or]
    · rw [List.findSome?_eq_none_iff.mpr fun j member => earlier j (List.mem_range.mp member),
        Option.none_or, List.findSome?_singleton, success]

structure PhysMem.FirstWindow (pm : PhysMem) (q n : Nat) : Prop where
  window : pm.Window q n
  first : ∀ j < q, ¬ pm.Window j n

theorem pmmGet_first (nowrap : (q + n) * pageSize < 2 ^ 64) (inLimit : pm.InLimit q)
    (first : pm.FirstWindow q n) :
    ∃ pm', pmmGet pm n 0 = some (q * pageSize, pm') ∧ Allocated pm pm' q n := by
  obtain ⟨pm', allocated⟩ := Option.isSome_iff_exists.mp
    ((pmmAlloc_isSome_iff nowrap).mpr first.window)
  refine ⟨pm', ?_, pmmAlloc_eq_some nowrap allocated⟩
  rw [pmmGet, candidates_zero, List.findSome?_map]
  refine findSome?_range (inLimit_iff.mp inLimit) ?_ fun j below => ?_
  · rw [Function.comp_apply, allocated, Option.map_some]
  · have jNowrap : (j + n) * pageSize < 2 ^ 64 := by
      simp only [pageSize, mul_pageSize] at *
      omega
    rw [Function.comp_apply, Option.map_eq_none_iff, ← Option.not_isSome_iff_eq_none,
      pmmAlloc_isSome_iff jNowrap]
    exact first.first j below

end HanOS.Core
