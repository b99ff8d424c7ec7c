import HanOS.Core.PmmGet
import HanOS.Lib.Kmalloc

/-!
# Requests near 2^64 (`lib/kmalloc.c`, `core/mm.c`)

`NUM_PAGES`, the bytes of a range and the end of a range are all computed modulo 2^64.  Where the end
of a range wraps the loops over it do nothing, so its pages are taken for free and none of them is
reserved; where `NUM_PAGES` wraps, a single page is.
-/

namespace HanOS.Lib

open HanOS.Foundations HanOS.Core

variable {pm pm' : PhysMem} {size q n : Nat}

def pagesFor (size : Nat) : Nat := 1 + (size + (pageSize - 1)) / pageSize

/-- A block that `kmalloc` gives lies on enough pages, which were free and which `pmm_get` has
    reserved. -/
def KmallocSound (pm : PhysMem) (size : Nat) : Prop :=
  ∀ addr pm', kmalloc pm size = some (addr, pm') →
    ∃ q reserved, addr = (q + 1) * pageSize ∧
      pmmGet pm (u64 (numPages size + 1)) 0 = some (q * pageSize, reserved) ∧
      (q + pagesFor size) * pageSize ≤ 2 ^ 64 ∧
      ∀ p, q ≤ p → p < q + pagesFor size → pm.isFree p ∧ ¬ reserved.isFree p

/-- If `NUM_PAGES` does not wrap, the scan finds a window in front of the first one whose end does, or
    that one begins behind the end of memory.  If it does, there is no page that the scan could take. -/
def KmallocFits (pm : PhysMem) (size : Nat) : Prop :=
  if size ≤ 2 ^ 64 - pageSize then
    pm.physLimit ≤ (2 ^ 52 - pagesFor size) * pageSize ∨
      ∃ j < 2 ^ 52 - pagesFor size, pm.Window j (pagesFor size)
  else ∀ q, pm.InLimit q → ¬ pm.isFree q ∧ q ≠ 2 ^ 52 - 1

/-! ## The number of pages -/

theorem pagesFor_eq (fits : size ≤ 2 ^ 64 - pageSize) :
    u64 (numPages size + 1) = pagesFor size ∧ pagesFor size ≤ 2 ^ 52 := by
  simp only [pagesFor, numPages, u64, pageSize] at *
  omega

/-- Behind that a block of any size gets one page. -/
theorem pagesFor_wraps (fits : size < 2 ^ 64) (wraps : 2 ^ 64 - pageSize < size) :
    u64 (numPages size + 1) = 1 ∧ pagesFor size = 2 ^ 52 + 1 := by
  simp only [pagesFor, numPages, u64, pageSize] at *
  omega

/-! ## Ranges whose end wraps -/

theorem pageStarts_wraps (inside : q * pageSize < 2 ^ 64) (few : n ≤ 2 ^ 52)
    (wraps : 2 ^ 64 ≤ (q + n) * pageSize) : pageStarts (q * pageSize) n = [] := by
  have none : (u64 (q * pageSize + u64 (n * pageSize)) - q * pageSize + (pageSize - 1)) / pageSize = 0 := by
    simp only [u64, pageSize, mul_pageSize] at *
    omega
  rw [pageStarts, none, List.range_zero, List.map_nil]

theorem bitmapIsfree_wraps (inside : q * pageSize < 2 ^ 64) (few : n ≤ 2 ^ 52)
    (wraps : 2 ^ 64 ≤ (q + n) * pageSize) : bitmapIsfree pm (q * pageSize) n = true := by
  rw [bitmapIsfree, pageStarts_wraps inside few wraps, List.all_nil]

/-- Nothing is reserved. -/
theorem pmmAlloc_wraps (inside : q * pageSize < 2 ^ 64) (few : n ≤ 2 ^ 52)
    (wraps : 2 ^ 64 ≤ (q + n) * pageSize) (allocated : pmmAlloc pm (q * pageSize) n = some pm')
    (p : Nat) : pm'.isFree p = pm.isFree p := by
  rw [Bool.eq_iff_iff, (pmmAlloc_pages allocated).2 p, Covers, pageStarts_wraps inside few wraps]
  simp

/-- What the scan gives: a window that is reserved, or one whose end wraps. -/
theorem pmmGet_cases {addr : Nat} (limit : pm.physLimit < 2 ^ 64) (few : n ≤ 2 ^ 52)
    (got : pmmGet pm n 0 = some (addr, pm')) :
    ∃ q, addr = q * pageSize ∧ pm.InLimit q ∧
      (∀ j < q, bitmapIsfree pm (j * pageSize) n = false) ∧
      ((q + n) * pageSize < 2 ^ 64 ∧ Allocated pm pm' q n ∨
        2 ^ 64 ≤ (q + n) * pageSize ∧ ∀ p, pm'.isFree p = pm.isFree p) := by
  obtain ⟨member, allocated, earlier⟩ := pmmGet_split got
  obtain ⟨q, rfl, _, below⟩ := (mem_candidates (b := 0) (Nat.zero_mul _).symm).mp member
  refine ⟨q, rfl, below, fun j before => ?_, ?_⟩
  · have smaller : j * pageSize < q * pageSize := Nat.mul_lt_mul_of_pos_right before (by decide)
    exact earlier _ ((mem_candidates (b := 0) (Nat.zero_mul _).symm).mpr
      ⟨j, rfl, Nat.zero_le _, smaller.trans below⟩) smaller
  · rcases Nat.lt_or_ge ((q + n) * pageSize) (2 ^ 64) with ends | wraps
    · exact .inl ⟨ends, pmmAlloc_eq_some ends allocated⟩
    · exact .inr ⟨wraps, pmmAlloc_wraps (below.trans limit) few wraps allocated⟩

/-- A candidate that is accepted keeps the scan from the panic. -/
theorem kmalloc_isSome (inLimit : pm.InLimit q)
    (accepted : bitmapIsfree pm (q * pageSize) (u64 (numPages size + 1)) = true) :
    ∃ addr pm', kmalloc pm size = some (addr, pm') := by
  cases got : pmmGet pm (u64 (numPages size + 1)) 0 with
  | none =>
    have rejected := pmmGet_eq_none_iff.mp got (q * pageSize)
      ((mem_candidates (b := 0) (Nat.zero_mul _).symm).mpr ⟨q, rfl, Nat.zero_le _, inLimit⟩)
    rw [accepted] at rejected
    cases rejected
  | some result => exact ⟨_, _, by rw [kmalloc, got]; rfl⟩

theorem pmmGet_of_kmalloc {addr : Nat} (allocated : kmalloc pm size = some (addr, pm')) :
    ∃ alloc reserved, pmmGet pm (u64 (numPages size + 1)) 0 = some (alloc, reserved) ∧
      addr = alloc + pageSize := by
  rw [kmalloc] at allocated
  obtain ⟨⟨alloc, reserved⟩, got, result⟩ := Option.bind_eq_some_iff.mp allocated
  exact ⟨alloc, reserved, got, (Prod.mk.inj (Option.some.inj result)).1.symm⟩

/-! ## When a block has its pages -/

/-- The pages of a request that does not wrap: the wrapped window comes after one that fits. -/
theorem kmallocSound_iff_small (limit : pm.physLimit < 2 ^ 64) (fits : size ≤ 2 ^ 64 - pageSize) :
    KmallocSound pm size ↔
      pm.physLimit ≤ (2 ^ 52 - pagesFor size) * pageSize ∨
        ∃ j < 2 ^ 52 - pagesFor size, pm.Window j (pagesFor size) := by
  obtain ⟨pages, few⟩ := pagesFor_eq fits
  have positive : 1 ≤ pagesFor size := Nat.le_add_right ..
  have wraps : ∀ q, 2 ^ 64 ≤ (q + pagesFor size) * pageSize ↔ 2 ^ 52 - pagesFor size ≤ q := by
    intro q
    have bytes : 2 ^ 52 * pageSize = 2 ^ 64 := by norm_num [pageSize]
    have positive : 0 < pageSize := by decide
    rw [← bytes, Nat.mul_le_mul_right_iff positive, Nat.sub_le_iff_le_add]
  constructor
  · intro sound
    by_contra neither
    rw [not_or, not_le] at neither
    obtain ⟨inLimit, noWindow⟩ := neither
    -- the first window whose end wraps is accepted whatever the bits say
    have accepted := @bitmapIsfree_wraps pm _ _ (inLimit.trans limit) few ((wraps _).mpr le_rfl)
    rw [← pages] at accepted
    obtain ⟨addr, pm', allocated⟩ := @kmalloc_isSome pm size _ inLimit (by rwa [← pages])
    obtain ⟨q, reserved, _, got, _, taken⟩ := sound addr pm' allocated
    rw [pages] at got
    obtain ⟨q', same, _, _, window⟩ := pmmGet_cases limit few got
    obtain rfl : q = q' := Nat.eq_of_mul_eq_mul_right (by decide) same
    have first := taken q le_rfl (by omega)
    rcases window with ⟨ends, spec⟩ | ⟨_, unchanged⟩
    · exact noWindow ⟨q, not_le.mp fun late => absurd ((wraps q).mpr late) (by omega), spec.wasFree⟩
    · rw [unchanged] at first
      exact first.2 first.1
  · intro guarded addr pm' allocated
    obtain ⟨alloc, reserved, got, rfl⟩ := pmmGet_of_kmalloc allocated
    rw [pages] at got
    obtain ⟨q, rfl, inLimit, earlier, window⟩ := pmmGet_cases limit few got
    refine ⟨q, reserved, (Nat.succ_mul ..).symm, pages ▸ got, ?_⟩
    rcases window with ⟨ends, spec⟩ | ⟨wrapped, _⟩
    · -- the window was free
      refine ⟨ends.le, fun p low high => ⟨spec.wasFree p low high, ?_⟩⟩
      rw [spec.isFree, if_pos ⟨low, high⟩]
      decide
    · -- the scan would have stopped in front of it
      exfalso
      have late := (wraps q).mp wrapped
      rcases guarded with short | ⟨j, before, free⟩
      · have below : q * pageSize < pm.physLimit := inLimit
        have above := Nat.mul_le_mul_right pageSize late
        omega
      · have ends : (j + pagesFor size) * pageSize < 2 ^ 64 :=
          not_le.mp fun wrapped => absurd ((wraps j).mp wrapped) (by omega)
        have accepted := (bitmapIsfree_iff ends).mpr free
        rw [earlier j (by omega)] at accepted
        cases accepted

/-- A request that wraps may only fail. -/
theorem kmallocSound_iff_large (limit : pm.physLimit < 2 ^ 64) (fits : size < 2 ^ 64)
    (large : 2 ^ 64 - pageSize < size) :
    KmallocSound pm size ↔ ∀ q, pm.InLimit q → ¬ pm.isFree q ∧ q ≠ 2 ^ 52 - 1 := by
  obtain ⟨pages, needed⟩ := pagesFor_wraps fits large
  constructor
  · intro sound q inLimit
    by_contra possible
    have accepted : bitmapIsfree pm (q * pageSize) 1 = true := by
      rcases Nat.lt_or_ge ((q + 1) * pageSize) (2 ^ 64) with ends | wraps
      · rw [bitmapIsfree_iff ends]
        intro p low high
        obtain rfl : p = q := by omega
        by_contra used
        refine possible ⟨used, fun last => ?_⟩
        simp only [last, pageSize] at ends
        omega
      · exact bitmapIsfree_wraps (inLimit.trans limit) (by omega) wraps
    obtain ⟨addr, pm', allocated⟩ := kmalloc_isSome inLimit (pages ▸ accepted)
    obtain ⟨q', _, _, _, inside, _⟩ := sound addr pm' allocated
    rw [needed] at inside
    simp only [pageSize, mul_pageSize] at inside
    omega
  · intro full addr pm' allocated
    exfalso
    obtain ⟨alloc, reserved, got, _⟩ := pmmGet_of_kmalloc allocated
    rw [pages] at got
    obtain ⟨q, _, inLimit, _, window⟩ := pmmGet_cases limit (by decide) got
    obtain ⟨used, notLast⟩ := full q inLimit
    rcases window with ⟨_, spec⟩ | ⟨wraps, _⟩
    · exact used (spec.wasFree q le_rfl (Nat.lt_succ_self q))
    · have below : q * pageSize < pm.physLimit := inLimit
      simp only [pageSize, mul_pageSize] at *
      omega

theorem kmallocSound_iff (limit : pm.physLimit < 2 ^ 64) (fits : size < 2 ^ 64) :
    KmallocSound pm size ↔ KmallocFits pm size := by
  rw [KmallocFits]
  split
  · next small => exact kmallocSound_iff_small limit small
  · next large => exact kmallocSound_iff_large limit fits (by omega)

/-- Eight pages of memory. -/
theorem kmallocSound_iff_oneEntry :
    ∃ start, pmmInit [⟨0x100000, 0x8000, .usable⟩] (fun _ => 0) = some start ∧
      (KmallocSound start 100 ↔ KmallocFits start 100) := by
  have succeeds : (pmmInit [⟨0x100000, 0x8000, .usable⟩] fun _ => 0).map
      (fun start => decide (start.physLimit < 2 ^ 64)) = some true := by decide +kernel
  obtain ⟨start, initialised, limit⟩ := Option.map_eq_some_iff.mp succeeds
  exact ⟨start, initialised, kmallocSound_iff (of_decide_eq_true limit) (by decide)⟩

/-- All of the address space is asked for, and a block of one page is given. -/
theorem kmalloc_all :
    ∃ start, pmmInit [⟨0x100000, 0x8000, .usable⟩] (fun _ => 0) = some start ∧
      (kmalloc start (2 ^ 64 - 1)).map Prod.fst = some 0x102000 ∧
      ¬ KmallocSound start (2 ^ 64 - 1) := by
  have run : (pmmInit [⟨0x100000, 0x8000, .usable⟩] fun _ => 0).map (fun start =>
      decide ((kmalloc start (2 ^ 64 - 1)).map Prod.fst = some 0x102000)) = some true := by
    decide +kernel
  obtain ⟨start, initialised, fact⟩ := Option.map_eq_some_iff.mp run
  have got := of_decide_eq_true fact
  refine ⟨start, initialised, got, fun sound => ?_⟩
  obtain ⟨⟨addr, pm'⟩, allocated, _⟩ := Option.map_eq_some_iff.mp got
  obtain ⟨q, _, _, _, inside, _⟩ := sound addr pm' allocated
  rw [pagesFor, pageSize] at inside
  omega

end HanOS.Lib
