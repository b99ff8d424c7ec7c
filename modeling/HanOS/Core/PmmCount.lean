import HanOS.Core.PmmInit
import HanOS.Foundations.Run
import Mathlib.Data.List.Basic

/-!
# The count of free pages

`pmm_alloc` takes a whole range from `free_size` at once, `pmm_free` adds page by page.  As
long as the ranges end in the pages of the bitmap, `free_size` is the size of the pages whose
bit is set (`free_size_counts_bits`).  Addresses need not be those of pages: all loops go
through the pages their addresses are in.
-/

namespace HanOS.Core

open HanOS.Foundations HanOS.Lib

variable {pm pm' start : PhysMem} {map : List MemmapEntry} {mem : Mem} {addr n p q count : Nat}

/-! ## Any address -/

/-- The pages a loop over `numpages` goes through, in the arithmetic of its bound. -/
def loopPages (numpages : Nat) : Nat := u64 (numpages * pageSize) / pageSize

theorem loopPages_mul : loopPages n * pageSize = u64 (n * pageSize) := by
  simp only [loopPages, u64, pageSize]
  omega

theorem pageStarts_any (fits : addr + u64 (n * pageSize) < 2 ^ 64) : pageStarts addr n =
    (List.range' (addr / pageSize) (loopPages n)).map (· * pageSize + addr % pageSize) := by
  have rounds : (u64 (n * pageSize) + (pageSize - 1)) / pageSize = loopPages n := by
    rw [← loopPages_mul]
    simp only [pageSize, mul_pageSize]
    omega
  rw [pageStarts, u64_of_lt fits, Nat.add_sub_cancel_left, rounds, List.range'_eq_map_range,
    List.map_map]
  refine List.map_congr_left fun k _ => ?_
  simp only [Function.comp_apply, pageSize, mul_pageSize]
  omega

section Offset

variable {offset : Nat} (inPage : offset < pageSize)
include inPage

theorem byteOf_offset : pm.byteOf (p * pageSize + offset) = pm.byteOf (p * pageSize) := by
  simp only [PhysMem.byteOf, pageSize, bmpPagesPerByte, mul_pageSize] at *
  omega

theorem bitOf_offset : PhysMem.bitOf (p * pageSize + offset) = PhysMem.bitOf (p * pageSize) := by
  simp only [PhysMem.bitOf, pageSize, bmpPagesPerByte, mul_pageSize] at *
  omega

theorem markused_offset : pm.markused (p * pageSize + offset) = pm.markused (p * pageSize) := by
  simp only [PhysMem.markused, byteOf_offset inPage, bitOf_offset inPage]

theorem markfree_offset : pm.markfree (p * pageSize + offset) = pm.markfree (p * pageSize) := by
  simp only [PhysMem.markfree, byteOf_offset inPage, bitOf_offset inPage]

end Offset

theorem page_nowrap (fits : addr + u64 (n * pageSize) < 2 ^ 64) :
    (addr / pageSize + loopPages n) * pageSize < 2 ^ 64 := by
  have whole := @loopPages_mul n
  simp only [pageSize, mul_pageSize, Nat.mul_add] at *
  omega

theorem pmmAlloc_page (fits : addr + u64 (n * pageSize) < 2 ^ 64) :
    pmmAlloc pm addr n = pmmAlloc pm (addr / pageSize * pageSize) (loopPages n) := by
  have inPage : addr % pageSize < pageSize := Nat.mod_lt _ (by decide)
  have isfree : bitmapIsfree pm addr n =
      bitmapIsfree pm (addr / pageSize * pageSize) (loopPages n) := by
    rw [bitmapIsfree, pageStarts_any fits, bitmapIsfree, pageStarts_page (page_nowrap fits),
      List.all_map, List.all_map]
    refine congrArg (List.all _) (funext fun p => ?_)
    simp only [Function.comp_apply, byteOf_offset inPage, bitOf_offset inPage]
  have marked : bitmapMarkused pm addr n =
      bitmapMarkused pm (addr / pageSize * pageSize) (loopPages n) := by
    rw [bitmapMarkused, pageStarts_any fits, bitmapMarkused, pageStarts_page (page_nowrap fits),
      List.foldl_map, List.foldl_map]
    exact List.foldl_ext _ _ _ fun pm p _ => markused_offset inPage
  have bytes : u64 (loopPages n * pageSize) = u64 (n * pageSize) := by
    rw [loopPages_mul, u64, u64, Nat.mod_mod]
  simp only [pmmAlloc, isfree, marked, bytes]

theorem release_offset {offset : Nat} (inPage : offset < pageSize)
    (fits : p * pageSize + offset + pageSize < 2 ^ 64) :
    pm.release (p * pageSize + offset) = pm.release (p * pageSize) := by
  have one : u64 (1 * pageSize) = pageSize := by decide
  have single : bitmapIsfree pm (p * pageSize + offset) 1 = bitmapIsfree pm (p * pageSize) 1 := by
    have page : (p * pageSize + offset) / pageSize = p := by
      simp only [pageSize, mul_pageSize] at *
      omega
    have rest : (p * pageSize + offset) % pageSize = offset := by
      simp only [pageSize, mul_pageSize] at *
      omega
    rw [bitmapIsfree, pageStarts_any (by rw [one]; exact fits), page, rest, bitmapIsfree,
      pageStarts_page (by rw [Nat.add_mul, Nat.one_mul]; omega), List.all_map, List.all_map,
      show loopPages 1 = 1 by decide]
    refine congrArg (List.all _) (funext fun p => ?_)
    simp only [Function.comp_apply, byteOf_offset inPage, bitOf_offset inPage]
  simp only [PhysMem.release, single, markfree_offset inPage]

theorem pmmFree_page (fits : addr + u64 (n * pageSize) < 2 ^ 64) :
    pmmFree pm addr n = pmmFree pm (addr / pageSize * pageSize) (loopPages n) := by
  rw [pmmFree, pageStarts_any fits, pmmFree, pageStarts_page (page_nowrap fits), List.foldl_map,
    List.foldl_map]
  refine List.foldl_ext _ _ _ fun pm p member => ?_
  refine release_offset (Nat.mod_lt _ (by decide)) ?_
  have inside := (List.mem_range'_1.mp member).2
  have whole := @loopPages_mul n
  simp only [pageSize, mul_pageSize] at *
  omega

/-! ## Counting bits -/

def freePages (pm : PhysMem) : Nat := (List.range (8 * pm.bmSize)).countP fun p => pm.isFree p

/-- Two counts differ in the range only that the predicates differ in. -/
theorem countP_range_replace {P P' : Nat → Bool} (inside : q + n ≤ count)
    (same : ∀ p, ¬ (q ≤ p ∧ p < q + n) → P' p = P p) :
    (List.range count).countP P' + (List.range' q n).countP P =
      (List.range count).countP P + (List.range' q n).countP P' := by
  have split : List.range count =
      List.range' 0 q ++ (List.range' q n ++ List.range' (q + n) (count - (q + n))) := by
    have back := @List.range'_append_1 0 q (count - q)
    have tail := @List.range'_append_1 q n (count - (q + n))
    rw [Nat.zero_add] at back
    rw [show n + (count - (q + n)) = count - q by omega] at tail
    rw [tail, back, List.range_eq_range', Nat.add_sub_cancel' (by omega)]
  have low : (List.range' 0 q).countP P' = (List.range' 0 q).countP P :=
    List.countP_congr fun p member => by
      rw [same p fun within => by have := (List.mem_range'_1.mp member).2; omega]
  have high : (List.range' (q + n) (count - (q + n))).countP P' =
      (List.range' (q + n) (count - (q + n))).countP P :=
    List.countP_congr fun p member => by
      rw [same p fun within => by have := (List.mem_range'_1.mp member).1; omega]
  simp only [split, List.countP_append, low, high]
  omega

theorem countP_range'_all {P : Nat → Bool} (all : ∀ p, q ≤ p → p < q + n → P p) :
    (List.range' q n).countP P = n := by
  rw [List.countP_eq_length.mpr, List.length_range']
  intro p member
  obtain ⟨low, high⟩ := List.mem_range'_1.mp member
  exact all p low high

/-! ## The count -/

/-- The bitmap has a bit for every page below the limit, and `free_size` counts those set. -/
structure Counted (pm : PhysMem) : Prop where
  covers : pm.physLimit = 8 * pm.bmSize * pageSize
  bound : pm.physLimit < 2 ^ 64
  freeSize : pm.freeSize = freePages pm * pageSize

theorem freePages_le : freePages pm ≤ 8 * pm.bmSize := by
  have le := List.countP_le_length (p := fun p => pm.isFree p) (l := List.range (8 * pm.bmSize))
  rwa [List.length_range] at le

theorem freePages_take (size : pm'.bmSize = pm.bmSize) (inside : q + n ≤ 8 * pm.bmSize)
    (wasFree : ∀ p, q ≤ p → p < q + n → pm.isFree p)
    (bits : ∀ p, pm'.isFree p = if q ≤ p ∧ p < q + n then false else pm.isFree p) :
    freePages pm = freePages pm' + n := by
  have replace_ := @countP_range_replace n q (8 * pm.bmSize) (fun p => pm.isFree p)
    (fun p => pm'.isFree p) inside fun p outside => by rw [bits, if_neg outside]
  have none_ : (List.range' q n).countP (fun p => pm'.isFree p) = 0 := by
    rw [List.countP_eq_zero]
    intro p member
    obtain ⟨low, high⟩ := List.mem_range'_1.mp member
    rw [bits, if_pos ⟨low, high⟩]
    exact Bool.false_ne_true
  rw [none_, countP_range'_all wasFree] at replace_
  rw [freePages, freePages, size]
  omega

theorem freePages_give (size : pm'.bmSize = pm.bmSize) (inside : q + n ≤ 8 * pm.bmSize)
    (bits : ∀ p, pm'.isFree p = if q ≤ p ∧ p < q + n then true else pm.isFree p) :
    freePages pm' = freePages pm + usedPages pm q n := by
  have replace_ := @countP_range_replace n q (8 * pm.bmSize) (fun p => pm.isFree p)
    (fun p => pm'.isFree p) inside fun p outside => by rw [bits, if_neg outside]
  have split := List.length_eq_countP_add_countP (fun p => pm.isFree p) (l := List.range' q n)
  have all : (List.range' q n).countP (fun p => pm'.isFree p) = n :=
    countP_range'_all fun p low high => by rw [bits, if_pos ⟨low, high⟩]
  rw [List.length_range'] at split
  have used : (List.range' q n).countP (fun p => ¬ pm.isFree p) = usedPages pm q n :=
    List.countP_congr fun p _ => by simp
  rw [freePages, freePages, size]
  omega

theorem Counted.alloc (counted : Counted pm) (allocated : Allocated pm pm' q n)
    (inside : q + n ≤ 8 * pm.bmSize) : Counted pm' := by
  have limit := allocated.same.physLimit
  have size := bmSize_congr limit
  have taken := freePages_take size inside allocated.wasFree allocated.isFree
  refine ⟨by rw [limit, size]; exact counted.covers, limit ▸ counted.bound, ?_⟩
  rw [allocated.freeSize, counted.freeSize, taken, Nat.add_mul, sub64_of_le (Nat.le_add_left ..),
    Nat.add_sub_cancel]

theorem Counted.free (counted : Counted pm) (inside : q + n ≤ 8 * pm.bmSize) :
    Counted (pmmFree pm (q * pageSize) n) := by
  have bound := counted.bound
  have covers := counted.covers
  have few := @freePages_le pm
  have nowrap : (q + n) * pageSize < 2 ^ 64 :=
    (Nat.mul_le_mul_right _ inside).trans_lt (covers ▸ bound)
  have small : pm.freeSize < 2 ^ 64 := by
    rw [counted.freeSize]
    exact (Nat.mul_le_mul_right _ few).trans_lt (covers ▸ bound)
  obtain ⟨same, freeSize, bits⟩ := pmmFree_spec pm nowrap small
  have size := bmSize_congr same.physLimit
  have added := freePages_give size inside bits
  have few' := @freePages_le (pmmFree pm (q * pageSize) n)
  refine ⟨by rw [same.physLimit, size]; exact covers, same.physLimit ▸ bound, ?_⟩
  rw [freeSize, counted.freeSize, added, ← Nat.add_mul, u64_of_lt]
  rw [size, added] at few'
  exact (Nat.mul_le_mul_right _ few').trans_lt (covers ▸ bound)

/-! ## The calls -/

def HasBits (pm : PhysMem) (addr n : Nat) : Prop :=
  addr + u64 (n * pageSize) < 2 ^ 64 ∧ addr / pageSize + loopPages n ≤ 8 * pm.bmSize

theorem Counted.pmmAlloc (counted : Counted pm) (inside : HasBits pm addr n)
    (allocated : pmmAlloc pm addr n = some pm') : Counted pm' := by
  rw [pmmAlloc_page inside.1] at allocated
  exact counted.alloc (pmmAlloc_eq_some (page_nowrap inside.1) allocated) inside.2

theorem Counted.pmmFree (counted : Counted pm) (inside : HasBits pm addr n) :
    Counted (pmmFree pm addr n) := by
  rw [pmmFree_page inside.1]
  exact counted.free inside.2

def BelowLimit (pm : PhysMem) (addr numpages : Nat) : Prop :=
  addr + u64 (numpages * pageSize) ≤ pm.physLimit

theorem Counted.hasBits (counted : Counted pm) (below : BelowLimit pm addr n) :
    HasBits pm addr n := by
  have covers := counted.covers
  have bound := counted.bound
  have whole := @loopPages_mul n
  simp only [HasBits, BelowLimit, pageSize, mul_pageSize] at *
  omega

inductive PmmCall
  | alloc (addr numpages : Nat)
  | get (numpages baseaddr : Nat)
  | free (addr numpages : Nat)

def PhysMem.step (pm : PhysMem) : PmmCall → Option PhysMem
  | .alloc addr numpages => some ((pmmAlloc pm addr numpages).getD pm)
  | .get numpages baseaddr => (pmmGet pm numpages baseaddr).map Prod.snd
  | .free addr numpages => some (pmmFree pm addr numpages)

/-- The ranges lie below the end of memory; that of `pmm_get` is the one it finds. -/
def PhysMem.Allowed (pm : PhysMem) : PmmCall → Prop
  | .alloc addr numpages => BelowLimit pm addr numpages
  | .get numpages baseaddr =>
      ∀ addr pm', pmmGet pm numpages baseaddr = some (addr, pm') → BelowLimit pm addr numpages
  | .free addr numpages => BelowLimit pm addr numpages

theorem pmmAlloc_of_pmmGet (got : pmmGet pm n q = some (addr, pm')) :
    pmmAlloc pm addr n = some pm' := by
  obtain ⟨i, _, found⟩ := List.exists_of_findSome?_eq_some got
  obtain ⟨_, allocated, same⟩ := Option.map_eq_some_iff.mp found
  obtain ⟨rfl, rfl⟩ := Prod.mk.inj same
  exact allocated

theorem Counted.step {call : PmmCall} (counted : Counted pm) (allowed : pm.Allowed call)
    (stepped : pm.step call = some pm') : Counted pm' := by
  cases call with
  | alloc addr numpages =>
    obtain rfl := Option.some.inj stepped
    cases allocated : HanOS.Core.pmmAlloc pm addr numpages with
    | none => exact counted
    | some taken => exact counted.pmmAlloc (counted.hasBits allowed) allocated
  | get numpages baseaddr =>
    obtain ⟨⟨addr, taken⟩, got, rfl⟩ := Option.map_eq_some_iff.mp stepped
    exact counted.pmmAlloc (counted.hasBits (allowed addr taken got)) (pmmAlloc_of_pmmGet got)
  | free addr numpages =>
    obtain rfl := Option.some.inj stepped
    exact counted.pmmFree (counted.hasBits allowed)

/-! ## Initialisation -/

/-- The ranges of `pmm_init` are rounded up to pages, but no page starts behind its entry. -/
theorem hasBits_of_length {length : Nat} (covers : pm.physLimit = 8 * pm.bmSize * pageSize)
    (bound : pm.physLimit < 2 ^ 64) (inside : addr + length ≤ pm.physLimit) :
    HasBits pm addr (numPages length) := by
  have whole := @loopPages_mul (numPages length)
  simp only [HasBits, numPages, u64, pageSize, mul_pageSize] at *
  omega

theorem pmmFree_physLimit : (pmmFree pm addr n).physLimit = pm.physLimit := by
  refine List.foldlRecOn (motive := fun pm' => PhysMem.physLimit pm' = pm.physLimit) _ _ rfl
    fun pm' same i _ => ?_
  simp only [PhysMem.release, PhysMem.markfree]
  split
  · exact same
  · exact same

theorem populate_counted (inside : ∀ entry ∈ map, entry.base + entry.length ≤ pm.physLimit)
    (counted : Counted pm) :
    let populated := map.foldl (fun pm entry =>
      if entry.aboveLow ∧ entry.type = .usable then pmmFree pm entry.base (numPages entry.length)
      else pm) pm
    Counted populated ∧ populated.physLimit = pm.physLimit := by
  induction map generalizing pm with
  | nil => exact ⟨counted, rfl⟩
  | cons entry map inductionHypothesis =>
    rw [List.foldl_cons]
    split
    · have hasBits := hasBits_of_length counted.covers counted.bound (inside entry (by simp))
      have limit := @pmmFree_physLimit pm entry.base (numPages entry.length)
      rw [← limit]
      refine inductionHypothesis (fun other member => ?_) (counted.pmmFree hasBits)
      rw [limit]
      exact inside other (List.mem_cons_of_mem _ member)
    · exact inductionHypothesis (fun other member => inside other (List.mem_cons_of_mem _ member))
        counted

theorem pmmInit_counted (nowrap : ∀ entry ∈ map, entry.base + entry.length < 2 ^ 64)
    (covers : pageSize * bmpPagesPerByte ∣ physLimitOf map)
    (initialised : pmmInit map mem = some pm) : Counted pm := by
  obtain ⟨place, member, _, _, large, found⟩ := pmmInit_place initialised
  have within : ∀ entry ∈ map, entry.base + entry.length ≤ physLimitOf map := fun entry member => by
    have top := top_le_physLimitOf member
    rwa [MemmapEntry.top, u64_of_lt (nowrap entry member)] at top
  simp only [pmmInit, found, Option.some.injEq] at initialised
  generalize zero : PhysMem.mk (physLimitOf map) (totalSizeOf map) 0 place.base
    (fill mem place.base (physLimitOf map / (pageSize * bmpPagesPerByte)) 0) = cleared at initialised
  have limit : cleared.physLimit = physLimitOf map := by rw [← zero]
  have counted : Counted cleared := by
    refine ⟨?_, limit ▸ physLimitOf_lt, ?_⟩
    · obtain ⟨count, whole⟩ := covers
      simp only [PhysMem.bmSize, limit, whole, pageSize, bmpPagesPerByte, mul_pageSize]
      omega
    · -- `memset` leaves no bit set
      have none_ : freePages cleared = 0 := by
        rw [freePages, List.countP_eq_zero]
        intro p member
        have below := List.mem_range.mp member
        subst zero
        rw [isFree_of_zero]
        · exact Bool.false_ne_true
        · exact fill_inside (Nat.le_add_right ..) (by
            simp only [PhysMem.bmSize, PhysMem.bitByte] at *
            omega)
      rw [none_, ← zero]
      exact (Nat.zero_mul _).symm
  -- the usable pages are given back, and the bitmap takes its own
  obtain ⟨populated, readyLimit⟩ :=
    populate_counted (fun entry member => limit ▸ within entry member) counted
  generalize map.foldl _ cleared = ready at initialised populated readyLimit
  subst initialised
  have hasBits :
      HasBits ready place.base (numPages (physLimitOf map / (pageSize * bmpPagesPerByte))) := by
    refine hasBits_of_length populated.covers populated.bound ?_
    have inside := within place member
    rw [readyLimit, limit]
    omega
  cases allocated : HanOS.Core.pmmAlloc ready place.base
      (numPages (physLimitOf map / (pageSize * bmpPagesPerByte))) with
  | none => exact populated
  | some taken => exact populated.pmmAlloc hasBits allocated

/-- `free_size` is the size of the pages whose bit is set, after any calls on ranges below the end
    of memory. -/
theorem free_size_counts_bits (nowrap : ∀ entry ∈ map, entry.base + entry.length < 2 ^ 64)
    (covers : pageSize * bmpPagesPerByte ∣ physLimitOf map)
    (initialised : pmmInit map mem = some start)
    (run : Run PhysMem.step PhysMem.Allowed start pm) :
    pm.freeSize = freePages pm * pageSize :=
  Counted.freeSize (run.invariant Counted (pmmInit_counted nowrap covers initialised)
    fun _ _ _ counted allowed stepped => counted.step allowed stepped)

/-- Pages that are free already, given back with addresses in their middle. -/
theorem free_size_counts_bits_oneEntry :
    ∃ start pm, pmmInit [⟨0x100000, 0x8000, .usable⟩] (fun _ => 0) = some start ∧
      [PmmCall.free 0x103800 2, .free 0x104000 4].foldlM PhysMem.step start = some pm ∧
      pm.freeSize = freePages pm * pageSize := by
  have limit : (pmmInit [⟨0x100000, 0x8000, .usable⟩] fun _ => 0).map PhysMem.physLimit =
      some 0x108000 := by decide +kernel
  obtain ⟨start, initialised, limit⟩ := Option.map_eq_some_iff.mp limit
  have first : PhysMem.Allowed start (.free 0x103800 2) := by
    rw [PhysMem.Allowed, BelowLimit, limit]
    decide
  have second : PhysMem.Allowed (pmmFree start 0x103800 2) (.free 0x104000 4) := by
    rw [PhysMem.Allowed, BelowLimit, pmmFree_physLimit, limit]
    decide
  exact ⟨start, _, initialised, rfl, free_size_counts_bits (by decide) (by decide) initialised
    (.tail (.tail .refl first rfl) second rfl)⟩

end HanOS.Core
