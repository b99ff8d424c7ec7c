import HanOS.Core.PmmAccess
import HanOS.Core.PmmCount

/-!
# The windows `pmm_get` finds

The scan bounds the start of a window only, not its end.  Where a free window below
`phys_limit` exists the first one is taken; where none does the scan goes on into the
windows that reach behind the limit, whose last bits are whatever lies behind the bitmap
(`pmmGet_sound_iff`).  In no run of the memory manager is a page with a part of the bitmap
found free, as long as nobody gives one back (`pmmInit_storage`).
-/

namespace HanOS.Core

open HanOS.Foundations HanOS.Lib

variable {pm pm' start : PhysMem} {map : List MemmapEntry} {mem : Mem}
variable {addr n p q i base : Nat}

/-! ## The pages of a range -/

def Covers (addr numpages page : Nat) : Prop := ∃ i ∈ pageStarts addr numpages, i / pageSize = page

theorem isFree_markused_any :
    (pm.markused i).isFree p ↔ pm.isFree p ∧ i / pageSize ≠ p := by
  have page := @markused_offset pm (i / pageSize) _ (Nat.mod_lt i (show 0 < pageSize by decide))
  rw [Nat.div_add_mod'] at page
  rw [page, isFree_markused]
  split
  · next same => simp [same]
  · next other => simp [Ne.symm other]

theorem isFree_markfree_any :
    (pm.markfree i).isFree p ↔ pm.isFree p ∨ i / pageSize = p := by
  have page := @markfree_offset pm (i / pageSize) _ (Nat.mod_lt i (show 0 < pageSize by decide))
  rw [Nat.div_add_mod'] at page
  rw [page, isFree_markfree]
  split
  · next same => simp [same]
  · next other => simp [Ne.symm other]

theorem isFree_release : (pm.release i).isFree p ↔ pm.isFree p ∨ i / pageSize = p := by
  rw [PhysMem.release]
  generalize u64 (pm.freeSize + pageSize) = added
  cases bitmapIsfree pm i 1 with
  | true => exact isFree_markfree_any
  | false => exact @isFree_markfree_any { pm with freeSize := added } p i

theorem bitmapMarkused_pages :
    (bitmapMarkused pm addr n).isFree p ↔ pm.isFree p ∧ ¬ Covers addr n p := by
  rw [bitmapMarkused, Covers]
  generalize pageStarts addr n = starts
  induction starts generalizing pm with
  | nil => simp
  | cons i starts inductionHypothesis =>
    rw [List.foldl_cons, inductionHypothesis, isFree_markused_any]
    simp only [List.mem_cons, exists_eq_or_imp, not_or, and_assoc, ne_eq]

/-- The pages a range is taken from were free, and are the only ones that change. -/
theorem pmmAlloc_pages (allocated : pmmAlloc pm addr n = some pm') :
    (∀ p, Covers addr n p → pm.isFree p) ∧ ∀ p, pm'.isFree p ↔ pm.isFree p ∧ ¬ Covers addr n p := by
  rw [pmmAlloc] at allocated
  split at allocated
  · cases allocated
  · next free =>
    obtain rfl := Option.some.inj allocated
    refine ⟨?_, fun p => bitmapMarkused_pages⟩
    rintro p ⟨i, member, rfl⟩
    rw [Bool.not_eq_true, Bool.not_eq_false'] at free
    rw [← isFree_page]
    exact List.all_eq_true.mp free i member

theorem pmmFree_pages : (pmmFree pm addr n).isFree p ↔ pm.isFree p ∨ Covers addr n p := by
  rw [pmmFree, Covers]
  generalize pageStarts addr n = starts
  induction starts generalizing pm with
  | nil => simp
  | cons i starts inductionHypothesis =>
    rw [List.foldl_cons, inductionHypothesis, isFree_release]
    simp only [List.mem_cons, exists_eq_or_imp, or_assoc]

/-! ## The storage of the bitmap -/

def PhysMem.HoldsBitmap (pm : PhysMem) (page : Nat) : Prop :=
  ∃ x, pm.InBitmap x ∧ x / pageSize = page

theorem PmmReady.storage_iff (ready : PmmReady pm) : pm.Storage p ↔ pm.HoldsBitmap p := by
  constructor
  · rintro ⟨low, high⟩
    refine ⟨p * pageSize, ⟨low, ?_⟩, Nat.mul_div_cancel _ (by decide)⟩
    obtain ⟨first, bitmap⟩ := ready.aligned
    rw [bitmap] at low high ⊢
    simp only [numPages, u64, pageSize, mul_pageSize] at *
    omega
  · rintro ⟨x, inside, rfl⟩
    exact ready.storage inside

structure StorageKept (start pm : PhysMem) : Prop where
  bitmap : pm.bitmap = start.bitmap
  used : ∀ p, start.HoldsBitmap p → ¬ pm.isFree p

/-- No page with a part of the bitmap is given back. -/
def PhysMem.KeepsStorage (start : PhysMem) : PmmCall → Prop
  | .alloc _ _ | .get _ _ => True
  | .free addr numpages => ∀ p, Covers addr numpages p → ¬ start.HoldsBitmap p

theorem StorageKept.alloc (kept : StorageKept start pm) (allocated : pmmAlloc pm addr n = some pm') :
    StorageKept start pm' where
  bitmap := (pmmAlloc_bitmap allocated).trans kept.bitmap
  used p storage free := kept.used p storage (((pmmAlloc_pages allocated).2 p).mp free).1

theorem pmmFree_bitmap : (pmmFree pm addr n).bitmap = pm.bitmap := by
  refine List.foldlRecOn (motive := fun pm' => PhysMem.bitmap pm' = pm.bitmap) _ _ rfl
    fun pm' same i _ => ?_
  simp only [PhysMem.release, PhysMem.markfree]
  split
  · exact same
  · exact same

theorem StorageKept.step {call : PmmCall} (kept : StorageKept start pm)
    (allowed : start.KeepsStorage call) (stepped : pm.step call = some pm') :
    StorageKept start pm' := by
  cases call with
  | alloc addr numpages =>
    obtain rfl := Option.some.inj stepped
    cases allocated : pmmAlloc pm addr numpages with
    | none => exact kept
    | some taken => exact kept.alloc allocated
  | get numpages baseaddr =>
    obtain ⟨⟨addr, taken⟩, got, rfl⟩ := Option.map_eq_some_iff.mp stepped
    exact kept.alloc (pmmAlloc_of_pmmGet got)
  | free addr numpages =>
    obtain rfl := Option.some.inj stepped
    refine ⟨pmmFree_bitmap.trans kept.bitmap, fun p storage free => ?_⟩
    rcases pmmFree_pages.mp free with before | given
    · exact kept.used p storage before
    · exact allowed p given storage

theorem pmmInit_isSome (place : ∃ entry ∈ map, entry.aboveLow ∧ entry.type = .usable ∧
      physLimitOf map / (pageSize * bmpPagesPerByte) ≤ entry.length) :
    ∃ start, pmmInit map mem = some start := by
  obtain ⟨entry, member, above, type, large⟩ := place
  have suits : (map.find? fun entry => entry.aboveLow ∧
      physLimitOf map / (pageSize * bmpPagesPerByte) ≤ entry.length ∧ entry.type = .usable).isSome :=
    List.find?_isSome.mpr ⟨entry, member, decide_eq_true ⟨above, large, type⟩⟩
  obtain ⟨chosen, found⟩ := Option.isSome_iff_exists.mp suits
  rw [pmmInit]
  simp only [found]
  exact ⟨_, rfl⟩

/-- The usable pages that do not hold the bitmap are free, and those that do are never handed
    out. -/
theorem pmmInit_storage (ok : MapOk map)
    (place : ∃ entry ∈ map, entry.aboveLow ∧ entry.type = .usable ∧
      physLimitOf map / (pageSize * bmpPagesPerByte) ≤ entry.length)
    (whole : pageSize * bmpPagesPerByte ∣ physLimitOf map) :
    ∃ start, pmmInit map mem = some start ∧
      (∀ p, p * pageSize < start.physLimit →
        (start.isFree p ↔ Usable map p ∧ ¬ start.HoldsBitmap p)) ∧
      ∀ pm, Run PhysMem.step (fun _ call => start.KeepsStorage call) start pm →
        ∀ numpages baseaddr addr pm', pmmGet pm numpages baseaddr = some (addr, pm') →
          ∀ p, Covers addr numpages p → ¬ start.HoldsBitmap p := by
  obtain ⟨start, initialised⟩ := @pmmInit_isSome map mem place
  obtain ⟨limit, ready, usable, free⟩ := pmmInit_spec ok initialised
  have tracked : ∀ p, p * pageSize < start.physLimit → start.Tracked p := by
    intro p below
    obtain ⟨bytes, size⟩ := limit ▸ whole
    rw [PhysMem.Tracked, PhysMem.bmSize, size]
    simp only [size, pageSize, bmpPagesPerByte, mul_pageSize] at *
    omega
  have used : ∀ p, start.HoldsBitmap p → ¬ start.isFree p := by
    intro p holds isFree
    obtain ⟨entry, member, above, type, low, high⟩ := usable p (ready.storage_iff.mpr holds)
    have top := top_le_physLimitOf member
    rw [MemmapEntry.top, u64_of_lt (ok.nowrap entry member), ← limit] at top
    have bit := (free p (tracked p (high.trans_le top))).mp isFree
    exact bit.2 (ready.storage_iff.mpr holds)
  refine ⟨start, initialised, fun p below => ?_, fun pm run numpages baseaddr addr pm' got p => ?_⟩
  · rw [free p (tracked p below), ready.storage_iff]
  · have kept : StorageKept start pm := run.invariant (StorageKept start) ⟨rfl, used⟩
      fun before call after kept allowed stepped => kept.step allowed stepped
    exact fun covered holds =>
      kept.used p holds ((pmmAlloc_pages (pmmAlloc_of_pmmGet got)).1 p covered)

theorem pmmInit_storage_twoEntries :
    ∃ start, pmmInit [⟨0, 0x9f000, .usable⟩, ⟨0x100000, 0x8000, .usable⟩] (fun _ => 0) = some start ∧
      (∀ p, p * pageSize < start.physLimit → (start.isFree p ↔
        Usable [⟨0, 0x9f000, .usable⟩, ⟨0x100000, 0x8000, .usable⟩] p ∧ ¬ start.HoldsBitmap p)) ∧
      ∀ pm, Run PhysMem.step (fun _ call => start.KeepsStorage call) start pm →
        ∀ numpages baseaddr addr pm', pmmGet pm numpages baseaddr = some (addr, pm') →
          ∀ p, Covers addr numpages p → ¬ start.HoldsBitmap p :=
  pmmInit_storage ⟨by decide, by decide⟩ (by decide) (by decide)

/-! ## The search -/

/-- The window at the page `q` is free, and it ends below the end of memory. -/
structure PhysMem.Fits (pm : PhysMem) (numpages baseaddr q : Nat) : Prop where
  base : baseaddr ≤ q * pageSize
  below : (q + numpages) * pageSize ≤ pm.physLimit
  free : pm.Window q numpages

/-- What `pmm_get` is to do: take the lowest such window, or panic when there is none. -/
def GetSound (pm : PhysMem) (numpages baseaddr : Nat) : Prop :=
  match pmmGet pm numpages baseaddr with
  | some (addr, pm') => ∃ q, addr = q * pageSize ∧ pm.Fits numpages baseaddr q ∧
      (∀ j, pm.Fits numpages baseaddr j → q ≤ j) ∧ SameButBits pm pm' q numpages ∧
      ∀ p, pm'.isFree p = if q ≤ p ∧ p < q + numpages then false else pm.isFree p
  | none => ¬ ∃ q, pm.Fits numpages baseaddr q

theorem mem_candidates {b : Nat} (pages : base = b * pageSize) :
    addr ∈ candidates pm base ↔ ∃ q, addr = q * pageSize ∧ base ≤ addr ∧ addr < pm.physLimit := by
  simp only [candidates, List.mem_map, List.mem_range, pages]
  constructor
  · rintro ⟨k, inRange, rfl⟩
    refine ⟨b + k, (Nat.add_mul ..).symm, Nat.le_add_right .., ?_⟩
    simp only [pageSize, mul_pageSize] at *
    omega
  · rintro ⟨q, rfl, low, high⟩
    refine ⟨q - b, ?_, ?_⟩ <;> simp only [pageSize, mul_pageSize] at * <;> omega

theorem pmmGet_split (got : pmmGet pm n base = some (addr, pm')) :
    addr ∈ candidates pm base ∧ pmmAlloc pm addr n = some pm' ∧
      ∀ j ∈ candidates pm base, j < addr → bitmapIsfree pm j n = false := by
  obtain ⟨before, i, after, split, found, rejected⟩ := List.findSome?_eq_some_iff.mp got
  obtain ⟨_, allocated, same⟩ := Option.map_eq_some_iff.mp found
  obtain ⟨rfl, rfl⟩ := Prod.mk.inj same
  have ascending := @candidates_ascending pm base
  rw [split] at ascending ⊢
  refine ⟨by simp, allocated, fun j member earlier => ?_⟩
  rcases List.mem_append.mp member with first | later
  · have none_ := rejected j first
    rw [Option.map_eq_none_iff, pmmAlloc] at none_
    split at none_
    · next used => simpa using used
    · cases none_
  · have rest := (List.pairwise_append.mp ascending).2.1
    rcases List.mem_cons.mp later with rfl | behind
    · exact absurd earlier (lt_irrefl _)
    · exact absurd ((List.pairwise_cons.mp rest).1 j behind) (by omega)

theorem pmmGet_eq_none_iff :
    pmmGet pm n base = none ↔ ∀ addr ∈ candidates pm base, bitmapIsfree pm addr n = false := by
  rw [pmmGet, List.findSome?_eq_none_iff]
  refine forall₂_congr fun addr _ => ?_
  rw [Option.map_eq_none_iff, pmmAlloc]
  split <;> simp_all

/-- `pmm_get` does its task if and only if a free window below the end of memory exists, or no
    window that starts there is accepted at all. -/
theorem pmmGet_sound_iff (aligned : pageSize ∣ base) (positive : 1 ≤ n)
    (limit : pm.physLimit < 2 ^ 64) :
    GetSound pm n base ↔ (∃ q, pm.Fits n base q) ∨
      ∀ addr ∈ candidates pm base, bitmapIsfree pm addr n = false := by
  obtain ⟨b, pages⟩ := aligned
  rw [mul_comm] at pages
  have nowrap : ∀ q, (q + n) * pageSize ≤ pm.physLimit → (q + n) * pageSize < 2 ^ 64 :=
    fun q below => below.trans_lt limit
  -- a window that fits is accepted
  have accepted : ∀ q, pm.Fits n base q →
      q * pageSize ∈ candidates pm base ∧ bitmapIsfree pm (q * pageSize) n := by
    rintro q ⟨low, below, free⟩
    refine ⟨(mem_candidates pages).mpr ⟨q, rfl, low, ?_⟩, (bitmapIsfree_iff (nowrap q below)).mpr free⟩
    simp only [pageSize, mul_pageSize] at *
    omega
  rw [GetSound, ← pmmGet_eq_none_iff]
  cases got : pmmGet pm n base with
  | none =>
    refine iff_of_true ?_ (.inr rfl)
    rintro ⟨q, fits⟩
    obtain ⟨member, free⟩ := accepted q fits
    rw [pmmGet_eq_none_iff.mp got _ member] at free
    cases free
  | some result =>
    obtain ⟨addr, pm'⟩ := result
    obtain ⟨member, allocated, earlier⟩ := pmmGet_split got
    obtain ⟨q, rfl, low, _⟩ := (mem_candidates pages).mp member
    refine ⟨fun found => ?_, fun possible => ?_⟩
    · obtain ⟨q, _, fits, _⟩ := found
      exact .inl ⟨q, fits⟩
    obtain ⟨j, fits⟩ := possible.resolve_right (by simp)
    -- the window found starts no later, so it ends below the limit as well
    have lowest : ∀ j, pm.Fits n base j → q ≤ j := by
      intro j fits
      obtain ⟨member, free⟩ := accepted j fits
      by_contra behind
      have rejected := earlier _ member (Nat.mul_lt_mul_of_pos_right (not_le.mp behind) (by decide))
      rw [rejected] at free
      cases free
    have below : (q + n) * pageSize ≤ pm.physLimit :=
      (Nat.mul_le_mul_right _ (Nat.add_le_add_right (lowest j fits) n)).trans fits.below
    have taken := pmmAlloc_eq_some (nowrap q below) allocated
    exact ⟨q, rfl, ⟨low, below, taken.wasFree⟩, lowest, taken.same, taken.isFree⟩

/-- Seven pages are free, eight asked for: the bit behind the bitmap makes up the eighth. -/
theorem window_behind_limit :
    ∃ start, pmmInit [⟨0x100000, 0x8000, .usable⟩] (fun _ => 1) = some start ∧
      (pmmGet start 8 0).map Prod.fst = some 0x101000 ∧ start.physLimit = 0x108000 ∧
      ¬ GetSound start 8 0 := by
  have run : (pmmInit [⟨0x100000, 0x8000, .usable⟩] fun _ => 1).map (fun start =>
      decide ((pmmGet start 8 0).map Prod.fst = some 0x101000 ∧ start.physLimit = 0x108000)) =
      some true := by decide +kernel
  obtain ⟨start, initialised, facts⟩ := Option.map_eq_some_iff.mp run
  obtain ⟨got, limit⟩ := of_decide_eq_true facts
  refine ⟨start, initialised, got, limit, fun sound => ?_⟩
  obtain ⟨⟨addr, pm'⟩, got, rfl⟩ := Option.map_eq_some_iff.mp got
  rw [GetSound, got] at sound
  obtain ⟨q, place, fits, _⟩ := sound
  have below := fits.below
  simp only [pageSize] at *
  omega

theorem pmmGet_sound_iff_oneEntry :
    ∃ start, pmmInit [⟨0x100000, 0x8000, .usable⟩] (fun _ => 1) = some start ∧
      (GetSound start 3 0 ↔ (∃ q, start.Fits 3 0 q) ∨
        ∀ addr ∈ candidates start 0, bitmapIsfree start addr 3 = false) := by
  have succeeds : (pmmInit [⟨0x100000, 0x8000, .usable⟩] fun _ => 1).map
      (fun start => decide (start.physLimit < 2 ^ 64)) = some true := by decide +kernel
  obtain ⟨start, initialised, limit⟩ := Option.map_eq_some_iff.mp succeeds
  exact ⟨start, initialised, pmmGet_sound_iff (by decide) (by decide) (of_decide_eq_true limit)⟩

end HanOS.Core
