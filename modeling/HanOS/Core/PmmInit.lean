import HanOS.Core.PmmSpec

/-!
# The pages free after initialisation

For a memory map as the boot protocol gives it, `pmm_init` leaves free the pages of the
usable entries, less those of the bitmap itself (`pmmInit_isFree`).
-/

namespace HanOS.Core

open HanOS.Foundations HanOS.Lib

variable {pm pm' : PhysMem} {map : List MemmapEntry} {mem : Mem} {p q n x : Nat}

/-- What the boot protocol promises: entries end within the address space and usable ones consist
    of whole pages. -/
structure MapOk (map : List MemmapEntry) : Prop where
  nowrap : ∀ entry ∈ map, entry.base + entry.length < 2 ^ 64
  aligned : ∀ entry ∈ map, entry.type = .usable →
    pageSize ∣ entry.base ∧ pageSize ∣ entry.length

/-- The page belongs to an entry that `pmm_init` takes pages from. -/
def Usable (map : List MemmapEntry) (page : Nat) : Prop :=
  ∃ entry ∈ map, entry.aboveLow ∧ entry.type = .usable ∧ entry.base ≤ page * pageSize ∧
    page * pageSize < entry.base + entry.length

/-- The page has its bit among those the bitmap was made for. -/
def PhysMem.Tracked (pm : PhysMem) (page : Nat) : Prop := page < 8 * pm.bmSize

def PhysMem.Storage (pm : PhysMem) (page : Nat) : Prop :=
  pm.bitmap ≤ page * pageSize ∧ page * pageSize < pm.bitmap + numPages pm.bmSize * pageSize

instance : Decidable (pm.Tracked p) := inferInstanceAs (Decidable (_ < _))

instance : Decidable (pm.Storage p) := inferInstanceAs (Decidable (_ ∧ _))

/-- The state all operations start from: the pages of the bitmap are used. -/
structure PmmReady (pm : PhysMem) : Prop where
  aligned : pageSize ∣ pm.bitmap
  storageUsed : ∀ p, pm.Tracked p → pm.Storage p → pm.isFree p = false
  freeSize : pm.freeSize < 2 ^ 64
  physLimit : pm.physLimit < 2 ^ 64

/-! ## The bytes of the bitmap -/

def PhysMem.InBitmap (pm : PhysMem) (addr : Nat) : Prop :=
  pm.bitmap ≤ addr ∧ addr < pm.bitmap + pm.bmSize

theorem bitByte_inBitmap (tracked : pm.Tracked p) : pm.InBitmap (pm.bitByte p) := by
  simp only [PhysMem.InBitmap, PhysMem.bitByte, PhysMem.Tracked] at *
  omega

/-- The bits of the tracked pages are those of the bitmap's bytes. -/
theorem isFree_congr (bitmap : pm'.bitmap = pm.bitmap)
    (bytes : ∀ x, pm.InBitmap x → pm'.mem x = pm.mem x) (tracked : pm.Tracked p) :
    pm'.isFree p = pm.isFree p := by
  rw [PhysMem.isFree, PhysMem.isFree, bitmap]
  exact bitAt_congr (bytes _ (bitByte_inBitmap tracked))

theorem bytes_eq_of_isFree (bitmap : pm'.bitmap = pm.bitmap)
    (bits : ∀ p, pm.Tracked p → pm'.isFree p = pm.isFree p) (inside : pm.InBitmap x) :
    pm'.mem x = pm.mem x := by
  obtain ⟨low, high⟩ := inside
  refine BitVec.eq_of_getLsbD_eq fun j bound => ?_
  have bit := bits (8 * (x - pm.bitmap) + j) (by rw [PhysMem.Tracked]; omega)
  rw [PhysMem.isFree, PhysMem.isFree, bitmap,
    show (8 * (x - pm.bitmap) + j) / 8 = x - pm.bitmap by omega,
    show (8 * (x - pm.bitmap) + j) % 8 = j by omega, Nat.add_sub_cancel' low,
    bitAt_eq_getLsbD bound, bitAt_eq_getLsbD bound] at bit
  exact bit

theorem SameButBits.outside (same : SameButBits pm pm' q n) (tracked : q + n ≤ 8 * pm.bmSize)
    (outside : ¬ pm.InBitmap x) : pm'.mem x = pm.mem x := by
  refine same.mem x fun p low high => ?_
  rintro rfl
  exact outside (bitByte_inBitmap (by rw [PhysMem.Tracked]; omega))

theorem bmSize_congr (physLimit : pm'.physLimit = pm.physLimit) : pm'.bmSize = pm.bmSize := by
  rw [PhysMem.bmSize, PhysMem.bmSize, physLimit]

theorem tracked_congr (physLimit : pm'.physLimit = pm.physLimit) :
    pm'.Tracked p ↔ pm.Tracked p := by
  rw [PhysMem.Tracked, PhysMem.Tracked, bmSize_congr physLimit]

theorem storage_congr (bitmap : pm'.bitmap = pm.bitmap) (physLimit : pm'.physLimit = pm.physLimit) :
    pm'.Storage p ↔ pm.Storage p := by
  rw [PhysMem.Storage, PhysMem.Storage, bitmap, bmSize_congr physLimit]

theorem inBitmap_congr (bitmap : pm'.bitmap = pm.bitmap)
    (physLimit : pm'.physLimit = pm.physLimit) : pm'.InBitmap x ↔ pm.InBitmap x := by
  rw [PhysMem.InBitmap, PhysMem.InBitmap, bitmap, bmSize_congr physLimit]

/-! ## The byte behind the bitmap -/

def PhysMem.tailByte (pm : PhysMem) : Nat := pm.bitmap + pm.bmSize

/-- Up to seven pages at the end of memory have no bit in the bitmap: their bits are in the byte
    behind it. -/
def PhysMem.HasTail (pm : PhysMem) : Prop := 8 * pm.bmSize * pageSize < pm.physLimit

instance : Decidable pm.HasTail := inferInstanceAs (Decidable (_ < _))

theorem tailByte_outside : ¬ pm.InBitmap pm.tailByte := by
  rw [PhysMem.InBitmap, PhysMem.tailByte]
  omega

/-- A page of memory has its bit in the bitmap or in the byte behind it. -/
theorem tracked_or_tail (inLimit : pm.InLimit p) :
    pm.Tracked p ∨ pm.HasTail ∧ pm.bitByte p = pm.tailByte := by
  simp only [PhysMem.InLimit, PhysMem.Tracked, PhysMem.HasTail, PhysMem.bitByte, PhysMem.tailByte,
    PhysMem.bmSize, bmpPagesPerByte, pageSize, mul_pageSize] at *
  omega

/-- The pages of memory keep their bits when those of the bitmap do, and the byte behind it. -/
theorem isFree_inLimit (bitmap : pm'.bitmap = pm.bitmap)
    (tail : pm.HasTail → pm'.mem pm.tailByte = pm.mem pm.tailByte)
    (inBitmap : pm.Tracked p → pm'.isFree p = pm.isFree p) (inLimit : pm.InLimit p) :
    pm'.isFree p = pm.isFree p := by
  rcases tracked_or_tail inLimit with tracked | ⟨hasTail, place⟩
  · exact inBitmap tracked
  · rw [PhysMem.isFree, PhysMem.isFree, bitmap, show pm.bitmap + p / 8 = pm.tailByte from place]
    exact bitAt_congr (tail hasTail)

theorem bmSize_pages (ready : PmmReady pm) : 8 * pm.bmSize * pageSize < 2 ^ 64 := by
  have bound := ready.physLimit
  simp only [PhysMem.bmSize, bmpPagesPerByte, pageSize, mul_pageSize] at *
  omega

theorem PmmReady.storage (ready : PmmReady pm) (inside : pm.InBitmap x) :
    pm.Storage (x / pageSize) := by
  obtain ⟨low, high⟩ := inside
  have size := bmSize_pages ready
  have fits := le_pageAlignUp pm.bmSize (by simp only [pageSize] at *; omega)
  obtain ⟨count, bitmap⟩ := ready.aligned
  rw [pageAlignUp] at fits
  rw [PhysMem.Storage, bitmap]
  simp only [pageSize, mul_pageSize] at *
  omega

/-- No free page has bytes of the bitmap in it. -/
theorem PmmReady.outside_bitmap (ready : PmmReady pm) (tracked : pm.Tracked p)
    (free : pm.isFree p) (inPage : x / pageSize = p) : ¬ pm.InBitmap x := by
  intro inside
  rw [ready.storageUsed p tracked (inPage ▸ ready.storage inside)] at free
  cases free

theorem PmmReady.frame (ready : PmmReady pm) (bytes : ∀ x, pm.InBitmap x → mem x = pm.mem x) :
    PmmReady { pm with mem := mem } where
  aligned := ready.aligned
  storageUsed p tracked storage := by
    rw [@isFree_congr pm { pm with mem := mem } _ rfl bytes tracked]
    exact ready.storageUsed p tracked storage
  freeSize := ready.freeSize
  physLimit := ready.physLimit

theorem PmmReady.alloc (ready : PmmReady pm) (allocated : Allocated pm pm' q n) : PmmReady pm' where
  aligned := by
    rw [allocated.same.bitmap]
    exact ready.aligned
  storageUsed p tracked storage := by
    rw [tracked_congr allocated.same.physLimit] at tracked
    rw [storage_congr allocated.same.bitmap allocated.same.physLimit] at storage
    rw [allocated.isFree, ready.storageUsed p tracked storage, ite_self]
  freeSize := by
    have small := ready.freeSize
    rw [allocated.freeSize, sub64]
    split <;> omega
  physLimit := by
    rw [allocated.same.physLimit]
    exact ready.physLimit

theorem PmmReady.free (ready : PmmReady pm) (nowrap : (q + n) * pageSize < 2 ^ 64)
    (apart : ∀ p, q ≤ p → p < q + n → ¬ pm.Storage p) :
    PmmReady (pmmFree pm (q * pageSize) n) := by
  obtain ⟨same, freeSize, bits⟩ := pmmFree_spec pm nowrap ready.freeSize
  refine ⟨?_, fun p tracked storage => ?_, ?_, ?_⟩
  · rw [same.bitmap]
    exact ready.aligned
  · rw [tracked_congr same.physLimit] at tracked
    rw [storage_congr same.bitmap same.physLimit] at storage
    rw [bits, if_neg fun inside => apart p inside.1 inside.2 storage]
    exact ready.storageUsed p tracked storage
  · rw [freeSize]
    exact Nat.mod_lt _ (by omega)
  · rw [same.physLimit]
    exact ready.physLimit

/-! ## The loop over the map -/

theorem numPages_of_dvd {num : Nat} (bound : num < 2 ^ 64) (aligned : pageSize ∣ num) :
    numPages num * pageSize = num := by
  obtain ⟨count, rfl⟩ := aligned
  simp only [numPages, pageSize, mul_pageSize] at *
  rw [u64_of_lt (by omega)]
  omega

/-- The part of `pmm_init` that populates the bitmap. -/
theorem populate_spec (ok : MapOk map) (small : pm.freeSize < 2 ^ 64)
    (populated : map.foldl (fun pm entry =>
      if entry.aboveLow ∧ entry.type = .usable then pmmFree pm entry.base (numPages entry.length)
      else pm) pm = pm') :
    pm'.bitmap = pm.bitmap ∧ pm'.physLimit = pm.physLimit ∧ pm'.freeSize < 2 ^ 64 ∧
      ∀ p, pm'.isFree p ↔ pm.isFree p ∨ Usable map p := by
  induction map generalizing pm with
  | nil =>
    obtain rfl : pm = pm' := populated
    exact ⟨rfl, rfl, small, fun p => by simp [Usable]⟩
  | cons entry map inductionHypothesis =>
    have rest : MapOk map :=
      ⟨fun e member => ok.nowrap e (by simp [member]), fun e member => ok.aligned e (by simp [member])⟩
    rw [List.foldl_cons] at populated
    have usable : ∀ p, Usable (entry :: map) p ↔
        (entry.aboveLow ∧ entry.type = .usable ∧ entry.base ≤ p * pageSize ∧
          p * pageSize < entry.base + entry.length) ∨ Usable map p := by
      intro p
      simp only [Usable, List.mem_cons, exists_eq_or_imp]
    split at populated
    · next taken =>
      -- an entry whose pages are given back
      obtain ⟨base, length⟩ := ok.aligned entry (by simp) taken.2
      have bound := ok.nowrap entry (by simp)
      have pages := numPages_of_dvd (by omega) length
      obtain ⟨first, start⟩ := base
      rw [mul_comm] at start
      have nowrap : (first + numPages entry.length) * pageSize < 2 ^ 64 := by
        rw [Nat.add_mul, pages]
        omega
      obtain ⟨same, freeSize, bits⟩ := pmmFree_spec pm nowrap small
      rw [start] at populated
      obtain ⟨bitmap, physLimit, stillSmall, free⟩ := inductionHypothesis rest
        (by rw [freeSize]; exact Nat.mod_lt _ (by omega)) populated
      refine ⟨bitmap.trans same.bitmap, physLimit.trans same.physLimit, stillSmall, fun p => ?_⟩
      rw [free, bits, usable]
      have range : first ≤ p ∧ p < first + numPages entry.length ↔
          entry.base ≤ p * pageSize ∧ p * pageSize < entry.base + entry.length := by
        generalize numPages entry.length = count at pages
        simp only [start, ← pages, pageSize, mul_pageSize]
        omega
      simp only [taken.1, taken.2, ← range, true_and]
      by_cases inside : first ≤ p ∧ p < first + numPages entry.length
      · rw [if_pos inside]
        exact ⟨fun _ => .inr (.inl inside), fun _ => .inl rfl⟩
      · rw [if_neg inside, or_iff_right inside]
    · next skipped =>
      obtain ⟨bitmap, physLimit, stillSmall, free⟩ := inductionHypothesis rest small populated
      refine ⟨bitmap, physLimit, stillSmall, fun p => ?_⟩
      rw [free, usable]
      -- an entry that is passed over
      have none_ : ¬ (entry.aboveLow ∧ entry.type = .usable ∧ entry.base ≤ p * pageSize ∧
          p * pageSize < entry.base + entry.length) := fun all => skipped ⟨all.1, all.2.1⟩
      simp only [none_, false_or]

/-! ## The state after `pmm_init` -/

theorem isFree_of_zero (zero : pm.mem (pm.bitByte p) = 0) : pm.isFree p = false := by
  rw [PhysMem.isFree, bitAt, ← PhysMem.bitByte, zero]
  simp

theorem pmmInit_place (initialised : pmmInit map mem = some pm) :
    ∃ place ∈ map, place.aboveLow ∧ place.type = .usable ∧
      physLimitOf map / (pageSize * bmpPagesPerByte) ≤ place.length ∧
      map.find? (fun entry => entry.aboveLow ∧
        physLimitOf map / (pageSize * bmpPagesPerByte) ≤ entry.length ∧ entry.type = .usable) =
        some place := by
  rw [pmmInit] at initialised
  split at initialised
  · cases initialised
  · next place found =>
    have suits := List.find?_some found
    simp only [Bool.decide_and, Bool.and_eq_true, decide_eq_true_eq] at suits
    exact ⟨place, List.mem_of_find?_eq_some found, suits.1, suits.2.2, suits.2.1, found⟩

theorem pmmAlloc_bitmap {addr numpages : Nat} (allocated : pmmAlloc pm addr numpages = some pm') :
    pm'.bitmap = pm.bitmap := by
  rw [pmmAlloc] at allocated
  split at allocated
  · cases allocated
  · obtain rfl := Option.some.inj allocated
    exact List.foldlRecOn (motive := fun pm' => PhysMem.bitmap pm' = pm.bitmap) _ _ rfl
      fun _ same _ _ => same

theorem pmmInit_bitmap (ok : MapOk map) (initialised : pmmInit map mem = some pm) :
    ∃ place, map.find? (fun entry => entry.aboveLow ∧
        physLimitOf map / (pageSize * bmpPagesPerByte) ≤ entry.length ∧ entry.type = .usable) =
        some place ∧ pm.bitmap = place.base := by
  obtain ⟨place, _, _, _, _, found⟩ := pmmInit_place initialised
  simp only [pmmInit, found, Option.some.injEq] at initialised
  generalize populated : map.foldl _ _ = ready at initialised
  have bitmap := (populate_spec ok (by simp) populated).1
  refine ⟨place, found, ?_⟩
  subst initialised
  cases allocated : pmmAlloc ready place.base
      (numPages (physLimitOf map / (pageSize * bmpPagesPerByte))) with
  | none => exact bitmap
  | some pm => exact (pmmAlloc_bitmap allocated).trans bitmap

theorem physLimitOf_lt : physLimitOf map < 2 ^ 64 := by
  suffices below : ∀ limit < 2 ^ 64,
      map.foldl (fun limit entry => if limit < entry.top then entry.top else limit) limit < 2 ^ 64 from
    below 0 (by omega)
  induction map with
  | nil => exact fun limit bound => bound
  | cons entry map inductionHypothesis =>
    intro limit bound
    refine inductionHypothesis _ ?_
    dsimp only
    split
    · exact Nat.mod_lt _ (by omega)
    · exact bound

theorem top_le_physLimitOf {entry : MemmapEntry} (member : entry ∈ map) : entry.top ≤ physLimitOf map := by
  suffices bounds : ∀ limit, limit ≤ map.foldl
        (fun limit entry => if limit < entry.top then entry.top else limit) limit ∧
      ∀ entry ∈ map, entry.top ≤ map.foldl
        (fun limit entry => if limit < entry.top then entry.top else limit) limit from
    (bounds 0).2 entry member
  clear member
  induction map with
  | nil => exact fun limit => ⟨le_rfl, nofun⟩
  | cons first map inductionHypothesis =>
    intro limit
    obtain ⟨grows, tops⟩ := inductionHypothesis (if limit < first.top then first.top else limit)
    have step : limit ≤ (if limit < first.top then first.top else limit) ∧
        first.top ≤ (if limit < first.top then first.top else limit) := by
      split <;> omega
    exact ⟨step.1.trans grows, List.forall_mem_cons.mpr ⟨step.2.trans grows, tops⟩⟩

theorem pmmInit_spec (ok : MapOk map) (initialised : pmmInit map mem = some pm) :
    pm.physLimit = physLimitOf map ∧ PmmReady pm ∧
      (∀ p, pm.Storage p → Usable map p) ∧
      ∀ p, pm.Tracked p → (pm.isFree p ↔ Usable map p ∧ ¬ pm.Storage p) := by
  obtain ⟨place, member, above, type, large, found⟩ := pmmInit_place initialised
  simp only [pmmInit, found] at initialised
  obtain ⟨first, start⟩ := (ok.aligned place member type).1
  obtain ⟨count, length⟩ := (ok.aligned place member type).2
  rw [mul_comm] at start length
  have bound := ok.nowrap place member
  generalize limit : physLimitOf map = physLimit at *
  generalize size : physLimit / (pageSize * bmpPagesPerByte) = bmSize at *
  -- the bitmap fits its entry, in whole pages
  have fits : numPages bmSize * pageSize ≤ place.length := by
    simp only [numPages, pageSize, mul_pageSize] at *
    rw [u64_of_lt (by omega)]
    omega
  have nowrap : (first + numPages bmSize) * pageSize < 2 ^ 64 := by
    rw [Nat.add_mul]
    omega
  generalize zero : PhysMem.mk physLimit (totalSizeOf map) 0 place.base
    (fill mem place.base bmSize 0) = cleared at *
  generalize populated : map.foldl _ cleared = ready at initialised
  obtain ⟨bitmap, readyLimit, small, free⟩ := populate_spec ok (by rw [← zero]; simp) populated
  have readyBitmap : ready.bitmap = place.base := by rw [bitmap, ← zero]
  have storage : ∀ p, first ≤ p → p < first + numPages bmSize → Usable map p := by
    intro p low high
    refine ⟨place, member, above, type, ?_, ?_⟩
    · rw [start]
      exact Nat.mul_le_mul_right _ low
    · have step := Nat.mul_lt_mul_of_pos_right high (show 0 < pageSize by decide)
      rw [Nat.add_mul, ← start] at step
      omega
  -- so marking its pages used does not fail
  obtain ⟨final, allocated⟩ := Option.isSome_iff_exists.mp
    ((@pmmAlloc_isSome_iff ready _ _ nowrap).mpr fun p low high =>
      (free p).mpr (.inr (storage p low high)))
  rw [start, allocated, Option.getD_some, Option.some.injEq] at initialised
  subst initialised
  have result := pmmAlloc_eq_some nowrap allocated
  have finalLimit : final.physLimit = physLimit := by
    rw [result.same.physLimit, readyLimit, ← zero]
  have finalSize : final.bmSize = bmSize := by rw [PhysMem.bmSize, finalLimit, size]
  have finalBitmap : final.bitmap = first * pageSize := by
    rw [result.same.bitmap, readyBitmap, start]
  have storageRange : ∀ p, final.Storage p ↔ first ≤ p ∧ p < first + numPages bmSize := by
    intro p
    rw [PhysMem.Storage, finalSize, finalBitmap]
    simp only [pageSize, mul_pageSize]
    omega
  have cleared_ : ∀ p < 8 * bmSize, cleared.isFree p = false := by
    intro p tracked
    subst zero
    exact isFree_of_zero (fill_inside (Nat.le_add_right ..) (by simp only [PhysMem.bitByte]; omega))
  refine ⟨finalLimit, ⟨?_, ?_, ?_, ?_⟩, ?_, ?_⟩
  · rw [finalBitmap]
    exact Dvd.intro_left _ rfl
  · intro p _ inStorage
    rw [result.isFree, if_pos ((storageRange p).mp inStorage)]
  · rw [result.freeSize, sub64]
    split <;> omega
  · rw [finalLimit, ← limit]
    exact physLimitOf_lt
  · intro p inStorage
    obtain ⟨low, high⟩ := (storageRange p).mp inStorage
    exact storage p low high
  · intro p tracked
    rw [PhysMem.Tracked, finalSize] at tracked
    rw [result.isFree, storageRange]
    by_cases inside : first ≤ p ∧ p < first + numPages bmSize
    · simp [inside]
    · rw [if_neg inside, free, cleared_ p tracked]
      simp [inside]

end HanOS.Core
