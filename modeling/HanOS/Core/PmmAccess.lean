import HanOS.Core.PmmInit
import HanOS.Foundations.Run

/-!
# The bytes of the bitmap the memory manager touches

Each operation with the indices into `bitmap` it reads and writes, in the order of the code.
The `bm_size` bytes have a bit for every page below `phys_limit` when that is a multiple of
eight pages; else the last pages have none, and a window of `pmm_get` may in any case reach
behind the last one (`bitmap_accesses_iff`).
-/

namespace HanOS.Core

open HanOS.Foundations HanOS.Lib

variable {pm pm' start : PhysMem} {map : List MemmapEntry} {mem : Mem} {addr n p i base bound : Nat}
variable {starts : List Nat}

def bitmapIndex (addr : Nat) : Nat := addr / (pageSize * bmpPagesPerByte)

/-- The loop of `bitmap_isfree`; it ends at the first page that is used. -/
def readsUntilUsed (pm : PhysMem) : List Nat → List Nat
  | [] => []
  | i :: rest => bitmapIndex i ::
      if bitAt pm.mem (pm.byteOf i) (PhysMem.bitOf i) then readsUntilUsed pm rest else []

def isfreeAccesses (pm : PhysMem) (addr numpages : Nat) : List Nat :=
  readsUntilUsed pm (pageStarts addr numpages)

def markusedAccesses (addr numpages : Nat) : List Nat := (pageStarts addr numpages).map bitmapIndex

/-- Of `pmm_free`; for a single page `bitmap_isfree` reads the same byte in every state. -/
def freeAccesses (addr numpages : Nat) : List Nat :=
  (pageStarts addr numpages).flatMap fun i => (pageStarts i 1).map bitmapIndex ++ [bitmapIndex i]

def allocAccesses (pm : PhysMem) (addr numpages : Nat) : List Nat :=
  isfreeAccesses pm addr numpages ++
    if bitmapIsfree pm addr numpages then markusedAccesses addr numpages else []

/-- The loop of `pmm_get`; a `pmm_alloc` that fails changes nothing. -/
def searchAccesses (pm : PhysMem) (numpages : Nat) : List Nat → List Nat
  | [] => []
  | i :: rest => allocAccesses pm i numpages ++
      if bitmapIsfree pm i numpages then [] else searchAccesses pm numpages rest

def getAccesses (pm : PhysMem) (numpages baseaddr : Nat) : List Nat :=
  searchAccesses pm numpages (candidates pm baseaddr)

/-- `memset`, the loop that populates the bitmap, and `pmm_alloc` for the bitmap itself -/
def initAccesses (map : List MemmapEntry) (mem : Mem) : List Nat :=
  let bmSize := physLimitOf map / (pageSize * bmpPagesPerByte)
  match map.find? fun entry => entry.aboveLow ∧ bmSize ≤ entry.length ∧ entry.type = .usable with
  | none => []
  | some place =>
    let pm : PhysMem :=
      { physLimit := physLimitOf map, totalSize := totalSizeOf map, freeSize := 0,
        bitmap := place.base, mem := fill mem place.base bmSize 0 }
    let pm := map.foldl (fun pm entry =>
      if entry.aboveLow ∧ entry.type = .usable then pmmFree pm entry.base (numPages entry.length)
      else pm) pm
    List.range bmSize ++
      (map.flatMap fun entry =>
        if entry.aboveLow ∧ entry.type = .usable then freeAccesses entry.base (numPages entry.length)
        else []) ++
      allocAccesses pm place.base (numPages bmSize)

structure GetCall where
  numpages : Nat
  baseaddr : Nat

def GetCall.run (pm : PhysMem) (call : GetCall) : Option PhysMem :=
  (pmmGet pm call.numpages call.baseaddr).map Prod.snd

def runAccesses (pm : PhysMem) : List GetCall → List Nat
  | [] => []
  | call :: rest => getAccesses pm call.numpages call.baseaddr ++
      match call.run pm with
      | some pm => runAccesses pm rest
      | none => []

/-! ## Reads -/

theorem isFree_page : bitAt pm.mem (pm.byteOf addr) (PhysMem.bitOf addr) =
    pm.isFree (addr / pageSize) := by
  simp only [PhysMem.isFree, PhysMem.byteOf, PhysMem.bitOf, bmpPagesPerByte, Nat.div_div_eq_div_mul]

theorem bitmapIndex_mono {j : Nat} (le : i ≤ j) : bitmapIndex i ≤ bitmapIndex j :=
  Nat.div_le_div_right le

/-- The reads stay below a bound when all pages do, or when a page that does is used. -/
theorem readsUntilUsed_below (ascending : starts.Pairwise (· ≤ ·)) :
    (∀ x ∈ readsUntilUsed pm starts, x < bound) ↔
      (∀ i ∈ starts, bitmapIndex i < bound) ∨
        ∃ i ∈ starts, bitmapIndex i < bound ∧ pm.isFree (i / pageSize) = false := by
  induction starts with
  | nil => simp [readsUntilUsed]
  | cons i starts inductionHypothesis =>
    obtain ⟨first, rest⟩ := List.pairwise_cons.mp ascending
    have later : (∃ j ∈ starts, bitmapIndex j < bound ∧ pm.isFree (j / pageSize) = false) →
        bitmapIndex i < bound := fun ⟨j, member, below, _⟩ =>
      (bitmapIndex_mono (first j member)).trans_lt below
    rw [readsUntilUsed, isFree_page, List.forall_mem_cons, List.forall_mem_cons]
    simp only [List.mem_cons, exists_eq_or_imp]
    cases free : pm.isFree (i / pageSize) with
    | true =>
      simp only [if_true, inductionHypothesis rest, Bool.true_eq_false, and_false, false_or]
      rw [and_or_left, and_iff_right_of_imp later]
    | false =>
      simp only [Bool.false_eq_true, if_false, List.not_mem_nil, false_imp_iff, implies_true,
        and_true]
      exact ⟨fun below => .inr (.inl below), fun inside => inside.elim And.left (Or.elim · id later)⟩

theorem pageStarts_ascending : (pageStarts addr n).Pairwise (· ≤ ·) := by
  rw [pageStarts]
  refine List.pairwise_map.mpr (List.pairwise_le_range.imp fun le => ?_)
  exact Nat.add_le_add_left (Nat.mul_le_mul_right _ le) _

theorem candidates_ascending : (candidates pm base).Pairwise (· < ·) := by
  rw [candidates]
  refine List.pairwise_map.mpr (List.pairwise_lt_range.imp fun lt => ?_)
  exact Nat.add_lt_add_left (Nat.mul_lt_mul_of_pos_right lt (by decide)) _

/-! ## Windows -/

/-- All pages of the window have their bits in the bitmap. -/
def WindowInside (pm : PhysMem) (addr numpages : Nat) : Prop :=
  ∀ i ∈ pageStarts addr numpages, bitmapIndex i < pm.bmSize

def UsedInside (pm : PhysMem) (addr numpages : Nat) : Prop :=
  ∃ i ∈ pageStarts addr numpages, bitmapIndex i < pm.bmSize ∧ pm.isFree (i / pageSize) = false

/-- From every start the window ends in the bitmap or at a used page, unless a free window was
    found before. -/
def SearchInside (pm : PhysMem) (numpages baseaddr : Nat) : Prop :=
  ∀ i ∈ candidates pm baseaddr, WindowInside pm i numpages ∨ UsedInside pm i numpages ∨
    ∃ j ∈ candidates pm baseaddr, j < i ∧ WindowInside pm j numpages ∧ bitmapIsfree pm j numpages

theorem not_usedInside (free : bitmapIsfree pm addr n) : ¬ UsedInside pm addr n := by
  rintro ⟨i, member, _, used⟩
  have bit := List.all_eq_true.mp free i member
  rw [isFree_page, used] at bit
  cases bit

theorem allocAccesses_below : (∀ x ∈ allocAccesses pm addr n, x < pm.bmSize) ↔
    WindowInside pm addr n ∨ UsedInside pm addr n := by
  simp only [allocAccesses, List.forall_mem_append, isfreeAccesses,
    readsUntilUsed_below pageStarts_ascending]
  split
  · next free =>
    rw [markusedAccesses, List.forall_mem_map]
    exact ⟨fun both => .inl both.2, fun inside =>
      have inside := inside.resolve_right (not_usedInside free)
      ⟨.inl inside, inside⟩⟩
  · exact ⟨And.left, fun inside => ⟨inside, nofun⟩⟩

theorem searchAccesses_below (ascending : starts.Pairwise (· < ·)) :
    (∀ x ∈ searchAccesses pm n starts, x < pm.bmSize) ↔
      ∀ i ∈ starts, WindowInside pm i n ∨ UsedInside pm i n ∨
        ∃ j ∈ starts, j < i ∧ WindowInside pm j n ∧ bitmapIsfree pm j n := by
  induction starts with
  | nil => simp [searchAccesses]
  | cons i starts inductionHypothesis =>
    obtain ⟨first, rest⟩ := List.pairwise_cons.mp ascending
    rw [searchAccesses, List.forall_mem_append, allocAccesses_below, List.forall_mem_cons]
    simp only [List.mem_cons, exists_eq_or_imp, lt_irrefl, false_and, false_or]
    have noneBefore : ¬ ∃ j ∈ starts, j < i ∧ WindowInside pm j n ∧ bitmapIsfree pm j n :=
      fun ⟨j, member, before, _⟩ => absurd (first j member) (not_lt.mpr before.le)
    simp only [noneBefore, or_false]
    by_cases free : bitmapIsfree pm i n
    · simp only [free, if_true, List.not_mem_nil, false_imp_iff, implies_true, and_true]
      refine ⟨fun inside => ⟨inside, fun k member => .inr (.inr (.inl ⟨first k member, ?_⟩))⟩, And.left⟩
      exact inside.resolve_right (not_usedInside free)
    · simp only [free, if_false, inductionHypothesis rest, and_false, false_or, Bool.false_eq_true]

theorem getAccesses_below :
    (∀ x ∈ getAccesses pm n base, x < pm.bmSize) ↔ SearchInside pm n base :=
  searchAccesses_below candidates_ascending

/-! ## Runs of `pmm_get` -/

theorem pmmAlloc_physLimit (allocated : pmmAlloc pm addr n = some pm') :
    pm'.physLimit = pm.physLimit := by
  rw [pmmAlloc] at allocated
  split at allocated
  · cases allocated
  · obtain rfl := Option.some.inj allocated
    exact List.foldlRecOn (motive := fun pm' => PhysMem.physLimit pm' = pm.physLimit) _ _ rfl
      fun _ same _ _ => same

theorem GetCall.run_bmSize {call : GetCall} (ran : call.run pm = some pm') :
    pm'.bmSize = pm.bmSize := by
  obtain ⟨⟨addr, taken⟩, got, rfl⟩ := Option.map_eq_some_iff.mp ran
  obtain ⟨i, _, found⟩ := List.exists_of_findSome?_eq_some got
  obtain ⟨_, allocated, same⟩ := Option.map_eq_some_iff.mp found
  obtain ⟨rfl, rfl⟩ := Prod.mk.inj same
  exact bmSize_congr (pmmAlloc_physLimit allocated)

theorem runAccesses_below {calls : List GetCall} :
    (∀ x ∈ runAccesses pm calls, x < pm.bmSize) ↔
      Along GetCall.run (fun pm call => SearchInside pm call.numpages call.baseaddr) pm calls := by
  induction calls generalizing pm with
  | nil => simp [runAccesses, Along]
  | cons call calls inductionHypothesis =>
    rw [runAccesses, List.forall_mem_append, getAccesses_below, Along]
    refine and_congr_right fun _ => ?_
    cases ran : call.run pm with
    | none => simp
    | some next =>
      rw [← GetCall.run_bmSize ran, inductionHypothesis]
      simp only [Option.some.injEq, forall_eq']

/-! ## Initialisation -/

theorem bitmapIndex_page : bitmapIndex (p * pageSize) = p / 8 := by
  simp only [bitmapIndex, pageSize, bmpPagesPerByte]
  omega

theorem freeAccesses_below {entry : MemmapEntry} (nowrap : entry.base + entry.length < 2 ^ 64)
    (base : pageSize ∣ entry.base) (length : pageSize ∣ entry.length) :
    (∀ x ∈ freeAccesses entry.base (numPages entry.length), x < bound) ↔
      ∀ p, entry.base ≤ p * pageSize → p * pageSize < entry.base + entry.length → p / 8 < bound := by
  have pages := numPages_of_dvd (by omega) length
  obtain ⟨first, start⟩ := base
  rw [mul_comm] at start
  have fits : (first + numPages entry.length) * pageSize < 2 ^ 64 := by
    rw [Nat.add_mul, pages]
    omega
  have single : ∀ p, first ≤ p → p < first + numPages entry.length →
      pageStarts (p * pageSize) 1 = [p * pageSize] := fun p _ high => by
    have below : (p + 1) * pageSize < 2 ^ 64 :=
      (Nat.mul_le_mul_right pageSize (Nat.succ_le_of_lt high)).trans_lt fits
    rw [@pageStarts_page p 1 below, List.range'_one, List.map_singleton]
  have range : ∀ p, first ≤ p ∧ p < first + numPages entry.length ↔
      entry.base ≤ p * pageSize ∧ p * pageSize < entry.base + entry.length := by
    intro p
    generalize numPages entry.length = count at pages
    simp only [start, ← pages, pageSize, mul_pageSize]
    omega
  rw [freeAccesses, start, pageStarts_page fits, ← start]
  simp only [List.flatMap_map, List.mem_flatMap, List.mem_range'_1]
  constructor
  · intro below p low high
    have inside := (range p).mpr ⟨low, high⟩
    rw [← bitmapIndex_page]
    exact below _ ⟨p, inside, by simp⟩
  · rintro below x ⟨p, inside, member⟩
    simp only [single p inside.1 inside.2, List.map_singleton, List.mem_append, List.mem_singleton,
      or_self, bitmapIndex_page] at member
    obtain ⟨low, high⟩ := (range p).mp inside
    exact member ▸ below p low high

theorem populateAccesses_below (ok : MapOk map) :
    (∀ x ∈ map.flatMap fun entry =>
        if entry.aboveLow ∧ entry.type = .usable then freeAccesses entry.base (numPages entry.length)
        else [], x < bound) ↔ ∀ p, Usable map p → p / 8 < bound := by
  have each : ∀ entry ∈ map, (∀ x ∈ if entry.aboveLow ∧ entry.type = .usable then
        freeAccesses entry.base (numPages entry.length) else [], x < bound) ↔
      (entry.aboveLow ∧ entry.type = .usable →
        ∀ p, entry.base ≤ p * pageSize → p * pageSize < entry.base + entry.length → p / 8 < bound) := by
    intro entry member
    split
    · next taken =>
      obtain ⟨base, length⟩ := ok.aligned entry member taken.2
      rw [freeAccesses_below (ok.nowrap entry member) base length]
      exact ⟨fun below _ => below, fun below => below taken⟩
    · next skipped => exact ⟨fun _ taken => absurd taken skipped, fun _ => nofun⟩
  simp only [List.mem_flatMap, Usable]
  constructor
  · rintro below p ⟨entry, member, above, type, low, high⟩
    exact (each entry member).mp (fun x inside => below x ⟨entry, member, inside⟩) ⟨above, type⟩ p
      low high
  · rintro below x ⟨entry, member, inside⟩
    exact (each entry member).mpr (fun taken p low high =>
      below p ⟨entry, member, taken.1, taken.2, low, high⟩) x inside

theorem initAccesses_below (ok : MapOk map) (initialised : pmmInit map mem = some start) :
    (∀ x ∈ initAccesses map mem, x < start.bmSize) ↔ ∀ p, Usable map p → start.Tracked p := by
  obtain ⟨place, member, _, type, large, found⟩ := pmmInit_place initialised
  obtain ⟨limit, ready, storage, _⟩ := pmmInit_spec ok initialised
  obtain ⟨place', found', bitmap⟩ := pmmInit_bitmap ok initialised
  obtain rfl := Option.some.inj (found.symm.trans found')
  have size : start.bmSize = physLimitOf map / (pageSize * bmpPagesPerByte) := by
    rw [PhysMem.bmSize, limit]
  have tracked : ∀ p, start.Tracked p ↔ p / 8 < start.bmSize := fun p => by
    rw [PhysMem.Tracked]
    omega
  simp only [initAccesses, found, List.forall_mem_append, tracked]
  rw [← size]
  generalize populated : map.foldl _ _ = filled
  have filledSize : filled.bmSize = start.bmSize := by
    rw [bmSize_congr (populate_spec ok (by simp) populated).2.1, PhysMem.bmSize, size]
  rw [populateAccesses_below ok, and_assoc, and_iff_right fun x => List.mem_range.mp,
    and_iff_left_iff_imp]
  -- the bitmap lies in usable pages itself
  intro below
  rw [← filledSize, allocAccesses_below]
  refine .inl fun i inWindow => ?_
  obtain ⟨⟨first, start_⟩, count, length⟩ := ok.aligned place member type
  have end_ := ok.nowrap place member
  rw [mul_comm] at start_
  have nowrap : (first + numPages start.bmSize) * pageSize < 2 ^ 64 := by
    rw [← size] at large
    simp only [numPages, u64, pageSize, mul_pageSize] at *
    omega
  rw [start_, filledSize, pageStarts_page nowrap] at inWindow
  obtain ⟨p, inside, rfl⟩ := List.mem_map.mp inWindow
  obtain ⟨low, high⟩ := List.mem_range'_1.mp inside
  rw [filledSize, bitmapIndex_page]
  refine below p (storage p ?_)
  rw [PhysMem.Storage, bitmap, start_]
  simp only [pageSize, mul_pageSize]
  omega

/-- `pmm_init` and calls of `pmm_get` stay in the bitmap if and only if every usable page has a bit
    and every search stays inside. -/
theorem bitmap_accesses_iff (ok : MapOk map) (initialised : pmmInit map mem = some start)
    (calls : List GetCall) :
    (∀ index ∈ initAccesses map mem ++ runAccesses start calls, index < start.bmSize) ↔
      (∀ p, Usable map p → start.Tracked p) ∧
        Along GetCall.run (fun pm call => SearchInside pm call.numpages call.baseaddr) start
          calls := by
  rw [List.forall_mem_append, initAccesses_below ok initialised, runAccesses_below]

/-- The one usable page of this map has no bit; where all have, a window of eight pages still
    reaches behind the bitmap. -/
theorem index_behind_bitmap :
    (∃ start, pmmInit [⟨0x100000, 0x1000, .usable⟩] (fun _ => 0) = some start ∧
      ¬ ∀ index ∈ initAccesses [⟨0x100000, 0x1000, .usable⟩] (fun _ => 0), index < start.bmSize) ∧
    ∃ start, pmmInit [⟨0x100000, 0x8000, .usable⟩] (fun _ => 0) = some start ∧
      (∀ index ∈ initAccesses [⟨0x100000, 0x8000, .usable⟩] (fun _ => 0), index < start.bmSize) ∧
      ¬ ∀ index ∈ runAccesses start [⟨8, 0⟩], index < start.bmSize := by
  have first : (pmmInit [⟨0x100000, 0x1000, .usable⟩] fun _ => 0).map (fun start =>
      decide (∀ index ∈ initAccesses [⟨0x100000, 0x1000, .usable⟩] (fun _ => 0),
        index < start.bmSize)) = some false := by decide +kernel
  have second : (pmmInit [⟨0x100000, 0x8000, .usable⟩] fun _ => 0).map (fun start =>
      decide ((∀ index ∈ initAccesses [⟨0x100000, 0x8000, .usable⟩] (fun _ => 0),
        index < start.bmSize) ∧ ¬ ∀ index ∈ runAccesses start [⟨8, 0⟩], index < start.bmSize)) =
      some true := by decide +kernel
  obtain ⟨start, initialised, outside⟩ := Option.map_eq_some_iff.mp first
  obtain ⟨start', initialised', outside'⟩ := Option.map_eq_some_iff.mp second
  exact ⟨⟨start, initialised, of_decide_eq_false outside⟩, start', initialised',
    of_decide_eq_true outside'⟩

theorem bitmap_accesses_iff_oneEntry :
    ∃ start, pmmInit [⟨0x100000, 0x8000, .usable⟩] (fun _ => 0) = some start ∧
      ((∀ index ∈ initAccesses [⟨0x100000, 0x8000, .usable⟩] (fun _ => 0) ++
          runAccesses start [⟨3, 0⟩], index < start.bmSize) ↔
        (∀ p, Usable [⟨0x100000, 0x8000, .usable⟩] p → start.Tracked p) ∧
          Along GetCall.run (fun pm call => SearchInside pm call.numpages call.baseaddr) start
            [⟨3, 0⟩]) := by
  have succeeds : (pmmInit [⟨0x100000, 0x8000, .usable⟩] fun _ => 0).isSome := by decide +kernel
  obtain ⟨start, initialised⟩ := Option.isSome_iff_exists.mp succeeds
  exact ⟨start, initialised, bitmap_accesses_iff ⟨by decide, by decide⟩ initialised _⟩

end HanOS.Core
