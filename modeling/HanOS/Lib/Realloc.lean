import HanOS.Lib.HeapRuns

/-!
# Reallocation (`kmrealloc`)

A block keeps its first bytes when it is resized, whether it stays where it is or moves,
and nothing else in the heap changes (`HeapOk.reallocated`).  A client who resizes a block
again and again, while others use the heap, therefore keeps the bytes that all the sizes
have in common (`realloc_runs`).  That is so as long as every allocation finds its first
window in the pages of the bitmap; the window behind them can hold the metadata of the
block that is moved, and then not all of its pages are freed (`realloc_loses_page`).
-/

namespace HanOS.Lib

open HanOS.Foundations HanOS.Core

variable {start pm pm' : PhysMem} {b c : Block} {live : List Block} {size ptr newsize i p x : Nat}

/-! ## What the calls keep -/

theorem HeapOk.malloc_data (ready : PmmReady start) (heap : HeapOk start pm live)
    (small : size < 2 ^ 64) (fits : FirstFitTracked pm (numPages size + 1))
    (result : kmalloc pm size = some (ptr, pm')) (member : b ∈ live) (data : b.HasData x) :
    pm'.mem x = pm.mem x := by
  have owns := (heap.malloc ready small fits result).owns
  have outside := (heap.owns.placed b member).data_outside ready data
  have covers := (heap.owns.placed b member).data_page data
  -- the page with the metadata of the new block is no page of the old one
  have apart : ¬ (Block.mk ptr size).Covers (x / pageSize) := fun also =>
    (List.pairwise_cons.mp owns.apart).1 b member _ ⟨also, covers.2⟩
  exact heap.malloc_outside ready fits result outside apart

theorem HeapOk.realloc_data (ready : PmmReady start) (heap : HeapOk start pm (b :: live))
    (small : newsize + pageSize ≤ 2 ^ 64) (old : b.size + pageSize ≤ 2 ^ 64)
    (fits : numPages b.size ≠ numPages newsize → FirstFitTracked pm (numPages newsize + 1))
    (result : kmrealloc pm (some b.ptr) newsize = some (ptr, pm'))
    (inside : i < min newsize b.size) : pm'.mem (ptr + i) = pm.mem (b.ptr + i) := by
  have fit := le_pageAlignUp b.size old
  have newFit := le_pageAlignUp newsize small
  have newSmall : newsize < 2 ^ 64 := by
    rw [pageSize] at small
    omega
  rcases heap.kmrealloc_cases ready newSmall fits result with ⟨same, rfl, rfl⟩ |
    ⟨moves, grown, malloc, rfl⟩
  · have aligned := (heap.owns.placed b (by simp)).aligned
    simp only [store64, numpagesAt, sizeAt, pageSize, mul_pageSize] at *
    rw [storeLE_outside (by omega), storeLE_outside (by omega)]
  · have grownHeap := heap.malloc ready newSmall (fits moves) malloc
    have inNew : (Block.mk ptr newsize).HasData (ptr + i) := ⟨by simp, by simp only; omega⟩
    have inOld : b.HasData (b.ptr + i) := ⟨by omega, by omega⟩
    have outside := (grownHeap.owns.placed _ (List.mem_cons_self ..)).data_outside ready inNew
    -- back through the release, the copy and the allocation
    rw [(grownHeap.copied ready small).free_data ready outside]
    simp only
    rw [blit_inside (Nat.le_add_right ..) (by omega), Nat.add_sub_cancel_left]
    exact heap.malloc_data ready newSmall (fits moves) malloc (List.mem_cons_self ..) inOld

theorem HeapOk.realloc_others (ready : PmmReady start) (heap : HeapOk start pm (b :: live))
    (small : newsize + pageSize ≤ 2 ^ 64)
    (fits : numPages b.size ≠ numPages newsize → FirstFitTracked pm (numPages newsize + 1))
    (result : kmrealloc pm (some b.ptr) newsize = some (ptr, pm'))
    (member : c ∈ live) (data : c.HasData x) : pm'.mem x = pm.mem x := by
  have placed := heap.owns.placed c (List.mem_cons_of_mem _ member)
  have covers := (placed.data_page data).2
  have after := heap.realloc ready small fits result
  -- neither the old block nor the new one has a page of the other
  refine heap.realloc_outside ready small fits result (placed.data_outside ready data) ?_ ?_
  · intro also
    exact (List.pairwise_cons.mp heap.owns.apart).1 c member _ ⟨also, covers⟩
  · intro also
    exact (List.pairwise_cons.mp after.owns.apart).1 c member _ ⟨also, covers⟩

theorem HeapOk.realloc_freed (ready : PmmReady start) (heap : HeapOk start pm (b :: live))
    (small : newsize + pageSize ≤ 2 ^ 64)
    (fits : numPages b.size ≠ numPages newsize → FirstFitTracked pm (numPages newsize + 1))
    (result : kmrealloc pm (some b.ptr) newsize = some (ptr, pm')) (moved : ptr ≠ b.ptr)
    (covers : b.Covers p) : pm'.isFree p := by
  have newSmall : newsize < 2 ^ 64 := by
    rw [pageSize] at small
    omega
  have placed := heap.owns.placed b (by simp)
  rcases heap.kmrealloc_cases ready newSmall fits result with ⟨_, same, _⟩ |
    ⟨moves, grown, malloc, rfl⟩
  · exact absurd same moved
  · -- of the live blocks only the old one had its pages
    have copied := (heap.malloc ready newSmall (fits moves) malloc).copied ready small
    have apart := (List.pairwise_cons.mp copied.owns.apart).1
    apply ((copied.free ready).owns.bits p (covers.2.trans_le placed.tracked)).mpr
    exact ⟨placed.wasFree p covers, fun d member also => apart d member p ⟨covers, also⟩⟩

/-- `kmrealloc` returns when the room it may need is there. -/
theorem HeapOk.realloc_returns (ready : PmmReady start) (heap : HeapOk start pm (b :: live))
    (fits : numPages b.size ≠ numPages newsize → FirstFitTracked pm (numPages newsize + 1)) :
    ∃ ptr pm', kmrealloc pm (some b.ptr) newsize = some (ptr, pm') := by
  rw [kmrealloc]
  simp only [(heap.owns.placed b (by simp)).ptr_sub, (heap.recorded b (by simp)).size]
  split
  · exact ⟨_, _, rfl⟩
  · next moves =>
    obtain ⟨q, taken, _, _, got⟩ := heap.kmalloc_takes ready (fits moves)
    rw [got]
    exact ⟨_, _, rfl⟩

/-! ## One reallocation -/

def Sized (live : List Block) : Prop := ∀ b ∈ live, b.size + pageSize ≤ 2 ^ 64

/-- What `kmrealloc` of the block did when it returned `ptr`: the heap is sound with a block of the
    new size in the place of the old one. -/
structure Reallocated (start : PhysMem) (h : Heap) (b : Block) (newsize ptr : Nat) (pm : PhysMem) :
    Prop where
  sound : HeapSound start.Tracked start ⟨pm, ⟨ptr, newsize⟩ :: without h.live (some b.ptr)⟩
  recorded : (Block.mk ptr newsize).Recorded pm
  bytes : ∀ i < min newsize b.size, pm.mem (ptr + i) = h.pm.mem (b.ptr + i)
  freed : ptr ≠ b.ptr → ∀ p, b.Covers p → pm.isFree p
  others : ∀ c ∈ h.live, c ≠ b → ∀ x, c.HasData x → pm.mem x = h.pm.mem x

/-- Two live blocks have two pointers. -/
theorem Owns.ptr_injective (owns : Owns start pm live) (bMember : b ∈ live) (cMember : c ∈ live)
    (same : b.ptr = c.ptr) : b = c := by
  by_contra different
  have first : b.first = c.first := by rw [Block.first, same, Block.first]
  exact owns.apart_of_ne bMember cMember different b.first
    ⟨⟨le_rfl, by rw [Block.pages]; omega⟩, ⟨first.ge, by rw [first, Block.pages]; omega⟩⟩

/-- A live block before all the others. -/
theorem Owns.perm_block (owns : Owns start pm live) (member : b ∈ live) :
    live.Perm (b :: without live (some b.ptr)) := by
  obtain ⟨c, cMember, same, perm⟩ := @perm_without live b.ptr ⟨b, member, rfl⟩
  obtain rfl := owns.ptr_injective cMember member same
  exact perm

theorem HeapOk.reallocated {h : Heap} (ready : PmmReady start) (heap : HeapOk start h.pm h.live)
    (sized : Sized h.live) (member : b ∈ h.live) (small : newsize + pageSize ≤ 2 ^ 64)
    (fits : h.FitsTracked (.realloc (some b.ptr) newsize)) :
    ∃ ptr pm, kmrealloc h.pm (some b.ptr) newsize = some (ptr, pm) ∧
      Reallocated start h b newsize ptr pm := by
  have perm := heap.owns.perm_block member
  have front := heap.perm perm
  have room := fits b member rfl
  obtain ⟨ptr, pm, result⟩ := front.realloc_returns ready room
  have after := front.realloc ready small room result
  refine ⟨ptr, pm, result, after.sound ready, after.recorded _ (List.mem_cons_self ..), ?_, ?_, ?_⟩
  · intro i inside
    exact front.realloc_data ready small (sized b member) room result inside
  · intro moved p covers
    exact front.realloc_freed ready small room result moved covers
  · intro c also different x data
    rcases List.mem_cons.mp (perm.mem_iff.mp also) with same | other
    · exact absurd same different
    · exact front.realloc_others ready small room result other data

/-! ## Chains of reallocations -/

/-- The call is about other blocks: it does not resize, free or write this one. -/
def Block.Spared (b : Block) : HeapCall → Prop
  | .malloc _ => True
  | .realloc addr _ => addr ≠ some b.ptr
  | .free addr => addr ≠ b.ptr
  | .write addr _ => ¬ b.HasData addr

theorem HeapOk.step_spared {before after : Heap} {call : HeapCall} (ready : PmmReady start)
    (heap : HeapOk start before.pm before.live) (allowed : before.Allowed call)
    (fits : before.FitsTracked call) (member : c ∈ before.live) (spared : c.Spared call)
    (stepped : before.step call = some after) :
    c ∈ after.live ∧ ∀ x, c.HasData x → after.pm.mem x = before.pm.mem x := by
  cases call with
  | malloc size =>
    obtain ⟨⟨ptr, pm⟩, result, rfl⟩ := Option.map_eq_some_iff.mp stepped
    have small : size < 2 ^ 64 := by
      have bound : size + pageSize ≤ 2 ^ 64 := allowed
      rw [pageSize] at bound
      omega
    exact ⟨List.mem_cons_of_mem _ member,
      fun x data => heap.malloc_data ready small fits result member data⟩
  | realloc addr newsize =>
    obtain ⟨⟨ptr, pm⟩, result, rfl⟩ := Option.map_eq_some_iff.mp stepped
    obtain ⟨small, present⟩ := allowed
    cases addr with
    | none =>
      -- `realloc` of NULL is an allocation
      have nothing : without before.live none = before.live := List.eraseP_of_forall_not (by simp)
      have newSmall : newsize < 2 ^ 64 := by
        rw [pageSize] at small
        omega
      simp only [nothing]
      exact ⟨List.mem_cons_of_mem _ member,
        fun x data => heap.malloc_data ready newSmall fits result member data⟩
    | some addr =>
      obtain ⟨b, bMember, rfl, perm⟩ := perm_without (present addr rfl)
      rcases List.mem_cons.mp (perm.mem_iff.mp member) with same | other
      · subst same
        exact absurd rfl spared
      · exact ⟨List.mem_cons_of_mem _ other, fun x data =>
          (heap.perm perm).realloc_others ready small (fits b bMember rfl) result other data⟩
  | free addr =>
    obtain rfl := Option.some.inj stepped
    obtain ⟨b, _, rfl, perm⟩ := perm_without allowed
    rcases List.mem_cons.mp (perm.mem_iff.mp member) with same | other
    · subst same
      exact absurd rfl spared
    · exact ⟨other, fun x data =>
        (heap.perm perm).free_data ready ((heap.owns.placed c member).data_outside ready data)⟩
  | write addr byte =>
    obtain rfl := Option.some.inj stepped
    refine ⟨member, fun x data => fill_outside ?_⟩
    -- the byte is not in the data of the block
    have different : x ≠ addr := fun same => spared (same ▸ data)
    omega

/-- A run of the heap from `h` in which the block `b` becomes the block of the second argument, the
    client resizing it and nobody else touching it; the last argument is the smallest size it had
    on the way. -/
inductive Follows (h : Heap) (b : Block) : Heap → Block → Nat → Prop
  | refl : Follows h b h b b.size
  | other {before after : Heap} {c : Block} {kept : Nat} {call : HeapCall} :
      Follows h b before c kept → before.Allowed call → before.FitsTracked call →
      c.Spared call → before.step call = some after → Follows h b after c kept
  | realloc {before : Heap} {c : Block} {kept newsize ptr : Nat} {pm : PhysMem} :
      Follows h b before c kept → before.Allowed (.realloc (some c.ptr) newsize) →
      before.FitsTracked (.realloc (some c.ptr) newsize) →
      kmrealloc before.pm (some c.ptr) newsize = some (ptr, pm) →
      Follows h b ⟨pm, ⟨ptr, newsize⟩ :: without before.live (some c.ptr)⟩ ⟨ptr, newsize⟩
        (min newsize kept)

theorem Sized.step {before after : Heap} {call : HeapCall} (sized : Sized before.live)
    (allowed : before.Allowed call) (stepped : before.step call = some after) :
    Sized after.live := by
  cases call with
  | malloc size =>
    obtain ⟨⟨ptr, pm⟩, _, rfl⟩ := Option.map_eq_some_iff.mp stepped
    exact List.forall_mem_cons.mpr ⟨allowed, sized⟩
  | realloc addr newsize =>
    obtain ⟨⟨ptr, pm⟩, _, rfl⟩ := Option.map_eq_some_iff.mp stepped
    exact List.forall_mem_cons.mpr
      ⟨allowed.1, fun b member => sized b (List.mem_of_mem_eraseP member)⟩
  | free addr =>
    obtain rfl := Option.some.inj stepped
    exact fun b member => sized b (List.mem_of_mem_eraseP member)
  | write addr byte =>
    obtain rfl := Option.some.inj stepped
    exact sized

theorem HeapRun.sized {h : Heap} (run : HeapRun start h) : Sized h.live :=
  run.invariant (fun h => Sized h.live) (fun _ member => by cases member)
    fun _ _ _ sized allowed stepped => sized.step allowed.1 stepped

structure Kept (h : Heap) (b : Block) (h' : Heap) (c : Block) (kept : Nat) : Prop where
  live : c ∈ h'.live
  fits : kept ≤ c.size
  bytes : ∀ i < kept, h'.pm.mem (c.ptr + i) = h.pm.mem (b.ptr + i)

theorem Follows.kept {h h' : Heap} {kept : Nat} (ready : PmmReady start)
    (heap : HeapOk start h.pm h.live) (sized : Sized h.live) (member : b ∈ h.live)
    (follows : Follows h b h' c kept) :
    HeapOk start h'.pm h'.live ∧ Sized h'.live ∧ Kept h b h' c kept := by
  induction follows with
  | refl => exact ⟨heap, sized, member, le_rfl, fun _ _ => rfl⟩
  | @other before after c kept call _ allowed fits spared stepped inductionHypothesis =>
    obtain ⟨heap, sized, held⟩ := inductionHypothesis
    obtain ⟨live, same⟩ := heap.step_spared ready allowed fits held.live spared stepped
    refine ⟨heap.step ready allowed fits stepped, sized.step allowed stepped, live, held.fits, ?_⟩
    intro i inside
    have fit := le_pageAlignUp c.size (sized c held.live)
    have bound := held.fits
    rw [same _ ⟨by omega, by omega⟩, held.bytes i inside]
  | @realloc before c kept newsize ptr pm _ allowed fits result inductionHypothesis =>
    obtain ⟨heap, sized, held⟩ := inductionHypothesis
    have stepped : before.step (.realloc (some c.ptr) newsize) =
        some ⟨pm, ⟨ptr, newsize⟩ :: without before.live (some c.ptr)⟩ := by
      rw [Heap.step, result]
      rfl
    obtain ⟨_, _, returned, reallocated⟩ := heap.reallocated ready sized held.live allowed.1 fits
    rw [result] at returned
    cases returned
    refine ⟨heap.step ready allowed fits stepped, sized.step allowed stepped,
      List.mem_cons_self .., Nat.min_le_left .., ?_⟩
    intro i inside
    have bound := held.fits
    rw [reallocated.bytes i (by omega), held.bytes i (by omega)]

/-- In every run whose allocations find their first window in the pages of the bitmap, resizing a
    live block keeps its first bytes and everybody else's, and so does a chain of resizes. -/
theorem realloc_runs {map : List MemmapEntry} {mem : Mem} {h : Heap} (ok : MapOk map)
    (initialised : pmmInit map mem = some start) (run : HeapRun start h) (member : b ∈ h.live) :
    (∀ newsize, h.Allowed (.realloc (some b.ptr) newsize) →
      h.FitsTracked (.realloc (some b.ptr) newsize) →
      ∃ ptr pm, kmrealloc h.pm (some b.ptr) newsize = some (ptr, pm) ∧
        Reallocated start h b newsize ptr pm) ∧
    ∀ h' c kept, Follows h b h' c kept → Kept h b h' c kept := by
  obtain ⟨_, ready, _, _⟩ := pmmInit_spec ok initialised
  have heap := run.heapOk ready
  constructor
  · intro newsize allowed fits
    exact heap.reallocated ready run.sized member allowed.1 fits
  · intro h' c kept follows
    exact (follows.kept ready heap run.sized member).2.2

/-- The first block of the small machine stays where it is when it grows within its page. -/
theorem realloc_runs_smallMap :
    ∃ start h, pmmInit smallMap (fun _ => 0) = some start ∧ h.live = [firstBlock] ∧
      (∃ ptr pm, kmrealloc h.pm (some firstBlock.ptr) 2 = some (ptr, pm) ∧
        Reallocated start h firstBlock 2 ptr pm) ∧
      ∀ h' c kept, Follows h firstBlock h' c kept → Kept h firstBlock h' c kept := by
  obtain ⟨start, initialised, small⟩ := smallStart
  obtain ⟨fits, pm, first, _⟩ := small.first_malloc
  have step : Heap.step ⟨start, []⟩ (.malloc 1) = some ⟨pm, [firstBlock]⟩ := by
    rw [Heap.step, first]
    rfl
  have allowed : Heap.Allowed ⟨start, []⟩ (.malloc 1) := by
    show 1 + pageSize ≤ 2 ^ 64
    decide
  have run : HeapRun start ⟨pm, [firstBlock]⟩ := .tail .refl ⟨allowed, fits.tracked⟩ step
  obtain ⟨resized, chains⟩ := @realloc_runs start firstBlock smallMap (fun _ => 0) _ smallMap_ok
    initialised run (by simp)
  refine ⟨start, _, initialised, rfl, resized 2 ⟨by decide, ?_⟩ ?_, chains⟩
  · rintro addr ⟨⟩
    exact ⟨firstBlock, by simp, rfl⟩
  · intro b member _ moves
    obtain rfl := List.mem_singleton.mp member
    exact absurd (by decide) moves

/-! ## A machine with five pages free -/

def wideMap : List MemmapEntry :=
  [⟨0x100000, 0x5000, .usable⟩, ⟨0x7FFF000, 0x1000, .usable⟩]

theorem wideMap_ok : MapOk wideMap := by
  constructor <;> decide

theorem usable_wideMap : Usable wideMap p ↔ 256 ≤ p ∧ p < 261 ∨ p = 32767 := by
  simp only [Usable, wideMap, List.mem_cons, List.not_mem_nil, or_false, exists_eq_or_imp,
    exists_eq_left, MemmapEntry.aboveLow, MemmapEntry.top, u64, pageSize, mul_pageSize]
  norm_num
  omega

def wideBlock : Block := ⟨258 * 4096, 8193⟩

theorem wideBlock_covers : wideBlock.Covers p ↔ 257 ≤ p ∧ p < 261 := by
  rw [Block.Covers, show wideBlock.first = 257 by decide, show wideBlock.pages = 4 by decide]

theorem wideStart :
    ∃ start pm, pmmInit wideMap (fun _ => 0) = some start ∧ start.physLimit = 0x8000000 ∧
      start.bitmap = 0x100000 ∧ FirstFitTracked start (numPages 8193 + 1) ∧
      kmalloc start 8193 = some (wideBlock.ptr, pm) ∧ HeapOk start pm [wideBlock] ∧
      ∀ p < 32768, pm.isFree p ↔ p = 32767 := by
  have answer : (pmmInit wideMap fun _ => 0).map PhysMem.bitmap = some 0x100000 := by
    decide +kernel
  obtain ⟨start, initialised, bitmap⟩ := Option.map_eq_some_iff.mp answer
  obtain ⟨limit, ready, _, free⟩ := pmmInit_spec wideMap_ok initialised
  have physLimit : start.physLimit = 0x8000000 := limit.trans (by decide)
  have bmSize : start.bmSize = 4096 := by rw [PhysMem.bmSize, physLimit]; decide
  have isFree : ∀ p < 32768, start.isFree p ↔ 257 ≤ p ∧ p < 261 ∨ p = 32767 := by
    intro p below
    rw [free p (by rw [PhysMem.Tracked, bmSize]; exact below)]
    have pages : numPages 4096 = 1 := by decide
    rw [usable_wideMap, PhysMem.Storage, bitmap, bmSize, pages]
    simp only [pageSize, mul_pageSize]
    omega
  have window : start.FirstWindow 257 4 := by
    refine ⟨fun p low high => (isFree p (by omega)).mpr (by omega), fun j below free => ?_⟩
    have := (isFree j (by omega)).mp (free j le_rfl (by omega))
    omega
  have fits : FirstFitTracked start (numPages 8193 + 1) := ⟨257, window, by rw [bmSize]; decide⟩
  obtain ⟨_, _, result⟩ := @kmalloc_of_first start 257 8193 (by decide)
    (by rw [PhysMem.InLimit, physLimit]; decide) window
  have heap := HeapOk.malloc ready (.initially ready) (by decide) fits result
  refine ⟨start, _, initialised, physLimit, bitmap, fits, result, heap, fun p below => ?_⟩
  rw [heap.owns.bits p (by rw [PhysMem.Tracked, bmSize]; exact below), isFree p below]
  have covers := @wideBlock_covers p
  simp only [wideBlock] at covers
  simp only [List.forall_mem_singleton, pageSize, covers]
  omega

/-- With one page less recorded behind the allocation, one page too few is freed. -/
theorem wideBlock_realloc {grown : PhysMem} (recorded : wideBlock.Recorded pm)
    (taken : TakenBehind pm grown (numPages wideBlock.size)) (used : pm.isFree 260 = false) :
    ∃ pm', kmrealloc pm (some wideBlock.ptr) 1 = some (32768 * 4096, pm') ∧
      pm'.isFree 260 = false := by
  have page : sub64 wideBlock.ptr pageSize = 257 * pageSize := by decide
  have moves : ¬ numPages 8193 = numPages 1 := by decide
  have size : load64 pm (sizeAt (257 * pageSize)) = 8193 := recorded.size
  have again : load64 grown (sizeAt (257 * pageSize)) = 8193 := taken.size.trans recorded.size
  -- the state after the copy of one byte
  generalize state : ({ grown with
    mem := blit grown.mem (32768 * 4096) grown.mem wideBlock.ptr 1 } : PhysMem) = copied
  have result : kmrealloc pm (some wideBlock.ptr) 1 =
      some (32768 * 4096, kmfree copied wideBlock.ptr) := by
    rw [kmrealloc]
    simp only [page, size, if_neg moves, taken.result, Option.bind_eq_bind, Option.bind_some, again,
      ← state]
    rfl
  have same : ∀ x < 32768 * 4096, copied.mem x = grown.mem x := by
    intro x below
    rw [← state]
    exact blit_outside (.inl below)
  have word : load64 copied (257 * pageSize) = 2 :=
    (loadLE_congr fun x low high => same x (by rw [pageSize] at high; omega)).trans taken.lessened
  have bitmap : copied.bitmap = 0x100000 := by
    rw [← state]
    exact taken.bitmap
  have freeSize : copied.freeSize < 2 ^ 64 := by
    rw [← state]
    exact taken.freeSize
  have kept : copied.isFree 260 = false := by
    rw [← used, ← taken.isFree 260 (by decide), PhysMem.isFree, PhysMem.isFree, bitmap, taken.bitmap]
    exact bitAt_congr (same _ (by decide))
  refine ⟨_, result, ?_⟩
  obtain ⟨_, _, bits⟩ := @pmmFree_spec 257 3 copied (by decide) freeSize
  rw [@kmfree_eq copied 257 _ 2 page word, show u64 (2 + 1) = 3 by decide, bits,
    if_neg (by decide), kept]

/-- Resized to one byte, the block moves to the last page of memory and the one behind it.  The bit
    of that page is the lowest one of its own `numpages`, so one page too few is freed. -/
theorem realloc_loses_page :
    ∃ start h, pmmInit wideMap (fun _ => 0) = some start ∧ HeapRun start h ∧
      wideBlock ∈ h.live ∧ h.Allowed (.realloc (some wideBlock.ptr) 1) ∧
      ∃ ptr pm, kmrealloc h.pm (some wideBlock.ptr) 1 = some (ptr, pm) ∧ ptr ≠ wideBlock.ptr ∧
        wideBlock.Covers 260 ∧ pm.isFree 260 = false := by
  obtain ⟨start, pm, initialised, physLimit, bitmap, fits, first, heap, isFree⟩ := wideStart
  have recorded := heap.recorded wideBlock (by simp)
  obtain ⟨grown, taken⟩ := taken_behind (heap.owns.bitmap.trans bitmap)
    (heap.owns.physLimit.trans physLimit) heap.owns.small isFree recorded.numpages (by decide)
    (by decide)
  have step : Heap.step ⟨start, []⟩ (.malloc 8193) = some ⟨pm, [wideBlock]⟩ := by
    rw [Heap.step, first]
    rfl
  have allowed : Heap.Allowed ⟨start, []⟩ (.malloc 8193) := by
    show 8193 + pageSize ≤ 2 ^ 64
    decide
  have used : pm.isFree 260 = false := by
    rw [← Bool.not_eq_true, isFree 260 (by decide)]
    decide
  obtain ⟨pm', result, lost⟩ := wideBlock_realloc recorded taken used
  refine ⟨start, ⟨pm, [wideBlock]⟩, initialised, .tail .refl ⟨allowed, fits⟩ step, by simp,
    ⟨by decide, ?_⟩, _, pm', result, by decide, wideBlock_covers.mpr (by decide), lost⟩
  rintro addr ⟨⟩
  exact ⟨wideBlock, by simp, rfl⟩

end HanOS.Lib
