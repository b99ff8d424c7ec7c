import HanOS.Foundations.Run
import HanOS.Lib.HeapBlocks

/-!
# Runs of the kernel heap

Any sequence of `kmalloc`, `kmrealloc`, `kmfree` and writes of the clients into their data,
from the state `pmm_init` leaves.  `pmm_get` tests only the first page of a window against
the end of memory; a window that reaches behind the pages with a bit in the bitmap reads its
answer from other memory, such as the metadata of a block.  And up to seven pages at the end of
memory have their bits in the byte behind the bitmap, which a block may be given.  As long as
the first free window of every allocation has its bits in the bitmap and does not hold that
byte, the heap keeps its books (`heap_runs`); otherwise blocks leak (`window_behind_bitmap`).
-/

namespace HanOS.Lib

open HanOS.Foundations HanOS.Core

/-- The blocks are the pages in use, and the metadata of each is right. -/
structure HeapOk (start pm : PhysMem) (live : List Block) : Prop where
  owns : Owns start pm live
  recorded : ∀ b ∈ live, b.Recorded pm

variable {start pm pm' : PhysMem} {b : Block} {live : List Block} {mem : Mem}
variable {q n x addr size ptr newsize : Nat}

theorem HeapOk.perm {live' : List Block} (heap : HeapOk start pm live) (same : live.Perm live') :
    HeapOk start pm live' :=
  ⟨heap.owns.perm same, fun b member => heap.recorded b (same.mem_iff.mpr member)⟩

theorem Recorded.frame (recorded : b.Recorded pm)
    (same : ∀ x, b.first * pageSize ≤ x → x < b.first * pageSize + pageSize →
      pm'.mem x = pm.mem x) : b.Recorded pm' := by
  have word : ∀ a, b.first * pageSize ≤ a → a + 8 ≤ b.first * pageSize + pageSize →
      load64 pm' a = load64 pm a := fun a low high =>
    loadLE_congr fun x above below => same x (by omega) (by omega)
  refine ⟨(word _ ?_ ?_).trans recorded.numpages, (word _ ?_ ?_).trans recorded.size⟩ <;>
    simp only [numpagesAt, sizeAt, pageSize] <;> omega

/-- What is written to data pages matters to nobody. -/
theorem HeapOk.frame (ready : PmmReady start) (heap : HeapOk start pm live)
    (same : ∀ x, (∀ b ∈ live, ¬ b.HasData x) → mem x = pm.mem x) :
    HeapOk start { pm with mem := mem } live where
  owns := heap.owns.frame fun x inside => same x fun b member data =>
    (heap.owns.placed b member).data_outside ready data inside
  recorded b member := by
    refine Recorded.frame (heap.recorded b member) fun x low high => same x fun c other data => ?_
    have page : x / pageSize = b.first := by
      simp only [pageSize, mul_pageSize] at *
      omega
    have covers := (heap.owns.placed c other).data_page data
    rw [page] at covers
    by_cases different : b = c
    · subst different
      omega
    · exact heap.owns.apart_of_ne member other different b.first ⟨⟨le_rfl, by rw [Block.pages]; omega⟩, covers.2⟩

theorem HeapOk.record (ready : PmmReady start) (owns : Owns start pm (b :: live))
    (recorded : ∀ c ∈ live, c.Recorded pm) (written : pm' = { pm with mem := pm'.mem })
    (same : ∀ x, x < b.first * pageSize ∨ b.first * pageSize + pageSize ≤ x →
      pm'.mem x = pm.mem x) (right : b.Recorded pm') : HeapOk start pm' (b :: live) := by
  refine ⟨written ▸ owns.frame fun x inside => same x ?_, ?_⟩
  · by_contra within
    exact (owns.placed b (by simp)).metadata_outside ready (by omega) (by omega) inside
  · rintro c (_ | ⟨_, member⟩)
    · exact right
    · refine Recorded.frame (recorded c member) fun x low high => same x ?_
      have different : b.first ≠ c.first := fun equal =>
        (List.pairwise_cons.mp owns.apart).1 c member b.first
          ⟨⟨le_rfl, by rw [Block.pages]; omega⟩, ⟨equal.ge, by rw [Block.pages]; omega⟩⟩
      simp only [pageSize, mul_pageSize] at *
      omega

/-! ## The operations -/

/-- The first free window of `n` pages has all its bits in the bitmap. -/
def FirstFitTracked (pm : PhysMem) (n : Nat) : Prop :=
  ∃ q, pm.FirstWindow q n ∧ q + n ≤ 8 * pm.bmSize

/-- Nor does the window hold the byte behind the bitmap where pages have their bits there. -/
def FirstFitInside (pm : PhysMem) (n : Nat) : Prop :=
  ∃ q, pm.FirstWindow q n ∧ q + n ≤ 8 * pm.bmSize ∧
    (pm.HasTail → ¬ (q ≤ pm.tailByte / pageSize ∧ pm.tailByte / pageSize < q + n))

theorem FirstFitInside.tracked {n : Nat} (fits : FirstFitInside pm n) : FirstFitTracked pm n := by
  obtain ⟨q, window, inside, _⟩ := fits
  exact ⟨q, window, inside⟩

/-- `kmalloc` takes the first window and records the block on its first page. -/
theorem kmalloc_of_first (nowrap : (q + (numPages size + 1)) * pageSize < 2 ^ 64)
    (inLimit : pm.InLimit q) (first : pm.FirstWindow q (numPages size + 1)) :
    ∃ taken, Allocated pm taken q (numPages size + 1) ∧
      kmalloc pm size = some (q * pageSize + pageSize,
        store64 (store64 taken (numpagesAt (q * pageSize)) (numPages size))
          (sizeAt (q * pageSize)) size) := by
  have pages := numPages_lt size
  obtain ⟨taken, got, allocated⟩ := pmmGet_first nowrap inLimit first
  refine ⟨taken, allocated, ?_⟩
  rw [kmalloc, u64_of_lt (by omega), got]
  rfl

theorem HeapOk.kmalloc_window (ready : PmmReady start) (heap : HeapOk start pm live)
    (window : pm.FirstWindow q (numPages size + 1))
    (tracked : q + (numPages size + 1) ≤ 8 * pm.bmSize) :
    ∃ taken, Allocated pm taken q (numPages size + 1) ∧
      kmalloc pm size = some (q * pageSize + pageSize,
        store64 (store64 taken (numpagesAt (q * pageSize)) (numPages size))
          (sizeAt (q * pageSize)) size) := by
  rw [heap.owns.bmSize] at tracked
  have bound := bmSize_pages ready
  have nowrap : (q + (numPages size + 1)) * pageSize < 2 ^ 64 :=
    (Nat.mul_le_mul_right _ tracked).trans_lt bound
  have inLimit : pm.InLimit q := by
    rw [PhysMem.InLimit, heap.owns.physLimit]
    simp only [PhysMem.bmSize, bmpPagesPerByte, pageSize, mul_pageSize] at *
    omega
  exact kmalloc_of_first nowrap inLimit window

/-- `kmalloc` finds room when the bits of the first window are in the bitmap. -/
theorem HeapOk.kmalloc_takes (ready : PmmReady start) (heap : HeapOk start pm live)
    (fits : FirstFitTracked pm (numPages size + 1)) :
    ∃ q taken, Allocated pm taken q (numPages size + 1) ∧
      q + (numPages size + 1) ≤ 8 * start.bmSize ∧
      kmalloc pm size = some (q * pageSize + pageSize,
        store64 (store64 taken (numpagesAt (q * pageSize)) (numPages size))
          (sizeAt (q * pageSize)) size) := by
  obtain ⟨q, window, tracked⟩ := fits
  obtain ⟨taken, allocated, got⟩ := heap.kmalloc_window ready window tracked
  exact ⟨q, taken, allocated, heap.owns.bmSize ▸ tracked, got⟩

/-- The window `kmalloc` took. -/
theorem HeapOk.kmalloc_eq (ready : PmmReady start) (heap : HeapOk start pm live)
    (fits : FirstFitTracked pm (numPages size + 1)) (result : kmalloc pm size = some (ptr, pm')) :
    ∃ q taken, Allocated pm taken q (numPages size + 1) ∧
      q + (numPages size + 1) ≤ 8 * start.bmSize ∧ ptr = q * pageSize + pageSize ∧
      pm' = store64 (store64 taken (numpagesAt (q * pageSize)) (numPages size))
        (sizeAt (q * pageSize)) size := by
  obtain ⟨q, taken, allocated, tracked, got⟩ := heap.kmalloc_takes ready fits
  rw [got, Option.some.injEq, Prod.mk.injEq] at result
  exact ⟨q, taken, allocated, tracked, result.1.symm, result.2.symm⟩

theorem HeapOk.malloc (ready : PmmReady start) (heap : HeapOk start pm live) (small : size < 2 ^ 64)
    (fits : FirstFitTracked pm (numPages size + 1)) (result : kmalloc pm size = some (ptr, pm')) :
    HeapOk start pm' (⟨ptr, size⟩ :: live) := by
  obtain ⟨q, taken, allocated, tracked, rfl, rfl⟩ := heap.kmalloc_eq ready fits result
  have pages := numPages_lt size
  generalize block : (⟨q * pageSize + pageSize, size⟩ : Block) = b
  have first : b.first = q := by
    subst block
    simp only [Block.first, pageSize, mul_pageSize]
    omega
  have sizeOf_ : b.size = size := by subst block; rfl
  have owns : Owns start taken (b :: live) := by
    refine heap.owns.alloc ready ?_ ?_ ?_
    · rw [first, Block.pages, sizeOf_]
      exact allocated
    · rw [first]
      subst block
      ring
    · rw [first, Block.pages, sizeOf_]
      exact tracked
  refine HeapOk.record ready owns (fun c member => ?_) rfl (fun x outside => ?_) ?_
  · -- the bits of the new block are not in the metadata of an old one
    refine Recorded.frame (heap.recorded c member) fun x low high => allocated.same.outside ?_ ?_
    · rw [heap.owns.bmSize]
      exact tracked
    · rw [heap.owns.inBitmap_iff]
      exact (heap.owns.placed c member).metadata_outside ready low high
  · rw [first] at outside
    have apart : x < q * pageSize ∨ q * pageSize + 16 ≤ x :=
      outside.imp_right (Nat.add_le_add_left (by decide) _).trans
    simp only [store64, numpagesAt, sizeAt]
    rw [storeLE_outside (by omega), storeLE_outside (by omega)]
  · rw [← first, ← sizeOf_]
    have apart : numpagesAt (b.first * pageSize) + 8 ≤ sizeAt (b.first * pageSize) := by
      rw [numpagesAt, sizeAt]
    rw [← sizeOf_] at small pages
    exact ⟨(load64_store64_apart (.inl apart)).trans (load64_store64 (by omega)),
      load64_store64 small⟩

/-- The pages of a block that starts behind the page `q`. -/
theorem covers_of_page {p : Nat} :
    (Block.mk (q * pageSize + pageSize) size).Covers p ↔ q ≤ p ∧ p < q + (numPages size + 1) := by
  have first : (Block.mk (q * pageSize + pageSize) size).first = q := by
    simp only [Block.first, pageSize, mul_pageSize]
    omega
  rw [Block.Covers, Block.pages, first]

/-- Of the memory outside the bitmap, an allocation writes to the new block only. -/
theorem HeapOk.malloc_outside (ready : PmmReady start) (heap : HeapOk start pm live)
    (fits : FirstFitTracked pm (numPages size + 1)) (result : kmalloc pm size = some (ptr, pm'))
    (outside : ¬ start.InBitmap x) (apart : ¬ (Block.mk ptr size).Covers (x / pageSize)) :
    pm'.mem x = pm.mem x := by
  obtain ⟨q, taken, allocated, tracked, rfl, rfl⟩ := heap.kmalloc_eq ready fits result
  rw [covers_of_page] at apart
  have away : x < q * pageSize ∨ q * pageSize + 16 ≤ x := by
    by_contra within
    apply apart
    simp only [pageSize, mul_pageSize] at *
    omega
  simp only [store64, numpagesAt, sizeAt]
  rw [storeLE_outside (by omega), storeLE_outside (by omega)]
  refine allocated.same.outside ?_ ?_
  · rw [heap.owns.bmSize]
    exact tracked
  · rw [heap.owns.inBitmap_iff]
    exact outside

theorem HeapOk.kmfree_eq (heap : HeapOk start pm (b :: live)) :
    kmfree pm b.ptr = pmmFree pm (b.first * pageSize) b.pages := by
  have pages := numPages_lt b.size
  have count : u64 (load64 pm (numpagesAt (b.first * pageSize)) + 1) = b.pages := by
    rw [(heap.recorded b (by simp)).numpages, u64_of_lt (by omega), Block.pages]
  rw [kmfree, (heap.owns.placed b (by simp)).ptr_sub]
  simp only [count]

theorem HeapOk.free_data (ready : PmmReady start) (heap : HeapOk start pm (b :: live))
    (outside : ¬ start.InBitmap x) : (kmfree pm b.ptr).mem x = pm.mem x := by
  have placed := heap.owns.placed b (by simp)
  have nowrap : (b.first + b.pages) * pageSize < 2 ^ 64 :=
    (Nat.mul_le_mul_right _ placed.tracked).trans_lt (bmSize_pages ready)
  rw [heap.kmfree_eq]
  apply (pmmFree_spec pm nowrap heap.owns.small).1.outside
  · rw [heap.owns.bmSize]
    exact placed.tracked
  · rw [heap.owns.inBitmap_iff]
    exact outside

theorem HeapOk.free (ready : PmmReady start) (heap : HeapOk start pm (b :: live)) :
    HeapOk start (kmfree pm b.ptr) live := by
  constructor
  · rw [heap.kmfree_eq]
    exact heap.owns.free ready
  · intro c member
    apply Recorded.frame (heap.recorded c (by simp [member]))
    intro x low high
    apply heap.free_data ready
    exact (heap.owns.placed c (by simp [member])).metadata_outside ready low high

theorem HeapOk.resize (ready : PmmReady start) (heap : HeapOk start pm (b :: live))
    (small : newsize < 2 ^ 64) (same : numPages b.size = numPages newsize) :
    HeapOk start (store64 (store64 pm (sizeAt (b.first * pageSize)) newsize)
      (numpagesAt (b.first * pageSize)) (numPages newsize)) (⟨b.ptr, newsize⟩ :: live) := by
  have pages := numPages_lt newsize
  have apart : numpagesAt (b.first * pageSize) + 8 ≤ sizeAt (b.first * pageSize) := by
    rw [numpagesAt, sizeAt]
  refine HeapOk.record ready (heap.owns.resize same)
    (fun c member => heap.recorded c (by simp [member])) rfl (fun x outside => ?_)
    ⟨load64_store64 (by omega), (load64_store64_apart (.inr apart)).trans (load64_store64 small)⟩
  have away : x < b.first * pageSize ∨ b.first * pageSize + 16 ≤ x :=
    outside.imp_right (Nat.add_le_add_left (by decide) _).trans
  simp only [store64, numpagesAt, sizeAt]
  rw [storeLE_outside (by omega), storeLE_outside (by omega)]

/-- `kmrealloc` of a live block: it stays where it is, or its bytes go to a new block and it is
    freed. -/
theorem HeapOk.kmrealloc_cases (ready : PmmReady start) (heap : HeapOk start pm (b :: live))
    (small : newsize < 2 ^ 64)
    (fits : numPages b.size ≠ numPages newsize → FirstFitTracked pm (numPages newsize + 1))
    (result : kmrealloc pm (some b.ptr) newsize = some (ptr, pm')) :
    (numPages b.size = numPages newsize ∧ ptr = b.ptr ∧
      pm' = store64 (store64 pm (sizeAt (b.first * pageSize)) newsize)
        (numpagesAt (b.first * pageSize)) (numPages newsize)) ∨
    (numPages b.size ≠ numPages newsize ∧ ∃ grown, kmalloc pm newsize = some (ptr, grown) ∧
      pm' = kmfree { grown with mem := blit grown.mem ptr grown.mem b.ptr (min newsize b.size) }
        b.ptr) := by
  rw [kmrealloc] at result
  simp only [(heap.owns.placed b (by simp)).ptr_sub, (heap.recorded b (by simp)).size] at result
  split at result
  · next same =>
    simp only [Option.some.injEq, Prod.mk.injEq] at result
    exact .inl ⟨same, result.1.symm, result.2.symm⟩
  · next moves =>
    obtain ⟨⟨new, grown⟩, malloc, result⟩ := Option.bind_eq_some_iff.mp result
    simp only [Option.some.injEq, Prod.mk.injEq] at result
    obtain ⟨rfl, rfl⟩ := result
    -- the size is read again from behind the allocation
    have record : load64 grown (sizeAt (b.first * pageSize)) = b.size :=
      ((heap.malloc ready small (fits moves) malloc).recorded b (by simp)).size
    have length : (if newsize < b.size then newsize else b.size) = min newsize b.size := by
      rw [Nat.min_def]
      split <;> split <;> omega
    refine .inr ⟨moves, grown, malloc, ?_⟩
    simp only [record, length]

/-- The copy stays in the data of the new block. -/
theorem HeapOk.copied (ready : PmmReady start) (heap : HeapOk start pm (⟨ptr, newsize⟩ :: b :: live))
    (small : newsize + pageSize ≤ 2 ^ 64) :
    HeapOk start { pm with mem := blit pm.mem ptr pm.mem b.ptr (min newsize b.size) }
      (b :: ⟨ptr, newsize⟩ :: live) := by
  refine HeapOk.perm (heap.frame ready fun x outside => blit_outside ?_) (.swap ..)
  have data := outside _ (List.mem_cons_self ..)
  have fit := le_pageAlignUp newsize small
  simp only [Block.HasData] at data
  omega

theorem HeapOk.realloc (ready : PmmReady start) (heap : HeapOk start pm (b :: live))
    (small : newsize + pageSize ≤ 2 ^ 64)
    (fits : numPages b.size ≠ numPages newsize → FirstFitTracked pm (numPages newsize + 1))
    (result : kmrealloc pm (some b.ptr) newsize = some (ptr, pm')) :
    HeapOk start pm' (⟨ptr, newsize⟩ :: live) := by
  have newSmall : newsize < 2 ^ 64 := by
    rw [pageSize] at small
    omega
  rcases heap.kmrealloc_cases ready newSmall fits result with ⟨same, rfl, rfl⟩ |
    ⟨moves, grown, malloc, rfl⟩
  · exact heap.resize ready newSmall same
  · exact ((heap.malloc ready newSmall (fits moves) malloc).copied ready small).free ready

/-- A reallocation writes to the old block or to the new one. -/
theorem HeapOk.realloc_outside (ready : PmmReady start) (heap : HeapOk start pm (b :: live))
    (small : newsize + pageSize ≤ 2 ^ 64)
    (fits : numPages b.size ≠ numPages newsize → FirstFitTracked pm (numPages newsize + 1))
    (result : kmrealloc pm (some b.ptr) newsize = some (ptr, pm')) (outside : ¬ start.InBitmap x)
    (old : ¬ b.Covers (x / pageSize)) (new : ¬ (Block.mk ptr newsize).Covers (x / pageSize)) :
    pm'.mem x = pm.mem x := by
  have newSmall : newsize < 2 ^ 64 := by
    rw [pageSize] at small
    omega
  rcases heap.kmrealloc_cases ready newSmall fits result with ⟨same, rfl, rfl⟩ |
    ⟨moves, grown, malloc, rfl⟩
  · have away : x < b.first * pageSize ∨ b.first * pageSize + 16 ≤ x := by
      by_contra within
      refine old ⟨?_, ?_⟩ <;> simp only [Block.pages, pageSize, mul_pageSize] at * <;> omega
    simp only [store64, numpagesAt, sizeAt]
    rw [storeLE_outside (by omega), storeLE_outside (by omega)]
  · have grownHeap := heap.malloc ready newSmall (fits moves) malloc
    have noData : ¬ (Block.mk ptr newsize).HasData x := fun data =>
      new ((grownHeap.owns.placed _ (List.mem_cons_self ..)).data_page data).2
    have newFit := le_pageAlignUp newsize small
    rw [(grownHeap.copied ready small).free_data ready outside]
    simp only [Block.HasData] at noData
    simp only
    rw [blit_outside (by omega)]
    exact heap.malloc_outside ready (fits moves) malloc outside new

/-! ## Runs -/

structure Heap where
  pm : PhysMem
  live : List Block

inductive HeapCall
  | malloc (size : Nat)
  | realloc (addr : Option Nat) (newsize : Nat)
  | free (addr : Nat)
  | write (addr : Nat) (byte : Byte)

def without (live : List Block) (addr : Option Nat) : List Block :=
  live.eraseP fun b => some b.ptr = addr

def Heap.step (h : Heap) : HeapCall → Option Heap
  | .malloc size => (kmalloc h.pm size).map fun (ptr, pm) => ⟨pm, ⟨ptr, size⟩ :: h.live⟩
  | .realloc addr newsize => (kmrealloc h.pm addr newsize).map fun (ptr, pm) =>
      ⟨pm, ⟨ptr, newsize⟩ :: without h.live addr⟩
  | .free addr => some ⟨kmfree h.pm addr, without h.live (some addr)⟩
  | .write addr byte => some { h with pm := { h.pm with mem := fill h.pm.mem addr 1 byte } }

/-- What clients keep to: pointers are those of live blocks, writes stay in the data of one, and
    rounding a size up to pages does not wrap. -/
def Heap.Allowed (h : Heap) : HeapCall → Prop
  | .malloc size => size + pageSize ≤ 2 ^ 64
  | .realloc addr newsize => newsize + pageSize ≤ 2 ^ 64 ∧ ∀ a ∈ addr, ∃ b ∈ h.live, b.ptr = a
  | .free addr => ∃ b ∈ h.live, b.ptr = addr
  | .write addr _ => ∃ b ∈ h.live, b.HasData addr

/-- What is asked of the memory before a call that allocates pages. -/
def Heap.Fits (fit : PhysMem → Nat → Prop) (h : Heap) : HeapCall → Prop
  | .malloc size => fit h.pm (numPages size + 1)
  | .realloc none newsize => fit h.pm (numPages newsize + 1)
  | .realloc (some addr) newsize =>
      ∀ b ∈ h.live, b.ptr = addr → numPages b.size ≠ numPages newsize → fit h.pm (numPages newsize + 1)
  | .free _ => True
  | .write _ _ => True

def Heap.FitsTracked (h : Heap) (call : HeapCall) : Prop := h.Fits FirstFitTracked call

def Heap.FitsInside (h : Heap) (call : HeapCall) : Prop := h.Fits FirstFitInside call

def HeapRun (start : PhysMem) : Heap → Prop :=
  Run Heap.step (fun h call => h.Allowed call ∧ h.FitsTracked call) ⟨start, []⟩

theorem HeapOk.initially (ready : PmmReady start) : HeapOk start start [] :=
  ⟨⟨rfl, rfl, nofun, .nil, fun _ _ => ⟨fun free => ⟨free, nofun⟩, And.left⟩,
    u64_of_lt ready.freeSize, ready.freeSize⟩, nofun⟩

/-- A pointer takes its block out of the live ones. -/
theorem perm_without (present : ∃ b ∈ live, b.ptr = addr) :
    ∃ b, b ∈ live ∧ b.ptr = addr ∧ live.Perm (b :: without live (some addr)) := by
  obtain ⟨b, member, ptr⟩ := present
  obtain ⟨c, before, after, _, same, split, erased⟩ :=
    List.exists_of_eraseP (p := fun b => some b.ptr = some addr) member (by simp [ptr])
  refine ⟨c, by simp [split], by simpa using same, ?_⟩
  rw [without, erased]
  nth_rewrite 1 [split]
  exact List.perm_middle

theorem HeapOk.step {before after : Heap} {call : HeapCall} (ready : PmmReady start)
    (heap : HeapOk start before.pm before.live) (allowed : before.Allowed call)
    (fits : before.FitsTracked call) (stepped : before.step call = some after) :
    HeapOk start after.pm after.live := by
  cases call with
  | malloc size =>
    obtain ⟨⟨ptr, pm⟩, result, rfl⟩ := Option.map_eq_some_iff.mp stepped
    have small : size + pageSize ≤ 2 ^ 64 := allowed
    exact heap.malloc ready (by simp only [pageSize] at small; omega) fits result
  | realloc addr newsize =>
    obtain ⟨⟨ptr, pm⟩, result, rfl⟩ := Option.map_eq_some_iff.mp stepped
    obtain ⟨small, present⟩ := allowed
    cases addr with
    | none =>
      have nothing : without before.live none = before.live :=
        List.eraseP_of_forall_not (by simp)
      simp only [nothing]
      exact heap.malloc ready (by simp only [pageSize] at small; omega) fits result
    | some addr =>
      obtain ⟨b, member, rfl, same⟩ := perm_without (present addr rfl)
      exact (heap.perm same).realloc ready small (fits b member rfl) result
  | free addr =>
    obtain rfl := Option.some.inj stepped
    obtain ⟨b, _, rfl, same⟩ := perm_without allowed
    exact (heap.perm same).free ready
  | write addr byte =>
    obtain rfl := Option.some.inj stepped
    obtain ⟨b, member, data⟩ := allowed
    refine heap.frame ready fun x outside => fill_outside ?_
    -- the byte is in the data of a live block
    have different : x ≠ addr := fun same => outside b member (same ▸ data)
    omega

/-- Outside the bitmap, a call writes to the blocks before or after it only. -/
theorem HeapOk.step_outside {before after : Heap} {call : HeapCall} (ready : PmmReady start)
    (heap : HeapOk start before.pm before.live) (allowed : before.Allowed call)
    (fits : before.FitsTracked call) (stepped : before.step call = some after)
    (outside : ¬ start.InBitmap x) (old : ∀ b ∈ before.live, ¬ b.Covers (x / pageSize))
    (new : ∀ b ∈ after.live, ¬ b.Covers (x / pageSize)) : after.pm.mem x = before.pm.mem x := by
  cases call with
  | malloc size =>
    obtain ⟨⟨ptr, pm⟩, result, rfl⟩ := Option.map_eq_some_iff.mp stepped
    exact heap.malloc_outside ready fits result outside (new _ (List.mem_cons_self ..))
  | realloc addr newsize =>
    obtain ⟨⟨ptr, pm⟩, result, rfl⟩ := Option.map_eq_some_iff.mp stepped
    obtain ⟨small, present⟩ := allowed
    cases addr with
    | none => exact heap.malloc_outside ready fits result outside (new _ (List.mem_cons_self ..))
    | some addr =>
      obtain ⟨b, member, rfl, same⟩ := perm_without (present addr rfl)
      exact (heap.perm same).realloc_outside ready small (fits b member rfl) result outside
        (old b member) (new _ (List.mem_cons_self ..))
  | free addr =>
    obtain rfl := Option.some.inj stepped
    obtain ⟨b, _, rfl, same⟩ := perm_without allowed
    exact (heap.perm same).free_data ready outside
  | write addr byte =>
    obtain rfl := Option.some.inj stepped
    obtain ⟨b, member, data⟩ := allowed
    refine fill_outside ?_
    have different : x ≠ addr := fun same =>
      old b member ((heap.owns.placed b member).data_page (same ▸ data)).2
    omega

/-! ## What the books say -/

/-- Bitmap and `free_size` are those of the start. -/
structure Restored (pages : Nat → Prop) (start pm : PhysMem) : Prop where
  bitmap : pm.bitmap = start.bitmap
  bytes : ∀ x, start.InBitmap x → pm.mem x = start.mem x
  isFree : ∀ p, pages p → pm.isFree p = start.isFree p
  freeSize : pm.freeSize = start.freeSize

structure HeapSound (pages : Nat → Prop) (start : PhysMem) (h : Heap) : Prop where
  apart : h.live.Pairwise Block.Apart
  used : ∀ b ∈ h.live, ∀ p, b.Covers p → h.pm.isFree p = false
  others : ∀ p, pages p → (∀ b ∈ h.live, ¬ b.Covers p) → h.pm.isFree p = start.isFree p
  restores : ∀ order : List Nat, order.Perm (h.live.map Block.ptr) →
    Restored pages start (order.foldl kmfree h.pm)

/-- Freeing everything, in any order. -/
theorem HeapOk.freeAll (ready : PmmReady start) (heap : HeapOk start pm live) (order : List Nat)
    (all : order.Perm (live.map Block.ptr)) :
    HeapOk start (order.foldl kmfree pm) [] ∧
      ∀ x, ¬ start.InBitmap x → (order.foldl kmfree pm).mem x = pm.mem x := by
  induction order generalizing pm live with
  | nil =>
    obtain rfl : live = [] := by simpa using all
    exact ⟨heap, fun _ _ => rfl⟩
  | cons addr order inductionHypothesis =>
    obtain ⟨b, member, ptr, same⟩ := @perm_without live addr
      (by simpa using all.subset (List.mem_cons_self ..))
    subst ptr
    have front := heap.perm same
    obtain ⟨freed, others⟩ := inductionHypothesis (front.free ready)
      ((List.perm_cons b.ptr).mp (all.trans (same.map Block.ptr)))
    exact ⟨freed, fun x outside => (others x outside).trans (front.free_data ready outside)⟩

theorem HeapOk.sound {h : Heap} (ready : PmmReady start) (heap : HeapOk start h.pm h.live) :
    HeapSound start.Tracked start h where
  apart := heap.owns.apart
  used _ member _ covers := heap.owns.used member covers
  others p tracked uncovered := by
    rw [Bool.eq_iff_iff, heap.owns.bits p tracked]
    exact and_iff_left uncovered
  restores order all := by
    have empty := (heap.freeAll ready order all).1.owns
    have same : ∀ p, start.Tracked p → (order.foldl kmfree h.pm).isFree p = start.isFree p := by
      intro p tracked
      rw [Bool.eq_iff_iff, empty.bits p tracked]
      exact and_iff_left nofun
    refine ⟨empty.bitmap, fun x inside => bytes_eq_of_isFree empty.bitmap same inside, same, ?_⟩
    rw [← empty.freeSize, pagesOf, List.map_nil, List.sum_nil, Nat.zero_mul, Nat.add_zero,
      u64_of_lt empty.small]

theorem HeapRun.heapOk {h : Heap} (ready : PmmReady start) (run : HeapRun start h) :
    HeapOk start h.pm h.live :=
  run.invariant (fun h => HeapOk start h.pm h.live) (.initially ready)
    fun _ _ _ heap allowed stepped => heap.step ready allowed.1 allowed.2 stepped

/-! ## The pages behind the bitmap's -/

/-- The bits of the pages at the end of memory are as they were, in a page that no block has. -/
structure TailKept (start : PhysMem) (h : Heap) : Prop where
  byte : h.pm.mem start.tailByte = start.mem start.tailByte
  spared : ∀ b ∈ h.live, ¬ b.Covers (start.tailByte / pageSize)

/-- The page of a new block is none that was to be spared. -/
theorem HeapOk.kmalloc_spares (ready : PmmReady start) (heap : HeapOk start pm live)
    (tail : start.HasTail) (fits : FirstFitInside pm (numPages size + 1))
    (result : kmalloc pm size = some (ptr, pm')) :
    ¬ (Block.mk ptr size).Covers (start.tailByte / pageSize) := by
  obtain ⟨q, window, tracked, spares⟩ := fits
  obtain ⟨taken, _, got⟩ := heap.kmalloc_window ready window tracked
  rw [result] at got
  cases got
  have sameTail : pm.HasTail := by
    rw [PhysMem.HasTail, heap.owns.bmSize, heap.owns.physLimit]
    exact tail
  have sameByte : pm.tailByte = start.tailByte := by
    rw [PhysMem.tailByte, heap.owns.bmSize, heap.owns.bitmap]
    rfl
  rw [covers_of_page, ← sameByte]
  exact spares sameTail

theorem HeapOk.kmrealloc_spares (ready : PmmReady start) (heap : HeapOk start pm (b :: live))
    (tail : start.HasTail) (small : newsize < 2 ^ 64)
    (fits : numPages b.size ≠ numPages newsize → FirstFitInside pm (numPages newsize + 1))
    (spared : ¬ b.Covers (start.tailByte / pageSize))
    (result : kmrealloc pm (some b.ptr) newsize = some (ptr, pm')) :
    ¬ (Block.mk ptr newsize).Covers (start.tailByte / pageSize) := by
  rcases heap.kmrealloc_cases ready small (fun moves => (fits moves).tracked) result with
    ⟨same, rfl, _⟩ | ⟨moves, grown, malloc, _⟩
  · have pages : (Block.mk b.ptr newsize).pages = b.pages := by rw [Block.pages, Block.pages, same]
    rw [Block.Covers, pages]
    exact spared
  · exact heap.kmalloc_spares ready tail (fits moves) malloc

theorem Heap.FitsInside.tracked {h : Heap} {call : HeapCall} (fits : h.FitsInside call) :
    h.FitsTracked call := by
  cases call with
  | malloc size => exact FirstFitInside.tracked fits
  | realloc addr newsize =>
    cases addr with
    | none => exact FirstFitInside.tracked fits
    | some addr => exact fun b member same moves => (fits b member same moves).tracked
  | free addr => trivial
  | write addr byte => trivial

theorem TailKept.step {before after : Heap} {call : HeapCall} (ready : PmmReady start)
    (tail : start.HasTail) (kept : TailKept start before)
    (heap : HeapOk start before.pm before.live) (allowed : before.Allowed call)
    (fits : before.FitsInside call) (stepped : before.step call = some after) :
    TailKept start after := by
  -- no call gives a block the page with those bits
  have spared : ∀ b ∈ after.live, ¬ b.Covers (start.tailByte / pageSize) := by
    cases call with
    | malloc size =>
      obtain ⟨⟨ptr, pm⟩, result, rfl⟩ := Option.map_eq_some_iff.mp stepped
      exact List.forall_mem_cons.mpr ⟨heap.kmalloc_spares ready tail fits result, kept.spared⟩
    | realloc addr newsize =>
      obtain ⟨⟨ptr, pm⟩, result, rfl⟩ := Option.map_eq_some_iff.mp stepped
      obtain ⟨small, present⟩ := allowed
      have rest : ∀ b ∈ without before.live addr, ¬ b.Covers (start.tailByte / pageSize) :=
        fun b member => kept.spared b (List.mem_of_mem_eraseP member)
      cases addr with
      | none => exact List.forall_mem_cons.mpr ⟨heap.kmalloc_spares ready tail fits result, rest⟩
      | some addr =>
        obtain ⟨b, member, rfl, same⟩ := perm_without (present addr rfl)
        have newSmall : newsize < 2 ^ 64 := by
          rw [pageSize] at small
          omega
        exact List.forall_mem_cons.mpr ⟨(heap.perm same).kmrealloc_spares ready tail newSmall
          (fits b member rfl) (kept.spared b member) result, rest⟩
    | free addr =>
      obtain rfl := Option.some.inj stepped
      exact fun b member => kept.spared b (List.mem_of_mem_eraseP member)
    | write addr byte =>
      obtain rfl := Option.some.inj stepped
      exact kept.spared
  refine ⟨?_, spared⟩
  rw [heap.step_outside ready allowed fits.tracked stepped tailByte_outside kept.spared spared, kept.byte]

/-- With that byte, what the bitmap's pages keep all pages of memory keep. -/
theorem HeapOk.sound_inLimit {h : Heap} (ready : PmmReady start)
    (heap : HeapOk start h.pm h.live) (kept : start.HasTail → TailKept start h) :
    HeapSound start.InLimit start h := by
  obtain ⟨apart, used, others, restores⟩ := heap.sound ready
  refine ⟨apart, used, fun p inLimit uncovered => ?_, fun order all => ?_⟩
  · exact isFree_inLimit heap.owns.bitmap (fun tail => (kept tail).byte)
      (fun tracked => others p tracked uncovered) inLimit
  · obtain ⟨bitmap, bytes, isFree, freeSize⟩ := restores order all
    refine ⟨bitmap, bytes, fun p inLimit => ?_, freeSize⟩
    refine isFree_inLimit bitmap (fun tail => ?_) (isFree p) inLimit
    rw [(heap.freeAll ready order all).2 _ tailByte_outside, (kept tail).byte]

/-- The heap keeps its books in every run whose allocations find their first window in the pages
    of the bitmap, and not where the bits of the pages behind them are. -/
theorem heap_runs {map : List MemmapEntry} {h : Heap} (ok : MapOk map)
    (initialised : pmmInit map mem = some start)
    (run : Run Heap.step (fun h call => h.Allowed call ∧ h.FitsInside call) ⟨start, []⟩ h) :
    HeapSound start.InLimit start h := by
  obtain ⟨_, ready, _, _⟩ := pmmInit_spec ok initialised
  obtain ⟨heap, kept⟩ : HeapOk start h.pm h.live ∧ (start.HasTail → TailKept start h) := by
    apply run.invariant fun h => HeapOk start h.pm h.live ∧ (start.HasTail → TailKept start h)
    · exact ⟨.initially ready, fun _ => ⟨rfl, by simp⟩⟩
    · rintro before call after ⟨heap, kept⟩ ⟨allowed, fits⟩ stepped
      exact ⟨heap.step ready allowed fits.tracked stepped,
        fun tail => (kept tail).step ready tail heap allowed fits stepped⟩
  exact heap.sound_inLimit ready kept

/-! ## A machine with four pages free -/

def smallMap : List MemmapEntry :=
  [⟨0x100000, 0x3000, .usable⟩, ⟨0x7FFF000, 0x1000, .usable⟩]

theorem smallMap_ok : MapOk smallMap := by
  constructor <;> decide

theorem usable_smallMap {p : Nat} :
    Usable smallMap p ↔ 256 ≤ p ∧ p < 259 ∨ p = 32767 := by
  simp only [Usable, smallMap, List.mem_cons, List.not_mem_nil, or_false, exists_eq_or_imp,
    exists_eq_left, MemmapEntry.aboveLow, MemmapEntry.top, u64, pageSize, mul_pageSize]
  norm_num
  omega

/-- What is known of it after `pmm_init`: the bitmap is page 256, and three pages are free. -/
structure SmallStart (start : PhysMem) : Prop where
  ready : PmmReady start
  physLimit : start.physLimit = 0x8000000
  bitmap : start.bitmap = 0x100000
  isFree : ∀ p < 32768, start.isFree p ↔ p = 257 ∨ p = 258 ∨ p = 32767

theorem smallStart : ∃ start, pmmInit smallMap (fun _ => 0) = some start ∧ SmallStart start := by
  have answer : (pmmInit smallMap fun _ => 0).map PhysMem.bitmap = some 0x100000 := by
    decide +kernel
  obtain ⟨start, initialised, bitmap⟩ := Option.map_eq_some_iff.mp answer
  obtain ⟨limit, ready, _, free⟩ := pmmInit_spec smallMap_ok initialised
  have physLimit : start.physLimit = 0x8000000 := limit.trans (by decide)
  have bmSize : start.bmSize = 4096 := by rw [PhysMem.bmSize, physLimit]; decide
  refine ⟨start, initialised, ready, physLimit, bitmap, fun p below => ?_⟩
  rw [free p (by rw [PhysMem.Tracked, bmSize]; exact below)]
  have pages : numPages 4096 = 1 := by decide
  rw [usable_smallMap, PhysMem.Storage, bitmap, bmSize, pages]
  simp only [pageSize, mul_pageSize]
  omega

theorem SmallStart.bmSize (small : SmallStart start) : start.bmSize = 4096 := by
  rw [PhysMem.bmSize, small.physLimit]
  decide

def firstBlock : Block := ⟨258 * 4096, 1⟩

theorem firstBlock_covers {p : Nat} : firstBlock.Covers p ↔ p = 257 ∨ p = 258 := by
  rw [Block.Covers, show firstBlock.first = 257 by decide, show firstBlock.pages = 2 by decide]
  omega

/-- The two pages behind the bitmap are the first window. -/
theorem SmallStart.window (small : SmallStart start) : start.FirstWindow 257 2 := by
  refine ⟨fun p low high => (small.isFree p (by omega)).mpr (by omega), fun j below free => ?_⟩
  have := (small.isFree j (by omega)).mp (free j le_rfl (by omega))
  omega

theorem SmallStart.fits (small : SmallStart start) : FirstFitInside start 2 := by
  refine ⟨257, small.window, ?_, fun tail => ?_⟩
  · rw [small.bmSize]
    decide
  · -- every page of this memory has its bit in the bitmap
    rw [PhysMem.HasTail, small.bmSize, small.physLimit] at tail
    exact absurd tail (by decide)

/-- A first block of one page takes them. -/
theorem SmallStart.malloc (small : SmallStart start) (onePage : numPages size = 1) :
    ∃ pm, kmalloc start size = some (258 * 4096, pm) := by
  obtain ⟨taken, _, result⟩ := @kmalloc_of_first start 257 size (by rw [onePage]; decide)
    (by rw [PhysMem.InLimit, small.physLimit]; decide) (by rw [onePage]; exact small.window)
  exact ⟨_, result⟩

theorem SmallStart.first_malloc (small : SmallStart start) :
    FirstFitInside start 2 ∧
      ∃ pm, kmalloc start 1 = some (258 * 4096, pm) ∧ HeapOk start pm [firstBlock] := by
  obtain ⟨pm, result⟩ := @SmallStart.malloc start 1 small (by decide)
  exact ⟨small.fits, pm, result,
    HeapOk.malloc small.ready (.initially small.ready) (by decide) small.fits.tracked result⟩

/-- Clearing the lowest bit of an odd number takes one away. -/
theorem clear_lowest {byte byte' : Byte} {count : Nat} (odd : count % 2 = 1)
    (was : byte = BitVec.ofNat 8 count)
    (bits : ∀ j < 8, byte'.getLsbD j = if j = 0 then false else byte.getLsbD j) :
    byte' = BitVec.ofNat 8 (count - 1) := by
  subst was
  apply BitVec.eq_of_getLsbD_eq
  intro j below
  rw [bits j below, BitVec.getLsbD_ofNat, BitVec.getLsbD_ofNat]
  cases j with
  | zero =>
    have even : (count - 1) % 2 = 0 := by omega
    simp [even]
  | succ j =>
    have half : (count - 1) / 2 = count / 2 := by omega
    rw [if_neg (Nat.succ_ne_zero j), Nat.testBit_succ, Nat.testBit_succ, half]

/-- What an allocation of one page does that takes the last page of memory and the one behind it,
    with a number of pages right behind the bitmap. -/
structure TakenBehind (pm pm' : PhysMem) (count : Nat) : Prop where
  result : kmalloc pm 1 = some (32768 * 4096, pm')
  lessened : load64 pm' (257 * 4096) = count - 1
  numpages : load64 pm' (32767 * 4096) = 1
  size : load64 pm' (257 * 4096 + 8) = load64 pm (257 * 4096 + 8)
  isFree : ∀ p < 32767, pm'.isFree p = pm.isFree p
  freeSize : pm'.freeSize < 2 ^ 64
  bitmap : pm'.bitmap = 0x100000

/-- With no other page free, such an allocation happens when the number of pages behind the bitmap
    is odd: its lowest bit says that the page behind the end of memory is free. -/
theorem taken_behind {count : Nat} (bitmap : pm.bitmap = 0x100000)
    (physLimit : pm.physLimit = 0x8000000) (freeSize : pm.freeSize < 2 ^ 64)
    (isFree : ∀ p < 32768, pm.isFree p ↔ p = 32767)
    (word : load64 pm (257 * 4096) = count) (odd : count % 2 = 1) (low : count < 256) :
    ∃ pm', TakenBehind pm pm' count := by
  have byte : ∀ k < 8, pm.mem (257 * 4096 + k) = BitVec.ofNat 8 (count / 256 ^ k) := by
    intro k below
    rw [@byte_of_loadLE pm.mem (257 * 4096) 8 k below, show loadLE pm.mem (257 * 4096) 8 = count from word]
  have lowest : pm.mem (257 * 4096) = BitVec.ofNat 8 count := by
    have first := byte 0 (by decide)
    rwa [Nat.add_zero, pow_zero, Nat.div_one] at first
  have place : ∀ j < 8, pm.bitmap + (32768 + j) / 8 = 257 * 4096 ∧ (32768 + j) % 8 = j := by
    intro j below
    rw [bitmap]
    omega
  have behind : pm.isFree 32768 := by
    rw [PhysMem.isFree, (place 0 (by decide)).1, (place 0 (by decide)).2,
      bitAt_eq_getLsbD (by decide), lowest, BitVec.getLsbD_ofNat]
    simp [odd]
  have window : pm.FirstWindow 32767 2 := by
    refine ⟨fun p low high => ?_, fun j below free => ?_⟩
    · obtain rfl | rfl : p = 32767 ∨ p = 32768 := by omega
      · exact (isFree _ (by decide)).mpr rfl
      · exact behind
    · have := (isFree j (by omega)).mp (free j le_rfl (by omega))
      omega
  obtain ⟨taken, allocated, result⟩ := @kmalloc_of_first pm 32767 1 (by decide)
    (by rw [PhysMem.InLimit, physLimit]; decide) window
  rw [show numPages 1 = 1 by decide] at allocated result
  have cleared : taken.mem (257 * 4096) = BitVec.ofNat 8 (count - 1) := by
    refine clear_lowest odd lowest fun j below => ?_
    have bit := allocated.isFree (32768 + j)
    rw [PhysMem.isFree, PhysMem.isFree, allocated.same.bitmap, (place j below).1, (place j below).2,
      bitAt_eq_getLsbD below, bitAt_eq_getLsbD below] at bit
    rw [bit]
    split <;> split <;> first | rfl | omega
  have kept : ∀ x, x ≠ 257 * 4096 → 257 * 4096 ≤ x → taken.mem x = pm.mem x := by
    intro x other above
    refine allocated.same.mem x fun p low high => ?_
    rw [PhysMem.bitByte, bitmap]
    omega
  have lessened : loadLE taken.mem (257 * 4096) 8 = count - 1 := by
    rw [@loadLE_eq_mod taken.mem (257 * 4096) 8 (count - 1) ?_, Nat.mod_eq_of_lt (by omega)]
    intro k below
    cases k with
    | zero => rw [Nat.add_zero, cleared, pow_zero, Nat.div_one]
    | succ k =>
      have small : 256 ≤ 256 ^ (k + 1) := Nat.le_self_pow (Nat.succ_ne_zero k) 256
      rw [kept _ (by omega) (by omega), byte _ below, Nat.div_eq_of_lt (by omega),
        Nat.div_eq_of_lt (by omega)]
  -- the stores to the new block are far away from there
  have below : ∀ x < 32767 * 4096,
      (store64 (store64 taken (numpagesAt (32767 * pageSize)) 1)
        (sizeAt (32767 * pageSize)) 1).mem x = taken.mem x := by
    intro x low
    simp only [store64, numpagesAt, sizeAt, pageSize]
    rw [storeLE_outside (by omega), storeLE_outside (by omega)]
  refine ⟨_, result, ?_, ?_, ?_, ?_, ?_, allocated.same.bitmap.trans bitmap⟩
  · exact (loadLE_congr fun x low high => below x (by omega)).trans lessened
  · exact (load64_store64_apart (.inl (by decide))).trans (load64_store64 (by decide))
  · exact loadLE_congr fun x low high =>
      (below x (by omega)).trans (kept x (by omega) (by omega))
  · intro p low
    rw [← (allocated.isFree p).trans (if_neg (by omega))]
    have same : taken.bitmap = 0x100000 := allocated.same.bitmap.trans bitmap
    exact bitAt_congr (below _ (by simp only [store64, same]; omega))
  · simp only [store64, allocated.freeSize, sub64]
    split <;> omega

/-- The second one takes the last page and the one behind the end of memory, whose bit is the
    lowest of the first block's `numpages`. -/
theorem SmallStart.second_malloc (small : SmallStart start) (heap : HeapOk start pm [firstBlock]) :
    ∃ pm', TakenBehind pm pm' 1 ∧ pm'.isFree 258 = false := by
  have isFree : ∀ p < 32768, pm.isFree p ↔ p = 32767 := by
    intro p below
    rw [heap.owns.bits p (by rw [PhysMem.Tracked, small.bmSize]; exact below), small.isFree p below]
    simp only [List.forall_mem_singleton, firstBlock_covers]
    omega
  obtain ⟨pm', taken⟩ := taken_behind (heap.owns.bitmap.trans small.bitmap)
    (heap.owns.physLimit.trans small.physLimit) heap.owns.small isFree
    (heap.recorded firstBlock (by simp)).numpages (by decide) (by decide)
  refine ⟨pm', taken, ?_⟩
  rw [taken.isFree 258 (by decide), ← Bool.not_eq_true, isFree 258 (by decide)]
  decide

theorem kmfree_eq {count : Nat} (page : sub64 addr pageSize = q * pageSize)
    (word : load64 pm (q * pageSize) = count) :
    kmfree pm addr = pmmFree pm (q * pageSize) (u64 (count + 1)) := by
  rw [kmfree, page]
  simp only [numpagesAt, word]

/-- Freed in the order they came in, the blocks leave the second page of the first one in use. -/
theorem SmallStart.not_freed (lost : load64 pm (257 * 4096) = 0)
    (kept : load64 pm (32767 * 4096) = 1) (used : pm.isFree 258 = false)
    (freeSize : pm.freeSize < 2 ^ 64) (bitmap : pm.bitmap = 0x100000) :
    (kmfree (kmfree pm (258 * 4096)) (32768 * 4096)).isFree 258 = false := by
  obtain ⟨firstSame, firstSize, firstBits⟩ := @pmmFree_spec 257 1 pm (by decide) freeSize
  rw [@kmfree_eq pm 257 _ 0 (by decide) lost, show u64 (0 + 1) = 1 by decide]
  have word : load64 (pmmFree pm (257 * pageSize) 1) (32767 * pageSize) = 1 := by
    have far : ∀ x, 32767 * 4096 ≤ x → (pmmFree pm (257 * pageSize) 1).mem x = pm.mem x := by
      intro x low
      refine firstSame.mem x fun p above below => ?_
      rw [PhysMem.bitByte, bitmap]
      omega
    exact (loadLE_congr fun x low _ => far x low).trans kept
  obtain ⟨_, _, secondBits⟩ := @pmmFree_spec 32767 2 (pmmFree pm (257 * pageSize) 1) (by decide)
    (by rw [firstSize]; exact Nat.mod_lt _ (by omega))
  rw [@kmfree_eq _ 32767 _ 1 (by decide) word, show u64 (1 + 1) = 2 by decide, secondBits,
    if_neg (by decide), firstBits, if_neg (by decide), used]

/-- A window behind the bitmap: two blocks that cannot be given back in the order they came in. -/
theorem window_behind_bitmap :
    ∃ start h, pmmInit smallMap (fun _ => 0) = some start ∧
      Run Heap.step Heap.Allowed ⟨start, []⟩ h ∧
      [HeapCall.malloc 1, .malloc 1].foldlM Heap.step ⟨start, []⟩ = some h ∧
      ¬ HeapSound start.InLimit start h := by
  obtain ⟨start, initialised, small⟩ := smallStart
  obtain ⟨_, pm₁, first, heap⟩ := small.first_malloc
  obtain ⟨pm₂, ⟨second, lost, kept, _, _, freeSize, bitmap⟩, used⟩ := small.second_malloc heap
  have step₁ : Heap.step ⟨start, []⟩ (.malloc 1) = some ⟨pm₁, [⟨258 * 4096, 1⟩]⟩ := by
    rw [Heap.step, first]
    rfl
  have step₂ : Heap.step ⟨pm₁, [⟨258 * 4096, 1⟩]⟩ (.malloc 1) =
      some ⟨pm₂, [⟨32768 * 4096, 1⟩, ⟨258 * 4096, 1⟩]⟩ := by
    rw [Heap.step, second]
    rfl
  refine ⟨start, _, initialised, .tail (.tail .refl ?_ step₁) ?_ step₂, ?_, fun sound => ?_⟩
  · show 1 + pageSize ≤ 2 ^ 64
    decide
  · show 1 + pageSize ≤ 2 ^ 64
    decide
  · simp only [List.foldlM_cons, List.foldlM_nil, step₁, step₂, Option.bind_eq_bind,
      Option.bind_some, Option.pure_def]
  have restored := sound.restores [258 * 4096, 32768 * 4096] (.swap ..)
  have same := restored.isFree 258 (by rw [PhysMem.InLimit, small.physLimit]; decide)
  rw [List.foldl_cons, List.foldl_cons, List.foldl_nil,
    SmallStart.not_freed lost kept used freeSize bitmap,
    (small.isFree 258 (by decide)).mpr (.inr (.inl rfl))] at same
  cases same

/-- A run on the same machine that keeps within the bitmap. -/
theorem heap_runs_smallMap :
    ∃ start h, pmmInit smallMap (fun _ => 0) = some start ∧ h.live = [firstBlock] ∧
      HeapSound start.InLimit start h := by
  obtain ⟨start, initialised, small⟩ := smallStart
  obtain ⟨fits, pm, first, _⟩ := small.first_malloc
  have step : Heap.step ⟨start, []⟩ (.malloc 1) = some ⟨pm, [firstBlock]⟩ := by
    rw [Heap.step, first]
    rfl
  have allowed : Heap.Allowed ⟨start, []⟩ (.malloc 1) := by
    show 1 + pageSize ≤ 2 ^ 64
    decide
  exact ⟨start, _, initialised, rfl,
    heap_runs smallMap_ok initialised (.tail .refl ⟨allowed, fits⟩ step)⟩

end HanOS.Lib
