import HanOS.Lib.Kmalloc
import Mathlib.Data.List.Pairwise

/-!
# Blocks of the heap

`Owns start pm live`: the pages in use in `pm` are those in use in `start` and those of
the blocks `live`, which do not share a page.  Taking a free range of pages adds a block,
releasing the pages of a block takes it away, and nothing else that happens to memory
matters as long as it stays away from the bitmap.  `HeapOk` adds that the metadata of the
blocks is right, so that `kmfree` releases the pages of the block it is given.
-/

namespace HanOS.Lib

open HanOS.Foundations HanOS.Core

/-- A block as its client knows it. -/
structure Block where
  ptr : Nat
  size : Nat
  deriving DecidableEq, Repr

namespace Block

def first (b : Block) : Nat := b.ptr / pageSize - 1

def pages (b : Block) : Nat := numPages b.size + 1

def Covers (b : Block) (page : Nat) : Prop := b.first ≤ page ∧ page < b.first + b.pages

/-- The address lies in the data pages. -/
def HasData (b : Block) (addr : Nat) : Prop := b.ptr ≤ addr ∧ addr < b.ptr + pageAlignUp b.size

def Apart (a b : Block) : Prop := ∀ p, ¬ (a.Covers p ∧ b.Covers p)

instance : Std.Symm Apart := ⟨fun _ _ apart p both => apart p ⟨both.2, both.1⟩⟩

/-- A place for a block that was free at the start. -/
structure Placed (start : PhysMem) (b : Block) : Prop where
  aligned : b.ptr = (b.first + 1) * pageSize
  tracked : b.first + b.pages ≤ 8 * start.bmSize
  wasFree : ∀ p, b.Covers p → start.isFree p

structure Recorded (pm : PhysMem) (b : Block) : Prop where
  numpages : load64 pm (numpagesAt (b.first * pageSize)) = numPages b.size
  size : load64 pm (sizeAt (b.first * pageSize)) = b.size

end Block

variable {start pm pm' : PhysMem} {b : Block} {live : List Block} {mem : Mem} {p q n x : Nat}

namespace Block

variable (placed : b.Placed start)
include placed

theorem Placed.ptr_sub : sub64 b.ptr pageSize = b.first * pageSize := by
  rw [sub64_of_le (by rw [placed.aligned]; simp only [pageSize]; omega), placed.aligned,
    Nat.add_mul, Nat.one_mul, Nat.add_sub_cancel]

theorem Placed.metadata_outside (ready : PmmReady start)
    (low : b.first * pageSize ≤ x) (high : x < b.first * pageSize + pageSize) :
    ¬ start.InBitmap x := by
  have covers : b.Covers b.first := ⟨le_rfl, by rw [pages]; omega⟩
  have tracked := placed.tracked
  refine ready.outside_bitmap (by rw [PhysMem.Tracked]; exact covers.2.trans_le tracked)
    (placed.wasFree _ covers) ?_
  simp only [pageSize, mul_pageSize] at *
  omega

theorem Placed.data_page (data : b.HasData x) :
    b.first + 1 ≤ x / pageSize ∧ b.Covers (x / pageSize) := by
  have aligned := placed.aligned
  obtain ⟨low, high⟩ := data
  simp only [Covers, pages, pageAlignUp, pageSize, mul_pageSize] at *
  omega

theorem Placed.data_outside (ready : PmmReady start) (data : b.HasData x) : ¬ start.InBitmap x := by
  have covers := (placed.data_page data).2
  have tracked := placed.tracked
  exact ready.outside_bitmap (by rw [PhysMem.Tracked]; exact covers.2.trans_le tracked)
    (placed.wasFree _ covers) rfl

end Block

/-! ## Ownership -/

def pagesOf (live : List Block) : Nat := (live.map Block.pages).sum

structure Owns (start pm : PhysMem) (live : List Block) : Prop where
  bitmap : pm.bitmap = start.bitmap
  physLimit : pm.physLimit = start.physLimit
  placed : ∀ b ∈ live, b.Placed start
  apart : live.Pairwise Block.Apart
  bits : ∀ p, start.Tracked p → (pm.isFree p ↔ start.isFree p ∧ ∀ b ∈ live, ¬ b.Covers p)
  freeSize : u64 (pm.freeSize + pagesOf live * pageSize) = start.freeSize
  small : pm.freeSize < 2 ^ 64

theorem Owns.bmSize (owns : Owns start pm live) : pm.bmSize = start.bmSize := by
  rw [PhysMem.bmSize, PhysMem.bmSize, owns.physLimit]

theorem Owns.inBitmap_iff (owns : Owns start pm live) : pm.InBitmap x ↔ start.InBitmap x := by
  rw [PhysMem.InBitmap, PhysMem.InBitmap, owns.bitmap, owns.bmSize]

theorem Owns.perm {live' : List Block} (owns : Owns start pm live) (same : live.Perm live') :
    Owns start pm live' where
  bitmap := owns.bitmap
  physLimit := owns.physLimit
  placed b member := owns.placed b (same.mem_iff.mpr member)
  apart := (same.pairwise_iff fun apart => symm_of Block.Apart apart).mp owns.apart
  bits p tracked := by
    rw [owns.bits p tracked]
    simp only [same.mem_iff]
  freeSize := by rw [pagesOf, ← (same.map Block.pages).sum_nat]; exact owns.freeSize
  small := owns.small

theorem Owns.apart_of_ne {a : Block} (owns : Owns start pm live) (aMember : a ∈ live)
    (bMember : b ∈ live) (different : a ≠ b) : a.Apart b :=
  owns.apart.forall aMember bMember different

theorem Owns.frame (owns : Owns start pm live)
    (bytes : ∀ x, start.InBitmap x → mem x = pm.mem x) :
    Owns start { pm with mem := mem } live where
  bitmap := owns.bitmap
  physLimit := owns.physLimit
  placed := owns.placed
  apart := owns.apart
  bits p tracked := by
    rw [← owns.bits p tracked, @isFree_congr pm { pm with mem := mem } _ rfl
      (fun x inside => bytes x (owns.inBitmap_iff.mp inside))
      (by rw [PhysMem.Tracked, owns.bmSize]; exact tracked)]
  freeSize := owns.freeSize
  small := owns.small

theorem Owns.alloc (ready : PmmReady start) (owns : Owns start pm live)
    (allocated : Allocated pm pm' b.first b.pages)
    (aligned : b.ptr = (b.first + 1) * pageSize)
    (tracked : b.first + b.pages ≤ 8 * start.bmSize) : Owns start pm' (b :: live) := by
  have bound := bmSize_pages ready
  have page : ∀ p, b.Covers p → start.Tracked p := fun p covers => covers.2.trans_le tracked
  have wasFree : ∀ p, b.Covers p → start.isFree p ∧ ∀ c ∈ live, ¬ c.Covers p := fun p covers =>
    (owns.bits p (page p covers)).mp (allocated.wasFree p covers.1 covers.2)
  refine ⟨allocated.same.bitmap.trans owns.bitmap, allocated.same.physLimit.trans owns.physLimit,
    ?_, ?_, ?_, ?_, ?_⟩
  · rintro c (_ | ⟨_, member⟩)
    · exact ⟨aligned, tracked, fun p covers => (wasFree p covers).1⟩
    · exact owns.placed c member
  · exact List.pairwise_cons.mpr
      ⟨fun c member p both => (wasFree p both.1).2 c member both.2, owns.apart⟩
  · intro p isTracked
    rw [allocated.isFree, List.forall_mem_cons]
    by_cases covers : b.first ≤ p ∧ p < b.first + b.pages
    · rw [if_pos covers]
      exact ⟨nofun, fun free => absurd covers free.2.1⟩
    · rw [if_neg covers, owns.bits p isTracked]
      exact ⟨fun free => ⟨free.1, covers, free.2⟩, fun free => ⟨free.1, free.2.2⟩⟩
  · rw [← owns.freeSize, allocated.freeSize, pagesOf, pagesOf, List.map_cons, List.sum_cons,
      sub64, u64, u64]
    simp only [pageSize, mul_pageSize] at *
    have small := owns.small
    split <;> omega
  · rw [allocated.freeSize, sub64]
    simp only [pageSize, mul_pageSize] at *
    have small := owns.small
    split <;> omega

theorem usedPages_all (used : ∀ p, q ≤ p → p < q + n → pm.isFree p = false) :
    usedPages pm q n = n := by
  rw [usedPages, List.countP_eq_length.mpr, List.length_range']
  intro p member
  obtain ⟨low, high⟩ := List.mem_range'_1.mp member
  rw [used p low high]
  rfl

/-- A live block's pages are used. -/
theorem Owns.used (owns : Owns start pm live) (member : b ∈ live) (covers : b.Covers p) :
    pm.isFree p = false := by
  have tracked : start.Tracked p := covers.2.trans_le (owns.placed b member).tracked
  rw [← Bool.not_eq_true, owns.bits p tracked]
  exact fun free => free.2 b member covers

theorem Owns.free (ready : PmmReady start) (owns : Owns start pm (b :: live)) :
    Owns start (pmmFree pm (b.first * pageSize) b.pages) live := by
  have placed := owns.placed b (by simp)
  have bound := bmSize_pages ready
  have nowrap : (b.first + b.pages) * pageSize < 2 ^ 64 :=
    (Nat.mul_le_mul_right _ placed.tracked).trans_lt bound
  obtain ⟨same, freeSize, bits⟩ := pmmFree_spec pm nowrap owns.small
  rw [usedPages_all fun p low high => owns.used (List.mem_cons_self ..) ⟨low, high⟩] at freeSize
  refine ⟨same.bitmap.trans owns.bitmap, same.physLimit.trans owns.physLimit,
    fun c member => owns.placed c (by simp [member]), (List.pairwise_cons.mp owns.apart).2,
    ?_, ?_, ?_⟩
  · intro p tracked
    rw [bits]
    by_cases covers : b.first ≤ p ∧ p < b.first + b.pages
    · rw [if_pos covers]
      have others : ∀ c ∈ live, ¬ c.Covers p := fun c member also =>
        (List.pairwise_cons.mp owns.apart).1 c member p ⟨covers, also⟩
      exact ⟨fun _ => ⟨placed.wasFree p covers, others⟩, fun _ => rfl⟩
    · rw [if_neg covers, owns.bits p tracked, List.forall_mem_cons]
      exact ⟨fun free => ⟨free.1, free.2.2⟩, fun free => ⟨free.1, covers, free.2⟩⟩
  · rw [← owns.freeSize, freeSize, pagesOf, pagesOf, List.map_cons, List.sum_cons, u64, u64, u64]
    simp only [pageSize, mul_pageSize]
    omega
  · rw [freeSize]
    exact Nat.mod_lt _ (by omega)

/-- A block may be taken for another size in the same pages. -/
theorem Owns.resize {newsize : Nat} (owns : Owns start pm (b :: live))
    (same : numPages b.size = numPages newsize) : Owns start pm (⟨b.ptr, newsize⟩ :: live) := by
  have pages : (⟨b.ptr, newsize⟩ : Block).pages = b.pages := by rw [Block.pages, Block.pages, same]
  have covers : ∀ p, (⟨b.ptr, newsize⟩ : Block).Covers p ↔ b.Covers p := fun p => by
    rw [Block.Covers, Block.Covers, pages]
    rfl
  have placed := owns.placed b (by simp)
  refine ⟨owns.bitmap, owns.physLimit, ?_, ?_, ?_, ?_, owns.small⟩
  · rintro c (_ | ⟨_, member⟩)
    · exact ⟨placed.aligned, by rw [pages]; exact placed.tracked,
        fun p covered => placed.wasFree p ((covers p).mp covered)⟩
    · exact owns.placed c (List.mem_cons_of_mem _ member)
  · have apart := List.pairwise_cons.mp owns.apart
    exact List.pairwise_cons.mpr ⟨fun c member p both =>
      apart.1 c member p ⟨(covers p).mp both.1, both.2⟩, apart.2⟩
  · intro p tracked
    rw [owns.bits p tracked, List.forall_mem_cons, List.forall_mem_cons, covers]
  · rw [← owns.freeSize, pagesOf, pagesOf, List.map_cons, List.map_cons, pages]

end HanOS.Lib
