import HanOS.Lib.Realloc
import Mathlib.Tactic.NormNum

/-!
# Vectors (`lib/vector.h`)

`len` counts elements and `capacity` bytes.  `vec_erase` moves `sizeof * len - index - 1` bytes down,
which are more than the elements behind `index` have: what it keeps of the vector is right, and it reads
behind the last element, past `capacity` when the vector is nearly full.
-/

namespace HanOS.Lib

open HanOS.Foundations HanOS.Core

structure Vec where
  len : Nat
  capacity : Nat
  data : Option Nat

def Vec.new : Vec := ⟨0, 0, none⟩

def vectorResizeFactor : Nat := 4

/-! ## The macros -/

/-- The capacity of a vector that has to grow to `len` elements of `width` bytes. -/
def grownCapacity (width len : Nat) : Nat := u64 (u64 (len * width) * vectorResizeFactor)

/-- The part of `vec_push_back` that makes room for `len` elements. -/
def vecReserve (width : Nat) (pm : PhysMem) (vec : Vec) (len : Nat) : Option (PhysMem × Vec) :=
  if vec.capacity < u64 (len * width) then
    let capacity := grownCapacity width len
    (kmrealloc pm vec.data capacity).map fun (data, pm) => (pm, ⟨len, capacity, some data⟩)
  else some (pm, { vec with len })

def vecPushBack (width : Nat) (pm : PhysMem) (vec : Vec) (elem : Nat) : Option (PhysMem × Vec) := do
  let (pm, vec) ← vecReserve width pm vec (u64 (vec.len + 1))
  let data ← vec.data
  some ({ pm with mem := storeLE pm.mem (data + sub64 vec.len 1 * width) width elem }, vec)

/-- The length `vec_erase` gives to `memcpy`. -/
def eraseLength (width : Nat) (vec : Vec) (index : Nat) : Nat :=
  sub64 (sub64 (u64 (width * vec.len)) index) 1

def vecErase (width : Nat) (pm : PhysMem) (vec : Vec) (index : Nat) : Option (PhysMem × Vec) := do
  let data ← vec.data
  let mem := copyUp pm.mem (data + index * width) (data + (index + 1) * width)
    (eraseLength width vec index)
  some ({ pm with mem }, { vec with len := sub64 vec.len 1 })

def Vec.elements (width : Nat) (pm : PhysMem) (vec : Vec) : List Nat :=
  (List.range vec.len).map fun index => loadLE pm.mem (vec.data.getD 0 + index * width) width

/-- The bytes of `data` that `vec_push_back` writes. -/
def pushAccesses (width : Nat) (vec : Vec) : List Nat :=
  List.range' (sub64 (u64 (vec.len + 1)) 1 * width) width

/-- The bytes of `data` that `vec_erase` reads, and those it writes. -/
def eraseAccesses (width : Nat) (vec : Vec) (index : Nat) : List Nat :=
  List.range' ((index + 1) * width) (eraseLength width vec index) ++
    List.range' (index * width) (eraseLength width vec index)

variable {start pm pm' : PhysMem} {b : Block} {live : List Block} {size ptr newsize i x : Nat}

/-! ## The vector and its list -/

/-- A vector in memory, the list it stands for, and whether every byte that was read or written was
    within the first `capacity` bytes of `data`. -/
structure VecState where
  pm : PhysMem
  vec : Vec
  list : List Nat
  inside : Bool

inductive VecCall
  | pushBack (elem : Nat)
  | erase (index : Nat)

variable {width : Nat} {s s' : VecState} {vec : Vec} {elem index data : Nat}

def VecState.step (width : Nat) (s : VecState) : VecCall → Option VecState
  | .pushBack elem => (vecPushBack width s.pm s.vec elem).map fun (pm, vec) =>
      { pm, vec, list := s.list ++ [elem % 256 ^ width],
        inside := s.inside && (pushAccesses width s.vec).all (· < vec.capacity) }
  | .erase index => (vecErase width s.pm s.vec index).map fun (pm, vec) =>
      { pm, vec, list := s.list.eraseIdx index,
        inside := s.inside && (eraseAccesses width s.vec index).all (· < s.vec.capacity) }

/-- The bytes behind the last element that `vec_erase` reads still belong to the vector. -/
def HasSlack (width : Nat) (vec : Vec) (index : Nat) : Prop :=
  width * vec.len + (width - 1) * (index + 1) ≤ vec.capacity

/-- The elements asked for exist; growing does not wrap and finds its window in the bitmap's pages, and
    erasing leaves room behind the last element. -/
def VecState.Fits (width : Nat) (s : VecState) : VecCall → Prop
  | .pushBack _ => s.vec.capacity < (s.vec.len + 1) * width →
      (s.vec.len + 1) * width * vectorResizeFactor + pageSize ≤ 2 ^ 64 ∧
      ((s.vec.data = none ∨
          numPages s.vec.capacity ≠ numPages (grownCapacity width (s.vec.len + 1))) →
        FirstFitTracked s.pm (numPages (grownCapacity width (s.vec.len + 1)) + 1))
  | .erase index => index < s.vec.len ∧ HasSlack width s.vec index

/-- The vector is its list, and every access was inside. -/
structure VecSound (width : Nat) (s : VecState) : Prop where
  elements : s.vec.elements width s.pm = s.list
  inside : s.inside

/-- The vector's block is one of the heap's; a vector without one is empty. -/
structure VecOk (start : PhysMem) (live : List Block) (width : Nat) (s : VecState) : Prop where
  heap : HeapOk start s.pm ((s.vec.data.map fun data => ⟨data, s.vec.capacity⟩).toList ++ live)
  empty : s.vec.data = none → s.vec.len = 0 ∧ s.vec.capacity = 0
  fits : s.vec.len * width ≤ s.vec.capacity
  small : s.vec.capacity + pageSize ≤ 2 ^ 64
  sound : VecSound width s

/-! ## One call -/

theorem VecOk.len_lt (ok : VecOk start live width s) (positive : 0 < width) :
    s.vec.len + pageSize ≤ 2 ^ 64 := by
  have fits := ok.fits
  have small := ok.small
  have le := Nat.le_mul_of_pos_right s.vec.len positive
  omega

structure HasRoom (start : PhysMem) (live : List Block) (width : Nat) (s : VecState) (pm' : PhysMem)
    (vec' : Vec) (data : Nat) : Prop where
  pointer : vec'.data = some data
  len : vec'.len = s.vec.len + 1
  heap : HeapOk start pm' (⟨data, vec'.capacity⟩ :: live)
  fits : (s.vec.len + 1) * width ≤ vec'.capacity
  small : vec'.capacity + pageSize ≤ 2 ^ 64
  bytes : ∀ i < s.vec.len * width, pm'.mem (data + i) = s.pm.mem (s.vec.data.getD 0 + i)

theorem VecOk.reserve (positive : 0 < width) (ready : PmmReady start)
    (ok : VecOk start live width s) (fits : s.Fits width (.pushBack elem))
    (reserved : vecReserve width s.pm s.vec (u64 (s.vec.len + 1)) = some (pm', vec)) :
    ∃ data, HasRoom start live width s pm' vec data := by
  have lenLt := ok.len_lt positive
  have len : u64 (s.vec.len + 1) = s.vec.len + 1 := u64_of_lt (by rw [pageSize] at lenLt; omega)
  have old := ok.fits
  have small := ok.small
  rw [len, vecReserve] at reserved
  by_cases grows : s.vec.capacity < (s.vec.len + 1) * width
  · -- the vector grows: a first block, or a larger one
    obtain ⟨bound, window⟩ := fits grows
    have product : u64 ((s.vec.len + 1) * width) = (s.vec.len + 1) * width :=
      u64_of_lt (by rw [vectorResizeFactor] at bound; omega)
    have capacity : grownCapacity width (s.vec.len + 1) = (s.vec.len + 1) * width * 4 := by
      rw [vectorResizeFactor, pageSize] at bound
      rw [grownCapacity, product, vectorResizeFactor, u64_of_lt (by omega)]
    rw [product, if_pos grows] at reserved
    rw [capacity] at reserved window
    obtain ⟨⟨data, pm⟩, allocated, same⟩ := Option.map_eq_some_iff.mp reserved
    cases same
    have newSmall : (s.vec.len + 1) * width * 4 + pageSize ≤ 2 ^ 64 := bound
    have heap := ok.heap
    cases pointer : s.vec.data with
    | none =>
      rw [pointer] at heap allocated
      refine ⟨data, rfl, rfl, ?_, Nat.le_mul_of_pos_right _ (by decide), newSmall, ?_⟩
      · have newLt : (s.vec.len + 1) * width * 4 < 2 ^ 64 := by
          rw [pageSize] at newSmall
          omega
        exact heap.malloc ready newLt (window (.inl pointer)) allocated
      · rw [(ok.empty pointer).1]
        intro i below
        omega
    | some old =>
      rw [pointer] at heap allocated
      -- the elements move with the block
      have moves := fun different => window (.inr different)
      refine ⟨data, rfl, rfl, heap.realloc ready newSmall moves allocated,
        Nat.le_mul_of_pos_right _ (by decide), newSmall, fun i below => ?_⟩
      rw [pointer]
      exact @HeapOk.realloc_data _ _ _ ⟨old, s.vec.capacity⟩ _ _ _ i ready heap newSmall small moves
        allocated (Nat.lt_min.mpr ⟨by omega, below.trans_le ok.fits⟩)
  · have product : u64 ((s.vec.len + 1) * width) = (s.vec.len + 1) * width := u64_of_lt (by
      rw [pageSize] at small
      omega)
    -- there is room already
    rw [product, if_neg grows] at reserved
    cases reserved
    cases pointer : s.vec.data with
    | none =>
      have positiveRoom : 0 < (s.vec.len + 1) * width := Nat.mul_pos (Nat.succ_pos _) positive
      have capacity := (ok.empty pointer).2
      omega
    | some old =>
      have heap := ok.heap
      rw [pointer] at heap
      exact ⟨old, rfl, rfl, heap, Nat.le_of_not_lt grows, small, fun _ _ => by rw [pointer]; rfl⟩

theorem VecOk.push (positive : 0 < width) (ready : PmmReady start)
    (ok : VecOk start live width s) (fits : s.Fits width (.pushBack elem))
    (stepped : s.step width (.pushBack elem) = some s') : VecOk start live width s' := by
  obtain ⟨⟨pm, vec⟩, pushed, rfl⟩ := Option.map_eq_some_iff.mp stepped
  obtain ⟨⟨pm₁, vec₁⟩, reserved, stored⟩ := Option.bind_eq_some_iff.mp pushed
  obtain ⟨data, room⟩ := ok.reserve positive ready fits reserved
  simp only [room.pointer, Option.bind_eq_bind, Option.bind_some, Option.some.injEq, Prod.mk.injEq] at stored
  obtain ⟨rfl, rfl⟩ := stored
  have last : sub64 (s.vec.len + 1) 1 = s.vec.len := by
    rw [sub64_of_le (by omega), Nat.add_sub_cancel]
  have end_ : s.vec.len * width + width = (s.vec.len + 1) * width := (Nat.succ_mul ..).symm
  have fit := room.fits
  have aligned := le_pageAlignUp vec₁.capacity room.small
  refine ⟨?_, ?_, ?_, room.small, ?_, ?_⟩
  · simp only [room.pointer, room.len, last]
    -- the element is stored in the data of the block
    refine room.heap.frame ready fun x outside => storeLE_outside ?_
    have away := outside _ (List.mem_cons_self ..)
    simp only [Block.HasData] at away
    omega
  · intro null
    rw [room.pointer] at null
    cases null
  · rw [room.len]
    exact fit
  · have kept := ok.sound.elements
    simp only [Vec.elements, room.pointer, room.len, last, Option.getD_some] at kept ⊢
    rw [List.range_succ, List.map_append, List.map_singleton, loadLE_storeLE, ← kept]
    congr 1
    -- the other elements are those of before
    apply List.map_congr_left
    intro i member
    have below : (i + 1) * width ≤ s.vec.len * width :=
      Nat.mul_le_mul_right _ (List.mem_range.mp member)
    have next : i * width + width = (i + 1) * width := (Nat.succ_mul ..).symm
    rw [loadLE_storeLE_disjoint (by omega)]
    apply loadLE_shift
    intro j inElement
    rw [Nat.add_assoc, room.bytes _ (by omega), Nat.add_assoc]
  · simp only [Bool.and_eq_true, List.all_eq_true, decide_eq_true_eq]
    refine ⟨ok.sound.inside, fun x access => ?_⟩
    obtain ⟨low, high⟩ := List.mem_range'_1.mp access
    have lenLt := ok.len_lt positive
    rw [u64_of_lt (by rw [pageSize] at lenLt; omega), sub64_of_le (by omega), Nat.add_sub_cancel] at high
    omega

theorem eraseLength_eq (positive : 0 < width) (inList : index < vec.len)
    (small : width * vec.len < 2 ^ 64) :
    eraseLength width vec index + index + 1 = width * vec.len ∧
      (vec.len - (index + 1)) * width ≤ eraseLength width vec index := by
  have le : vec.len ≤ width * vec.len := Nat.le_mul_of_pos_left _ positive
  have length : eraseLength width vec index + index + 1 = width * vec.len := by
    have behind : sub64 (width * vec.len) index = width * vec.len - index := sub64_of_le (by omega)
    rw [eraseLength, u64_of_lt small, behind, sub64_of_le (by omega)]
    omega
  refine ⟨length, ?_⟩
  have whole : (vec.len - (index + 1)) * width + (index + 1) * width = width * vec.len := by
    rw [← Nat.add_mul, Nat.sub_add_cancel inList, Nat.mul_comm]
  have head : index + 1 ≤ (index + 1) * width := Nat.le_mul_of_pos_right _ positive
  omega

theorem hasSlack_iff (positive : 0 < width) (inList : index < vec.len)
    (small : width * vec.len < 2 ^ 64) :
    HasSlack width vec index ↔
      (index + 1) * width + eraseLength width vec index ≤ vec.capacity := by
  obtain ⟨length, _⟩ := eraseLength_eq positive inList small
  obtain ⟨width, rfl⟩ := Nat.exists_eq_succ_of_ne_zero (Nat.ne_of_gt positive)
  have last : (index + 1) * (width + 1) = width * (index + 1) + (index + 1) := by ring
  rw [HasSlack, Nat.succ_eq_add_one, Nat.add_sub_cancel]
  simp only [Nat.succ_eq_add_one] at length
  omega

/-- The accesses of `vec_erase` are inside exactly when there is slack. -/
theorem eraseAccesses_inside (positive : 0 < width) (inList : index < vec.len)
    (fits : vec.len * width ≤ vec.capacity) (small : vec.capacity < 2 ^ 64) :
    (eraseAccesses width vec index).all (· < vec.capacity) ↔ HasSlack width vec index := by
  rw [Nat.mul_comm] at fits
  have next : (index + 1) * width = index * width + width := Nat.succ_mul ..
  have upTo : (index + 1) * width ≤ width * vec.len := by
    rw [Nat.mul_comm]
    exact Nat.mul_le_mul_left _ inList
  rw [hasSlack_iff positive inList (fits.trans_lt small)]
  simp only [eraseAccesses, List.all_append, Bool.and_eq_true, List.all_eq_true, List.mem_range'_1,
    decide_eq_true_eq]
  constructor
  · rintro ⟨reads, _⟩
    cases Nat.eq_zero_or_pos (eraseLength width vec index) with
    | inl nothing => omega
    | inr some =>
      have last := reads ((index + 1) * width + eraseLength width vec index - 1) (by omega)
      omega
  · intro slack
    refine ⟨fun x access => ?_, fun x access => ?_⟩ <;> omega

theorem VecOk.erase (positive : 0 < width) (ready : PmmReady start)
    (ok : VecOk start live width s) (fits : s.Fits width (.erase index))
    (stepped : s.step width (.erase index) = some s') : VecOk start live width s' := by
  obtain ⟨⟨pm, vec⟩, erased, rfl⟩ := Option.map_eq_some_iff.mp stepped
  obtain ⟨inList, slack⟩ := fits
  obtain ⟨data, pointer, moved⟩ := Option.bind_eq_some_iff.mp erased
  cases moved
  -- within the capacity no product wraps
  have lenLt := ok.len_lt positive
  have room := ok.fits
  have small := ok.small
  have capacityLt : s.vec.capacity < 2 ^ 64 := by
    rw [pageSize] at small
    omega
  have length : sub64 s.vec.len 1 = s.vec.len - 1 := sub64_of_le (by omega)
  have smallWhole : width * s.vec.len < 2 ^ 64 := by
    rw [Nat.mul_comm]
    exact room.trans_lt capacityLt
  obtain ⟨_, behind⟩ := eraseLength_eq positive inList smallWhole
  have next : (index + 1) * width = index * width + width := Nat.succ_mul ..
  have aligned := le_pageAlignUp s.vec.capacity small
  have accesses := (eraseAccesses_inside positive inList room capacityLt).mpr slack
  have heap := ok.heap
  rw [pointer] at heap
  rw [copyUp_eq_blit (by omega)]
  refine ⟨?_, ?_, ?_, small, ?_, ?_⟩
  · simp only [pointer]
    -- what is moved stays in the data of the block
    refine heap.frame ready fun x outside => blit_outside ?_
    have away := outside _ (List.mem_cons_self ..)
    have last := (hasSlack_iff positive inList smallWhole).mp slack
    simp only [Block.HasData] at away
    omega
  · intro null
    rw [pointer] at null
    cases null
  · simp only [length]
    exact (Nat.mul_le_mul_right _ (Nat.sub_le ..)).trans room
  · have kept := ok.sound.elements
    simp only [Vec.elements, pointer, length, Option.getD_some] at kept ⊢
    rw [← kept]
    apply List.ext_getElem
    · simp [List.length_eraseIdx, inList]
    intro i inLeft inRight
    rw [List.getElem_eraseIdx]
    simp only [List.length_map, List.length_range] at inLeft
    simp only [List.getElem_map, List.getElem_range]
    by_cases before : i < index
    · -- in front of the element nothing is moved
      have below : (i + 1) * width ≤ index * width := Nat.mul_le_mul_right _ before
      rw [Nat.succ_mul] at below
      simp only [before, dif_pos]
      rw [loadLE_blit_disjoint (by omega)]
    · simp only [before, dif_neg, not_false_eq_true]
      -- the element is the one that was behind
      obtain ⟨k, rfl⟩ := Nat.exists_eq_add_of_le (Nat.le_of_not_lt before)
      have inside : (k + 1) * width ≤ (s.vec.len - (index + 1)) * width :=
        Nat.mul_le_mul_right _ (by omega)
      have from_ : (index + k) * width = index * width + k * width := Nat.add_mul ..
      have to_ : (index + k + 1) * width = (index + 1) * width + k * width := by ring
      rw [Nat.succ_mul] at inside
      rw [loadLE_blit (by omega) (by omega)]
      congr 1
      omega
  · rw [Bool.and_eq_true]
    exact ⟨ok.sound.inside, accesses⟩

/-! ## Runs -/

theorem VecOk.step {call : VecCall} (positive : 0 < width) (ready : PmmReady start)
    (ok : VecOk start live width s) (fits : s.Fits width call) (stepped : s.step width call = some s') :
    VecOk start live width s' := by
  cases call with
  | pushBack elem => exact ok.push positive ready fits stepped
  | erase index => exact ok.erase positive ready fits stepped

def VecState.new (pm : PhysMem) : VecState := ⟨pm, .new, [], true⟩

/-- A vector is its list and stays within its capacity in every run whose calls have what they need,
    whatever else is on the heap. -/
theorem vec_runs {map : List MemmapEntry} {mem : Mem} {h : Heap} (mapOk : MapOk map)
    (initialised : pmmInit map mem = some start) (heapRun : HeapRun start h) (positive : 0 < width)
    (run : Run (VecState.step width) (VecState.Fits width) (.new h.pm) s) : VecSound width s := by
  obtain ⟨_, ready, _, _⟩ := pmmInit_spec mapOk initialised
  have initially : VecOk start h.live width (.new h.pm) :=
    { heap := heapRun.heapOk ready
      empty := fun _ => ⟨rfl, rfl⟩
      fits := by simp [VecState.new, Vec.new]
      small := show 0 + 4096 ≤ 2 ^ 64 by decide
      sound := ⟨rfl, rfl⟩ }
  exact (run.invariant (VecOk start h.live width) initially
    fun _ _ _ ok fits stepped => ok.step positive ready fits stepped).sound

/-! ## A full vector of pointers -/

/-- The index of `vec_erase` is that of an element. -/
def VecState.Allowed (s : VecState) : VecCall → Prop
  | .pushBack _ => True
  | .erase index => index < s.vec.len

theorem first_push {pm : PhysMem} (result : kmalloc start 32 = some (ptr, pm)) (elem : Nat) :
    ∃ pm, (VecState.new start).step 8 (.pushBack elem) =
      some ⟨pm, ⟨1, 32, some ptr⟩, [elem % 256 ^ 8], true⟩ := by
  have reserved : vecReserve 8 start .new (u64 (0 + 1)) = some (pm, ⟨1, 32, some ptr⟩) := by
    change (kmalloc start 32).map _ = _
    rw [result]
    rfl
  refine ⟨{ pm with mem := storeLE pm.mem ptr 8 elem }, ?_⟩
  rw [VecState.step, VecState.new, vecPushBack]
  simp only [Vec.new] at reserved ⊢
  rw [reserved]
  rfl

theorem later_push {list : List Nat} {len : Nat} (room : len < 4) (elem : Nat) :
    ∃ pm', VecState.step 8 ⟨pm, ⟨len, 32, some ptr⟩, list, true⟩ (.pushBack elem) =
      some ⟨pm', ⟨len + 1, 32, some ptr⟩, list ++ [elem % 256 ^ 8], true⟩ := by
  interval_cases len <;> exact ⟨_, rfl⟩

/-- Four pointers fill the first capacity of a vector. -/
theorem erase_reads_behind :
    ∃ start s, pmmInit smallMap (fun _ => 0) = some start ∧
      Run (VecState.step 8) VecState.Allowed (.new start) s ∧ ¬ VecSound 8 s := by
  obtain ⟨start, initialised, small⟩ := smallStart
  obtain ⟨_, result⟩ := @SmallStart.malloc start 32 small (by decide)
  obtain ⟨pm₁, first⟩ := first_push result 1
  obtain ⟨pm₂, second⟩ := @later_push pm₁ _ [1] 1 (by decide) 2
  obtain ⟨pm₃, third⟩ := @later_push pm₂ _ [1, 2] 2 (by decide) 3
  obtain ⟨pm₄, fourth⟩ := @later_push pm₃ _ [1, 2, 3] 3 (by decide) 4
  have erased : ∃ pm vec, VecState.step 8 ⟨pm₄, ⟨4, 32, some (258 * 4096)⟩, [1, 2, 3, 4], true⟩
      (.erase 0) = some ⟨pm, vec, [2, 3, 4], false⟩ := ⟨_, _, rfl⟩
  obtain ⟨pm, vec, erased⟩ := erased
  refine ⟨start, ⟨pm, vec, [2, 3, 4], false⟩, initialised, ?_, fun sound => Bool.noConfusion sound.inside⟩
  refine .tail (.tail (.tail (.tail (.tail .refl ?_ first) ?_ second) ?_ third) ?_ fourth) ?_ erased
  · trivial
  · trivial
  · trivial
  · trivial
  · show 0 < 4
    decide

/-- With room behind the last element. -/
theorem vec_runs_smallMap :
    ∃ start s, pmmInit smallMap (fun _ => 0) = some start ∧ s.list = [2] ∧ VecSound 8 s := by
  obtain ⟨start, initialised, small⟩ := smallStart
  obtain ⟨_, result⟩ := @SmallStart.malloc start 32 small (by decide)
  obtain ⟨pm₁, first⟩ := first_push result 1
  obtain ⟨pm₂, second⟩ := @later_push pm₁ _ [1] 1 (by decide) 2
  have erased : ∃ pm vec, VecState.step 8 ⟨pm₂, ⟨2, 32, some (258 * 4096)⟩, [1, 2], true⟩
      (.erase 0) = some ⟨pm, vec, [2], true⟩ := ⟨_, _, rfl⟩
  obtain ⟨_, _, erased⟩ := erased
  refine ⟨start, _, initialised, rfl, vec_runs smallMap_ok initialised (h := ⟨start, []⟩) .refl (by decide)
    (.tail (.tail (.tail .refl ?_ first) ?_ second) ?_ erased)⟩
  · intro _
    have onePage : numPages (grownCapacity 8 1) = 1 := by decide
    refine ⟨show 8 * 4 + 4096 ≤ 2 ^ 64 by decide, fun _ => ?_⟩
    change FirstFitTracked start (numPages (grownCapacity 8 1) + 1)
    rw [onePage]
    exact small.fits.tracked
  · intro grows
    exact absurd grows (show ¬ 32 < 2 * 8 by decide)
  · exact ⟨show 0 < 2 by decide, show 8 * 2 + 7 * 1 ≤ 32 by decide⟩

end HanOS.Lib
