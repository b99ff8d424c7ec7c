import HanOS.Core.MapRange

/-!
# Ranges mapped and unmapped again

`vmm_unmap` takes everything back that `vmm_map` has brought: no table but the PML4 is empty, so
which tables there are follows from what is mapped; those from before never move; and the others
are free pages again.  But a page that was a table is left with zeros.  Where memory ends with
pages that have no bit in the bitmap, their bits are in the byte behind it; when the page of that
byte was one of the tables, those pages are lost (`vmmMap_vmmUnmap_iff`).
-/

namespace HanOS.Core

open HanOS.Foundations HanOS.Lib

variable {pm pm' middle start : PhysMem} {root x y vaddr paddr np flags page : Nat} {path p : Path}
variable {i j : Fin 512} {starts : List Nat} {paths : Finset Path}

/-! ## What is mapped says which tables there are -/

/-- Below every table but the PML4 some page is mapped. -/
theorem TreeOk.exists_leaf {path : Path} {x : Nat} (tree : TreeOk root pm) (below : path ≠ [])
    (short : path.length ≤ 3) (at_x : tableAt pm root path = some x) :
    ∃ (q : Path) (j : Fin 512), (path ++ q).length = 3 ∧ leafEntry pm root (path ++ q) j ≠ 0 := by
  obtain ⟨i, set⟩ := tree.filled path x below short below at_x
  rcases short.eq_or_lt with last | above
  · refine ⟨[], i, by rw [List.append_nil, last], ?_⟩
    rwa [List.append_nil, leafEntry, at_x]
  · obtain ⟨b, aligned, refers⟩ := (tree.tables.entries path x i above at_x).resolve_left set
    obtain ⟨q, j, deep, mapped⟩ := @TreeOk.exists_leaf (path ++ [i]) b tree (by simp)
      (by rw [List.length_append, List.length_singleton]; omega)
      ((tableAt_child at_x).trans (child_tableEntry aligned refers))
    rw [List.append_assoc] at deep mapped
    exact ⟨[i] ++ q, j, deep, mapped⟩
termination_by 3 - path.length
decreasing_by
  rw [List.length_append, List.length_singleton]
  omega

theorem tableAt_of_leaf {q : Path} (mapped : leafEntry pm root (path ++ q) j ≠ 0) :
    ∃ x, tableAt pm root path = some x := by
  cases at_path : tableAt pm root path with
  | some x => exact ⟨x, rfl⟩
  | none =>
    rw [leafEntry, tableAt, descend_append, ← tableAt, at_path, Option.bind_none] at mapped
    exact absurd rfl mapped

/-- Two trees with the same pages mapped have tables in the same places. -/
theorem TreeOk.same_tables (tree : TreeOk root pm)
    (leaf : ∀ (p : Path) j, p.length = 3 → leafEntry pm' root p j = leafEntry pm root p j)
    (short : p.length ≤ 3) (at_x : tableAt pm root p = some x) :
    ∃ y, tableAt pm' root p = some y := by
  by_cases top : p = []
  · exact ⟨root, by rw [top]; rfl⟩
  · obtain ⟨q, j, deep, mapped⟩ := tree.exists_leaf top short at_x
    rw [← leaf _ j deep] at mapped
    exact tableAt_of_leaf mapped

/-! ## Back to where it was -/

/-- Nothing that can be seen of an address space and of the memory manager has changed. -/
structure Restored (pages : Nat → Prop) (root : Nat) (pm pm' : PhysMem) : Prop where
  translations : ∀ vaddr, translate pm' root vaddr = translate pm root vaddr
  tables : ∀ p : Path, p.length ≤ 3 → tableAt pm' root p = tableAt pm root p
  entries : SameEntries pm pm' root
  bitmap : pm'.bitmap = pm.bitmap ∧ ∀ x, pm.InBitmap x → pm'.mem x = pm.mem x
  isFree : ∀ page, pages page → pm'.isFree page = pm.isFree page
  freeSize : pm'.freeSize = pm.freeSize

theorem Restored.of_mapped (tree : TreeOk root pm)
    (down : MappedRange root pm middle vaddr starts)
    (up : UnmappedRange root middle pm' vaddr starts)
    (unmapped : ∀ (p : Path) j, p.length = 3 → OfRange vaddr starts p j → leafEntry pm root p j = 0) :
    Restored pm.Tracked root pm pm' := by
  have leaf : ∀ (p : Path) j, p.length = 3 → leafEntry pm' root p j = leafEntry pm root p j := by
    intro p j last
    by_cases inside : OfRange vaddr starts p j
    · rw [up.cleared p j last inside, unmapped p j last inside]
    · rw [up.leaf p j last inside, down.leaf p j last inside]
  -- a table from before is there all the time, so it is the one found in the end
  have tables : ∀ p : Path, p.length ≤ 3 → tableAt pm' root p = tableAt pm root p := by
    intro p short
    cases at_x : tableAt pm root p with
    | some x =>
      obtain ⟨y, at_y⟩ := tree.same_tables leaf short at_x
      rw [at_y, ← up.keeps.tables p y short at_y, down.keeps.tables p x short at_x]
    | none =>
      cases at_y : tableAt pm' root p with
      | none => rfl
      | some y =>
        obtain ⟨x, at_x'⟩ := up.tree.same_tables (fun p j last => (leaf p j last).symm) short at_y
        rw [at_x] at at_x'
        cases at_x'
  have entries : SameEntries pm pm' root := by
    intro p x short at_x i
    have at_x' := (tables p short).trans at_x
    rcases short.eq_or_lt with last | above
    · have entry := leaf p i last
      rwa [leafEntry, leafEntry, at_x, at_x'] at entry
    · have below : child pm' x i = child pm x i := by
        rw [← tableAt_child at_x, ← tableAt_child at_x', tables]
        rw [List.length_append, List.length_singleton]
        omega
      rcases tree.tables.entries p x i above at_x with zero | ⟨b, aligned, refers⟩ <;>
        rcases up.tree.tables.entries p x i above at_x' with zero' | ⟨b', aligned', refers'⟩
      · rw [zero, zero']
      · rw [child_eq_none zero, child_tableEntry aligned' refers'] at below
        cases below
      · rw [child_eq_none zero', child_tableEntry aligned refers] at below
        cases below
      · rw [child_tableEntry aligned refers, child_tableEntry aligned' refers'] at below
        rw [refers, refers', Option.some.inj below]
  have pool := down.pool.trans up.pool
  have bits : ∀ page, pm.Tracked page → pm'.isFree page = pm.isFree page := by
    intro page tracked
    have used : InTree pm root page → pm.isFree page = false ∧ pm'.isFree page = false := by
      rintro ⟨p, x, short, at_x, rfl⟩
      exact ⟨(tree.tables.page p x short at_x).used,
        (up.tree.tables.page p x short ((tables p short).trans at_x)).used⟩
    have same : InTree pm' root page → InTree pm root page := by
      rintro ⟨p, x, short, at_x, inPage⟩
      exact ⟨p, x, short, (tables p short).symm.trans at_x, inPage⟩
    have either := pool.pages page tracked
    by_cases inTree : InTree pm root page
    · rw [(used inTree).1, (used inTree).2]
    · rw [or_iff_left (mt same inTree), or_iff_left inTree] at either
      rw [Bool.eq_iff_iff, either]
  refine ⟨fun vaddr => ?_, tables, entries, ⟨pool.bitmap, fun x inside => ?_⟩, bits, ?_⟩
  · rw [translate, translate, leaf _ _ length_tablePath]
  · exact bytes_eq_of_isFree pool.bitmap bits inside
  · have count := freePages_congr (bmSize_congr pool.physLimit) bits
    have balance := pool.freeSize
    have small := tree.tables.ready.freeSize
    have small' := up.tree.tables.ready.freeSize
    rw [count] at balance
    omega

/-! ## The pages that were taken -/

/-- Of the free pages, the lowest ones are taken, as many as tables were missing. -/
theorem Brings.taken_iff (brings : Brings root pm pm' paths) (physLimit : pm'.physLimit = pm.physLimit)
    (tracked : pm.Tracked page) (free : pm.isFree page) :
    pm'.isFree page = false ↔
      (List.range page).countP pm.isFree < (paths.filter fun p => tableAt pm root p = none).card := by
  have bound : page < 8 * pm.bmSize := tracked
  have split : ∀ f : Nat → Bool, (List.range (8 * pm.bmSize)).countP f =
      (List.range page).countP f + (List.range' page (8 * pm.bmSize - page)).countP f := by
    intro f
    have parts := @List.range'_append_1 0 page (8 * pm.bmSize - page)
    rw [Nat.zero_add, Nat.add_sub_cancel' bound.le] at parts
    rw [← List.countP_append, List.range_eq_range', List.range_eq_range', parts]
  have count : (List.range (8 * pm.bmSize)).countP pm.isFree =
      (List.range (8 * pm.bmSize)).countP pm'.isFree +
        (paths.filter fun p => tableAt pm root p = none).card := by
    have counted := brings.count
    rwa [freePages, freePages, bmSize_congr physLimit] at counted
  rw [split, split] at count
  by_cases stays : pm'.isFree page
  · -- the pages from here on are as they were
    have same : (List.range' page (8 * pm.bmSize - page)).countP pm'.isFree =
        (List.range' page (8 * pm.bmSize - page)).countP pm.isFree := by
      refine List.countP_congr fun other member => ?_
      obtain ⟨low, high⟩ := List.mem_range'_1.mp member
      have otherTracked : pm.Tracked other := by
        rw [PhysMem.Tracked]
        omega
      refine ⟨brings.shrinks other otherTracked, fun otherFree => ?_⟩
      rcases low.eq_or_lt with here | above
      · exact here ▸ stays
      · exact brings.lowest page other above otherTracked free otherFree stays
    refine iff_of_false (by simp [stays]) ?_
    omega
  · rw [Bool.not_eq_true] at stays
    -- and so are those below, when it is taken itself
    have none_ : (List.range page).countP pm'.isFree = 0 := by
      refine List.countP_eq_zero.mpr fun other member otherStays => ?_
      have below := List.mem_range.mp member
      have otherFree := brings.shrinks other (below.trans bound) otherStays
      rw [brings.lowest other page below tracked otherFree free otherStays] at stays
      cases stays
    obtain ⟨rest, length⟩ := Nat.exists_eq_add_one_of_ne_zero (show 8 * pm.bmSize - page ≠ 0 by omega)
    have fewer : (List.range' page (8 * pm.bmSize - page)).countP pm'.isFree <
        (List.range' page (8 * pm.bmSize - page)).countP pm.isFree := by
      rw [length, List.range'_succ, List.countP_cons_of_pos free,
        List.countP_cons_of_neg (by simp [stays])]
      refine Nat.lt_succ_of_le (List.countP_mono_left fun other member => ?_)
      obtain ⟨low, high⟩ := List.mem_range'_1.mp member
      refine brings.shrinks other ?_
      rw [PhysMem.Tracked]
      omega
    refine iff_of_true stays ?_
    omega

/-- The page is one that the tables of the range are going to take. -/
def TakenFor (root : Nat) (pm : PhysMem) (vaddr : Nat) (starts : List Nat) (page : Nat) : Prop :=
  pm.Tracked page ∧ pm.isFree page ∧ (List.range page).countP pm.isFree <
    ((rangeTables vaddr starts).filter fun p => tableAt pm root p = none).card

instance : Decidable (TakenFor root pm vaddr starts page) := inferInstanceAs (Decidable (_ ∧ _ ∧ _))

theorem MappedRange.taken_iff (tree : TreeOk root pm) (down : MappedRange root pm middle vaddr starts) :
    InTree middle root page ∧ ¬ InTree pm root page ↔ TakenFor root pm vaddr starts page := by
  have used {memory : PhysMem} (tree : TreeOk root memory) (inTree : InTree memory root page) :
      memory.Tracked page ∧ memory.isFree page = false := by
    obtain ⟨p, x, short, at_x, rfl⟩ := inTree
    exact ⟨(tree.tables.page p x short at_x).tracked, (tree.tables.page p x short at_x).used⟩
  constructor
  · rintro ⟨inMiddle, apart⟩
    obtain ⟨tracked, taken⟩ := used down.tree inMiddle
    rw [tracked_congr down.pool.physLimit] at tracked
    have free := ((down.pool.pages page tracked).mp (.inr inMiddle)).resolve_right apart
    exact ⟨tracked, free, (down.brings.taken_iff down.pool.physLimit tracked free).mp taken⟩
  · rintro ⟨tracked, free, few⟩
    have taken := (down.brings.taken_iff down.pool.physLimit tracked free).mpr few
    refine ⟨((down.pool.pages page tracked).mpr (.inl free)).resolve_left (by simp [taken]), ?_⟩
    intro inTree
    rw [(used tree inTree).2] at free
    cases free

/-! ## The byte behind the bitmap -/

/-- It is as it was, unless its page was taken for a table: then it is zero. -/
theorem tail_after (tree : TreeOk root pm) (down : MappedRange root pm middle vaddr starts)
    (up : UnmappedRange root middle pm' vaddr starts) (restored : Restored pm.Tracked root pm pm') :
    pm'.mem pm.tailByte =
      if TakenFor root pm vaddr starts (pm.tailByte / pageSize) then 0 else pm.mem pm.tailByte := by
  have outside : ¬ middle.InBitmap pm.tailByte :=
    mt (inBitmap_congr down.pool.bitmap down.pool.physLimit).mp tailByte_outside
  have outside' : ¬ pm'.InBitmap pm.tailByte :=
    mt (inBitmap_congr up.pool.bitmap up.pool.physLimit).mp outside
  have sameTree : InTree pm' root (pm.tailByte / pageSize) ↔ InTree pm root (pm.tailByte / pageSize) := by
    constructor
    · rintro ⟨p, x, short, at_x, inPage⟩
      exact ⟨p, x, short, (restored.tables p short).symm.trans at_x, inPage⟩
    · rintro ⟨p, x, short, at_x, inPage⟩
      exact ⟨p, x, short, (restored.tables p short).trans at_x, inPage⟩
  by_cases inTree : InTree pm root (pm.tailByte / pageSize)
  · -- the byte belongs to an entry that is as it was
    rw [if_neg fun taken => ((down.taken_iff tree).mpr taken).2 inTree]
    obtain ⟨p, x, short, at_x, inPage⟩ := inTree
    have aligned := (tree.tables.page p x short at_x).aligned
    have low : x ≤ pm.tailByte ∧ pm.tailByte < x + 4096 := by
      obtain ⟨count, rfl⟩ := aligned
      simp only [pageSize] at *
      omega
    have entry := restored.entries p x short at_x ⟨(pm.tailByte - x) / 8, by omega⟩
    have place : x + 8 * ((pm.tailByte - x) / 8) + (pm.tailByte - x) % 8 = pm.tailByte := by omega
    have byte (memory : Mem) : memory pm.tailByte = BitVec.ofNat 8
        (loadLE memory (x + 8 * ((pm.tailByte - x) / 8)) 8 / 256 ^ ((pm.tailByte - x) % 8)) := by
      rw [← byte_of_loadLE (Nat.mod_lt _ (by decide)), place]
    rw [byte pm'.mem, byte pm.mem]
    exact congrArg (fun word => BitVec.ofNat 8 (word / 256 ^ ((pm.tailByte - x) % 8))) entry
  · have apart := mt sameTree.mp inTree
    by_cases inMiddle : InTree middle root (pm.tailByte / pageSize)
    · rw [if_pos ((down.taken_iff tree).mp ⟨inMiddle, inTree⟩)]
      exact (up.pool.bytes _ outside apart).resolve_right fun gone => gone.1 inMiddle
    · rw [if_neg fun taken => inMiddle ((down.taken_iff tree).mpr taken).1,
        ← up.keeps.bytes _ outside' inMiddle, down.keeps.bytes _ tailByte_outside inMiddle]

/-- What is lost are the pages with their bits in a byte that is taken for a table. -/
theorem restored_iff (tree : TreeOk root pm) (down : MappedRange root pm middle vaddr starts)
    (up : UnmappedRange root middle pm' vaddr starts) (restored : Restored pm.Tracked root pm pm') :
    Restored pm.InLimit root pm pm' ↔ ∀ page, pm.InLimit page → ¬ pm.Tracked page → pm.isFree page →
      ¬ TakenFor root pm vaddr starts (pm.tailByte / pageSize) := by
  have byte := tail_after tree down up restored
  have place : ∀ page, pm.InLimit page → ¬ pm.Tracked page → pm.bitmap + page / 8 = pm.tailByte :=
    fun page inLimit untracked => ((tracked_or_tail inLimit).resolve_left untracked).2
  have bit : ∀ page, pm.InLimit page → ¬ pm.Tracked page →
      pm'.isFree page = bitAt pm'.mem pm.tailByte (page % 8) := by
    intro page inLimit untracked
    rw [PhysMem.isFree, restored.bitmap.1, place page inLimit untracked]
  constructor
  · intro all page inLimit untracked free taken
    rw [if_pos taken] at byte
    rw [← all.isFree page inLimit, bit page inLimit untracked, bitAt, byte] at free
    simp at free
  · intro spared
    refine { restored with isFree := fun page inLimit => ?_ }
    by_cases tracked : pm.Tracked page
    · exact restored.isFree page tracked
    · rw [bit page inLimit tracked]
      by_cases taken : TakenFor root pm vaddr starts (pm.tailByte / pageSize)
      · -- none of those pages was free
        have used : pm.isFree page = false :=
          Bool.not_eq_true _ ▸ fun free => spared page inLimit tracked free taken
        rw [if_pos taken] at byte
        rw [used, bitAt, byte]
        simp
      · rw [if_neg taken] at byte
        rw [PhysMem.isFree, place page inLimit tracked]
        exact bitAt_congr byte

/-! ## Back to where it was -/

theorem mem_pageStarts {start : Nat} (member : start ∈ pageStarts 0 np) :
    ∃ i < np, start = i * pageSize := by
  simp only [pageStarts, List.mem_map, List.mem_range, Nat.zero_add] at member
  obtain ⟨i, inRange, rfl⟩ := member
  refine ⟨i, ?_, rfl⟩
  simp only [u64, pageSize, mul_pageSize] at inRange
  omega

theorem leafEntry_of_unmapped (tables : PageTables pm root)
    (unmapped : translate pm root vaddr = none) :
    leafEntry pm root (tablePath vaddr) (pte vaddr) = 0 := by
  have absent : ¬ isPresent (leafEntry pm root (tablePath vaddr) (pte vaddr)) := fun present => by
    rw [translate, if_pos present] at unmapped
    cases unmapped
  cases at_pt : tableAt pm root (tablePath vaddr) with
  | none => rw [leafEntry, at_pt]
  | some pt =>
    rw [leafEntry, at_pt] at absent ⊢
    exact (tables.leaves _ pt _ length_tablePath at_pt).resolve_right absent

theorem vmmMap_vmmUnmap (tree : TreeOk root pm) (present : flags &&& vmmFlagPresent ≠ 0)
    (width : flags < 2 ^ 64) (range : vaddr + np * pageSize ≤ 2 ^ 64)
    (unmapped : ∀ i < np, translate pm root (vaddr + i * pageSize) = none)
    (enough : EnoughPages root pm vaddr paddr np flags) :
    ∃ mapped, vmmMap root pm vaddr paddr np flags = some mapped ∧
      MappedRange root pm mapped vaddr (pageStarts 0 np) ∧
      Restored pm.Tracked root pm (vmmUnmap root mapped vaddr np).1 := by
  have entries : ∀ i, isPresent (makeTableEntry (clear12 (u64 (paddr + i))) flags) ∧
      makeTableEntry (clear12 (u64 (paddr + i))) flags < 2 ^ 64 := by
    intro i
    refine ⟨?_, Nat.or_lt_two_pow ?_ width⟩
    · have flag : isPresent flags := decide_eq_true present
      rw [isPresent_iff] at flag ⊢
      rw [makeTableEntry, Nat.or_mod_two_eq_one]
      exact .inr flag
    · have bound : u64 (paddr + i) < 2 ^ 64 := Nat.mod_lt _ (Nat.two_pow_pos 64)
      simp only [clear12]
      omega
  obtain ⟨mapped, result, down, _⟩ := vmmMap_spec tree entries enough
  refine ⟨mapped, result, down, .of_mapped tree down (vmmUnmap_spec down.tree) ?_⟩
  rintro p j _ ⟨start, member, rfl, rfl⟩
  obtain ⟨i, below, rfl⟩ := mem_pageStarts member
  have inside : vaddr + i * pageSize < 2 ^ 64 := by
    simp only [pageSize, mul_pageSize] at *
    omega
  rw [u64_of_lt inside]
  exact leafEntry_of_unmapped tree.tables (unmapped i below)

/-- Mapping a range none of whose pages is mapped and unmapping it again restores everything but the
    pages at the end of memory that have no bit in the bitmap, and those too if and only if none of
    them was free or the page of the byte with their bits is not taken for a table. -/
theorem vmmMap_vmmUnmap_iff (tree : TreeOk root pm) (present : flags &&& vmmFlagPresent ≠ 0)
    (width : flags < 2 ^ 64) (range : vaddr + np * pageSize ≤ 2 ^ 64)
    (unmapped : ∀ i < np, translate pm root (vaddr + i * pageSize) = none)
    (enough : EnoughPages root pm vaddr paddr np flags) :
    ∃ mapped, vmmMap root pm vaddr paddr np flags = some mapped ∧
      Restored pm.Tracked root pm (vmmUnmap root mapped vaddr np).1 ∧
      (Restored pm.InLimit root pm (vmmUnmap root mapped vaddr np).1 ↔
        ∀ page, pm.InLimit page → ¬ pm.Tracked page → pm.isFree page →
          ¬ TakenFor root pm vaddr (pageStarts 0 np) (pm.tailByte / pageSize)) := by
  obtain ⟨mapped, result, down, restored⟩ := vmmMap_vmmUnmap tree present width range unmapped enough
  exact ⟨mapped, result, restored, restored_iff tree down (vmmUnmap_spec down.tree) restored⟩

theorem vmmMap_vmmUnmap_iff_smallMem :
    ∃ mapped, vmmMap 0x2000 smallMem 0x3FE000 0x5000 3 vmmFlagsDefault = some mapped ∧
      Restored smallMem.Tracked 0x2000 smallMem (vmmUnmap 0x2000 mapped 0x3FE000 3).1 ∧
      (Restored smallMem.InLimit 0x2000 smallMem (vmmUnmap 0x2000 mapped 0x3FE000 3).1 ↔
        ∀ page, smallMem.InLimit page → ¬ smallMem.Tracked page → smallMem.isFree page →
          ¬ TakenFor 0x2000 smallMem 0x3FE000 (pageStarts 0 3) (smallMem.tailByte / pageSize)) := by
  refine vmmMap_vmmUnmap_iff smallMem_empty.treeOk (by decide) (by decide) (by decide) (fun i _ => ?_)
    (smallMem_enough (by decide))
  rw [translate, smallMem_empty.leafEntry length_tablePath]
  rfl

/-! ## A page behind the bitmap is lost -/

/-- Usable memory that ends a page behind 128 MiB: the bitmap is page 256, and the byte behind it,
    with the bit of page 32768, is the first one of page 257. -/
def tailMap : List MemmapEntry :=
  [⟨0x100000, 0x2000, .usable⟩, ⟨0x200000, 0x10000, .usable⟩, ⟨0x8000000, 0x1000, .usable⟩]

theorem tailMap_ok : MapOk tailMap := by
  constructor <;> decide

theorem usable_tailMap {p : Nat} :
    Usable tailMap p ↔ 256 ≤ p ∧ p < 258 ∨ 512 ≤ p ∧ p < 528 ∨ p = 32768 := by
  simp only [Usable, tailMap, List.mem_cons, List.not_mem_nil, or_false, exists_eq_or_imp,
    exists_eq_left, MemmapEntry.aboveLow, MemmapEntry.top, u64, pageSize, mul_pageSize]
  norm_num
  omega

/-- What is known of it with an empty PML4. -/
structure TailStart (pm : PhysMem) (pml4 : Nat) : Prop where
  empty : EmptyPml4 pm pml4
  physLimit : pm.physLimit = 0x8001000
  bitmap : pm.bitmap = 0x100000
  isFree : ∀ p < 32768, pm.isFree p ↔ p = 257 ∨ 514 ≤ p ∧ p < 528
  tail : pm.isFree 32768

theorem tailStart : ∃ start pml4 pm, pmmInit tailMap (fun _ => 0) = some start ∧
    allocPml4 start = some (pml4, pm) ∧ TailStart pm pml4 := by
  have answer : (pmmInit tailMap fun _ => 0).map (fun start => (start.bitmap, start.isFree 32768)) =
      some (0x100000, true) := by
    decide +kernel
  obtain ⟨start, initialised, known⟩ := Option.map_eq_some_iff.mp answer
  obtain ⟨bitmap, tail⟩ := Prod.mk.inj known
  obtain ⟨limit, ready, _, free⟩ := pmmInit_spec tailMap_ok initialised
  have physLimit : start.physLimit = 0x8001000 := limit.trans (by decide)
  have bmSize : start.bmSize = 4096 := by
    rw [PhysMem.bmSize, physLimit]
    decide
  have isFree : ∀ p < 32768, start.isFree p ↔ p = 257 ∨ 512 ≤ p ∧ p < 528 := by
    intro p below
    rw [free p (by rw [PhysMem.Tracked, bmSize]; exact below), usable_tailMap, PhysMem.Storage, bitmap,
      bmSize, show numPages 4096 = 1 by decide]
    simp only [pageSize, mul_pageSize]
    omega
  have window : start.FirstWindow 512 2 := by
    refine ⟨fun p low high => (isFree p (by omega)).mpr (by omega), fun j below all => ?_⟩
    have first := (isFree j (by omega)).mp (all j le_rfl (by omega))
    have second := (isFree (j + 1) (by omega)).mp (all (j + 1) (by omega) (by omega))
    omega
  obtain ⟨pml4, pm, allocated, empty, physLimit', q, first, bits, bitmap', bytes⟩ :=
    allocPml4_spec ready ⟨512, window, by rw [bmSize]; decide⟩
  -- there is one first window
  obtain rfl : q = 512 := by
    rcases Nat.lt_trichotomy q 512 with below | same | above
    · exact absurd first.window (window.first q below)
    · exact same
    · exact absurd window.window (first.first 512 above)
  refine ⟨start, pml4, pm, initialised, allocated, empty, physLimit'.trans physLimit,
    bitmap'.trans bitmap, fun p below => ?_, ?_⟩
  · rw [bits p (by rw [PhysMem.Tracked, bmSize]; exact below), isFree p below]
    omega
  · have byte : pm.mem 0x101000 = start.mem 0x101000 := by
      refine bytes _ ?_ (by decide)
      rw [PhysMem.InBitmap, bitmap, bmSize]
      decide
    rw [PhysMem.isFree, bitmap', bitmap]
    rw [PhysMem.isFree, bitmap] at tail
    exact (bitAt_congr byte).trans tail

theorem TailStart.window {pml4 : Nat} (tail : TailStart pm pml4) : pm.Window 514 3 := fun p low high =>
  (tail.isFree p (by omega)).mpr (by omega)

theorem TailStart.bmSize {pml4 : Nat} (tail : TailStart pm pml4) : pm.bmSize = 4096 := by
  rw [PhysMem.bmSize, tail.physLimit]
  decide

/-- One page mapped and unmapped again: page 257 was one of its tables, and page 32768 is lost. -/
theorem tail_page_lost :
    ∃ start pml4 pm mapped, pmmInit tailMap (fun _ => 0) = some start ∧
      allocPml4 start = some (pml4, pm) ∧ TreeOk pml4 pm ∧
      translate pm pml4 0x400000 = none ∧ EnoughPages pml4 pm 0x400000 0x5000 1 vmmFlagsDefault ∧
      vmmMap pml4 pm 0x400000 0x5000 1 vmmFlagsDefault = some mapped ∧
      ¬ Restored pm.InLimit pml4 pm (vmmUnmap pml4 mapped 0x400000 1).1 := by
  obtain ⟨start, pml4, pm, initialised, allocated, tail⟩ := tailStart
  have tree := tail.empty.treeOk
  have bmSize := tail.bmSize
  have unmapped : translate pm pml4 0x400000 = none := by
    rw [translate, tail.empty.leafEntry length_tablePath]
    rfl
  have one : pageStarts 0 1 = [0] := by decide
  have enough : EnoughPages pml4 pm 0x400000 0x5000 1 vmmFlagsDefault := by
    rw [EnoughPages, one]
    refine ⟨(@mapPage_window pm pml4 _ 0x5000 vmmFlagsDefault 0 514 tree tail.window
      (by rw [bmSize]; decide)).1, fun _ _ => trivial⟩
  obtain ⟨mapped, result, down, restored⟩ := vmmMap_vmmUnmap tree (by decide) (by decide) (by decide)
    (fun i below => by rw [Nat.lt_one_iff.mp below]; exact unmapped) enough
  refine ⟨start, pml4, pm, mapped, initialised, allocated, tree, unmapped, enough, result, fun all => ?_⟩
  have byte : pm.tailByte / pageSize = 257 := by
    rw [PhysMem.tailByte, tail.bitmap, bmSize]
    decide
  have lost := (restored_iff tree down (vmmUnmap_spec down.tree) restored).mp all 32768
    (by rw [PhysMem.InLimit, tail.physLimit]; decide) (by rw [PhysMem.Tracked, bmSize]; decide) tail.tail
  -- 257 is the lowest free page, and there is no table but the PML4
  refine lost ?_
  rw [byte]
  refine ⟨by rw [PhysMem.Tracked, bmSize]; decide, (tail.isFree 257 (by decide)).mpr (.inl rfl), ?_⟩
  have below : (List.range 257).countP pm.isFree = 0 := by
    refine List.countP_eq_zero.mpr fun p member free => ?_
    have low := List.mem_range.mp member
    have := (tail.isFree p (by omega)).mp free
    omega
  rw [below, Finset.card_pos]
  refine ⟨[pml4e (u64 (0x400000 + 0))], Finset.mem_filter.mpr ⟨?_, ?_⟩⟩
  · rw [one, rangeTables_cons, tablesAbove]
    simp
  · have top : tableAt pm pml4 [] = some pml4 := rfl
    exact (tableAt_child top).trans (child_eq_none (tail.empty.zero _))

end HanOS.Core
