import HanOS.Core.PmmCount
import HanOS.Core.Tables
import Mathlib.Data.Finset.Card

/-!
# The pages of the tables

A page `map_page` takes from the bitmap becomes a table, and a table `unmap_page` takes away
becomes a free page.  So the pages that are free or hold a table stay the same, and
`free_size` goes with the bits (`SamePool`).  Tables only come on the way down and only go on
the way up (`Extends`).
-/

namespace HanOS.Core

open HanOS.Foundations HanOS.Lib

variable {pm pm' pm'' : PhysMem} {root x b q entry : Nat} {path p : Path} {i : Fin 512}

def InTree (pm : PhysMem) (root page : Nat) : Prop :=
  ∃ (p : Path) (x : Nat), p.length ≤ 3 ∧ tableAt pm root p = some x ∧ x / pageSize = page

/-- The second memory has every table of the first where it was, and the two differ in the bitmap and
    in tables only. -/
structure Extends (root : Nat) (pm pm' : PhysMem) : Prop where
  bitmap : pm'.bitmap = pm.bitmap
  physLimit : pm'.physLimit = pm.physLimit
  tables : ∀ (p : Path) x, p.length ≤ 3 → tableAt pm root p = some x → tableAt pm' root p = some x
  bytes : ∀ a, ¬ pm.InBitmap a → ¬ InTree pm' root (a / pageSize) → pm'.mem a = pm.mem a

theorem Extends.refl (root : Nat) (pm : PhysMem) : Extends root pm pm :=
  ⟨rfl, rfl, fun _ _ _ at_x => at_x, fun _ _ _ => rfl⟩

theorem Extends.inTree {page : Nat} (keeps : Extends root pm pm') (inTree : InTree pm root page) :
    InTree pm' root page := by
  obtain ⟨p, x, short, at_x, inPage⟩ := inTree
  exact ⟨p, x, short, keeps.tables p x short at_x, inPage⟩

theorem Extends.trans (first : Extends root pm pm') (second : Extends root pm' pm'') :
    Extends root pm pm'' where
  bitmap := second.bitmap.trans first.bitmap
  physLimit := second.physLimit.trans first.physLimit
  tables p x short at_x := second.tables p x short (first.tables p x short at_x)
  bytes a outside apart := by
    rw [second.bytes a (mt (inBitmap_congr first.bitmap first.physLimit).mp outside) apart,
      first.bytes a outside fun inTree => apart (second.inTree inTree)]

/-- An entry is stored in the table it belongs to. -/
theorem PageTables.setEntryAt_bytes {a : Nat} (tables : PageTables pm root)
    (at_x : tableAt pm root path = some x) (short : path.length ≤ 3)
    (apart : ¬ InTree pm root (a / pageSize)) : (setEntryAt pm x i entry).mem a = pm.mem a := by
  have inTable := i.isLt
  apply storeLE_outside
  by_contra within
  refine apart ⟨path, x, short, at_x, ((tables.page path x short at_x).page_of ?_ ?_).symm⟩
  · omega
  · rw [pageSize]
    omega

theorem byte_of_empty {a : Nat} (empty : ∀ j, entryAt pm b j = 0) (low : b ≤ a)
    (high : a < b + pageSize) : pm.mem a = 0 := by
  rw [pageSize] at high
  have entry := empty ⟨(a - b) / 8, by omega⟩
  have place : b + 8 * ((a - b) / 8) + (a - b) % 8 = a := by omega
  have byte := @byte_of_loadLE pm.mem (b + 8 * ((a - b) / 8)) 8 ((a - b) % 8) (Nat.mod_lt _ (by decide))
  rw [show loadLE pm.mem (b + 8 * ((a - b) / 8)) 8 = 0 from entry, place, Nat.zero_div] at byte
  exact byte

/-- No page has left the bitmap and the tree, and none has come to them. -/
structure SamePool (root : Nat) (pm pm' : PhysMem) : Prop where
  bitmap : pm'.bitmap = pm.bitmap
  physLimit : pm'.physLimit = pm.physLimit
  pages : ∀ page, pm.Tracked page →
    ((pm'.isFree page ∨ InTree pm' root page) ↔ pm.isFree page ∨ InTree pm root page)
  freeSize : (pm'.freeSize + freePages pm * pageSize) % 2 ^ 64 =
    (pm.freeSize + freePages pm' * pageSize) % 2 ^ 64
  -- a page that is no table any more is left with zeros
  bytes : ∀ a, ¬ pm.InBitmap a → ¬ InTree pm' root (a / pageSize) →
    pm'.mem a = 0 ∨ ¬ InTree pm root (a / pageSize) ∧ pm'.mem a = pm.mem a

theorem SamePool.refl (root : Nat) (pm : PhysMem) : SamePool root pm pm :=
  ⟨rfl, rfl, fun _ _ => Iff.rfl, rfl, fun _ _ apart => .inr ⟨apart, rfl⟩⟩

theorem SamePool.trans (first : SamePool root pm pm') (second : SamePool root pm' pm'') :
    SamePool root pm pm'' where
  bitmap := second.bitmap.trans first.bitmap
  physLimit := second.physLimit.trans first.physLimit
  pages page tracked := (second.pages page ((tracked_congr first.physLimit).mpr tracked)).trans
    (first.pages page tracked)
  freeSize := by
    have left := first.freeSize
    have right := second.freeSize
    generalize freePages pm * pageSize = a at *
    generalize freePages pm' * pageSize = c at *
    generalize freePages pm'' * pageSize = d at *
    omega
  bytes a outside apart := by
    rcases second.bytes a (mt (inBitmap_congr first.bitmap first.physLimit).mp outside) apart with
      zero | ⟨apart', same⟩
    · exact .inl zero
    · rw [same]
      exact first.bytes a outside apart'

theorem freePages_congr (size : pm'.bmSize = pm.bmSize)
    (bits : ∀ p, pm.Tracked p → pm'.isFree p = pm.isFree p) : freePages pm' = freePages pm := by
  rw [freePages, freePages, size]
  refine List.countP_congr fun p member => ?_
  rw [bits p (List.mem_range.mp member)]

/-- The tables and the bits are those of before. -/
theorem SamePool.of_same (bitmap : pm'.bitmap = pm.bitmap) (physLimit : pm'.physLimit = pm.physLimit)
    (freeSize : pm'.freeSize = pm.freeSize)
    (bits : ∀ p, pm.Tracked p → pm'.isFree p = pm.isFree p)
    (bytes : ∀ a, ¬ InTree pm root (a / pageSize) → pm'.mem a = pm.mem a)
    (same : ∀ p : Path, p.length ≤ 3 → tableAt pm' root p = tableAt pm root p) :
    SamePool root pm pm' where
  bitmap := bitmap
  physLimit := physLimit
  pages page tracked := by
    rw [bits page tracked]
    refine or_congr_right ⟨?_, ?_⟩
    · rintro ⟨p, x, short, at_x, inPage⟩
      exact ⟨p, x, short, (same p short).symm.trans at_x, inPage⟩
    · rintro ⟨p, x, short, at_x, inPage⟩
      exact ⟨p, x, short, (same p short).trans at_x, inPage⟩
  freeSize := by rw [freeSize, freePages_congr (bmSize_congr physLimit) bits]
  bytes a _ apart := by
    have apart' : ¬ InTree pm root (a / pageSize) := by
      rintro ⟨p, x, short, at_x, inPage⟩
      exact apart ⟨p, x, short, (same p short).trans at_x, inPage⟩
    exact .inr ⟨apart', bytes a apart'⟩

/-! ## Tables that come -/

/-- The tables of the paths are there, each on the lowest page that was free when it was taken. -/
structure Brings (root : Nat) (pm pm' : PhysMem) (paths : Finset Path) : Prop where
  short : ∀ p ∈ paths, p.length ≤ 3
  missing : ∀ p : Path, p.length ≤ 3 →
    (tableAt pm' root p = none ↔ tableAt pm root p = none ∧ p ∉ paths)
  shrinks : ∀ page, pm.Tracked page → pm'.isFree page → pm.isFree page
  lowest : ∀ page other, page < other → pm.Tracked other → pm.isFree page → pm.isFree other →
    pm'.isFree page → pm'.isFree other
  count : freePages pm = freePages pm' + (paths.filter fun p => tableAt pm root p = none).card

theorem Brings.refl (root : Nat) (pm : PhysMem) : Brings root pm pm ∅ where
  short p member := absurd member (Finset.notMem_empty p)
  missing p _ := by simp
  shrinks _ _ free := free
  lowest _ _ _ _ _ free _ := free
  count := by simp

theorem Brings.trans {paths more : Finset Path} (physLimit : pm'.physLimit = pm.physLimit)
    (first : Brings root pm pm' paths) (second : Brings root pm' pm'' more) :
    Brings root pm pm'' (paths ∪ more) where
  short p member := (Finset.mem_union.mp member).elim (first.short p) (second.short p)
  missing p short := by
    rw [second.missing p short, first.missing p short, Finset.mem_union, not_or, and_assoc]
  shrinks page tracked free :=
    first.shrinks page tracked (second.shrinks page ((tracked_congr physLimit).mpr tracked) free)
  lowest page other below tracked free otherFree stays := by
    have tracked' := (tracked_congr physLimit).mpr tracked
    have middle := second.shrinks page (below.trans tracked') stays
    exact second.lowest page other below tracked' middle
      (first.lowest page other below tracked free otherFree middle) stays
  count := by
    -- what the second one takes was missing before the first one too
    have split : (paths ∪ more).filter (fun p => tableAt pm root p = none) =
        paths.filter (fun p => tableAt pm root p = none) ∪
          more.filter fun p => tableAt pm' root p = none := by
      ext p
      simp only [Finset.mem_filter, Finset.mem_union]
      constructor
      · rintro ⟨inFirst | inSecond, none⟩
        · exact .inl ⟨inFirst, none⟩
        · by_cases inFirst : p ∈ paths
          · exact .inl ⟨inFirst, none⟩
          · exact .inr ⟨inSecond, (first.missing p (second.short p inSecond)).mpr ⟨none, inFirst⟩⟩
      · rintro (⟨inFirst, none⟩ | ⟨inSecond, none⟩)
        · exact ⟨.inl inFirst, none⟩
        · exact ⟨.inr inSecond, ((first.missing p (second.short p inSecond)).mp none).1⟩
    have apart : Disjoint (paths.filter fun p => tableAt pm root p = none)
        (more.filter fun p => tableAt pm' root p = none) := by
      rw [Finset.disjoint_left]
      intro p inFirst inSecond
      obtain ⟨member, none⟩ := Finset.mem_filter.mp inSecond
      exact ((first.missing p (second.short p member)).mp none).2 (Finset.mem_filter.mp inFirst).1
    rw [split, Finset.card_union_of_disjoint apart, first.count, second.count]
    omega

theorem PageTables.setLeaf_pool (tables : PageTables pm root) (at_x : tableAt pm root path = some x)
    (last : path.length = 3)
    (same : ∀ p : Path, p.length ≤ 3 →
      tableAt (setEntryAt pm x i entry) root p = tableAt pm root p) :
    SamePool root pm (setEntryAt pm x i entry) :=
  .of_same rfl rfl rfl (setEntryAt_frame tables.ready (tables.page path x last.le at_x)).2
    (fun _ apart => tables.setEntryAt_bytes at_x last.le apart) same

theorem PageTables.setLeaf_keeps (tables : PageTables pm root) (at_x : tableAt pm root path = some x)
    (last : path.length = 3)
    (same : ∀ p : Path, p.length ≤ 3 →
      tableAt (setEntryAt pm x i entry) root p = tableAt pm root p) :
    Extends root pm (setEntryAt pm x i entry) ∧ Extends root (setEntryAt pm x i entry) pm := by
  have up : Extends root (setEntryAt pm x i entry) pm :=
    ⟨rfl, rfl, fun p y short at_y => (same p short).symm.trans at_y,
      fun a _ apart => (tables.setEntryAt_bytes at_x last.le apart).symm⟩
  exact ⟨⟨rfl, rfl, fun p y short at_y => (same p short).trans at_y, fun a _ apart =>
    tables.setEntryAt_bytes at_x last.le fun inTree => apart (by
      obtain ⟨p, y, short, at_y, inPage⟩ := inTree
      exact ⟨p, y, short, (same p short).trans at_y, inPage⟩)⟩, up⟩

theorem PageTables.setLeaf_brings (tables : PageTables pm root)
    (at_x : tableAt pm root path = some x) (last : path.length = 3)
    (same : ∀ p : Path, p.length ≤ 3 →
      tableAt (setEntryAt pm x i entry) root p = tableAt pm root p) :
    Brings root pm (setEntryAt pm x i entry) ∅ := by
  have bits := (@setEntryAt_frame pm x entry i tables.ready (tables.page path x last.le at_x)).2
  refine ⟨by simp, fun p short => by rw [same p short]; simp, fun page tracked free => ?_,
    fun page other _ tracked _ free _ => ?_, ?_⟩
  · rwa [bits page tracked] at free
  · rwa [bits other tracked]
  · rw [@freePages_congr pm (setEntryAt pm x i entry) rfl bits]
    simp

/-! ## A page gets a table -/

theorem PageTables.link_tableAt (tables : PageTables pm root) (at_x : tableAt pm root path = some x)
    (above : path.length < 3) (unset : entryAt pm x i = 0) (fresh : Fresh pm root b)
    (result : pm' = setEntryAt pm x i (tableEntry b)) (short : p.length ≤ 3) :
    tableAt pm' root p = if p = path ++ [i] then some b else tableAt pm root p := by
  have page := tables.page path x above.le at_x
  obtain ⟨_, update, _⟩ := tables.setTable at_x above (.inr ⟨b, fresh, rfl⟩)
    (fun y refers => by rw [child_eq_none unset] at refers; cases refers) result
  have here : entryAt pm' x i = tableEntry b := by
    rw [result, entryAt_setEntryAt page.aligned page.aligned (fresh.page.tableEntry_lt tables.ready),
      if_pos ⟨rfl, rfl⟩]
  rw [update p short, child_tableEntry fresh.page.aligned here]

/-- A page is taken, filled with zeros and linked where there was no table. -/
theorem PageTables.link_pool {taken : PhysMem} (tables : PageTables pm root)
    (at_x : tableAt pm root path = some x) (above : path.length < 3)
    (unset : entryAt pm x i = 0) (allocated : Allocated pm taken q 1) (tracked : pm.Tracked q)
    (result : pm' = setEntryAt { taken with mem := fill taken.mem (q * pageSize) pageSize 0 } x i
      (tableEntry (q * pageSize))) :
    Extends root pm pm' ∧ SamePool root pm pm' ∧ freePages pm = freePages pm' + 1 ∧
      ∀ p : Path, p.length ≤ 3 → tableAt pm' root p =
        if p = path ++ [i] then some (q * pageSize) else tableAt pm root p := by
  obtain ⟨zeroed, same, fresh, zeroedBits⟩ := tables.fresh allocated tracked rfl
  have missing : tableAt pm root (path ++ [i]) = none :=
    (tableAt_child at_x).trans (child_eq_none unset)
  have at_x' := (same.tableAt above.le).trans at_x
  have physLimit := allocated.same.physLimit
  have isPage : q * pageSize / pageSize = q := Nat.mul_div_cancel q (by decide)
  have depth : (path ++ [i]).length ≤ 3 := by
    rw [List.length_append, List.length_singleton]
    omega
  -- the new table is the only one that comes in
  have update : ∀ p : Path, p.length ≤ 3 → tableAt pm' root p =
      if p = path ++ [i] then some (q * pageSize) else tableAt pm root p := by
    intro p short
    rw [zeroed.link_tableAt at_x' above ((same path x above.le at_x i).trans unset) fresh result short,
      same.tableAt short]
  have bits : ∀ p, pm.Tracked p → pm'.isFree p = if p = q then false else pm.isFree p := by
    intro p isTracked
    rw [result, (setEntryAt_frame zeroed.ready (zeroed.page path x above.le at_x')).2 p
      ((tracked_congr physLimit).mpr isTracked), zeroedBits p isTracked]
  have keeps : ∀ (p : Path) y, p.length ≤ 3 → tableAt pm root p = some y →
      tableAt pm' root p = some y := by
    intro p y short at_y
    rw [update p short, if_neg, at_y]
    rintro rfl
    rw [missing] at at_y
    cases at_y
  have bytes : ∀ a, ¬ pm.InBitmap a → ¬ InTree pm' root (a / pageSize) → pm'.mem a = pm.mem a := by
    intro a outside apart
    -- the zeroed page is in the tree behind the call
    have elsewhere : a < q * pageSize ∨ q * pageSize + pageSize ≤ a := by
      by_contra within
      refine apart ⟨path ++ [i], q * pageSize, depth, by rw [update _ depth, if_pos rfl], ?_⟩
      simp only [pageSize, mul_pageSize] at *
      omega
    have apart' : ¬ InTree { taken with mem := fill taken.mem (q * pageSize) pageSize 0 } root
        (a / pageSize) := by
      rintro ⟨p, y, short, at_y, inPage⟩
      exact apart ⟨p, y, short, keeps p y short ((same.tableAt short).symm.trans at_y), inPage⟩
    rw [result, zeroed.setEntryAt_bytes at_x' above.le apart']
    exact (fill_outside elsewhere).trans (allocated.same.outside tracked outside)
  have bitmap : pm'.bitmap = pm.bitmap := by
    rw [result]
    exact allocated.same.bitmap
  have physLimit' : pm'.physLimit = pm.physLimit := by
    rw [result]
    exact physLimit
  have extends_ : Extends root pm pm' := ⟨bitmap, physLimit', keeps, bytes⟩
  -- one free page was taken, and zeroing it takes none
  have counted : freePages pm = freePages taken + 1 :=
    freePages_take (bmSize_congr physLimit) (Nat.succ_le_of_lt tracked) allocated.wasFree
      allocated.isFree
  have count : freePages pm' = freePages taken := by
    refine freePages_congr (by rw [result]; rfl) fun p isTracked => ?_
    have isTracked' := (tracked_congr physLimit).mp isTracked
    rw [bits p isTracked', allocated.isFree]
    exact if_congr (by omega) rfl rfl
  refine ⟨extends_, ⟨bitmap, physLimit', fun page isTracked => ?_, ?_, fun a outside apart =>
    .inr ⟨fun inTree => apart (extends_.inTree inTree), bytes a outside apart⟩⟩, counted.trans (by rw [count]),
    update⟩
  · -- the page goes from the bitmap to the tree
    rw [bits page isTracked]
    by_cases here : page = q
    · subst here
      refine iff_of_true (.inr ⟨path ++ [i], _, depth, ?_, isPage⟩)
        (.inl (allocated.wasFree page le_rfl (Nat.lt_succ_self page)))
      rw [update _ depth, if_pos rfl]
    · rw [if_neg here]
      refine or_congr_right ⟨?_, ?_⟩
      · rintro ⟨p, y, short, at_y, inPage⟩
        rw [update p short] at at_y
        split at at_y
        · obtain rfl := Option.some.inj at_y
          exact absurd (inPage.symm.trans isPage) here
        · exact ⟨p, y, short, at_y, inPage⟩
      · rintro ⟨p, y, short, at_y, inPage⟩
        refine ⟨p, y, short, ?_, inPage⟩
        rw [update p short, if_neg, at_y]
        rintro rfl
        rw [missing] at at_y
        cases at_y
  · -- `free_size` and the count of the free pages
    have small := tables.ready.freeSize
    rw [count, counted, show pm'.freeSize = taken.freeSize by rw [result]; rfl, allocated.freeSize,
      sub64]
    simp only [pageSize, Nat.one_mul]
    split <;> omega

/-! ## The page of a table gets free -/

/-- An empty table unlinked and given back. -/
theorem PageTables.drop_pool (tables : PageTables pm root) (at_x : tableAt pm root path = some x)
    (above : path.length < 3) (refers : child pm x i = some b) (empty : ∀ j, entryAt pm b j = 0)
    (result : pm' = (dropTable pm x i b).1) : Extends root pm' pm ∧ SamePool root pm pm' := by
  have page := tables.page path x above.le at_x
  have depth : (path ++ [i]).length ≤ 3 := by
    rw [List.length_append, List.length_singleton]
    omega
  have at_b : tableAt pm root (path ++ [i]) = some b := (tableAt_child at_x).trans refers
  obtain ⟨unlinked, update, _⟩ := tables.setTable at_x above (.inl rfl)
    (fun y same => by obtain rfl := Option.some.inj (refers.symm.trans same); exact empty) rfl
  have here : child (setEntryAt pm x i 0) x i = none := child_eq_none (by
    rw [entryAt_setEntryAt page.aligned page.aligned (Nat.two_pow_pos 64), if_pos ⟨rfl, rfl⟩])
  have entryBits := (@setEntryAt_frame pm x 0 i tables.ready page).2
  rw [here] at update
  have bPage := tables.page _ b depth at_b
  have bPage' : TablePage (setEntryAt pm x i 0) b := bPage.congr rfl rfl entryBits
  -- no other path leads to the table, so its page may go
  have outside : ∀ p : Path, p.length ≤ 3 → tableAt (setEntryAt pm x i 0) root p ≠ some b := by
    intro p short at_p
    rw [update p short] at at_p
    split at at_p
    · cases at_p
    · next other => exact other (tables.unique p _ b short depth at_p at_b)
  obtain ⟨_, same⟩ := unlinked.free bPage' outside result
  have final : ∀ p : Path, p.length ≤ 3 →
      tableAt pm' root p = if p = path ++ [i] then none else tableAt pm root p := fun p short =>
    (same.tableAt short).trans (update p short)
  -- the page of the table, and what `pmm_free` does with it
  obtain ⟨q, start⟩ := bPage.aligned
  rw [mul_comm] at start
  have isPage : b / pageSize = q := by rw [start]; exact Nat.mul_div_cancel q (by decide)
  have tracked := bPage'.tracked
  rw [isPage] at tracked
  have nowrap : (q + 1) * pageSize < 2 ^ 64 :=
    (Nat.mul_le_mul_right _ (Nat.succ_le_of_lt tracked)).trans_lt (bmSize_pages unlinked.ready)
  obtain ⟨freed, freeSize, bits⟩ := pmmFree_spec _ nowrap unlinked.ready.freeSize
  have used := bPage'.used
  rw [isPage] at used
  have one : usedPages (setEntryAt pm x i 0) q 1 = 1 := by
    rw [usedPages, List.range'_one, List.countP_singleton, used]
    rfl
  rw [← start, one] at freeSize
  rw [← start, show pmmFree (setEntryAt pm x i 0) b 1 = pm' from result.symm] at freed bits
  rw [show pmmFree (setEntryAt pm x i 0) b 1 = pm' from result.symm] at freeSize
  -- nothing comes into the tree
  have keeps : ∀ (p : Path) y, p.length ≤ 3 → tableAt pm' root p = some y →
      tableAt pm root p = some y := by
    intro p y short at_y
    rw [final p short] at at_y
    split at at_y
    · cases at_y
    · exact at_y
  have freedBytes : ∀ a, ¬ pm.InBitmap a → pm'.mem a = (setEntryAt pm x i 0).mem a :=
    fun a outside => freed.outside tracked outside
  refine ⟨⟨freed.bitmap.symm, freed.physLimit.symm, keeps, fun a outside apart => ?_⟩,
    ⟨freed.bitmap, freed.physLimit, fun page isTracked => ?_, ?_, fun a outside apart => ?_⟩⟩
  · -- bytes outside the bitmap and the tree
    rw [freedBytes a (mt (inBitmap_congr freed.bitmap freed.physLimit).mpr outside),
      tables.setEntryAt_bytes at_x above.le apart]
  · -- the page goes from the tree to the bitmap, and every other one stays where it is
    by_cases here : page = q
    · subst here
      refine iff_of_true (.inl ?_) (.inr ⟨path ++ [i], b, depth, at_b, isPage⟩)
      rw [bits, if_pos ⟨le_rfl, Nat.lt_succ_self page⟩]
    · rw [bits, if_neg (by omega), entryBits page isTracked]
      refine or_congr_right ⟨?_, ?_⟩
      · rintro ⟨p, y, short, at_y, inPage⟩
        rw [final p short] at at_y
        split at at_y
        · cases at_y
        · exact ⟨p, y, short, at_y, inPage⟩
      · rintro ⟨p, y, short, at_y, inPage⟩
        refine ⟨p, y, short, ?_, inPage⟩
        rw [final p short, if_neg, at_y]
        rintro rfl
        obtain rfl := Option.some.inj (at_y.symm.trans at_b)
        exact here (inPage.symm.trans isPage)
  · -- `free_size` and the count of the free pages grow by one page
    have count : freePages pm' = freePages pm + 1 := by
      have given := freePages_give (bmSize_congr freed.physLimit) (Nat.succ_le_of_lt tracked) bits
      have same := @freePages_congr pm (setEntryAt pm x i 0) rfl entryBits
      rw [given, one, same]
    rw [count, freeSize, u64]
    simp only [setEntryAt, store64, pageSize]
    omega
  · rw [freedBytes a outside]
    by_cases inTree : InTree pm root (a / pageSize)
    · -- the only table that is gone is the empty one
      left
      obtain ⟨p, y, short, at_y, inPage⟩ := inTree
      by_cases here : p = path ++ [i]
      · subst here
        obtain rfl := Option.some.inj (at_y.symm.trans at_b)
        have other : ∀ j, entryAt (setEntryAt pm x i 0) y j = 0 := by
          intro j
          rw [entryAt_setEntryAt bPage.aligned page.aligned (Nat.two_pow_pos 64)]
          split
          · rfl
          · exact empty j
        have multiple := bPage.aligned
        rw [start] at inPage
        refine byte_of_empty other ?_ ?_ <;> simp only [start, pageSize, mul_pageSize] at * <;> omega
      · exact absurd ⟨p, y, short, by rw [final p short, if_neg here, at_y], inPage⟩ apart
    · exact .inr ⟨inTree, tables.setEntryAt_bytes at_x above.le inTree⟩

end HanOS.Core
