import HanOS.Core.PmmInit
import HanOS.Core.Vmm
import HanOS.Foundations.RadixTree

/-!
# The tree of page tables

`tableAt pm root path` is the table that the entries of a path lead to, and `leafEntry` the
entry of a page table at the end of one.  `PageTables` says that the tables are a tree of
used pages with entries of the right form.  The changes `map_page` and `unmap_page` are made
of keep it: an entry of an upper table set to a fresh table or cleared (`setTable`), an entry
of a page table set (`setLeaf`), and anything that happens elsewhere (`frame`).
-/

namespace HanOS.Core

open HanOS.Foundations HanOS.Lib

variable {pm pm' : PhysMem} {root x y z b q entry flags address : Nat} {i j : Fin 512}

/-! ## Entries -/

theorem isPresent_iff : isPresent entry ↔ entry % 2 = 1 := by
  rw [isPresent, vmmFlagPresent, Nat.one_shiftLeft, pow_zero, Nat.and_one_is_mod, decide_eq_true_eq]
  omega

theorem makeTableEntry_eq (low : flags < 4096) :
    makeTableEntry address flags = clear12 address + flags := by
  have multiple : clear12 address = 2 ^ 12 * (address / 2 ^ 12) := by
    rw [clear12]
    omega
  rw [makeTableEntry, multiple, Nat.two_pow_add_eq_or_of_lt low]

theorem clear12_dvd : pageSize ∣ clear12 entry := by
  rw [clear12, pageSize]
  exact Nat.dvd_sub_mod entry

theorem clear12_of_dvd (aligned : pageSize ∣ b) : clear12 b = b := by
  obtain ⟨count, rfl⟩ := aligned
  rw [clear12, pageSize]
  omega

def tableEntry (b : Nat) : Nat := b + vmmFlagsUsermode

theorem makeTableEntry_usermode (aligned : pageSize ∣ b) :
    makeTableEntry b vmmFlagsUsermode = tableEntry b := by
  rw [makeTableEntry_eq (by decide), clear12_of_dvd aligned, tableEntry]

theorem isPresent_tableEntry (aligned : pageSize ∣ b) : isPresent (tableEntry b) := by
  obtain ⟨count, rfl⟩ := aligned
  rw [isPresent_iff, tableEntry, show vmmFlagsUsermode = 7 by decide, pageSize]
  omega

theorem clear12_tableEntry (aligned : pageSize ∣ b) : clear12 (tableEntry b) = b := by
  obtain ⟨count, rfl⟩ := aligned
  rw [clear12, tableEntry, show vmmFlagsUsermode = 7 by decide, pageSize]
  omega

theorem clear9_tableEntry (aligned : pageSize ∣ b) : clear9 (tableEntry b) = b := by
  obtain ⟨count, rfl⟩ := aligned
  rw [clear9, tableEntry, show vmmFlagsUsermode = 7 by decide, pageSize]
  omega

theorem entryAt_congr (bytes : ∀ a, z ≤ a → a < z + pageSize → pm'.mem a = pm.mem a) :
    entryAt pm' z j = entryAt pm z j := by
  have inside := j.isLt
  refine loadLE_congr fun a low high => bytes a (by omega) ?_
  rw [pageSize]
  omega

theorem entryAt_setEntryAt (zAligned : pageSize ∣ z) (xAligned : pageSize ∣ x)
    (small : entry < 2 ^ 64) :
    entryAt (setEntryAt pm x i entry) z j = if z = x ∧ j = i then entry else entryAt pm z j := by
  by_cases same : z = x ∧ j = i
  · obtain ⟨rfl, rfl⟩ := same
    rw [if_pos ⟨rfl, rfl⟩]
    exact load64_store64 small
  · rw [if_neg same]
    refine load64_store64_apart ?_
    obtain ⟨a, rfl⟩ := zAligned
    obtain ⟨c, rfl⟩ := xAligned
    have iBound := i.isLt
    have jBound := j.isLt
    rw [Fin.ext_iff] at same
    rw [pageSize] at *
    omega

/-! ## The tree -/

abbrev Path := List (Fin 512)

def child (pm : PhysMem) (table : Nat) (i : Fin 512) : Option Nat :=
  if isPresent (entryAt pm table i) then some (clear12 (entryAt pm table i)) else none

def tableAt (pm : PhysMem) (root : Nat) (path : Path) : Option Nat := descend (child pm) root path

/-- An entry of a page table, 0 where there is no table. -/
def leafEntry (pm : PhysMem) (root : Nat) (path : Path) (i : Fin 512) : Nat :=
  match tableAt pm root path with
  | some pt => entryAt pm pt i
  | none => 0

/-- A used page outside the bitmap. -/
structure TablePage (pm : PhysMem) (table : Nat) : Prop where
  aligned : pageSize ∣ table
  tracked : pm.Tracked (table / pageSize)
  used : pm.isFree (table / pageSize) = false
  apart : ¬ pm.Storage (table / pageSize)

structure PageTables (pm : PhysMem) (root : Nat) : Prop where
  ready : PmmReady pm
  unique : Unique (child pm) root 3
  page : ∀ (p : Path) (x : Nat), p.length ≤ 3 → tableAt pm root p = some x → TablePage pm x
  entries : ∀ (p : Path) (x : Nat) (i : Fin 512), p.length < 3 → tableAt pm root p = some x →
    entryAt pm x i = 0 ∨ ∃ b, pageSize ∣ b ∧ entryAt pm x i = tableEntry b
  leaves : ∀ (p : Path) (x : Nat) (i : Fin 512), p.length = 3 → tableAt pm root p = some x →
    entryAt pm x i = 0 ∨ isPresent (entryAt pm x i)

/-- Every table below the root has an entry, but for the one at `spare`. -/
def FilledBut (pm : PhysMem) (root : Nat) (spare : Path) : Prop :=
  ∀ (p : Path) (x : Nat), p ≠ [] → p.length ≤ 3 → p ≠ spare → tableAt pm root p = some x →
    ∃ i, entryAt pm x i ≠ 0

variable {path p : Path}

theorem child_eq_none (zero : entryAt pm x i = 0) : child pm x i = none := by
  rw [child, zero]
  rfl

theorem child_tableEntry (aligned : pageSize ∣ b) (refers : entryAt pm x i = tableEntry b) :
    child pm x i = some b := by
  rw [child, refers, if_pos (isPresent_tableEntry aligned), clear12_tableEntry aligned]

theorem tableAt_snoc : tableAt pm root (path ++ [i]) = (tableAt pm root path).bind (child pm · i) :=
  descend_snoc

theorem tableAt_child (at_x : tableAt pm root path = some x) :
    tableAt pm root (path ++ [i]) = child pm x i := by
  rw [tableAt_snoc, at_x, Option.bind_some]

theorem TablePage.page_of (page : TablePage pm x) {a : Nat} (low : x ≤ a)
    (high : a < x + pageSize) : a / pageSize = x / pageSize := by
  obtain ⟨count, rfl⟩ := page.aligned
  rw [pageSize] at *
  omega

theorem TablePage.outside_bitmap (ready : PmmReady pm) (page : TablePage pm x) {a : Nat}
    (low : x ≤ a) (high : a < x + pageSize) : ¬ pm.InBitmap a := fun inside =>
  page.apart (page.page_of low high ▸ ready.storage inside)

/-! ## What happens elsewhere -/

def SameEntries (pm pm' : PhysMem) (root : Nat) : Prop :=
  ∀ (p : Path) (x : Nat), p.length ≤ 3 → tableAt pm root p = some x →
    ∀ i, entryAt pm' x i = entryAt pm x i

theorem SameEntries.tableAt (same : SameEntries pm pm' root) (short : p.length ≤ 3) :
    tableAt pm' root p = tableAt pm root p :=
  descend_congr (fun p x i above at_x => by rw [child, child, same p x above.le at_x]) short

theorem SameEntries.leafEntry (same : SameEntries pm pm' root) (short : p.length ≤ 3) :
    leafEntry pm' root p i = leafEntry pm root p i := by
  rw [HanOS.Core.leafEntry, HanOS.Core.leafEntry, same.tableAt short]
  cases at_x : HanOS.Core.tableAt pm root p with
  | none => rfl
  | some x => exact same p x short at_x i

theorem SameEntries.filledBut (same : SameEntries pm pm' root) (filled : FilledBut pm root path) :
    FilledBut pm' root path := by
  intro p x below short other at_x
  rw [same.tableAt short] at at_x
  obtain ⟨i, set⟩ := filled p x below short other at_x
  exact ⟨i, by rwa [same p x short at_x]⟩

/-- A tree stays one when its entries stay and its pages stay used. -/
theorem PageTables.frame (tables : PageTables pm root) (same : SameEntries pm pm' root)
    (ready : PmmReady pm') (bitmap : pm'.bitmap = pm.bitmap)
    (physLimit : pm'.physLimit = pm.physLimit)
    (used : ∀ (p : Path) (x : Nat), p.length ≤ 3 → tableAt pm root p = some x →
      pm'.isFree (x / pageSize) = false) : PageTables pm' root := by
  have bmSize : pm'.bmSize = pm.bmSize := by rw [PhysMem.bmSize, PhysMem.bmSize, physLimit]
  refine ⟨ready, tables.unique.congr fun p short => same.tableAt short, ?_, ?_, ?_⟩
  · intro p x short at_x
    rw [same.tableAt short] at at_x
    have page := tables.page p x short at_x
    refine ⟨page.aligned, ?_, used p x short at_x, ?_⟩
    · rw [PhysMem.Tracked, bmSize]
      exact page.tracked
    · rw [PhysMem.Storage, bitmap, bmSize]
      exact page.apart
  · intro p x i above at_x
    rw [same.tableAt above.le] at at_x
    rw [same p x above.le at_x]
    exact tables.entries p x i above at_x
  · intro p x i last at_x
    rw [same.tableAt last.le] at at_x
    rw [same p x last.le at_x]
    exact tables.leaves p x i last at_x

/-- A table page that is not in the tree, with all its entries zero. -/
structure Fresh (pm : PhysMem) (root table : Nat) : Prop where
  page : TablePage pm table
  zero : ∀ i, entryAt pm table i = 0
  outside : ∀ p : Path, p.length ≤ 3 → tableAt pm root p ≠ some table

/-- A free page gets into use and is filled with zeros. -/
theorem PageTables.fresh {taken : PhysMem} (tables : PageTables pm root)
    (allocated : Allocated pm taken q 1) (tracked : pm.Tracked q)
    (result : pm' = { taken with mem := fill taken.mem (q * pageSize) pageSize 0 }) :
    PageTables pm' root ∧ SameEntries pm pm' root ∧ Fresh pm' root (q * pageSize) ∧
      ∀ p, pm.Tracked p → pm'.isFree p = if p = q then false else pm.isFree p := by
  subst result
  have free : pm.isFree q := allocated.wasFree q le_rfl (Nat.lt_succ_self q)
  have physLimit := allocated.same.physLimit
  have bitmap := allocated.same.bitmap
  have isPage : q * pageSize / pageSize = q := Nat.mul_div_cancel q (by decide)
  -- the page has no bytes of the bitmap in it
  have filled : ∀ a, taken.InBitmap a → fill taken.mem (q * pageSize) pageSize 0 a = taken.mem a := by
    intro a inside
    refine fill_outside ?_
    by_contra within
    rw [inBitmap_congr bitmap physLimit] at inside
    refine tables.ready.outside_bitmap tracked free ?_ inside
    simp only [pageSize, mul_pageSize] at *
    omega
  have bits : ∀ p, pm.Tracked p → PhysMem.isFree
      { taken with mem := fill taken.mem (q * pageSize) pageSize 0 } p =
        if p = q then false else pm.isFree p := by
    intro p isTracked
    have kept := @isFree_congr taken { taken with mem := fill taken.mem (q * pageSize) pageSize 0 }
      p rfl filled ((tracked_congr physLimit).mpr isTracked)
    refine kept.trans ?_
    rw [allocated.isFree]
    exact if_congr (by omega) rfl rfl
  have elsewhere : ∀ (p : Path) (x : Nat), p.length ≤ 3 → tableAt pm root p = some x →
      x / pageSize ≠ q := by
    intro p x short at_x same
    rw [← same, (tables.page p x short at_x).used] at free
    cases free
  have same : SameEntries pm { taken with mem := fill taken.mem (q * pageSize) pageSize 0 } root := by
    intro p x short at_x i
    have page := tables.page p x short at_x
    have other := elsewhere p x short at_x
    refine entryAt_congr fun a low high => ?_
    rw [← page.page_of low high] at other
    have away : a < q * pageSize ∨ q * pageSize + pageSize ≤ a := by
      simp only [pageSize, mul_pageSize] at *
      omega
    exact (fill_outside away).trans
      (allocated.same.outside tracked (page.outside_bitmap tables.ready low high))
  refine ⟨tables.frame same ((tables.ready.alloc allocated).frame filled) bitmap physLimit ?_, same,
    ⟨⟨Dvd.intro_left q rfl, ?_, ?_, ?_⟩, fun i => ?_, ?_⟩, bits⟩
  · intro p x short at_x
    have page := tables.page p x short at_x
    rw [bits _ page.tracked, page.used, ite_self]
  · rw [isPage]
    exact (tracked_congr physLimit).mpr tracked
  · rw [isPage, bits q tracked, if_pos rfl]
  · rw [isPage]
    intro storage
    rw [tables.ready.storageUsed q tracked ((storage_congr bitmap physLimit).mp storage)] at free
    cases free
  · have inside := i.isLt
    exact loadLE_fill_zero (Nat.le_add_right ..) (by simp only [pageSize]; omega)
  · intro p short at_q
    rw [same.tableAt short] at at_q
    exact elsewhere p _ short at_q isPage

/-! ## Single entries -/

theorem TablePage.congr (page : TablePage pm z) (bitmap : pm'.bitmap = pm.bitmap)
    (physLimit : pm'.physLimit = pm.physLimit)
    (bits : ∀ p, pm.Tracked p → pm'.isFree p = pm.isFree p) : TablePage pm' z where
  aligned := page.aligned
  tracked := (tracked_congr physLimit).mpr page.tracked
  used := (bits _ page.tracked).trans page.used
  apart storage := page.apart ((storage_congr bitmap physLimit).mp storage)

theorem TablePage.tableEntry_lt (ready : PmmReady pm) (page : TablePage pm b) :
    tableEntry b < 2 ^ 64 := by
  have bound := bmSize_pages ready
  have tracked := page.tracked
  obtain ⟨count, rfl⟩ := page.aligned
  rw [tableEntry, show vmmFlagsUsermode = 7 by decide]
  simp only [PhysMem.Tracked, pageSize, mul_pageSize] at *
  omega

theorem setEntryAt_frame (ready : PmmReady pm) (page : TablePage pm x) :
    PmmReady (setEntryAt pm x i entry) ∧
      ∀ p, pm.Tracked p → (setEntryAt pm x i entry).isFree p = pm.isFree p := by
  have bytes : ∀ a, pm.InBitmap a → (setEntryAt pm x i entry).mem a = pm.mem a := by
    intro a inside
    have inTable := i.isLt
    refine storeLE_outside ?_
    by_contra within
    refine page.outside_bitmap ready ?_ ?_ inside
    · omega
    · rw [pageSize]
      omega
  exact ⟨ready.frame bytes, fun p tracked => isFree_congr rfl bytes tracked⟩

/-- An entry of an upper table set to a fresh table, or cleared when its table is empty. -/
theorem PageTables.setTable (tables : PageTables pm root) (at_x : tableAt pm root path = some x)
    (above : path.length < 3)
    (valid : entry = 0 ∨ ∃ b, Fresh pm root b ∧ entry = tableEntry b)
    (oldEmpty : ∀ b, child pm x i = some b → ∀ j, entryAt pm b j = 0)
    (result : pm' = setEntryAt pm x i entry) :
    PageTables pm' root ∧
      (∀ p : Path, p.length ≤ 3 → tableAt pm' root p =
        if p = path ++ [i] then child pm' x i else tableAt pm root p) ∧
      (∀ (p : Path) j, p.length = 3 → leafEntry pm' root p j = leafEntry pm root p j) := by
  have page := tables.page path x above.le at_x
  have small : entry < 2 ^ 64 := by
    rcases valid with rfl | ⟨b, fresh, rfl⟩
    · exact Nat.two_pow_pos 64
    · exact fresh.page.tableEntry_lt tables.ready
  obtain ⟨ready, bits⟩ := @setEntryAt_frame pm x entry i tables.ready page
  have stored : ∀ z, pageSize ∣ z → ∀ j, entryAt pm' z j =
      if z = x ∧ j = i then entry else entryAt pm z j := fun z aligned j => by
    rw [result, entryAt_setEntryAt aligned page.aligned small]
  rw [← result] at ready bits
  have bitmap : pm'.bitmap = pm.bitmap := by rw [result]; rfl
  have physLimit : pm'.physLimit = pm.physLimit := by rw [result]; rfl
  clear result
  -- the table the entry refers to now, if any, is empty
  have new : ∀ y, child pm' x i = some y → Fresh pm root y ∧ ∀ j, entryAt pm' y j = 0 := by
    intro y refers
    have here : entryAt pm' x i = entry := by rw [stored x page.aligned, if_pos ⟨rfl, rfl⟩]
    rcases valid with rfl | ⟨b, fresh, rfl⟩
    · rw [child_eq_none here] at refers
      cases refers
    · rw [child_tableEntry fresh.page.aligned here] at refers
      obtain rfl := Option.some.inj refers
      refine ⟨fresh, fun j => ?_⟩
      rw [stored _ fresh.page.aligned, if_neg, fresh.zero]
      rintro ⟨rfl, _⟩
      exact fresh.outside path above.le at_x
  have others : ∀ (p : Path) y j, p.length ≤ 3 → tableAt pm root p = some y → ¬ (y = x ∧ j = i) →
      entryAt pm' y j = entryAt pm y j := fun p y j short at_y different => by
    rw [stored y (tables.page p y short at_y).aligned, if_neg different]
  have update : ∀ p : Path, p.length ≤ 3 → tableAt pm' root p =
      if p = path ++ [i] then child pm' x i else tableAt pm root p := fun p short =>
    descend_update tables.unique at_x above
      (fun p y j shorter at_y different => by
        rw [child, child, others p y j shorter.le at_y different])
      (fun y refers j => child_eq_none (oldEmpty y refers j))
      (fun y refers j => child_eq_none ((new y refers).2 j)) short
  refine ⟨⟨ready, tables.unique.update update fun y refers => (new y refers).1.outside, ?_, ?_, ?_⟩,
    update, ?_⟩
  · intro p y short at_y
    rw [update p short] at at_y
    split at at_y
    · exact (new y at_y).1.page.congr bitmap physLimit bits
    · exact (tables.page p y short at_y).congr bitmap physLimit bits
  · intro p y j shorter at_y
    rw [update p shorter.le] at at_y
    split at at_y
    · exact .inl ((new y at_y).2 j)
    · rw [stored y (tables.page p y shorter.le at_y).aligned]
      split
      · exact valid.imp_right fun ⟨b, fresh, is⟩ => ⟨b, fresh.page.aligned, is⟩
      · exact tables.entries p y j shorter at_y
  · intro p y j last at_y
    rw [update p last.le] at at_y
    split at at_y
    · exact .inl ((new y at_y).2 j)
    · rw [others p y j last.le at_y]
      · exact tables.leaves p y j last at_y
      · rintro ⟨rfl, _⟩
        have same := tables.unique p path _ last.le above.le at_y at_x
        exact absurd (same ▸ last) above.ne
  · intro p j last
    rw [leafEntry, leafEntry, update p last.le]
    by_cases here : p = path ++ [i]
    · rw [if_pos here, here, tableAt_child at_x]
      cases refers : child pm' x i with
      | none =>
        cases before : child pm x i with
        | none => rfl
        | some b => exact (oldEmpty b before j).symm
      | some y =>
        cases before : child pm x i with
        | none => exact (new y refers).2 j
        | some b => exact ((new y refers).2 j).trans (oldEmpty b before j).symm
    · rw [if_neg here]
      cases at_y : tableAt pm root p with
      | none => rfl
      | some y =>
        refine others p y j last.le at_y ?_
        rintro ⟨rfl, _⟩
        have same := tables.unique p path _ last.le above.le at_y at_x
        exact absurd (same ▸ last) above.ne

/-- Entries of the table an entry is stored in do not count for the others. -/
theorem PageTables.stored_elsewhere (tables : PageTables pm root)
    (at_x : tableAt pm root path = some x) (short : path.length ≤ 3) (small : entry < 2 ^ 64)
    (shortP : p.length ≤ 3) (different : p ≠ path) (at_y : tableAt pm root p = some y) :
    entryAt (setEntryAt pm x i entry) y j = entryAt pm y j := by
  rw [entryAt_setEntryAt (tables.page p y shortP at_y).aligned (tables.page path x short at_x).aligned
    small, if_neg]
  rintro ⟨rfl, _⟩
  exact different (tables.unique p path _ shortP short at_y at_x)

/-- A fresh table linked: it is the only one without an entry. -/
theorem PageTables.link (tables : PageTables pm root) (filled : FilledBut pm root path)
    (at_x : tableAt pm root path = some x) (above : path.length < 3)
    (unset : entryAt pm x i = 0) (fresh : Fresh pm root b)
    (result : pm' = setEntryAt pm x i (tableEntry b)) :
    PageTables pm' root ∧ FilledBut pm' root (path ++ [i]) ∧
      tableAt pm' root (path ++ [i]) = some b ∧
      ∀ (p : Path) j, p.length = 3 → leafEntry pm' root p j = leafEntry pm root p j := by
  have small := fresh.page.tableEntry_lt tables.ready
  have page := tables.page path x above.le at_x
  obtain ⟨after, update, leaf⟩ := tables.setTable at_x above (.inr ⟨b, fresh, rfl⟩)
    (fun y refers => by rw [child_eq_none unset] at refers; cases refers) result
  have here : entryAt pm' x i = tableEntry b := by
    rw [result, entryAt_setEntryAt page.aligned page.aligned small, if_pos ⟨rfl, rfl⟩]
  refine ⟨after, ?_, ?_, leaf⟩
  · intro p y below short different at_y
    rw [update p short, if_neg different] at at_y
    by_cases same : p = path
    · subst same
      obtain rfl := Option.some.inj (at_y.symm.trans at_x)
      refine ⟨i, ?_⟩
      rw [here, tableEntry, show vmmFlagsUsermode = 7 by decide]
      omega
    · obtain ⟨j, set⟩ := filled p y below short same at_y
      refine ⟨j, ?_⟩
      rwa [result, tables.stored_elsewhere at_x above.le small short same at_y]
  · rw [update _ (by rw [List.length_append, List.length_singleton]; omega), if_pos rfl,
      child_tableEntry fresh.page.aligned here]

/-- An empty table unlinked: the one above may be empty now. -/
theorem PageTables.unlink (tables : PageTables pm root) (filled : FilledBut pm root (path ++ [i]))
    (at_x : tableAt pm root path = some x) (above : path.length < 3)
    (refers : child pm x i = some b) (empty : ∀ j, entryAt pm b j = 0)
    (result : pm' = setEntryAt pm x i 0) :
    PageTables pm' root ∧ FilledBut pm' root path ∧
      (∀ p : Path, p.length ≤ 3 → p ≠ path ++ [i] → tableAt pm' root p = tableAt pm root p) ∧
      (∀ p : Path, p.length ≤ 3 → tableAt pm' root p ≠ some b) ∧
      ∀ (p : Path) j, p.length = 3 → leafEntry pm' root p j = leafEntry pm root p j := by
  have page := tables.page path x above.le at_x
  have at_b : tableAt pm root (path ++ [i]) = some b := (tableAt_child at_x).trans refers
  have depth : (path ++ [i]).length ≤ 3 := by
    rw [List.length_append, List.length_singleton]
    omega
  obtain ⟨after, update, leaf⟩ := tables.setTable at_x above (.inl rfl)
    (fun y same => by obtain rfl := Option.some.inj (refers.symm.trans same); exact empty) result
  have here : child pm' x i = none := child_eq_none (by
    rw [result, entryAt_setEntryAt page.aligned page.aligned (Nat.two_pow_pos 64),
      if_pos ⟨rfl, rfl⟩])
  refine ⟨after, ?_, fun p short different => by rw [update p short, if_neg different], ?_, leaf⟩
  · intro p y below short different at_y
    rw [update p short] at at_y
    split at at_y
    · rw [here] at at_y
      cases at_y
    · next other =>
      obtain ⟨j, set⟩ := filled p y below short other at_y
      refine ⟨j, ?_⟩
      rwa [result, tables.stored_elsewhere at_x above.le (Nat.two_pow_pos 64) short different at_y]
  · intro p short at_p
    rw [update p short] at at_p
    split at at_p
    · rw [here] at at_p
      cases at_p
    · next other => exact other (tables.unique p _ b short depth at_p at_b)

/-- An entry of a page table set to a mapping or cleared. -/
theorem PageTables.setLeaf (tables : PageTables pm root) (at_x : tableAt pm root path = some x)
    (last : path.length = 3) (valid : entry = 0 ∨ isPresent entry) (small : entry < 2 ^ 64)
    (result : pm' = setEntryAt pm x i entry) :
    PageTables pm' root ∧
      (∀ p : Path, p.length ≤ 3 → tableAt pm' root p = tableAt pm root p) ∧
      (∀ (p : Path) j, p.length = 3 → leafEntry pm' root p j =
        if p = path ∧ j = i then entry else leafEntry pm root p j) ∧
      ∀ (p : Path) y j, p.length ≤ 3 → p ≠ path → tableAt pm root p = some y →
        entryAt pm' y j = entryAt pm y j := by
  have page := tables.page path x last.le at_x
  obtain ⟨ready, bits⟩ := @setEntryAt_frame pm x entry i tables.ready page
  -- no other table changes, and no entry that leads to a table
  have others : ∀ (p : Path) y j, p.length ≤ 3 → p ≠ path → tableAt pm root p = some y →
      entryAt pm' y j = entryAt pm y j := fun p y j short different at_y => by
    rw [result, tables.stored_elsewhere at_x last.le small short different at_y]
  have same : ∀ p : Path, p.length ≤ 3 → tableAt pm' root p = tableAt pm root p := fun p short =>
    descend_congr (fun p y j shorter at_y => by
      rw [child, child, others p y j shorter.le (fun equal => shorter.ne (equal ▸ last)) at_y]) short
  have stored : ∀ j, entryAt pm' x j = if j = i then entry else entryAt pm x j := fun j => by
    rw [result, entryAt_setEntryAt page.aligned page.aligned small]
    exact if_congr (and_iff_right rfl) rfl rfl
  rw [← result] at ready bits
  refine ⟨⟨ready, tables.unique.congr same, ?_, ?_, ?_⟩, same, ?_, others⟩
  · intro p y short at_y
    rw [same p short] at at_y
    exact (tables.page p y short at_y).congr (by rw [result]; rfl) (by rw [result]; rfl) bits
  · intro p y j shorter at_y
    rw [same p shorter.le] at at_y
    rw [others p y j shorter.le (fun equal => shorter.ne (equal ▸ last)) at_y]
    exact tables.entries p y j shorter at_y
  · intro p y j deep at_y
    rw [same p deep.le] at at_y
    by_cases here : p = path
    · subst here
      obtain rfl := Option.some.inj (at_y.symm.trans at_x)
      -- in the table itself only entry `i` changes
      rw [stored j]
      split
      · exact valid
      · exact tables.leaves p y j deep at_y
    · rw [others p y j deep.le here at_y]
      exact tables.leaves p y j deep at_y
  · intro p j deep
    rw [leafEntry, leafEntry, same p deep.le]
    by_cases here : p = path
    · subst here
      rw [at_x]
      exact (stored j).trans (if_congr (and_iff_right rfl).symm rfl rfl)
    · rw [if_neg fun both => here both.1]
      cases at_y : tableAt pm root p with
      | none => rfl
      | some y => exact others p y j deep.le here at_y

/-- The page of a table that is not in the tree given back. -/
theorem PageTables.free (tables : PageTables pm root) (page : TablePage pm b)
    (outside : ∀ p : Path, p.length ≤ 3 → tableAt pm root p ≠ some b)
    (result : pm' = pmmFree pm b 1) : PageTables pm' root ∧ SameEntries pm pm' root := by
  obtain ⟨q, start⟩ := page.aligned
  rw [mul_comm] at start
  have isPage : b / pageSize = q := by rw [start]; exact Nat.mul_div_cancel q (by decide)
  have tracked := page.tracked
  have apart := page.apart
  rw [isPage] at tracked apart
  have nowrap : (q + 1) * pageSize < 2 ^ 64 :=
    (Nat.mul_le_mul_right _ (Nat.succ_le_of_lt tracked)).trans_lt (bmSize_pages tables.ready)
  obtain ⟨same, _, bits⟩ := pmmFree_spec pm nowrap tables.ready.freeSize
  have ready := tables.ready.free nowrap fun p low high => (show p = q by omega) ▸ apart
  rw [← start, ← result] at same bits ready
  have entries : SameEntries pm pm' root := fun p x short at_x i =>
    entryAt_congr fun a low high => same.outside tracked
      ((tables.page p x short at_x).outside_bitmap tables.ready low high)
  refine ⟨tables.frame entries ready same.bitmap same.physLimit fun p x short at_x => ?_, entries⟩
  have other := tables.page p x short at_x
  rw [bits, if_neg, other.used]
  intro inside
  refine outside p short (at_x.trans ?_)
  obtain ⟨count, rfl⟩ := other.aligned
  rw [Nat.mul_div_cancel_left _ (show 0 < pageSize by decide)] at inside
  rw [start, show count = q by omega, mul_comm]

end HanOS.Core
