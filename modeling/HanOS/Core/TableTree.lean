import HanOS.Core.TablePool
import HanOS.Foundations.Run

/-!
# The tree of page tables under `vmm_map` and `vmm_unmap`

`map_page` goes down the levels and allocates what is missing; between the levels the last
table may be without an entry.  `unmap_page` comes up from the page table and takes away what
has become empty; between the levels, again, the last table may be without an entry.
`FilledBut` carries both.  Over whole runs the tables are a tree of used pages, none of them
empty, and no page is given back that an entry still refers to (`page_tables_runs`).
-/

namespace HanOS.Core

open HanOS.Foundations HanOS.Lib

variable {pm pm' : PhysMem} {root x y b vaddr paddr flags entry : Nat} {path p : Path}
variable {i j : Fin 512}

/-! ## Memory for tables -/

def Served (pm : PhysMem) : Prop := ∃ p, pm.Tracked p ∧ pm.isFree p

theorem pmmGet_served (ready : PmmReady pm) (served : Served pm) :
    ∃ q taken, pmmGet pm 1 0 = some (q * pageSize, taken) ∧ Allocated pm taken q 1 ∧
      pm.Tracked q ∧ ∀ p, pm.isFree p → q ≤ p := by
  have window : ∀ q, pm.Window q 1 ↔ pm.isFree q := fun q =>
    ⟨fun free => free q le_rfl (Nat.lt_succ_self q),
      fun free p low high => (show q = p by omega) ▸ free⟩
  have exists_ : ∃ q, pm.isFree q := served.imp fun _ => And.right
  obtain ⟨p, tracked, free⟩ := served
  have below : pm.Tracked (Nat.find exists_) := (Nat.find_min' exists_ free).trans_lt tracked
  have nowrap : (Nat.find exists_ + 1) * pageSize < 2 ^ 64 :=
    (Nat.mul_le_mul_right _ (Nat.succ_le_of_lt below)).trans_lt (bmSize_pages ready)
  have inLimit : pm.InLimit (Nat.find exists_) := by
    simp only [PhysMem.InLimit, PhysMem.Tracked, PhysMem.bmSize, bmpPagesPerByte, pageSize,
      mul_pageSize] at *
    omega
  obtain ⟨taken, got, allocated⟩ := pmmGet_first nowrap inLimit
    ⟨(window _).mpr (Nat.find_spec exists_), fun j earlier => by
      rw [window]
      exact Nat.find_min exists_ earlier⟩
  exact ⟨_, taken, got, allocated, below, fun p free => Nat.find_min' exists_ free⟩

/-- Memory is only needed where there is no table. -/
def TableServed (pm : PhysMem) (table : Nat) (i : Fin 512) : Prop :=
  isPresent (entryAt pm table i) ∨ Served pm

/-- Whenever `map_page` asks for a page the bitmap has a free one. -/
def PageServed (root : Nat) (pm : PhysMem) (vaddr : Nat) : Prop :=
  TableServed pm root (pml4e vaddr) ∧
    ∀ pdpt pm₁, tableBelow pm root (pml4e vaddr) = some (pdpt, pm₁) →
      TableServed pm₁ pdpt (pdpe vaddr) ∧
        ∀ pd pm₂, tableBelow pm₁ pdpt (pdpe vaddr) = some (pd, pm₂) →
          TableServed pm₂ pd (pde vaddr)

/-! ## Down -/

/-- The table at `path` is there, the mappings are those of before, and no page got free. -/
structure Below (root : Nat) (pm pm' : PhysMem) (path : Path) (y : Nat) : Prop where
  tables : PageTables pm' root
  filled : FilledBut pm' root path
  at_y : tableAt pm' root path = some y
  leaf : ∀ (p : Path) j, p.length = 3 → leafEntry pm' root p j = leafEntry pm root p j
  bitmap : pm'.bitmap = pm.bitmap
  physLimit : pm'.physLimit = pm.physLimit
  free : ∀ p, pm.Tracked p → pm'.isFree p → pm.isFree p

theorem entry_of_present (tables : PageTables pm root) (at_x : tableAt pm root path = some x)
    (above : path.length < 3) (present : isPresent (entryAt pm x i)) :
    ∃ b, pageSize ∣ b ∧ entryAt pm x i = tableEntry b := by
  refine (tables.entries path x i above at_x).resolve_left fun zero => ?_
  rw [zero] at present
  cases present

theorem zero_of_absent (tables : PageTables pm root) (at_x : tableAt pm root path = some x)
    (above : path.length < 3) (absent : ¬ isPresent (entryAt pm x i)) : entryAt pm x i = 0 := by
  refine (tables.entries path x i above at_x).resolve_right ?_
  rintro ⟨b, aligned, refers⟩
  rw [refers] at absent
  exact absent (isPresent_tableEntry aligned)

/-- An entry makes the table it is in one that is not empty. -/
theorem FilledBut.moved (filled : FilledBut pm root path) (at_x : tableAt pm root path = some x)
    (set : entryAt pm x i ≠ 0) (spare : Path) : FilledBut pm root spare := by
  intro p y below short _ at_y
  by_cases same : p = path
  · obtain rfl := Option.some.inj ((same ▸ at_y).symm.trans at_x)
    exact ⟨i, set⟩
  · exact filled p y below short same at_y

def TakesLowest (pm pm' : PhysMem) : Prop :=
  ∀ p r, p < r → pm.Tracked r → pm.isFree p → pm.isFree r → pm'.isFree r

theorem tableBelow_spec (tables : PageTables pm root) (filled : FilledBut pm root path)
    (at_x : tableAt pm root path = some x) (above : path.length < 3)
    (served : TableServed pm x i) :
    ∃ y pm', tableBelow pm x i = some (y, pm') ∧ Below root pm pm' (path ++ [i]) y ∧
      Extends root pm pm' ∧ SamePool root pm pm' ∧ TakesLowest pm pm' ∧
      Brings root pm pm' {path ++ [i]} := by
  have depth : (path ++ [i]).length ≤ 3 := by
    rw [List.length_append, List.length_singleton]
    omega
  have single : ∀ p ∈ ({path ++ [i]} : Finset Path), p.length ≤ 3 := by
    intro p member
    rwa [Finset.mem_singleton.mp member]
  rw [tableBelow]
  by_cases present : isPresent (entryAt pm x i)
  · -- the table is there, and nothing changes
    obtain ⟨b, aligned, refers⟩ := entry_of_present tables at_x above present
    have set : entryAt pm x i ≠ 0 := by
      rw [refers, tableEntry, show vmmFlagsUsermode = 7 by decide]
      omega
    have there : tableAt pm root (path ++ [i]) = some (clear12 (entryAt pm x i)) := by
      rw [tableAt_child at_x, child, if_pos present]
    refine ⟨_, _, if_pos present, ⟨tables, filled.moved at_x set _, there, fun _ _ _ => rfl, rfl, rfl,
      fun _ _ free => free⟩, .refl _ _, .refl _ _, fun _ _ _ _ _ free => free, single,
      fun p _ => ⟨fun none => ⟨none, ?_⟩, And.left⟩, fun _ _ free => free, fun _ _ _ _ _ free _ => free, ?_⟩
    · intro member
      rw [Finset.mem_singleton.mp member, there] at none
      cases none
    · rw [Finset.filter_singleton, if_neg (by rw [there]; simp), Finset.card_empty, Nat.add_zero]
  · -- the lowest free page becomes the table
    obtain ⟨q, taken, got, allocated, tracked, lowest⟩ :=
      pmmGet_served tables.ready (served.resolve_left present)
    obtain ⟨zeroed, same, fresh, bits⟩ := tables.fresh allocated tracked rfl
    have unset := zero_of_absent tables at_x above present
    have missing : tableAt pm root (path ++ [i]) = none := (tableAt_child at_x).trans (child_eq_none unset)
    obtain ⟨extends_, pool, count, update⟩ := tables.link_pool at_x above unset allocated tracked rfl
    rw [← same path x above.le at_x] at unset
    obtain ⟨after, after_filled, at_y, leaf⟩ := zeroed.link (same.filledBut filled)
      ((same.tableAt above.le).trans at_x) above unset fresh rfl
    have page := zeroed.page path x above.le ((same.tableAt above.le).trans at_x)
    generalize result : setEntryAt { taken with mem := fill taken.mem (q * pageSize) pageSize 0 } x i
      (tableEntry (q * pageSize)) = pm' at *
    -- only the bit of that page changes
    have isFree : ∀ p, pm.Tracked p → pm'.isFree p = if p = q then false else pm.isFree p := by
      intro p isTracked
      rw [← result, (setEntryAt_frame zeroed.ready page).2 p
        ((tracked_congr allocated.same.physLimit).mpr isTracked), bits p isTracked]
    have shrinks : ∀ p, pm.Tracked p → pm'.isFree p → pm.isFree p := by
      intro p isTracked free
      rw [isFree p isTracked] at free
      split at free
      · cases free
      · exact free
    have takesLowest : TakesLowest pm pm' := by
      intro p r below isTracked pFree free
      have first := lowest p pFree
      rwa [isFree r isTracked, if_neg (by omega)]
    refine ⟨_, pm', ?_, ⟨after, after_filled, at_y, fun p j last => ?_, extends_.bitmap,
      extends_.physLimit, shrinks⟩, extends_, pool, takesLowest, single, fun p short => ?_, shrinks,
      fun p r below isTracked pFree free _ => takesLowest p r below isTracked pFree free, ?_⟩
    · rw [if_neg present, got, ← result, ← makeTableEntry_usermode fresh.page.aligned]
      rfl
    · rw [leaf p j last, same.leafEntry last.le]
    · rw [update p short, Finset.mem_singleton]
      by_cases here : p = path ++ [i]
      · simp [here]
      · simp [here]
    · rw [Finset.filter_singleton, if_pos missing, Finset.card_singleton, count]

def tablePath (vaddr : Nat) : Path := [pml4e vaddr, pdpe vaddr, pde vaddr]

theorem length_tablePath : (tablePath vaddr).length = 3 := rfl

def tablesAbove (vaddr : Nat) : Finset Path :=
  {[pml4e vaddr], [pml4e vaddr, pdpe vaddr], tablePath vaddr}

def ValidFlags (flags : Nat) : Prop := flags &&& vmmFlagPresent ≠ 0 ∧ flags < 4096

structure Remapped (root : Nat) (pm pm' : PhysMem) (vaddr entry : Nat) : Prop where
  tables : PageTables pm' root
  filled : FilledBut pm' root []
  leaf : ∀ (p : Path) j, p.length = 3 → leafEntry pm' root p j =
    if p = tablePath vaddr ∧ j = pte vaddr then entry else leafEntry pm root p j

theorem mapPage_entry (tables : PageTables pm root) (filled : FilledBut pm root [])
    (served : PageServed root pm vaddr) (result : makeTableEntry (clear12 paddr) flags = entry)
    (present : isPresent entry) (small : entry < 2 ^ 64) :
    ∃ pm', mapPage root pm vaddr paddr flags = some pm' ∧ Remapped root pm pm' vaddr entry ∧
      (∀ p, pm.Tracked p → pm'.isFree p → pm.isFree p) ∧ Extends root pm pm' ∧
      SamePool root pm pm' ∧ Brings root pm pm' (tablesAbove vaddr) := by
  -- down through the three levels of tables, each one there or made
  obtain ⟨serve₁, later⟩ := served
  obtain ⟨pdpt, pm₁, down₁, below₁, extends₁, pool₁, _, brings₁⟩ :=
    tableBelow_spec tables filled rfl (by decide) serve₁
  obtain ⟨serve₂, later⟩ := later pdpt pm₁ down₁
  obtain ⟨pd, pm₂, down₂, below₂, extends₂, pool₂, _, brings₂⟩ :=
    tableBelow_spec below₁.tables below₁.filled below₁.at_y
      (show 1 < 3 by decide) serve₂
  obtain ⟨pt, pm₃, down₃, below₃, extends₃, pool₃, _, brings₃⟩ :=
    tableBelow_spec below₂.tables below₂.filled below₂.at_y
      (show 2 < 3 by decide) (later pd pm₂ down₂)
  have at_pt : tableAt pm₃ root (tablePath vaddr) = some pt := below₃.at_y
  have page := below₃.tables.page _ pt length_tablePath.le at_pt
  obtain ⟨after, same, leaf, others⟩ :=
    below₃.tables.setLeaf (i := pte vaddr) at_pt rfl (.inr present) small rfl
  -- what the three levels take is taken in their order
  have brings : Brings root pm (setEntryAt pm₃ pt (pte vaddr) entry) (tablesAbove vaddr) := by
    have all := ((brings₁.trans pool₁.physLimit brings₂).trans (pool₁.trans pool₂).physLimit brings₃).trans
      ((pool₁.trans pool₂).trans pool₃).physLimit (below₃.tables.setLeaf_brings at_pt rfl same)
    rw [Finset.union_empty, Finset.union_assoc] at all
    exact all
  refine ⟨setEntryAt pm₃ pt (pte vaddr) entry, ?_, ⟨after, ?_, fun p j last => ?_⟩, brings.shrinks,
    ((extends₁.trans extends₂).trans extends₃).trans (below₃.tables.setLeaf_keeps at_pt rfl same).1,
    ((pool₁.trans pool₂).trans pool₃).trans (below₃.tables.setLeaf_pool at_pt rfl same), brings⟩
  · simp only [mapPage, down₁, down₂, down₃, result, Option.bind_eq_bind, Option.bind_some]
  · have filled₃ : FilledBut (setEntryAt pm₃ pt (pte vaddr) entry) root (tablePath vaddr) := by
      intro p y below short different at_y
      rw [same p short] at at_y
      obtain ⟨j, set⟩ := below₃.filled p y below short different at_y
      exact ⟨j, by rwa [others p y j short different at_y]⟩
    refine filled₃.moved (i := pte vaddr) ((same _ length_tablePath.le).trans at_pt) ?_ []
    rw [entryAt_setEntryAt page.aligned page.aligned small, if_pos ⟨rfl, rfl⟩]
    intro zero
    rw [zero] at present
    cases present
  · rw [leaf p j last, below₃.leaf p j last, below₂.leaf p j last, below₁.leaf p j last]

theorem ValidFlags.tableEntry (valid : ValidFlags flags) (bound : paddr < 2 ^ 64) :
    isPresent (makeTableEntry (clear12 paddr) flags) ∧
      makeTableEntry (clear12 paddr) flags < 2 ^ 64 := by
  have multiple : clear12 (clear12 paddr) % 4096 = 0 := Nat.mod_eq_zero_of_dvd clear12_dvd
  have flag : isPresent flags := decide_eq_true valid.1
  have low := valid.2
  rw [isPresent_iff] at flag ⊢
  rw [makeTableEntry_eq valid.2]
  refine ⟨by omega, ?_⟩
  rw [clear12_of_dvd clear12_dvd, clear12]
  omega

theorem mapPage_spec (tables : PageTables pm root) (filled : FilledBut pm root [])
    (served : PageServed root pm vaddr) (valid : ValidFlags flags) (bound : paddr < 2 ^ 64) :
    ∃ pm', mapPage root pm vaddr paddr flags = some pm' ∧
      Remapped root pm pm' vaddr (makeTableEntry (clear12 paddr) flags) ∧
      pm'.bitmap = pm.bitmap ∧ pm'.physLimit = pm.physLimit ∧
      ∀ p, pm.Tracked p → pm'.isFree p → pm.isFree p := by
  obtain ⟨present, small⟩ := valid.tableEntry bound
  obtain ⟨pm', mapped, remapped, free, _, pool, _⟩ :=
    mapPage_entry tables filled served rfl present small
  exact ⟨pm', mapped, remapped, pool.bitmap, pool.physLimit, free⟩

/-! ## Up -/

theorem tableEmpty_iff : tableEmpty pm x ↔ ∀ i, entryAt pm x i = 0 := by
  simp [tableEmpty]

/-- No entry of the tree refers to the page when it is given back. -/
def Unreferenced (root : Nat) (release : Release) : Prop :=
  ∀ (p : Path) x i, p.length < 3 → tableAt release.before root p = some x →
    child release.before x i ≠ some release.page

theorem child_eq_clear9 (tables : PageTables pm root) (at_x : tableAt pm root path = some x)
    (above : path.length < 3) (present : isPresent (entryAt pm x i)) :
    child pm x i = some (clear9 (entryAt pm x i)) := by
  obtain ⟨b, aligned, refers⟩ := entry_of_present tables at_x above present
  rw [child_tableEntry aligned refers, refers, clear9_tableEntry aligned]

/-- One level of `unmap_page`: the table goes, and the one above may be empty then. -/
theorem dropTable_spec (tables : PageTables pm root) (filled : FilledBut pm root (path ++ [i]))
    (at_x : tableAt pm root path = some x) (above : path.length < 3)
    (refers : child pm x i = some b) (empty : tableEmpty pm b)
    (result : pm' = (dropTable pm x i b).1) :
    PageTables pm' root ∧ FilledBut pm' root path ∧
      (∀ p : Path, p.length ≤ path.length → tableAt pm' root p = tableAt pm root p) ∧
      (∀ (p : Path) j, p.length = 3 → leafEntry pm' root p j = leafEntry pm root p j) ∧
      Unreferenced root (dropTable pm x i b).2 ∧ Extends root pm' pm ∧ SamePool root pm pm' := by
  have at_b : tableAt pm root (path ++ [i]) = some b := (tableAt_child at_x).trans refers
  have depth : (path ++ [i]).length ≤ 3 := by
    rw [List.length_append, List.length_singleton]
    omega
  have page := tables.page _ b depth at_b
  obtain ⟨unlinked, filled', others, outside, leaf⟩ :=
    tables.unlink filled at_x above refers (tableEmpty_iff.mp empty) rfl
  have stillPage : TablePage (setEntryAt pm x i 0) b :=
    page.congr rfl rfl (setEntryAt_frame tables.ready (tables.page path x above.le at_x)).2
  obtain ⟨after, same⟩ := unlinked.free stillPage outside result
  have shorter : ∀ p : Path, p.length ≤ path.length → p ≠ path ++ [i] := fun p short equal => by
    rw [equal, List.length_append, List.length_singleton] at short
    omega
  refine ⟨after, same.filledBut filled', fun p short => ?_, fun p j last => ?_,
    fun p y j short at_y => ?_, tables.drop_pool at_x above refers (tableEmpty_iff.mp empty) result⟩
  · rw [same.tableAt (by omega), others p (by omega) (shorter p short)]
  · rw [same.leafEntry last.le, leaf p j last]
  · rw [← tableAt_child (i := j) at_y]
    exact outside _ (by rw [List.length_append, List.length_singleton]; omega)

/-- The end of `unmap_page`: from a table up through the entries above it, as long as the table
    is empty. -/
def climb (pm : PhysMem) (table : Nat) : List (Nat × Fin 512) → PhysMem × List Release
  | [] => (pm, [])
  | (upper, i) :: above =>
      if !tableEmpty pm table then (pm, [])
      else
        let (pm, release) := dropTable pm upper i table
        let (pm, releases) := climb pm upper above
        (pm, release :: releases)

/-- The entries that lead to a table, from the lowest to the one in the root. -/
def Spine (pm : PhysMem) (root : Nat) : Path → Nat → List (Nat × Fin 512) → Prop
  | path, _, [] => path = []
  | path, table, (upper, i) :: above => ∃ p, path = p ++ [i] ∧ tableAt pm root path = some table ∧
      tableAt pm root p = some upper ∧ Spine pm root p upper above

theorem Spine.congr {above : List (Nat × Fin 512)} (spine : Spine pm root path x above)
    (same : ∀ p : Path, p.length ≤ path.length → tableAt pm' root p = tableAt pm root p) :
    Spine pm' root path x above := by
  induction above generalizing path x with
  | nil => exact spine
  | cons entry above inductionHypothesis =>
    obtain ⟨p, rfl, at_x, at_upper, rest⟩ := spine
    have shorter : p.length ≤ (p ++ [entry.2]).length := by
      rw [List.length_append]
      omega
    refine ⟨p, rfl, (same _ le_rfl).trans at_x, (same p shorter).trans at_upper, ?_⟩
    exact inductionHypothesis rest fun q short => same q (short.trans shorter)

structure Climbed (root : Nat) (pm : PhysMem) (result : PhysMem × List Release) : Prop where
  tables : PageTables result.1 root
  filled : FilledBut result.1 root []
  leaf : ∀ (p : Path) j, p.length = 3 → leafEntry result.1 root p j = leafEntry pm root p j
  released : ∀ release ∈ result.2, Unreferenced root release
  keeps : Extends root result.1 pm
  pool : SamePool root pm result.1

theorem climb_spec {above : List (Nat × Fin 512)} (tables : PageTables pm root)
    (filled : FilledBut pm root path) (short : path.length ≤ 3)
    (spine : Spine pm root path x above) : Climbed root pm (climb pm x above) := by
  induction above generalizing pm path x with
  | nil =>
    obtain rfl : path = [] := spine
    exact ⟨tables, filled, fun _ _ _ => rfl, nofun, .refl _ _, .refl _ _⟩
  | cons entry above inductionHypothesis =>
    obtain ⟨upper, i⟩ := entry
    obtain ⟨p, rfl, at_x, at_upper, rest⟩ := spine
    rw [List.length_append, List.length_singleton] at short
    rw [climb]
    by_cases empty : tableEmpty pm x
    · simp only [empty, Bool.not_true, Bool.false_eq_true, if_false]
      obtain ⟨tables₁, filled₁, same, leaf, released, keeps, pool⟩ := dropTable_spec tables filled
        at_upper (by omega) ((tableAt_child at_upper).symm.trans at_x) empty rfl
      have higher := inductionHypothesis tables₁ filled₁ (by omega) (rest.congr same)
      exact ⟨higher.tables, higher.filled, fun q j last => (higher.leaf q j last).trans (leaf q j last),
        List.forall_mem_cons.mpr ⟨released, higher.released⟩, higher.keeps.trans keeps,
        pool.trans higher.pool⟩
    · simp only [empty, Bool.not_false, if_true]
      obtain ⟨j, set⟩ := not_forall.mp (mt tableEmpty_iff.mpr empty)
      exact ⟨tables, filled.moved at_x set [], fun _ _ _ => rfl, nofun, .refl _ _, .refl _ _⟩

theorem leafEntry_of_missing {q : Path} (missing : tableAt pm root path = none)
    (split : tablePath vaddr = path ++ q) :
    leafEntry pm root (tablePath vaddr) (pte vaddr) = 0 := by
  have none_ : tableAt pm root (tablePath vaddr) = none := by
    rw [split, tableAt, descend_append, ← tableAt, missing, Option.bind_none]
  rw [leafEntry, none_]

theorem tableAt_missing (at_x : tableAt pm root path = some x)
    (absent : ¬ isPresent (entryAt pm x i)) : tableAt pm root (path ++ [i]) = none := by
  rw [tableAt_child at_x, child, if_neg absent]

theorem tableAt_clear9 (tables : PageTables pm root) (at_x : tableAt pm root path = some x)
    (above : path.length < 3) (present : isPresent (entryAt pm x i)) :
    tableAt pm root (path ++ [i]) = some (clear9 (entryAt pm x i)) := by
  rw [tableAt_child at_x, child_eq_clear9 tables at_x above present]

/-- `unmap_page` does nothing where no page is mapped; else it clears the entry and comes up. -/
theorem unmapPage_cases (tables : PageTables pm root) :
    (unmapPage root pm vaddr = (pm, []) ∧ leafEntry pm root (tablePath vaddr) (pte vaddr) = 0) ∨
    ∃ pt above, tableAt pm root (tablePath vaddr) = some pt ∧
      Spine pm root (tablePath vaddr) pt above ∧
      unmapPage root pm vaddr = climb (setEntryAt pm pt (pte vaddr) 0) pt above := by
  -- level by level: an entry that is not present ends the walk with nothing done
  have at_root : tableAt pm root [] = some root := rfl
  by_cases present₁ : isPresent (entryAt pm root (pml4e vaddr))
  swap
  · exact .inl ⟨by simp only [unmapPage, present₁, Bool.not_false, if_true],
      leafEntry_of_missing (tableAt_missing at_root present₁) rfl⟩
  have at_pdpt := tableAt_clear9 tables at_root (show 0 < 3 by decide) present₁
  simp only [unmapPage, present₁, Bool.not_true, Bool.false_eq_true, if_false]
  generalize clear9 (entryAt pm root (pml4e vaddr)) = pdpt at *
  by_cases present₂ : isPresent (entryAt pm pdpt (pdpe vaddr))
  swap
  · exact .inl ⟨by simp only [present₂, Bool.not_false, if_true],
      leafEntry_of_missing (tableAt_missing at_pdpt present₂) rfl⟩
  have at_pd := tableAt_clear9 tables at_pdpt (show 1 < 3 by decide) present₂
  simp only [present₂, Bool.not_true, Bool.false_eq_true, if_false]
  generalize clear9 (entryAt pm pdpt (pdpe vaddr)) = pd at *
  by_cases present₃ : isPresent (entryAt pm pd (pde vaddr))
  swap
  · exact .inl ⟨by simp only [present₃, Bool.not_false, if_true],
      leafEntry_of_missing (tableAt_missing at_pd present₃) rfl⟩
  have at_pt := tableAt_clear9 tables at_pd (show 2 < 3 by decide) present₃
  simp only [present₃, Bool.not_true, Bool.false_eq_true, if_false]
  generalize clear9 (entryAt pm pd (pde vaddr)) = pt at *
  by_cases present₄ : isPresent (entryAt pm pt (pte vaddr))
  swap
  · refine .inl ⟨by simp only [present₄, Bool.not_false, if_true], ?_⟩
    rw [leafEntry, show tableAt pm root (tablePath vaddr) = some pt from at_pt]
    exact (tables.leaves _ pt _ rfl at_pt).resolve_right present₄
  refine .inr ⟨pt, [(pd, pde vaddr), (pdpt, pdpe vaddr), (root, pml4e vaddr)], at_pt,
    ⟨_, rfl, at_pt, at_pd, _, rfl, at_pd, at_pdpt, _, rfl, at_pdpt, at_root, rfl⟩, ?_⟩
  simp only [present₄, Bool.not_true, Bool.false_eq_true, if_false, climb]
  split
  · rfl
  · split
    · rfl
    · split <;> rfl

/-- One mapping goes, and with it the tables that are empty then. -/
theorem unmapPage_pool (tables : PageTables pm root) (filled : FilledBut pm root []) :
    Remapped root pm (unmapPage root pm vaddr).1 vaddr 0 ∧
      (∀ release ∈ (unmapPage root pm vaddr).2, Unreferenced root release) ∧
      Extends root (unmapPage root pm vaddr).1 pm ∧
      SamePool root pm (unmapPage root pm vaddr).1 := by
  rcases @unmapPage_cases pm root vaddr tables with ⟨result, zero⟩ | ⟨pt, above, at_pt, spine, result⟩
  · rw [result]
    refine ⟨⟨tables, filled, fun p j _ => ?_⟩, nofun, .refl _ _, .refl _ _⟩
    split
    · next here => rw [here.1, here.2, zero]
    · rfl
  · obtain ⟨tables₁, same₁, leaf₁, others₁⟩ :=
      tables.setLeaf at_pt rfl (.inl rfl) (Nat.two_pow_pos 64) (i := pte vaddr) rfl
    have filled₁ : FilledBut (setEntryAt pm pt (pte vaddr) 0) root (tablePath vaddr) := by
      intro p y below short different at_y
      rw [same₁ p short] at at_y
      obtain ⟨j, set⟩ := filled p y below short below at_y
      exact ⟨j, by rwa [others₁ p y j short different at_y]⟩
    have climbed := climb_spec tables₁ filled₁ length_tablePath.le
      (spine.congr fun p short => same₁ p (short.trans length_tablePath.le))
    rw [← result] at climbed
    refine ⟨⟨climbed.tables, climbed.filled, fun p j last => ?_⟩, climbed.released,
      climbed.keeps.trans (tables.setLeaf_keeps at_pt rfl same₁).2,
      (tables.setLeaf_pool at_pt rfl same₁).trans climbed.pool⟩
    rw [climbed.leaf p j last, leaf₁ p j last]

theorem unmapPage_spec (tables : PageTables pm root) (filled : FilledBut pm root []) :
    Remapped root pm (unmapPage root pm vaddr).1 vaddr 0 ∧
      ∀ release ∈ (unmapPage root pm vaddr).2, Unreferenced root release :=
  have ⟨remapped, released, _⟩ := unmapPage_pool tables filled
  ⟨remapped, released⟩

/-! ## Runs -/

/-- The memory, and what `unmap_page` has given back so far. -/
structure VmState where
  pm : PhysMem
  released : List Release

inductive VmCall
  | map (vaddr paddr np flags : Nat)
  | unmap (vaddr np : Nat)

def VmState.step (pml4 : Nat) (s : VmState) : VmCall → Option VmState
  | .map vaddr paddr np flags =>
      (vmmMap pml4 s.pm vaddr paddr np flags).map fun pm => { s with pm := pm }
  | .unmap vaddr np =>
      let (pm, more) := vmmUnmap pml4 s.pm vaddr np
      some ⟨pm, s.released ++ more⟩

/-- Whenever the loop of `vmm_map` asks for a page the bitmap has a free one. -/
def EnoughPages (pml4 : Nat) (pm : PhysMem) (vaddr paddr np flags : Nat) : Prop :=
  Along (fun pm i => mapPage pml4 pm (u64 (vaddr + i)) (u64 (paddr + i)) flags)
    (fun pm i => PageServed pml4 pm (u64 (vaddr + i))) pm (pageStarts 0 np)

def VmState.Allowed (pml4 : Nat) (s : VmState) : VmCall → Prop
  | .map vaddr paddr np flags => ValidFlags flags ∧ EnoughPages pml4 s.pm vaddr paddr np flags
  | .unmap _ _ => True

/-- A PML4 without an entry, on a used page outside the bitmap. -/
structure EmptyPml4 (pm : PhysMem) (pml4 : Nat) : Prop where
  ready : PmmReady pm
  page : TablePage pm pml4
  zero : ∀ i, entryAt pm pml4 i = 0

structure TreeOk (root : Nat) (pm : PhysMem) : Prop where
  tables : PageTables pm root
  filled : FilledBut pm root []

theorem EmptyPml4.treeOk (empty : EmptyPml4 pm root) : TreeOk root pm := by
  have alone : ∀ (p : Path) x, tableAt pm root p = some x → p = [] ∧ x = root := by
    intro p x at_x
    cases p with
    | nil => exact ⟨rfl, (Option.some.inj at_x).symm⟩
    | cons i p =>
      rw [tableAt, descend, child_eq_none (empty.zero i)] at at_x
      cases at_x
  refine ⟨⟨empty.ready, fun p q x _ _ at_p at_q => ?_, fun p x _ at_x => ?_,
    fun p x i _ at_x => ?_, fun p x i last at_x => ?_⟩, fun p x below _ _ at_x => ?_⟩
  · rw [(alone p x at_p).1, (alone q x at_q).1]
  · exact (alone p x at_x).2 ▸ empty.page
  · exact .inl ((alone p x at_x).2 ▸ empty.zero i)
  · rw [(alone p x at_x).1] at last
    cases last
  · exact absurd (alone p x at_x).1 below

theorem vmmMap_treeOk (tree : TreeOk root pm) (valid : ValidFlags flags) {np : Nat}
    (enough : EnoughPages root pm vaddr paddr np flags) :
    ∃ pm', vmmMap root pm vaddr paddr np flags = some pm' ∧ TreeOk root pm' :=
  enough.finishes (TreeOk root) tree fun _ _ before served =>
    have ⟨after, mapped, remapped, _⟩ := mapPage_spec before.tables before.filled served valid
      (Nat.mod_lt _ (Nat.two_pow_pos 64))
    ⟨after, mapped, remapped.tables, remapped.filled⟩

theorem vmmUnmap_treeOk (tree : TreeOk root pm) (vaddr np : Nat) :
    TreeOk root (vmmUnmap root pm vaddr np).1 ∧
      ∀ release ∈ (vmmUnmap root pm vaddr np).2, Unreferenced root release := by
  rw [vmmUnmap]
  suffices run : ∀ (starts : List Nat) (s : PhysMem × List Release), TreeOk root s.1 →
      (∀ release ∈ s.2, Unreferenced root release) →
      let final := starts.foldl (fun (pm, releases) i =>
        let (pm, more) := unmapPage root pm (u64 (vaddr + i))
        (pm, releases ++ more)) s
      TreeOk root final.1 ∧ ∀ release ∈ final.2, Unreferenced root release from
    run _ (pm, []) tree (by simp)
  intro starts
  induction starts with
  | nil => exact fun s before released => ⟨before, released⟩
  | cons i starts inductionHypothesis =>
    intro s before released
    obtain ⟨remapped, more⟩ :=
      @unmapPage_spec _ _ (u64 (vaddr + i)) before.tables before.filled
    refine inductionHypothesis _ ⟨remapped.tables, remapped.filled⟩ fun release member => ?_
    exact (List.mem_append.mp member).elim (released release) (more release)

structure TreeSound (root : Nat) (s : VmState) : Prop where
  distinct : ∀ (p q : Path) x, p.length ≤ 3 → q.length ≤ 3 → tableAt s.pm root p = some x →
    tableAt s.pm root q = some x → p = q
  oneEntry : ∀ (p : Path) x, p ≠ [] → p.length ≤ 3 → tableAt s.pm root p = some x →
    ∃! entry : Nat × Fin 512, (∃ q : Path, q.length < 3 ∧ tableAt s.pm root q = some entry.1) ∧
      child s.pm entry.1 entry.2 = some x
  used : ∀ (p : Path) x, p.length ≤ 3 → tableAt s.pm root p = some x →
    s.pm.isFree (x / pageSize) = false
  nonempty : ∀ (p : Path) x, p ≠ [] → p.length ≤ 3 → tableAt s.pm root p = some x →
    ∃ i, entryAt s.pm x i ≠ 0
  released : ∀ release ∈ s.released, Unreferenced root release

/-- The tables of an address space in every state that calls of `vmm_map` and `vmm_unmap` lead to. -/
theorem page_tables_runs {start : PhysMem} {s : VmState} (empty : EmptyPml4 start root)
    (run : Run (VmState.step root) (VmState.Allowed root) ⟨start, []⟩ s) : TreeSound root s := by
  obtain ⟨tree, released⟩ := run.invariant
    (fun s => TreeOk root s.pm ∧ ∀ release ∈ s.released, Unreferenced root release)
    ⟨empty.treeOk, by simp⟩ (by
      rintro before call after ⟨tree, released⟩ allowed stepped
      cases call with
      | map vaddr paddr np flags =>
        obtain ⟨pm, mapped, mappedOk⟩ := vmmMap_treeOk tree allowed.1 allowed.2
        rw [VmState.step, mapped] at stepped
        obtain rfl := Option.some.inj stepped
        exact ⟨mappedOk, released⟩
      | unmap vaddr np =>
        obtain ⟨unmapped, more⟩ := vmmUnmap_treeOk tree vaddr np
        obtain rfl := Option.some.inj stepped
        exact ⟨unmapped, fun release member =>
          (List.mem_append.mp member).elim (released release) (more release)⟩)
  exact ⟨tree.tables.unique, fun p x below short at_x =>
      tree.tables.unique.existsUnique_entry short at_x below,
    fun p x short at_x => (tree.tables.page p x short at_x).used,
    fun p x below short at_x => tree.filled p x below short below at_x, released⟩

/-! ## Pages in a row

Every call of `map_page` takes at most the three lowest free pages. -/

section Window

variable {n q : Nat}

theorem window_served (window : pm.Window q (n + 1)) (inside : q + (n + 1) ≤ 8 * pm.bmSize) :
    Served pm :=
  ⟨q, by rw [PhysMem.Tracked]; omega, window q le_rfl (by omega)⟩

theorem tableBelow_window (tables : PageTables pm root) (filled : FilledBut pm root path)
    (at_x : tableAt pm root path = some x) (above : path.length < 3)
    (window : pm.Window q (n + 1)) (inside : q + (n + 1) ≤ 8 * pm.bmSize)
    (below : tableBelow pm x i = some (y, pm')) :
    Below root pm pm' (path ++ [i]) y ∧ pm'.Window (q + 1) n := by
  have served := window_served window inside
  obtain ⟨_, _, result, spec, _, _, taken, _⟩ :=
    tableBelow_spec tables filled at_x above (i := i) (.inr served)
  obtain ⟨rfl, rfl⟩ := Prod.mk.inj (Option.some.inj (below.symm.trans result))
  refine ⟨spec, fun r low high => taken q r (by omega) ?_ (window q le_rfl (by omega))
    (window r (by omega) (by omega))⟩
  rw [PhysMem.Tracked]
  omega

theorem mapPage_window (tree : TreeOk root pm) (window : pm.Window q (n + 3))
    (inside : q + (n + 3) ≤ 8 * pm.bmSize) :
    PageServed root pm vaddr ∧
      ∀ pm', mapPage root pm vaddr paddr flags = some pm' → pm'.Window (q + 3) n := by
  have at_root : tableAt pm root [] = some root := rfl
  have first : ∀ {pdpt pm₁}, tableBelow pm root (pml4e vaddr) = some (pdpt, pm₁) →
      Below root pm pm₁ [pml4e vaddr] pdpt ∧ pm₁.Window (q + 1) (n + 2) ∧
        q + 1 + (n + 2) ≤ 8 * pm₁.bmSize := fun down => by
    obtain ⟨below, rest⟩ := tableBelow_window tree.tables tree.filled at_root (by decide) window
      inside down
    exact ⟨below, rest, by rw [bmSize_congr below.physLimit]; omega⟩
  have second : ∀ {pdpt pm₁ pd pm₂}, tableBelow pm root (pml4e vaddr) = some (pdpt, pm₁) →
      tableBelow pm₁ pdpt (pdpe vaddr) = some (pd, pm₂) →
      Below root pm₁ pm₂ [pml4e vaddr, pdpe vaddr] pd ∧ pm₂.Window (q + 2) (n + 1) ∧
        q + 2 + (n + 1) ≤ 8 * pm₂.bmSize := fun down₁ down₂ => by
    obtain ⟨below₁, window₁, inside₁⟩ := first down₁
    obtain ⟨below, rest⟩ := tableBelow_window below₁.tables below₁.filled below₁.at_y
      (show 1 < 3 by decide) window₁ inside₁ down₂
    exact ⟨below, rest, by rw [bmSize_congr below.physLimit]; omega⟩
  refine ⟨⟨.inr (window_served window inside), fun pdpt pm₁ down₁ => ⟨?_, fun pd pm₂ down₂ => ?_⟩⟩,
    fun pm' mapped => ?_⟩
  · exact .inr (window_served (first down₁).2.1 (first down₁).2.2)
  · exact .inr (window_served (second down₁ down₂).2.1 (second down₁ down₂).2.2)
  · rw [mapPage] at mapped
    obtain ⟨⟨pdpt, pm₁⟩, down₁, mapped⟩ := Option.bind_eq_some_iff.mp mapped
    obtain ⟨⟨pd, pm₂⟩, down₂, mapped⟩ := Option.bind_eq_some_iff.mp mapped
    obtain ⟨⟨pt, pm₃⟩, down₃, mapped⟩ := Option.bind_eq_some_iff.mp mapped
    obtain rfl := Option.some.inj mapped
    obtain ⟨below₂, window₂, inside₂⟩ := second down₁ down₂
    obtain ⟨below₃, window₃⟩ := tableBelow_window below₂.tables below₂.filled below₂.at_y
      (show 2 < 3 by decide) window₂ inside₂ down₃
    have page := below₃.tables.page _ pt length_tablePath.le below₃.at_y
    intro r low high
    rw [(setEntryAt_frame below₃.tables.ready page).2 r]
    · exact window₃ r low high
    · rw [PhysMem.Tracked, bmSize_congr below₃.physLimit]
      omega

/-- Three pages for each call are enough. -/
theorem along_of_window {Call : Type*} {virtual physical flagsOf : Call → Nat} {calls : List Call}
    (tree : TreeOk root pm)
    (valid : ∀ call ∈ calls, ValidFlags (flagsOf call) ∧ physical call < 2 ^ 64)
    (window : pm.Window q (n + 3 * calls.length))
    (inside : q + (n + 3 * calls.length) ≤ 8 * pm.bmSize) :
    Along (fun pm call => mapPage root pm (virtual call) (physical call) (flagsOf call))
        (fun pm call => PageServed root pm (virtual call)) pm calls ∧
      ∀ pm', calls.foldlM (fun pm call => mapPage root pm (virtual call) (physical call) (flagsOf call))
        pm = some pm' → pm'.Window (q + 3 * calls.length) n := by
  induction calls generalizing pm q with
  | nil =>
    refine ⟨trivial, fun pm' finished => ?_⟩
    obtain rfl := Option.some.inj finished
    exact window
  | cons call calls inductionHypothesis =>
    rw [List.length_cons] at window inside
    obtain ⟨served, step⟩ := @mapPage_window pm root (virtual call) (physical call) (flagsOf call)
      (n + 3 * calls.length) q tree window inside
    obtain ⟨next, mapped, remapped, _, physLimit, _⟩ := mapPage_spec tree.tables tree.filled served
      (valid call (by simp)).1 (valid call (by simp)).2
    obtain ⟨along, finish⟩ := inductionHypothesis ⟨remapped.tables, remapped.filled⟩
      (fun other member => valid other (List.mem_cons_of_mem _ member)) (step next mapped)
      (by rw [bmSize_congr physLimit]; omega)
    refine ⟨⟨served, fun other same => ?_⟩, fun pm' finished => ?_⟩
    · obtain rfl := Option.some.inj (mapped.symm.trans same)
      exact along
    · rw [List.foldlM_cons, mapped] at finished
      have rest := finish pm' finished
      rwa [List.length_cons, show q + 3 * (calls.length + 1) = q + 3 + 3 * calls.length by ring]

theorem enoughPages_of_window {np : Nat} (tree : TreeOk root pm) (valid : ValidFlags flags)
    (range : np * pageSize < 2 ^ 64) (window : pm.Window q (3 * np))
    (inside : q + 3 * np ≤ 8 * pm.bmSize) : EnoughPages root pm vaddr paddr np flags := by
  have starts := @pageStarts_page 0 np (by rwa [Nat.zero_add])
  have length : (pageStarts 0 np).length = np := by
    rw [← Nat.zero_mul pageSize, starts, List.length_map, List.length_range']
  rw [← length, ← Nat.zero_add (3 * _)] at window inside
  exact (along_of_window tree (fun i _ => ⟨valid, Nat.mod_lt _ (Nat.two_pow_pos 64)⟩) window inside).1

end Window

/-! ## A memory of 64 pages -/

/-- The bitmap is page 1 and the PML4 page 2; pages 8 to 23 are free. -/
def smallMem : PhysMem where
  physLimit := 64 * 4096
  totalSize := 64 * 4096
  freeSize := 16 * 4096
  bitmap := 0x1000
  mem := fun x => if x = 0x1001 ∨ x = 0x1002 then 0xFF else 0

theorem smallMem_empty : EmptyPml4 smallMem 0x2000 where
  ready := by
    refine ⟨by decide, fun p tracked storage => ?_, by decide, by decide⟩
    have page : p = 1 := by
      have one : numPages smallMem.bmSize * pageSize = 4096 := by decide
      rw [PhysMem.Storage, one] at storage
      simp only [smallMem, pageSize, mul_pageSize] at storage
      omega
    subst page
    decide
  page := ⟨by decide, by decide, by decide, by decide⟩
  zero := by decide +kernel

theorem validFlags_default : ValidFlags vmmFlagsDefault := ⟨by decide, by decide⟩

/-- The free pages are enough for every range of five pages. -/
theorem smallMem_enough {np : Nat} (few : np ≤ 5) :
    EnoughPages 0x2000 smallMem vaddr paddr np vmmFlagsDefault := by
  have free : ∀ p < 24, 8 ≤ p → smallMem.isFree p := by decide +kernel
  refine enoughPages_of_window (q := 8) smallMem_empty.treeOk validFlags_default ?_ ?_ ?_
  · simp only [pageSize, mul_pageSize]
    omega
  · exact fun p low high => free p (by omega) low
  · have bits : smallMem.bmSize = 8 := by decide
    omega

/-- Three pages on both sides of the end of a page table are mapped, and two of them unmapped. -/
theorem page_tables_runs_smallMem :
    ∃ middle s, VmState.step 0x2000 ⟨smallMem, []⟩ (.map 0x3FE000 0x5000 3 vmmFlagsDefault) =
        some middle ∧
      VmState.step 0x2000 middle (.unmap 0x3FE000 2) = some s ∧ TreeSound 0x2000 s := by
  have enough : EnoughPages 0x2000 smallMem 0x3FE000 0x5000 3 vmmFlagsDefault :=
    smallMem_enough (by decide)
  obtain ⟨pm, mapped, _⟩ := vmmMap_treeOk smallMem_empty.treeOk validFlags_default enough
  have stepped : VmState.step 0x2000 ⟨smallMem, []⟩ (.map 0x3FE000 0x5000 3 vmmFlagsDefault) =
      some ⟨pm, []⟩ := by
    rw [VmState.step, mapped]
    rfl
  have allowed : VmState.Allowed 0x2000 ⟨smallMem, []⟩ (.map 0x3FE000 0x5000 3 vmmFlagsDefault) :=
    ⟨validFlags_default, enough⟩
  have first : Run (VmState.step 0x2000) (VmState.Allowed 0x2000) ⟨smallMem, []⟩ ⟨pm, []⟩ :=
    .tail .refl allowed stepped
  have unmap : VmState.Allowed 0x2000 ⟨pm, []⟩ (.unmap 0x3FE000 2) := trivial
  exact ⟨_, _, stepped, rfl, page_tables_runs smallMem_empty (.tail first unmap rfl)⟩

end HanOS.Core
