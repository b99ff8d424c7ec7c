import HanOS.Fs.Fat32Lookup
import HanOS.Fs.Fat32Names
import Mathlib.Data.List.DropRight

/-!
# Short names listed and looked up

`fat32_get_short_filename` joins the two fields of a stored name with a dot, and
`fat32_compare_entry_and_path` splits a path component at its first dot.  It cuts what is
longer than the fields instead of rejecting it, and blanks at their ends are as good as none.
So a name that is listed is found, but so are components that are no name at all
(`compare_iff_shortFilename`).
-/

namespace HanOS.Fs

open HanOS.Foundations HanOS.Lib

variable {ent : Fat32Entry} {base ext path field : CString} {c : Byte} {n : Nat}

/-! ## Fields -/

def withoutBlanks (field : CString) : CString := field.rdropWhile fun c => c = 0x20

theorem withoutBlanks_append_replicate :
    withoutBlanks (field ++ List.replicate n 0x20) = withoutBlanks field := by
  induction n with
  | zero => rw [List.replicate_zero, List.append_nil]
  | succ n inductionHypothesis =>
    rw [List.replicate_succ', ← List.append_assoc, withoutBlanks,
      List.rdropWhile_concat_pos _ _ _ (by simp)]
    exact inductionHypothesis

theorem withoutBlanks_self (blankless : 0x20 ∉ field) : withoutBlanks field = field := by
  refine List.rdropWhile_eq_self_iff.mpr fun nonempty => ?_
  rw [decide_eq_true_eq]
  rintro blank
  exact blankless (blank ▸ List.getLast_mem nonempty)

theorem withoutBlanks_append (field : CString) :
    ∃ n, field = withoutBlanks field ++ List.replicate n 0x20 := by
  refine ⟨(field.rtakeWhile fun c => c = 0x20).length, ?_⟩
  have blanks : (field.rtakeWhile fun c => c = 0x20) =
      List.replicate (field.rtakeWhile fun c => c = 0x20).length 0x20 :=
    List.eq_replicate_of_mem fun c member => by simpa using List.mem_rtakeWhile_imp member
  rw [← blanks]
  exact List.rdropWhile_append_rtakeWhile.symm

theorem getD_append_replicate (k : Nat) :
    (field ++ List.replicate n 0x20).getD k 0x20 = field.getD k 0x20 := by
  rcases Nat.lt_or_ge k field.length with inside | behind
  · rw [List.getD_append _ _ _ _ inside]
  · rw [List.getD_append_right _ _ _ _ behind, List.getD_eq_default _ _ behind,
      List.getD_eq_getElem?_getD, List.getElem?_replicate]
    split <;> rfl

/-- Two fields are filled up to the same bytes if they differ by blanks at the end. -/
theorem field_eq_iff (blankless : 0x20 ∉ base) (baseShort : base.length ≤ n)
    (fieldShort : field.length ≤ n) :
    (∀ k < n, base.getD k 0x20 = field.getD k 0x20) ↔ base = withoutBlanks field := by
  constructor
  · intro same
    have filled : base ++ List.replicate (n - base.length) 0x20 =
        field ++ List.replicate (n - field.length) 0x20 := by
      refine List.ext_getElem (by simp; omega) fun k left right => ?_
      have below : k < n := by
        rw [List.length_append, List.length_replicate] at left
        omega
      rw [← List.getD_eq_getElem _ 0x20 left, ← List.getD_eq_getElem _ 0x20 right,
        getD_append_replicate, getD_append_replicate, same k below]
    rw [← withoutBlanks_self blankless, ← @withoutBlanks_append_replicate base, filled,
      withoutBlanks_append_replicate]
  · intro same k _
    obtain ⟨m, split⟩ := withoutBlanks_append field
    rw [split, getD_append_replicate, same]

/-! ## Upper case -/

theorem toupper_eq_iff {mark : Byte} (low : mark.toNat < 0x41) : toupper c = mark ↔ c = mark := by
  rw [toupper]
  split
  · next lower =>
    have value : (c - 0x20).toNat = c.toNat - 0x20 := by
      rw [BitVec.toNat_sub_of_le (by rw [BitVec.le_def]; simp; omega)]
      rfl
    refine iff_of_false (fun same => ?_) fun same => ?_
    · rw [← same, value] at low
      omega
    · rw [← same] at low
      omega
  · rfl

theorem withoutBlanks_map : withoutBlanks (field.map toupper) = (withoutBlanks field).map toupper := by
  induction field using List.reverseRecOn with
  | nil => rfl
  | append_singleton field c inductionHypothesis =>
    rw [List.map_append, List.map_singleton, withoutBlanks, withoutBlanks, List.rdropWhile_concat,
      List.rdropWhile_concat]
    have blank : toupper c = 0x20 ↔ c = 0x20 := toupper_eq_iff (by decide)
    simp only [decide_eq_true_eq, blank]
    split
    · exact inductionHypothesis
    · rw [List.map_append, List.map_singleton]

/-! ## Names -/

/-- The two parts of an 8.3 name. -/
structure ShortName (base ext : CString) : Prop where
  nonempty : base ≠ []
  baseShort : base.length ≤ 8
  extShort : ext.length ≤ 3
  plain : ∀ c ∈ base ++ ext, c ≠ 0x20 ∧ c ≠ 0 ∧ c ≠ dot ∧ toupper c = c

def joinExt (base ext : CString) : CString := if ext = [] then base else base ++ dot :: ext

/-- The parts of a component as they fit the two fields. -/
def baseOf (path : CString) : CString := withoutBlanks ((path.takeWhile (· ≠ dot)).take 8)

def extOf (path : CString) : CString :=
  withoutBlanks ((path.drop ((path.takeWhile (· ≠ dot)).length + 1)).take 3)

def eightThree (path : CString) : CString := joinExt (baseOf path) (extOf path)

theorem untilBlank_append (plain : ∀ c ∈ field, c ≠ 0x20 ∧ c ≠ 0) :
    untilBlank (field ++ List.replicate n 0x20) = field := by
  rw [untilBlank, List.takeWhile_append_of_pos fun c member => decide_eq_true (plain c member)]
  cases n with
  | zero => rw [List.replicate_zero, List.takeWhile_nil, List.append_nil]
  | succ n => rw [List.replicate_succ, List.takeWhile_cons_of_neg (by simp), List.append_nil]

theorem dosName_eq (k : Fin 11) : dosName path k =
    if k.val < 8 then (((path.takeWhile (· ≠ dot)).take 8).map toupper).getD k.val 0x20
    else (((path.drop ((path.takeWhile (· ≠ dot)).length + 1)).take 3).map toupper).getD
      (k.val - 8) 0x20 := by
  have upper : ∀ (field : CString) k,
      (field.map toupper).getD k 0x20 = toupper (field.getD k 0x20) := fun field k =>
    List.getD_map (f := toupper) (d := 0x20) ..
  simp only [dosName, upper]
  by_cases inside : dot ∈ path
  · rw [if_pos inside]
    split <;> rfl
  · have all : path.takeWhile (· ≠ dot) = path := by
      refine List.takeWhile_eq_self_iff.mpr fun c member => ?_
      simp only [ne_eq, decide_not, Bool.not_eq_true', decide_eq_false_iff_not]
      rintro rfl
      exact inside member
    rw [if_neg inside, all, List.drop_of_length_le (Nat.le_succ _)]
    split
    · rfl
    · rw [List.getD_eq_default _ _ (by simp; omega)]
      rfl

section Parts

variable (name : ShortName base ext)
include name

theorem ShortName.base_plain (member : c ∈ base) : c ≠ 0x20 ∧ c ≠ 0 ∧ c ≠ dot ∧ toupper c = c :=
  name.plain c (List.mem_append_left _ member)

theorem ShortName.ext_plain (member : c ∈ ext) : c ≠ 0x20 ∧ c ≠ 0 ∧ c ≠ dot ∧ toupper c = c :=
  name.plain c (List.mem_append_right _ member)

theorem ShortName.padded_eq (k : Fin 11) : padded base ext k =
    if k.val < 8 then base.getD k.val 0x20 else ext.getD (k.val - 8) 0x20 := by
  have upper : ∀ (field : CString), (∀ c ∈ field, toupper c = c) → ∀ k,
      toupper (field.getD k 0x20) = field.getD k 0x20 := by
    intro field plain k
    rcases Nat.lt_or_ge k field.length with inside | behind
    · rw [List.getD_eq_getElem _ _ inside]
      exact plain _ (List.getElem_mem inside)
    · rw [List.getD_eq_default _ _ behind]
      rfl
  rw [padded]
  split
  · exact upper base (fun c member => (name.base_plain member).2.2.2) _
  · exact upper ext (fun c member => (name.ext_plain member).2.2.2) _

/-- The name `fat32_get_short_filename` makes of the fields. -/
theorem ShortName.shortFilename : fat32GetShortFilename (padded base ext) = joinExt base ext := by
  have baseField : ((List.finRange 11).take 8).map (padded base ext) =
      base ++ List.replicate (8 - base.length) 0x20 := by
    have short := name.baseShort
    refine List.ext_getElem (by simp; omega) fun k left right => ?_
    have below : k < 8 := by simpa using left
    rw [← List.getD_eq_getElem _ 0x20 right, getD_append_replicate, List.getElem_map,
      List.getElem_take, List.getElem_finRange, name.padded_eq]
    exact if_pos below
  have extField : ((List.finRange 11).drop 8).map (padded base ext) =
      ext ++ List.replicate (3 - ext.length) 0x20 := by
    have short := name.extShort
    refine List.ext_getElem (by simp; omega) fun k left right => ?_
    rw [← List.getD_eq_getElem _ 0x20 right, getD_append_replicate, List.getElem_map,
      List.getElem_drop, List.getElem_finRange, name.padded_eq]
    simp
  rw [fat32GetShortFilename, baseField, extField,
    untilBlank_append fun c member => ⟨(name.base_plain member).1, (name.base_plain member).2.1⟩,
    untilBlank_append fun c member => ⟨(name.ext_plain member).1, (name.ext_plain member).2.1⟩,
    joinExt]

/-- The comparison looks at the parts of the component that fit the fields. -/
theorem ShortName.compare_iff (named : ent.name = padded base ext) :
    fat32CompareEntryAndPath ent path = true ↔
      base = (baseOf path).map toupper ∧ ext = (extOf path).map toupper := by
  have baseBlankless : 0x20 ∉ base := fun member => (name.base_plain member).1 rfl
  have extBlankless : 0x20 ∉ ext := fun member => (name.ext_plain member).1 rfl
  rw [baseOf, extOf, ← withoutBlanks_map, ← withoutBlanks_map,
    ← field_eq_iff baseBlankless name.baseShort (by simp),
    ← field_eq_iff extBlankless name.extShort (by simp), fat32CompareEntryAndPath_iff, named,
    funext_iff]
  simp only [name.padded_eq, dosName_eq]
  constructor
  · refine fun same => ⟨fun k below => ?_, fun k below => ?_⟩
    · have here := same ⟨k, by omega⟩
      rwa [if_pos below, if_pos below] at here
    · have here := same ⟨k + 8, by omega⟩
      rwa [if_neg (by dsimp only; omega), if_neg (by dsimp only; omega), Nat.add_sub_cancel] at here
  · rintro ⟨front, back⟩ k
    have inside := k.isLt
    split
    · next below => exact front k below
    · exact back (k - 8) (by omega)

end Parts

/-! ## Components -/

theorem takeWhile_map : (path.map toupper).takeWhile (· ≠ dot) =
    (path.takeWhile (· ≠ dot)).map toupper := by
  have mark : ∀ c, toupper c = dot ↔ c = dot := fun c => toupper_eq_iff (by decide)
  rw [List.takeWhile_map]
  congr 2
  funext c
  simp only [Function.comp_apply, ne_eq, mark]

/-- A component is its part in front of the first dot, or that and the rest. -/
theorem component_split (path : CString) :
    (path = path.takeWhile (· ≠ dot) ∧
      path.drop ((path.takeWhile (· ≠ dot)).length + 1) = []) ∨
    path = path.takeWhile (· ≠ dot) ++ dot :: path.drop ((path.takeWhile (· ≠ dot)).length + 1) := by
  induction path with
  | nil => exact .inl ⟨rfl, rfl⟩
  | cons c path inductionHypothesis =>
    by_cases mark : c = dot
    · subst mark
      refine .inr ?_
      rw [List.takeWhile_cons_of_neg (by simp)]
      rfl
    · rw [List.takeWhile_cons_of_pos (by simpa using mark)]
      rcases inductionHypothesis with ⟨whole, none_⟩ | split
      · refine .inl ⟨by rw [← whole], ?_⟩
        rw [List.length_cons, List.drop_succ_cons, none_]
      · refine .inr ?_
        rw [List.cons_append, List.length_cons, List.drop_succ_cons, ← split]

/-- A component that is the name in any case has the parts of the name. -/
theorem ShortName.parts (name : ShortName base ext) (spelled : path.map toupper = joinExt base ext) :
    (path.takeWhile (· ≠ dot)).map toupper = base ∧
      (path.drop ((path.takeWhile (· ≠ dot)).length + 1)).map toupper = ext := by
  have all : ∀ rest, (base ++ dot :: rest).takeWhile (· ≠ dot) = base := fun rest => by
    rw [List.takeWhile_append_of_pos fun c member => decide_eq_true (name.base_plain member).2.2.1,
      List.takeWhile_cons_of_neg (by simp), List.append_nil]
  have front : (path.takeWhile (· ≠ dot)).map toupper = base := by
    rw [← takeWhile_map, spelled, joinExt]
    split
    · exact List.takeWhile_eq_self_iff.mpr fun c member =>
        decide_eq_true (name.base_plain member).2.2.1
    · exact all ext
  refine ⟨front, ?_⟩
  have length := congrArg List.length front
  rw [List.length_map] at length
  rw [List.map_drop, length, spelled, joinExt]
  split
  · next none_ => rw [List.drop_of_length_le (Nat.le_succ _), none_]
  · simp

/-- Such a component fits the fields, and is not cut. -/
theorem ShortName.own (name : ShortName base ext) (spelled : path.map toupper = joinExt base ext) :
    eightThree path = path ∧ base = (baseOf path).map toupper ∧ ext = (extOf path).map toupper := by
  obtain ⟨front, back⟩ := name.parts spelled
  have split := component_split path
  have blankless : ∀ {part whole : CString}, part.map toupper = whole →
      (∀ c ∈ whole, c ≠ 0x20 ∧ c ≠ 0 ∧ c ≠ dot ∧ toupper c = c) → 0x20 ∉ part := by
    rintro part whole rfl plain member
    exact (plain _ (List.mem_map_of_mem member)).1 (by decide)
  have baseShort := name.baseShort
  have extShort := name.extShort
  have base_ := blankless front fun c => name.base_plain
  have ext_ := blankless back fun c => name.ext_plain
  rw [← front, List.length_map] at baseShort
  rw [← back, List.length_map] at extShort
  rw [eightThree, baseOf, extOf]
  generalize path.takeWhile (· ≠ dot) = before at *
  generalize path.drop (before.length + 1) = behind at *
  rw [List.take_of_length_le baseShort, List.take_of_length_le extShort, withoutBlanks_self base_,
    withoutBlanks_self ext_]
  refine ⟨?_, front.symm, back.symm⟩
  rcases split with ⟨whole, none_⟩ | whole
  · rw [joinExt, if_pos none_, ← whole]
  · rw [joinExt, ← whole]
    split
    · next none_ =>
      -- a dot with nothing behind it is in no name
      have length := congrArg List.length spelled
      rw [whole, none_, joinExt, ← back, none_, List.map_nil, if_pos rfl, ← front] at length
      simp at length
    · rfl

theorem ShortName.agrees_iff (name : ShortName base ext) (named : ent.name = padded base ext) :
    (fat32CompareEntryAndPath ent path = true ↔
        path.map toupper = fat32GetShortFilename ent.name) ↔
      eightThree path = path ∨
        ¬ (base = (baseOf path).map toupper ∧ ext = (extOf path).map toupper) := by
  rw [name.compare_iff named, named, name.shortFilename]
  by_cases own : eightThree path = path
  · refine iff_of_true ⟨fun ⟨front, back⟩ => ?_, fun spelled => (name.own spelled).2⟩ (.inl own)
    rw [← own, eightThree, joinExt, joinExt, front, back]
    split
    · next none_ => rw [none_, List.map_nil, if_pos rfl]
    · next some_ =>
      rw [if_neg (by simpa using some_), List.map_append, List.map_cons]
      rfl
  · rw [or_iff_right own]
    have other : ¬ path.map toupper = joinExt base ext := fun spelled => own (name.own spelled).1
    simp only [other, iff_false]

/-- The comparison comes back and agrees with the listed name if and only if no dot is in front of an
    empty component, and the component fits the fields of a name or the entry has another name than
    the one the component is cut to. -/
theorem compare_iff_shortFilename {front : Byte} (name : ShortName base ext)
    (named : ent.name = padded base ext) :
    fat32CompareBehind front ent path =
        some (decide (path.map toupper = fat32GetShortFilename ent.name)) ↔
      ¬ (path = [] ∧ front = dot) ∧ (eightThree path = path ∨
        ¬ (base = (baseOf path).map toupper ∧ ext = (extOf path).map toupper)) := by
  rw [fat32CompareBehind, ← name.agrees_iff named]
  split
  · next behind => simp [behind]
  · next inside =>
    rw [Option.some.injEq, Bool.eq_iff_iff, decide_eq_true_eq]
    exact (and_iff_right inside).symm

/-- "ABCDEFGHI" opens the file that is listed as "ABCDEFGH". -/
theorem long_component_matches :
    ∃ ent : Fat32Entry, ShortName [0x41, 0x42, 0x43, 0x44, 0x45, 0x46, 0x47, 0x48] [] ∧
      ent.name = padded [0x41, 0x42, 0x43, 0x44, 0x45, 0x46, 0x47, 0x48] [] ∧
      ∀ front, fat32CompareBehind front ent [0x41, 0x42, 0x43, 0x44, 0x45, 0x46, 0x47, 0x48, 0x49] ≠
        some (decide ([0x41, 0x42, 0x43, 0x44, 0x45, 0x46, 0x47, 0x48, 0x49].map toupper =
          fat32GetShortFilename ent.name)) := by
  refine ⟨{ Fat32Entry.zero with
    name := padded [0x41, 0x42, 0x43, 0x44, 0x45, 0x46, 0x47, 0x48] [] },
    ⟨by decide, by decide, by decide, by decide⟩, rfl, fun front => ?_⟩
  rw [fat32CompareBehind, if_neg (by simp), Ne, Option.some.injEq]
  decide +kernel

def abC : CString := [0x61, 0x62, 0x2E, 0x63]

theorem compare_iff_shortFilename_lowerCase :
    fat32CompareBehind slash { Fat32Entry.zero with name := padded [0x41, 0x42] [0x43] } abC =
        some (decide (abC.map toupper = fat32GetShortFilename (padded [0x41, 0x42] [0x43]))) ↔
      ¬ (abC = [] ∧ slash = dot) ∧ (eightThree abC = abC ∨
        ¬ ([0x41, 0x42] = (baseOf abC).map toupper ∧ [0x43] = (extOf abC).map toupper)) :=
  @compare_iff_shortFilename { Fat32Entry.zero with name := padded [0x41, 0x42] [0x43] } [0x41, 0x42]
    [0x43] abC slash ⟨by decide, by decide, by decide, by decide⟩ rfl

end HanOS.Fs
