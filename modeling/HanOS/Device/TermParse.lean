import HanOS.Device.Term
import Mathlib.Data.List.Count

/-!
# Parameters of an escape sequence

`term_parse_cmd` appends a parameter to `cparams` at every `;` without comparing the
count with the 16 elements.  The parser is simulated by an automaton on the bytes
alone (`termPutch_stage`), and the texts that automaton survives are described by a
grammar: a sequence, which goes from a `?[` to the first byte that is no parameter, may
have no more than 15 separators.
-/

namespace HanOS.Device

/-- Where the parser stands: in plain text, behind a `?`, or in the parameters behind `n`
    separators. -/
inductive Stage
  | text | mark | params (n : Nat)
  deriving DecidableEq, Repr

def IsParam (c : UInt8) : Prop := c = 59 ∨ 48 ≤ c ∧ c ≤ 57

instance (c : UInt8) : Decidable (IsParam c) := inferInstanceAs (Decidable (_ ∨ _))

def Stage.next : Stage → UInt8 → Option Stage
  | .text, c => some (if c = 63 then .mark else .text)
  | .mark, c => some (if c = 91 then .params 0 else if c = 63 then .mark else .text)
  | .params n, c =>
    if c = 59 then if n < 15 then some (.params (n + 1)) else none
    else if IsParam c then some (.params n)
    else some .text

def AtStage (s : TermSettings) : Stage → Prop
  | .text => s.state = .idle ∧ s.lastQuChar = false ∧ s.cparamcount = 0
  | .mark => s.state = .cmd ∧ s.lastQuChar = true ∧ s.cparamcount = 0
  | .params n => s.state = .param ∧ s.lastQuChar = false ∧ s.cparamcount = n + 1 ∧ n ≤ 15

/-! ## One byte -/

section

variable (font : Nat → Nat) {t : TermInfo} {c : UInt8} {n : Nat}

theorem err_text (unmarked : t.lastQuChar = false) : AtStage t.err.1.settings .text :=
  ⟨rfl, unmarked, rfl⟩

theorem succ_text (unmarked : t.lastQuChar = false) : AtStage t.succ.1.settings .text :=
  ⟨rfl, unmarked, rfl⟩

/-- What the parser did with a byte: the stage it reached, the rows as they were. -/
def Parsed (t : TermInfo) (c : UInt8) (stage : Stage) : Prop :=
  ∃ after taken, termParseCmd t c = some (after, taken) ∧ AtStage after.settings stage ∧
    after.height = t.height

theorem parse_text (stage : AtStage t.settings .text) :
    Parsed t c (if c = 63 then .mark else .text) := by
  obtain ⟨state, unmarked, count⟩ := stage
  have idle : t.state = .idle := state
  have quiet : t.lastQuChar = false := unmarked
  unfold Parsed termParseCmd
  simp only [idle, quiet, reduceCtorEq, if_false, Bool.false_eq_true]
  by_cases mark : c = 63
  · subst mark
    exact ⟨_, _, rfl, ⟨rfl, rfl, count⟩, rfl⟩
  · rw [if_neg mark, if_neg mark]
    -- the first byte of a double character, or any other
    split
    · exact ⟨_, _, rfl, ⟨rfl, rfl, rfl⟩, rfl⟩
    · exact ⟨_, _, rfl, err_text quiet, rfl⟩

theorem parse_bracket (command : t.state = .cmd) (unmarked : t.lastQuChar = false) :
    Parsed t 91 (.params 0) := by
  unfold Parsed termParseCmd
  simp only [command, reduceCtorEq, if_false]
  exact ⟨_, _, rfl, ⟨rfl, unmarked, rfl, Nat.zero_le _⟩, rfl⟩

theorem parse_separator (stage : AtStage t.settings (.params n)) (room : n < 15) :
    Parsed t 59 (.params (n + 1)) := by
  obtain ⟨state, unmarked, count, _⟩ := stage
  have param : t.state = .param := state
  have quiet : t.lastQuChar = false := unmarked
  have reached : t.cparamcount = n + 1 := count
  have plain : ¬ ((59 : UInt8) > 0xA0 ∧ t.lastch = 0) := fun high => absurd high.1 (by decide)
  unfold Parsed termParseCmd TermInfo.setCparam
  simp only [param, reduceCtorEq, if_false, if_true, reached, plain,
    dif_pos (by omega : n + 1 < 16)]
  exact ⟨_, _, rfl, ⟨rfl, quiet, rfl, by omega⟩, rfl⟩

/-- The sixteenth separator writes behind the array. -/
theorem parse_overflow (stage : AtStage t.settings (.params n)) (full : ¬ n < 15) :
    termParseCmd t 59 = none := by
  obtain ⟨state, _, count, _⟩ := stage
  have param : t.state = .param := state
  have reached : t.cparamcount = n + 1 := count
  have plain : ¬ ((59 : UInt8) > 0xA0 ∧ t.lastch = 0) := fun high => absurd high.1 (by decide)
  unfold termParseCmd TermInfo.setCparam
  simp only [param, reduceCtorEq, if_false, if_true, reached, plain,
    dif_neg (by omega : ¬ n + 1 < 16)]
  rfl

theorem parse_digit (stage : AtStage t.settings (.params n)) (digit : 48 ≤ c ∧ c ≤ 57) :
    Parsed t c (.params n) := by
  obtain ⟨state, unmarked, count, bound⟩ := stage
  have param : t.state = .param := state
  have reached : t.cparamcount = n + 1 := count
  have plain : ¬ (c > 0xA0 ∧ t.lastch = 0) := by
    rintro ⟨high, _⟩
    exact absurd (UInt8.lt_of_lt_of_le high digit.2) (by decide)
  have no_separator : c ≠ 59 := by
    rintro rfl
    exact absurd digit.2 (by decide)
  have no_letter : c ≠ 109 := by
    rintro rfl
    exact absurd digit.2 (by decide)
  have bounds : 0 < t.cparamcount ∧ t.cparamcount - 1 < 16 := by omega
  have slot : t.cparamcount - 1 < 16 := bounds.2
  unfold Parsed termParseCmd TermInfo.setCparam
  simp only [param, reduceCtorEq, if_false, plain, no_separator, no_letter, if_pos digit,
    dif_pos bounds, dif_pos slot]
  exact ⟨_, _, rfl, ⟨rfl, unmarked, count, bound⟩, rfl⟩

/-- Any other byte ends the parameters, whatever the parser makes of it. -/
theorem parse_last (stage : AtStage t.settings (.params n)) (last : ¬ IsParam c) :
    Parsed t c .text := by
  obtain ⟨state, unmarked, _, _⟩ := stage
  have param : t.state = .param := state
  have quiet : t.lastQuChar = false := unmarked
  have no_separator : c ≠ 59 := fun same => last (.inl same)
  have no_digit : ¬ (48 ≤ c ∧ c ≤ 57) := fun digit => last (.inr digit)
  unfold Parsed termParseCmd
  simp only [param, reduceCtorEq, if_false, no_separator, no_digit]
  by_cases first : c > 0xA0 ∧ t.lastch = 0
  · rw [if_pos first]
    exact ⟨_, _, rfl, ⟨rfl, quiet, rfl⟩, rfl⟩
  · rw [if_neg first]
    by_cases letter : c = 109
    · rw [if_pos letter]
      obtain ⟨fgcolor, bgcolor, colored⟩ := setColor_eq t
      rw [colored]
      exact ⟨_, _, rfl, succ_text quiet, rfl⟩
    · rw [if_neg letter]
      exact ⟨_, _, rfl, err_text quiet, rfl⟩

/-- What is not taken is printed, and printing leaves the stage alone. -/
theorem Parsed.feed {stage : Stage} (parsed : Parsed { t with lastQuChar := false } c stage)
    (rows : 0 < t.height) :
    ∃ after, termFeed font t c = some after ∧ AtStage after.settings stage ∧
      after.height = t.height := by
  obtain ⟨u, taken, parse, reached, height⟩ := parsed
  cases taken with
  | true =>
    refine ⟨u, ?_, reached, height⟩
    simp [termFeed, parse]
  | false =>
    obtain ⟨after, printed, same⟩ := termPrint_total font u c (by rw [height]; exact rows)
    refine ⟨after, ?_, same ▸ reached, ?_⟩
    · simp [termFeed, parse, printed]
    · exact (congrArg TermSettings.height same).trans height

theorem putch_of_unmarked (running : t.state ≠ .unknown) (unmarked : t.lastQuChar = false) :
    termPutch font t c = termFeed font t c := by
  unfold termPutch
  rw [if_neg running, if_neg (by simp [unmarked])]

theorem clear_unmarked (unmarked : t.lastQuChar = false) : { t with lastQuChar := false } = t := by
  rw [← unmarked]

/-- Behind a `?`, any byte but `[` is read as in plain text. -/
theorem putch_mark (stage : AtStage t.settings .mark) (rows : 0 < t.height) (other : c ≠ 91) :
    ∃ after, termPutch font t c = some after ∧
      AtStage after.settings (if c = 63 then .mark else .text) ∧ after.height = t.height := by
  obtain ⟨state, marked, count⟩ := stage
  have command : t.state = .cmd := state
  have held : t.lastQuChar = true := marked
  obtain ⟨u, printed, same⟩ := termPrint_total font { t with state := .idle } 63 rows
  have height : u.height = t.height := congrArg TermSettings.height same
  have parsed : Parsed { u with lastQuChar := false } c (if c = 63 then .mark else .text) := by
    apply parse_text
    refine ⟨congrArg TermSettings.state same, rfl, ?_⟩
    exact (congrArg TermSettings.cparamcount same).trans count
  obtain ⟨after, fed, reached, kept⟩ := parsed.feed font (by rw [height]; exact rows)
  refine ⟨after, ?_, reached, kept.trans height⟩
  unfold termPutch
  rw [if_neg (by simp [command]), if_pos ⟨held, other⟩, printed]
  exact fed

theorem putch_bracket (stage : AtStage t.settings .mark) (rows : 0 < t.height) :
    ∃ after, termPutch font t 91 = some after ∧ AtStage after.settings (.params 0) ∧
      after.height = t.height := by
  obtain ⟨state, _, _⟩ := stage
  have command : t.state = .cmd := state
  obtain ⟨after, fed, reached⟩ :=
    (@parse_bracket { t with lastQuChar := false } command rfl).feed font rows
  refine ⟨after, ?_, reached⟩
  simp [termPutch, command, fed]

/-- One byte: the automaton says whether the parser survives it and where it stands then. -/
theorem termPutch_stage {stage : Stage} (here : AtStage t.settings stage) (rows : 0 < t.height) :
    match stage.next c with
    | none => termPutch font t c = none
    | some next => ∃ after, termPutch font t c = some after ∧ AtStage after.settings next ∧
        after.height = t.height := by
  cases stage with
  | text =>
    have state : t.state = .idle := here.1
    have unmarked : t.lastQuChar = false := here.2.1
    rw [putch_of_unmarked font (by simp [state]) unmarked]
    exact (clear_unmarked unmarked ▸ parse_text here).feed font rows
  | mark =>
    simp only [Stage.next]
    by_cases bracket : c = 91
    · subst bracket
      exact putch_bracket font here rows
    · rw [if_neg bracket]
      exact putch_mark font here rows bracket
  | params n =>
    have state : t.state = .param := here.1
    have unmarked : t.lastQuChar = false := here.2.1
    have same := clear_unmarked unmarked
    rw [putch_of_unmarked font (by simp [state]) unmarked]
    simp only [Stage.next]
    by_cases separator : c = 59
    · subst separator
      by_cases room : n < 15
      · simp only [if_true, if_pos room]
        exact (same ▸ parse_separator here room).feed font rows
      · simp only [if_true, if_neg room]
        rw [termFeed, same, parse_overflow here room]
        rfl
    · rw [if_neg separator]
      by_cases param : IsParam c
      · rw [if_pos param]
        have digit : 48 ≤ c ∧ c ≤ 57 := param.resolve_left separator
        exact (same ▸ parse_digit here digit).feed font rows
      · rw [if_neg param]
        exact (same ▸ parse_last here param).feed font rows

end

/-! ## Whole texts -/

section

variable (font : Nat → Nat) {t : TermInfo} {stage : Stage} {bytes : List UInt8}

/-- A run of the parser is a run of the automaton, and stops where it does. -/
theorem putch_run (here : AtStage t.settings stage) (rows : 0 < t.height) :
    match bytes.foldlM Stage.next stage with
    | none => bytes.foldlM (termPutch font) t = none
    | some last => ∃ after, bytes.foldlM (termPutch font) t = some after ∧
        AtStage after.settings last := by
  induction bytes generalizing t stage with
  | nil => exact ⟨t, rfl, here⟩
  | cons c bytes inductionHypothesis =>
    have step := @termPutch_stage font t c stage here rows
    simp only [List.foldlM_cons]
    cases next : stage.next c with
    | none =>
      rw [next] at step
      simp only [Option.bind_eq_bind, Option.bind_none]
      rw [show termPutch font t c = none from step, Option.bind_none]
    | some middle =>
      rw [next] at step
      obtain ⟨u, put, reached, height⟩ := step
      rw [put]
      exact inductionHypothesis reached (by rw [height]; exact rows)

theorem AtStage.count_le {s : TermSettings} (here : AtStage s stage) : s.cparamcount ≤ 16 := by
  cases stage with
  | text => have count := here.2.2; omega
  | mark => have count := here.2.2; omega
  | params n => have count := here.2.2; omega

/-- The parameters of one escape sequence that fit in the array. -/
structure Params (bytes : List UInt8) : Prop where
  params : ∀ c ∈ bytes, IsParam c
  few : bytes.count 59 ≤ 15

/-- The texts whose escape sequences all keep to 15 separators.  A sequence starts at a `?[` outside
    of sequences and ends with the first byte that is no digit and no separator: that byte belongs to
    it, and a `?` there begins no other one. -/
inductive Text : List UInt8 → Prop
  | nil : Text []
  | plain {c : UInt8} {rest : List UInt8} (apart : c = 63 → rest.head? ≠ some 91) :
      Text rest → Text (c :: rest)
  | command {params rest : List UInt8} {last : UInt8} : Params params → ¬ IsParam last →
      Text rest → Text (63 :: 91 :: params ++ last :: rest)
  | cut {params : List UInt8} : Params params → Text (63 :: 91 :: params)

theorem separator_isParam : IsParam 59 := .inl rfl

theorem next_digit {c : UInt8} {n : Nat} (param : IsParam c) (digit : c ≠ 59) :
    (Stage.params n).next c = some (.params n) := by
  simp only [Stage.next, if_neg digit, if_pos param]

theorem next_last {c : UInt8} {n : Nat} (last : ¬ IsParam c) :
    (Stage.params n).next c = some .text := by
  have no_separator : c ≠ 59 := fun same => last (same ▸ separator_isParam)
  simp only [Stage.next, if_neg no_separator, if_neg last]

theorem params_run {n : Nat} {params rest : List UInt8} (all : ∀ c ∈ params, IsParam c)
    (few : n + params.count 59 ≤ 15) :
    (params ++ rest).foldlM Stage.next (.params n) =
      rest.foldlM Stage.next (.params (n + params.count 59)) := by
  induction params generalizing n with
  | nil => simp
  | cons c params inductionHypothesis =>
    have others : ∀ d ∈ params, IsParam d := fun d member => all d (List.mem_cons_of_mem _ member)
    by_cases separator : c = 59
    · subst separator
      rw [List.count_cons_self] at few ⊢
      have step : (Stage.params n).next 59 = some (.params (n + 1)) := by
        simp only [Stage.next, if_true, if_pos (by omega : n < 15)]
      rw [List.cons_append, List.foldlM_cons, step,
        show n + (params.count 59 + 1) = n + 1 + params.count 59 by omega]
      apply inductionHypothesis others
      omega
    · rw [List.count_cons_of_ne separator] at few ⊢
      rw [List.cons_append, List.foldlM_cons, next_digit (all c (List.mem_cons_self ..)) separator]
      exact inductionHypothesis others few

/-- Behind a `?` the automaton reads on as in plain text, unless a `[` follows. -/
theorem mark_run {rest : List UInt8} (apart : rest.head? ≠ some 91) :
    (∃ last, rest.foldlM Stage.next .mark = some last) ↔
      ∃ last, rest.foldlM Stage.next .text = some last := by
  cases rest with
  | nil => simp
  | cons c rest =>
    have other : c ≠ 91 := by simpa using apart
    simp only [List.foldlM_cons, Stage.next, if_neg other]

theorem Text.survives (text : Text bytes) : ∃ last, bytes.foldlM Stage.next .text = some last := by
  induction text with
  | nil => exact ⟨.text, rfl⟩
  | @plain c rest apart _ inductionHypothesis =>
    rw [List.foldlM_cons]
    by_cases mark : c = 63
    · subst mark
      exact (mark_run (apart rfl)).mpr inductionHypothesis
    · simp only [Stage.next, if_neg mark]
      exact inductionHypothesis
  | @command params rest last few ends _ inductionHypothesis =>
    have run := @params_run 0 params (last :: rest) few.params (by have := few.few; omega)
    rw [List.foldlM_cons, next_last ends] at run
    exact run.symm ▸ inductionHypothesis
  | @cut params few =>
    have run := @params_run 0 params [] few.params (by have := few.few; omega)
    rw [List.append_nil] at run
    exact ⟨_, run⟩

/-- The parameters of a sequence the automaton survives end within the 15 separators. -/
theorem params_split {n : Nat} {rest : List UInt8} {last : Stage} (bound : n ≤ 15)
    (run : rest.foldlM Stage.next (.params n) = some last) :
    (∀ c ∈ rest, IsParam c) ∧ n + rest.count 59 ≤ 15 ∨
      ∃ params c tail, rest = params ++ c :: tail ∧ (∀ d ∈ params, IsParam d) ∧
        n + params.count 59 ≤ 15 ∧ ¬ IsParam c ∧ tail.foldlM Stage.next .text = some last := by
  induction rest generalizing n with
  | nil => exact .inl ⟨by simp, by simpa using bound⟩
  | cons c rest inductionHypothesis =>
    rw [List.foldlM_cons] at run
    by_cases param : IsParam c
    · -- the count the automaton goes on with is the one the parameters have by then
      obtain ⟨m, counted, below, step⟩ : ∃ m, m = n + [c].count 59 ∧ m ≤ 15 ∧
          (Stage.params n).next c = some (.params m) := by
        by_cases separator : c = 59
        · subst separator
          by_cases room : n < 15
          · exact ⟨n + 1, by simp, room, by simp [Stage.next, room]⟩
          · simp [Stage.next, room] at run
        · exact ⟨n, by simp [separator], bound, next_digit param separator⟩
      rw [step] at run
      have front : ∀ l : List UInt8, (c :: l).count 59 = [c].count 59 + l.count 59 :=
        fun l => @List.count_append _ _ 59 [c] l
      rcases inductionHypothesis below run with ⟨all, few⟩ | ⟨params, d, tail, rfl, all, few, ends, run⟩
      · left
        refine ⟨List.forall_mem_cons.mpr ⟨param, all⟩, ?_⟩
        rw [front]
        omega
      · right
        refine ⟨c :: params, d, tail, rfl, List.forall_mem_cons.mpr ⟨param, all⟩, ?_, ends, run⟩
        rw [front]
        omega
    · rw [next_last param] at run
      exact .inr ⟨[], c, rest, rfl, by simp, by simpa using bound, param, run⟩

theorem text_of_run {last : Stage} (run : bytes.foldlM Stage.next .text = some last) :
    Text bytes := by
  induction length : bytes.length using Nat.strong_induction_on generalizing bytes last with
  | _ size inductionHypothesis =>
    cases bytes with
    | nil => exact .nil
    | cons c rest =>
      rw [List.length_cons] at length
      rw [List.foldlM_cons] at run
      by_cases mark : c = 63
      · subst mark
        by_cases bracket : rest.head? = some 91
        · obtain ⟨tail, rfl⟩ := List.head?_eq_some_iff.mp bracket
          rcases params_split (Nat.zero_le 15) run with ⟨all, few⟩ | ⟨params, d, tail, rfl, all, few, ends, run⟩
          · exact .cut ⟨all, by omega⟩
          · have shorter : tail.length < size := by
              simp only [List.length_cons, List.length_append] at length
              omega
            exact .command ⟨all, by omega⟩ ends (inductionHypothesis _ shorter run rfl)
        · -- no sequence starts here, and the `?` counts as plain text
          obtain ⟨other, plain⟩ := (mark_run bracket).mp ⟨last, run⟩
          exact .plain (fun _ => bracket) (inductionHypothesis _ (by omega) plain rfl)
      · simp only [Stage.next, if_neg mark] at run
        exact .plain (fun same => absurd same mark) (inductionHypothesis _ (by omega) run rfl)

theorem text_iff_run : (∃ last, bytes.foldlM Stage.next .text = some last) ↔ Text bytes :=
  ⟨fun ⟨_, run⟩ => text_of_run run, Text.survives⟩

end

/-- Every access to `cparams` is one of its elements, and the count stays below 17: what
    `term_putch` keeps up for the whole text exactly when the text is of the grammar. -/
theorem termPutch_safe_iff (font : Nat → Nat) {shape : FbShape} {addr : Nat → UInt32}
    (rows : fontHeight ≤ shape.height) (bytes : List UInt8) :
    (∀ start, start <+: bytes → ∃ t, start.foldlM (termPutch font) (termInit shape addr) = some t ∧
      t.cparamcount ≤ 16) ↔ Text bytes := by
  have here : AtStage (termInit shape addr).settings .text := ⟨rfl, rfl, rfl⟩
  have tall : 0 < (termInit shape addr).height := Nat.div_pos rows (by decide)
  rw [← text_iff_run]
  constructor
  · -- where the automaton stops, the parser has written behind the array
    intro safe
    obtain ⟨t, ran, _⟩ := safe bytes (List.prefix_refl bytes)
    have run := @putch_run font _ .text bytes here tall
    cases automaton : bytes.foldlM Stage.next .text with
    | none =>
      rw [automaton] at run
      cases run.symm.trans ran
    | some last => exact ⟨last, rfl⟩
  · rintro ⟨last, whole⟩ start ⟨rest, rfl⟩
    rw [List.foldlM_append] at whole
    obtain ⟨middle, automaton, _⟩ := Option.bind_eq_some_iff.mp whole
    have run := @putch_run font _ .text start here tall
    rw [automaton] at run
    obtain ⟨t, ran, reached⟩ := run
    exact ⟨t, ran, reached.count_le⟩

theorem termPutch_safe_iff_color :
    (∀ start, start <+: [63, 91, 49, 53, 59, 49, 109] →
      ∃ t, start.foldlM (termPutch fun _ => 0) (termInit .tiny fun _ => 0) = some t ∧
        t.cparamcount ≤ 16) ↔ Text [63, 91, 49, 53, 59, 49, 109] :=
  termPutch_safe_iff (fun _ => 0) (by decide) [63, 91, 49, 53, 59, 49, 109]

/-- Behind `?[` and fifteen `;` the count is 16, and the next `;` writes `cparams[16]`. -/
theorem termPutch_overflow :
    ∃ t, (63 :: 91 :: List.replicate 15 59).foldlM (termPutch fun _ => 0)
        (termInit .tiny fun _ => 0) = some t ∧
      t.state = .param ∧ t.cparamcount = 16 ∧ termParseCmd t 59 = none ∧
      termPutch (fun _ => 0) t 59 = none := by
  have here : AtStage (termInit .tiny fun _ => 0).settings .text := ⟨rfl, rfl, rfl⟩
  have automaton : (63 :: 91 :: List.replicate 15 59).foldlM Stage.next .text =
      some (.params 15) := by decide
  have run := @putch_run (fun _ => 0) _ .text (63 :: 91 :: List.replicate 15 59) here (by decide)
  rw [automaton] at run
  obtain ⟨t, ran, reached⟩ := run
  have state : t.state = .param := reached.1
  have unmarked : t.lastQuChar = false := reached.2.1
  have outside : termParseCmd t 59 = none := parse_overflow reached (by decide)
  refine ⟨t, ran, state, reached.2.2.1, outside, ?_⟩
  rw [putch_of_unmarked _ (by simp [state]) unmarked, termFeed, clear_unmarked unmarked, outside]
  rfl

end HanOS.Device
