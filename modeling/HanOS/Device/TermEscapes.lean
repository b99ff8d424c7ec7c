import HanOS.Device.TermParse
import Mathlib.Data.List.Chain

/-!
# Text with colour escapes

What `term_putch` makes of plain bytes and well-formed escapes `?[n1;...;nkm`: the plain bytes
go to `term_print` in their order, and every escape sets the colours by its first parameter
(`termPuts_text`).  A `?` is withheld until the next byte shows what it was, so the text is
followed with the `?` that is owed (`owed`).
-/

namespace HanOS.Device

/-! ## The calls of `term_print` -/

section

variable (font : Nat → Nat)

def termFeedCalls (t : TermInfo) (c : UInt8) : Option (TermInfo × List UInt8) := do
  let (t, taken) ← termParseCmd { t with lastQuChar := false } c
  if taken then return (t, [])
  else
    let t ← termPrint font t c
    return (t, [c])

def termPutchCalls (t : TermInfo) (c : UInt8) : Option (TermInfo × List UInt8) :=
  if t.state = .unknown then some (t, [])
  else if t.lastQuChar ∧ c ≠ 91 then do
    let t ← termPrint font { t with state := .idle } 63
    let (t, printed) ← termFeedCalls font t c
    return (t, 63 :: printed)
  else termFeedCalls font t c

/-- `term_putch` on the bytes of a text, with all the bytes handed to `term_print`. -/
def termPuts (t : TermInfo) : List UInt8 → Option (TermInfo × List UInt8)
  | [] => some (t, [])
  | c :: rest => do
    let (t, printed) ← termPutchCalls font t c
    let (t, more) ← termPuts t rest
    return (t, printed ++ more)

theorem termFeedCalls_fst (t : TermInfo) (c : UInt8) :
    (termFeedCalls font t c).map (·.1) = termFeed font t c := by
  unfold termFeedCalls termFeed
  cases termParseCmd { t with lastQuChar := false } c with
  | none => rfl
  | some parsed =>
    obtain ⟨u, taken⟩ := parsed
    cases taken with
    | true => rfl
    | false => cases h : termPrint font u c <;> simp [h]

theorem termPutchCalls_fst (t : TermInfo) (c : UInt8) :
    (termPutchCalls font t c).map (·.1) = termPutch font t c := by
  unfold termPutchCalls termPutch
  split
  · rfl
  · split
    · cases termPrint font { t with state := .idle } 63 with
      | none => rfl
      | some u =>
        have fed := termFeedCalls_fst font u c
        cases h : termFeedCalls font u c <;> simp [h] at fed ⊢ <;> exact fed
    · exact termFeedCalls_fst font t c

/-- The terminal is the one `term_putch` leaves. -/
theorem termPuts_fst (t : TermInfo) (bytes : List UInt8) :
    (termPuts font t bytes).map (·.1) = bytes.foldlM (termPutch font) t := by
  induction bytes generalizing t with
  | nil => rfl
  | cons c rest inductionHypothesis =>
    rw [termPuts, List.foldlM_cons, ← termPutchCalls_fst]
    cases termPutchCalls font t c with
    | none => rfl
    | some put =>
      have onward := inductionHypothesis put.1
      cases h : termPuts font put.1 rest <;> simp [h] at onward ⊢ <;> exact onward

end

/-! ## Texts -/

def value (digits : List UInt8) : Nat := digits.foldl (fun v d => v * 10 + (d.toNat - 48)) 0

/-- A parameter: a decimal numeral that fits an `int`. -/
structure Numeral where
  digits : List UInt8
  nonempty : digits ≠ []
  isDigit : ∀ d ∈ digits, 48 ≤ d ∧ d ≤ 57
  fits : value digits < 2 ^ 31

/-- A plain byte, or an escape with its parameters. -/
inductive Piece
  | plain (c : UInt8) (low : c ≤ 0xA0)
  | escape (first : Numeral) (others : List Numeral) (few : others.length < 16)

def Piece.bytes : Piece → List UInt8
  | .plain c _ => [c]
  | .escape first others _ =>
    63 :: 91 :: (first.digits ++ (others.flatMap (59 :: ·.digits) ++ [109]))

def Piece.text : Piece → List UInt8
  | .plain c _ => [c]
  | .escape .. => []

/-- A plain `?` before a plain `[` would start an escape. -/
def Piece.Apart (a b : Piece) : Prop := a.bytes = [63] → b.bytes ≠ [91]

abbrev Colors := UInt32 × UInt32

def prescribed (n : Nat) (colors : Colors) : Colors :=
  if n = 0 then (defaultFgcolor, defaultBgcolor)
  else if 10 ≤ n ∧ n ≤ 15 then (fontColors.getD (n - 10) 0, colors.2)
  else if 20 ≤ n ∧ n ≤ 25 then (colors.1, fontColors.getD (n - 20) 0)
  else colors

def Piece.prescribe (colors : Colors) : Piece → Colors
  | .plain _ _ => colors
  | .escape first _ _ => prescribed (value first.digits) colors

def TermInfo.colors (t : TermInfo) : Colors := (t.fgcolor, t.bgcolor)

/-! ## Single bytes -/

section

variable {font : Nat → Nat} {t u : TermInfo} {c : UInt8} {k : Nat} {first : UInt32}

def SameScreen (t u : TermInfo) : Prop := u.colors = t.colors ∧ u.height = t.height

theorem SameScreen.trans {v : TermInfo} (same : SameScreen t u) (onward : SameScreen u v) :
    SameScreen t v :=
  ⟨onward.1.trans same.1, onward.2.trans same.2⟩

theorem sameScreen_of_settings (same : u.settings = t.settings) : SameScreen t u :=
  ⟨Prod.ext (congrArg TermSettings.fgcolor same) (congrArg TermSettings.bgcolor same),
    congrArg TermSettings.height same⟩

theorem not_double (low : c ≤ 0xA0) : ¬ (c > 0xA0 ∧ t.lastch = 0) :=
  fun double => absurd double.1 (UInt8.not_lt.mpr low)

/-- Behind `k` separators, with the value of the first parameter. -/
structure InParams (t : TermInfo) (k : Nat) (first : UInt32) : Prop where
  state : t.state = .param
  unmarked : t.lastQuChar = false
  count : t.cparamcount = k + 1
  few : k < 16
  first : t.cparams 0 = first

theorem putchCalls_of_unmarked (running : t.state ≠ .unknown) (unmarked : t.lastQuChar = false) :
    termPutchCalls font t c = termFeedCalls font t c := by
  unfold termPutchCalls
  rw [if_neg running, if_neg (by simp [unmarked])]

theorem feedCalls_taken (parsed : termParseCmd { t with lastQuChar := false } c = some (u, true)) :
    termFeedCalls font t c = some (u, []) := by
  simp [termFeedCalls, parsed]

theorem feedCalls_plain (stage : AtStage t.settings .text) (rows : 0 < t.height)
    (low : c ≤ 0xA0) (other : c ≠ 63) :
    ∃ u, termFeedCalls font t c = some (u, [c]) ∧ u.settings = t.settings := by
  obtain ⟨state, unmarked, count⟩ := stage
  have idle : t.state = .idle := state
  have quiet : t.lastQuChar = false := unmarked
  have none : t.cparamcount = 0 := count
  have cleared : t.err = (t, false) := by rw [TermInfo.err, ← idle, ← none]
  have parsed : termParseCmd { t with lastQuChar := false } c = some (t, false) := by
    rw [clear_unmarked quiet, termParseCmd, if_neg (by simp [idle]), if_neg (not_double low), idle]
    exact (if_neg other).trans (congrArg some cleared)
  obtain ⟨u, printed, same⟩ := termPrint_total font t c rows
  exact ⟨u, by simp [termFeedCalls, parsed, printed], same⟩

theorem feedCalls_mark (idle : t.state = .idle) (count : t.cparamcount = 0) :
    ∃ u, termFeedCalls font t 63 = some (u, []) ∧ AtStage u.settings .mark ∧ SameScreen t u := by
  refine ⟨{ t with state := .cmd, lastQuChar := true }, feedCalls_taken ?_, ⟨rfl, rfl, count⟩, rfl, rfl⟩
  unfold termParseCmd
  simp [idle]

/-- The byte behind a withheld `?`, when it starts no escape, comes out behind it. -/
theorem putchCalls_resend (stage : AtStage t.settings .mark) (rows : 0 < t.height)
    (other : c ≠ 91) :
    ∃ u, termPutchCalls font t c = (termFeedCalls font u c).map (fun fed => (fed.1, 63 :: fed.2)) ∧
      AtStage u.settings .text ∧ SameScreen t u := by
  obtain ⟨state, marked, count⟩ := stage
  have command : t.state = .cmd := state
  have held : t.lastQuChar = true := marked
  obtain ⟨u, printed, same⟩ := termPrint_total font { t with state := .idle } 63 rows
  have screen : SameScreen { t with state := .idle } u := sameScreen_of_settings same
  refine ⟨{ u with lastQuChar := false }, ?_, ⟨congrArg TermSettings.state same, rfl, ?_⟩, screen⟩
  · rw [termPutchCalls, if_neg (by simp [command]), if_pos ⟨held, other⟩, printed]
    exact (Option.map_eq_bind ..).symm
  · exact (congrArg TermSettings.cparamcount same).trans count

/-! ## Escapes -/

theorem putchCalls_bracket (stage : AtStage t.settings .mark) :
    ∃ u, termPutchCalls font t 91 = some (u, []) ∧ InParams u 0 0 ∧ SameScreen t u := by
  obtain ⟨state, _, _⟩ := stage
  have command : t.state = .cmd := state
  refine ⟨{ t with
    lastQuChar := false, cparamcount := 1, cparams := Function.update t.cparams 0 0,
    state := .param }, ?_, ⟨rfl, rfl, rfl, by decide, by simp⟩, rfl, rfl⟩
  rw [termPutchCalls, if_neg (by simp [command]), if_neg (by simp)]
  apply feedCalls_taken
  unfold termParseCmd
  simp [command]

theorem InParams.feed (inside : InParams t k first) (parsed : termParseCmd t c = some (u, true)) :
    termPutchCalls font t c = some (u, []) := by
  rw [putchCalls_of_unmarked (by simp [inside.state]) inside.unmarked]
  apply feedCalls_taken
  rw [clear_unmarked inside.unmarked, parsed]

theorem InParams.separator (inside : InParams t k first) (room : k + 1 < 16) :
    ∃ u, termPutchCalls font t 59 = some (u, []) ∧ InParams u (k + 1) first ∧ SameScreen t u := by
  have slot : (0 : Fin 16) ≠ ⟨k + 1, room⟩ := by simp [Fin.ext_iff]
  refine ⟨{ t with
    cparamcount := k + 2, cparams := Function.update t.cparams ⟨k + 1, room⟩ 0 },
    inside.feed ?_, ⟨inside.state, inside.unmarked, rfl, room, ?_⟩, rfl, rfl⟩
  · rw [termParseCmd, if_neg (by simp [inside.state]), if_neg (not_double (by decide))]
    simp [inside.state, inside.count, TermInfo.setCparam, room]
  · exact (Function.update_of_ne slot 0 t.cparams).trans inside.first

/-- A digit goes on with the last parameter, which is the first one before any separator. -/
theorem InParams.digit (inside : InParams t k first) (digit : 48 ≤ c ∧ c ≤ 57) :
    ∃ u, termPutchCalls font t c = some (u, []) ∧
      InParams u k (if k = 0 then first * 10 + (c - 48).toUInt32 else first) ∧ SameScreen t u := by
  have low : c ≤ 0xA0 := UInt8.le_trans digit.2 (by decide)
  have no_separator : c ≠ 59 := by
    rintro rfl
    exact absurd digit.2 (by decide)
  have no_letter : c ≠ 109 := by
    rintro rfl
    exact absurd digit.2 (by decide)
  have slot := inside.few
  refine ⟨{ t with
    cparams := Function.update t.cparams ⟨k, slot⟩ (t.cparams ⟨k, slot⟩ * 10 + (c - 48).toUInt32) },
    inside.feed ?_, ⟨inside.state, inside.unmarked, inside.count, slot, ?_⟩, rfl, rfl⟩
  · rw [termParseCmd, if_neg (by simp [inside.state]), if_neg (not_double low)]
    simp [inside.state, inside.count, TermInfo.setCparam, slot, no_separator, no_letter, digit]
  · by_cases zero : k = 0
    · subst zero
      rw [if_pos rfl, ← inside.first]
      exact Function.update_self (0 : Fin 16) (t.cparams 0 * 10 + (c - 48).toUInt32) t.cparams
    · have other : (0 : Fin 16) ≠ ⟨k, slot⟩ := by simpa [Fin.ext_iff, eq_comm] using zero
      rw [if_neg zero]
      exact (Function.update_of_ne other (t.cparams ⟨k, slot⟩ * 10 + (c - 48).toUInt32)
        t.cparams).trans inside.first

theorem InParams.last (inside : InParams t k first) :
    ∃ u, termPutchCalls font t 109 = some (u, []) ∧ AtStage u.settings .text ∧
      u.colors = t.setColor.colors ∧ u.height = t.height := by
  obtain ⟨fgcolor, bgcolor, colored⟩ := setColor_eq t
  refine ⟨t.setColor.succ.1, inside.feed ?_, ?_, rfl, ?_⟩
  · rw [termParseCmd, if_neg (by simp [inside.state]), if_neg (not_double (by decide))]
    simp [inside.state, TermInfo.succ]
  · rw [colored]
    exact succ_text inside.unmarked
  · rw [colored]
    rfl

end

/-! ## Whole escapes -/

section

variable {font : Nat → Nat} {t u v : TermInfo} {c : UInt8} {k : Nat} {first : UInt32}
  {bytes rest printed more : List UInt8}

theorem termPuts_cons (put : termPutchCalls font t c = some (u, printed))
    (onward : termPuts font u rest = some (v, more)) :
    termPuts font t (c :: rest) = some (v, printed ++ more) := by
  simp [termPuts, put, onward]

theorem termPuts_append (front : termPuts font t bytes = some (u, printed))
    (onward : termPuts font u rest = some (v, more)) :
    termPuts font t (bytes ++ rest) = some (v, printed ++ more) := by
  induction bytes generalizing t printed with
  | nil =>
    obtain ⟨rfl, rfl⟩ : t = u ∧ [] = printed := by simpa [termPuts] using front
    exact onward
  | cons c bytes inductionHypothesis =>
    rw [termPuts] at front
    obtain ⟨⟨middle, first⟩, put, front⟩ := Option.bind_eq_some_iff.mp front
    obtain ⟨⟨last, others⟩, puts, front⟩ := Option.bind_eq_some_iff.mp front
    obtain ⟨rfl, rfl⟩ : last = u ∧ first ++ others = printed := by simpa using front
    rw [List.cons_append, List.append_assoc]
    exact termPuts_cons put (inductionHypothesis puts)

/-- The digits of a parameter: only the first parameter is looked at in the end. -/
theorem InParams.digits (inside : InParams t k first) {digits : List UInt8}
    (all : ∀ d ∈ digits, 48 ≤ d ∧ d ≤ 57) :
    ∃ u, termPuts font t digits = some (u, []) ∧
      InParams u k (if k = 0 then digits.foldl (fun v d => v * 10 + (d - 48).toUInt32) first
        else first) ∧ SameScreen t u := by
  induction digits generalizing t first with
  | nil => exact ⟨t, rfl, by simpa using inside, rfl, rfl⟩
  | cons d digits inductionHypothesis =>
    obtain ⟨digit, others⟩ := List.forall_mem_cons.mp all
    obtain ⟨u, put, reached, same⟩ := @InParams.digit font _ _ _ _ inside digit
    obtain ⟨v, puts, last, onward⟩ := inductionHypothesis reached others
    refine ⟨v, termPuts_cons put puts, ?_, same.trans onward⟩
    by_cases zero : k = 0
    · simpa only [if_pos zero, List.foldl_cons] using last
    · simpa only [if_neg zero] using last

/-- The parameters behind the first one leave it alone. -/
theorem InParams.others (inside : InParams t k first) {others : List Numeral}
    (few : k + others.length < 16) :
    ∃ u, termPuts font t (others.flatMap (59 :: ·.digits)) = some (u, []) ∧
      InParams u (k + others.length) first ∧ SameScreen t u := by
  induction others generalizing t k with
  | nil => exact ⟨t, rfl, inside, rfl, rfl⟩
  | cons numeral others inductionHypothesis =>
    rw [List.length_cons] at few ⊢
    obtain ⟨u, put, reached, same⟩ := @InParams.separator font _ _ _ inside (by omega)
    obtain ⟨v, puts, behind, onward⟩ := @InParams.digits font _ _ _ reached _ numeral.isDigit
    rw [if_neg (Nat.succ_ne_zero k)] at behind
    obtain ⟨w, rest, last, further⟩ := inductionHypothesis behind (by omega)
    refine ⟨w, ?_, ?_, same.trans (onward.trans further)⟩
    · rw [List.flatMap_cons, List.cons_append]
      exact termPuts_cons put (termPuts_append puts rest)
    · rwa [Nat.add_right_comm, Nat.add_assoc] at last

/-- The parser's value of a numeral is the numeral's. -/
theorem foldl_value {digits : List UInt8} (all : ∀ d ∈ digits, 48 ≤ d ∧ d ≤ 57) (n : Nat) :
    digits.foldl (fun v d => v * 10 + (d - 48).toUInt32) (UInt32.ofNat n) =
      UInt32.ofNat (digits.foldl (fun v d => v * 10 + (d.toNat - 48)) n) := by
  induction digits generalizing n with
  | nil => rfl
  | cons d digits inductionHypothesis =>
    obtain ⟨digit, others⟩ := List.forall_mem_cons.mp all
    have step : UInt32.ofNat n * 10 + (d - 48).toUInt32 = UInt32.ofNat (n * 10 + (d.toNat - 48)) := by
      have difference : (d - 48).toNat = d.toNat - 48 := UInt8.toNat_sub_of_le _ _ digit.1
      rw [UInt32.ofNat_add, UInt32.ofNat_mul, ← difference, UInt32.ofNat_uInt8ToNat]
      rfl
    rw [List.foldl_cons, List.foldl_cons, step]
    exact inductionHypothesis others _

/-- An `m` sets the colours that the first parameter prescribes. -/
theorem setColor_colors {n : Nat} (value : t.cparams 0 = UInt32.ofNat n) (fits : n < 2 ^ 31) :
    t.setColor.colors = prescribed n t.colors := by
  have number : (UInt32.ofNat n).toNat = n := UInt32.toNat_ofNat_of_lt' (fits.trans (by decide))
  unfold TermInfo.setColor prescribed TermInfo.colors
  simp only [value, UInt32.le_iff_toNat_le, ← UInt32.toNat_inj, number, UInt32.reduceToNat]
  split_ifs <;> rfl

theorem putchs_escape (stage : AtStage t.settings .mark) (numeral : Numeral) (others : List Numeral)
    (few : others.length < 16) :
    ∃ u, termPuts font t (91 :: (numeral.digits ++ (others.flatMap (59 :: ·.digits) ++ [109]))) =
        some (u, []) ∧
      AtStage u.settings .text ∧ u.colors = prescribed (value numeral.digits) t.colors ∧
      u.height = t.height := by
  obtain ⟨a, bracket, inside, first⟩ := @putchCalls_bracket font _ stage
  obtain ⟨b, digits, inside, second⟩ := @InParams.digits font _ _ _ inside _ numeral.isDigit
  rw [if_pos rfl] at inside
  obtain ⟨c, params, inside, third⟩ := @InParams.others font _ _ _ inside others (by omega)
  obtain ⟨d, last, text, colored, height⟩ := @InParams.last font _ _ _ inside
  have same := first.trans (second.trans third)
  have number : c.cparams 0 = UInt32.ofNat (value numeral.digits) :=
    inside.first.trans (foldl_value numeral.isDigit 0)
  refine ⟨d, ?_, text, ?_, height.trans same.2⟩
  · apply termPuts_cons bracket
    apply termPuts_append digits
    apply termPuts_append params
    exact termPuts_cons last rfl
  · rw [colored, setColor_colors number numeral.fits, same.1]

end

/-! ## Texts of pieces -/

section

variable {font : Nat → Nat} {t : TermInfo} {pieces : List Piece}

/-- In plain text or behind a withheld `?`, never inside an escape. -/
def Between (t : TermInfo) : Prop := AtStage t.settings .text ∨ AtStage t.settings .mark

def owed (t : TermInfo) : List UInt8 := if t.lastQuChar then [63] else []

theorem owed_text (stage : AtStage t.settings .text) : owed t = [] := by
  have unmarked : t.lastQuChar = false := stage.2.1
  rw [owed, if_neg (by simp [unmarked])]

theorem owed_mark (stage : AtStage t.settings .mark) : owed t = [63] := if_pos stage.2.1

/-- A `?` sends the one owed. -/
theorem putchCalls_question (between : Between t) (rows : 0 < t.height) :
    ∃ u, termPutchCalls font t 63 = some (u, owed t) ∧ AtStage u.settings .mark ∧ SameScreen t u := by
  rcases between with text | mark
  · have state : t.state = .idle := text.1
    obtain ⟨u, fed, reached, same⟩ := @feedCalls_mark font t state text.2.2
    rw [putchCalls_of_unmarked (by simp [state]) text.2.1, owed_text text]
    exact ⟨u, fed, reached, same⟩
  · obtain ⟨u, put, text, screen⟩ := @putchCalls_resend font t 63 mark rows (by decide)
    obtain ⟨v, fed, reached, same⟩ := @feedCalls_mark font u text.1 text.2.2
    rw [put, fed, owed_mark mark]
    exact ⟨v, rfl, reached, screen.trans same⟩

/-- Any other plain byte comes out behind the `?` owed. -/
theorem putchCalls_plain (between : Between t) (rows : 0 < t.height) {c : UInt8} (low : c ≤ 0xA0)
    (other : c ≠ 63) (apart : AtStage t.settings .mark → c ≠ 91) :
    ∃ u, termPutchCalls font t c = some (u, owed t ++ [c]) ∧ AtStage u.settings .text ∧
      SameScreen t u := by
  rcases between with text | mark
  · have state : t.state = .idle := text.1
    obtain ⟨u, fed, same⟩ := @feedCalls_plain font t c text rows low other
    rw [putchCalls_of_unmarked (by simp [state]) text.2.1, owed_text text]
    exact ⟨u, fed, same ▸ text, sameScreen_of_settings same⟩
  · obtain ⟨u, put, text, screen⟩ := @putchCalls_resend font t c mark rows (apart mark)
    obtain ⟨v, fed, same⟩ := @feedCalls_plain font u c text (screen.2 ▸ rows) low other
    rw [put, fed, owed_mark mark]
    exact ⟨v, rfl, same ▸ text, screen.trans (sameScreen_of_settings same)⟩

/-- What bytes lead to: those printed and the `?` owed then are the `?` owed before and the text. -/
structure Reached (font : Nat → Nat) (t : TermInfo) (bytes text : List UInt8) (colors : Colors)
    (after : TermInfo) (printed : List UInt8) : Prop where
  puts : termPuts font t bytes = some (after, printed)
  between : Between after
  text : printed ++ owed after = owed t ++ text
  colors : after.colors = colors
  height : after.height = t.height

theorem piece_reached (between : Between t) (rows : 0 < t.height) (piece : Piece)
    (apart : AtStage t.settings .mark → piece.bytes ≠ [91]) :
    ∃ after printed, Reached font t piece.bytes piece.text (piece.prescribe t.colors) after printed ∧
      (AtStage after.settings .mark → piece.bytes = [63]) := by
  cases piece with
  | plain c low =>
    by_cases question : c = 63
    · subst question
      obtain ⟨u, put, mark, same⟩ := @putchCalls_question font _ between rows
      refine ⟨u, owed t, ⟨?_, .inr mark, by rw [owed_mark mark]; rfl, same.1, same.2⟩, fun _ => rfl⟩
      exact (termPuts_cons put rfl).trans (by rw [List.append_nil])
    · have other : AtStage t.settings .mark → c ≠ 91 := by
        rintro mark rfl
        exact apart mark rfl
      obtain ⟨u, put, text, same⟩ := @putchCalls_plain font _ between rows _ low question other
      refine ⟨u, owed t ++ [c], ⟨?_, .inl text, ?_, same.1, same.2⟩, ?_⟩
      · exact (termPuts_cons put rfl).trans (by rw [List.append_nil])
      · rw [owed_text text, List.append_nil]
        rfl
      · intro mark
        cases text.1.symm.trans mark.1
  | escape first others few =>
    obtain ⟨u, put, mark, same⟩ := @putchCalls_question font _ between rows
    obtain ⟨v, puts, text, colored, height⟩ := @putchs_escape font _ mark first others few
    refine ⟨v, owed t, ⟨?_, .inl text, ?_, ?_, height.trans same.2⟩, ?_⟩
    · exact (termPuts_cons put puts).trans (by rw [List.append_nil])
    · rw [owed_text text]
      rfl
    · rw [colored, same.1]
      rfl
    · intro mark
      cases text.1.symm.trans mark.1

/-- A whole text; the `?` owed behind it is its last piece. -/
theorem pieces_reached (between : Between t) (rows : 0 < t.height)
    (apart : pieces.IsChain Piece.Apart)
    (start : AtStage t.settings .mark → ∀ piece ∈ pieces.head?, piece.bytes ≠ [91]) :
    ∃ after printed, Reached font t (pieces.flatMap Piece.bytes) (pieces.flatMap Piece.text)
        (pieces.foldl Piece.prescribe t.colors) after printed ∧
      (AtStage after.settings .mark →
        pieces = [] ∧ AtStage t.settings .mark ∨ ∃ last ∈ pieces.getLast?, last.bytes = [63]) := by
  induction pieces generalizing t with
  | nil => exact ⟨t, [], ⟨rfl, between, by simp, rfl, rfl⟩, fun mark => .inl ⟨rfl, mark⟩⟩
  | cons piece pieces inductionHypothesis =>
    obtain ⟨middle, first, reached, withheld⟩ :=
      @piece_reached font _ between rows piece fun mark => start mark piece rfl
    obtain ⟨after, others, onward, last⟩ := @inductionHypothesis middle reached.between
      (by rw [reached.height]; exact rows) apart.tail fun mark next isNext =>
        apart.rel_head? isNext (withheld mark)
    refine ⟨after, first ++ others, ⟨termPuts_append reached.puts onward.puts, onward.between, ?_, ?_,
      onward.height.trans reached.height⟩, fun mark => .inr ?_⟩
    · rw [List.append_assoc, onward.text, ← List.append_assoc, reached.text, List.append_assoc]
      rfl
    · rw [onward.colors, reached.colors]
      rfl
    · rw [List.getLast?_cons]
      rcases last mark with ⟨rfl, here⟩ | ⟨piece', isLast, question⟩
      · exact ⟨piece, rfl, withheld here⟩
      · exact ⟨piece', by rw [Option.mem_def.mp isLast]; rfl, question⟩

end

/-- A text of plain bytes and escapes, fed to `term_putch` in plain text: `term_print` is handed the
    plain bytes in their order, a last `?` possibly still withheld, and the colours are those the
    escapes prescribe. -/
theorem termPuts_text (font : Nat → Nat) {t : TermInfo} (stage : AtStage t.settings .text)
    (rows : 0 < t.height) {pieces : List Piece} (apart : pieces.IsChain Piece.Apart) :
    ∃ after printed,
      (pieces.flatMap Piece.bytes).foldlM (termPutch font) t = some after ∧
      termPuts font t (pieces.flatMap Piece.bytes) = some (after, printed) ∧
      printed ++ owed after = pieces.flatMap Piece.text ∧
      (after.lastQuChar → ∃ last ∈ pieces.getLast?, last.bytes = [63]) ∧
      after.colors = pieces.foldl Piece.prescribe t.colors := by
  have unmarked : ¬ AtStage t.settings .mark := fun mark => by cases stage.1.symm.trans mark.1
  obtain ⟨after, printed, reached, last⟩ :=
    @pieces_reached font _ _ (.inl stage) rows apart fun mark => absurd mark unmarked
  refine ⟨after, printed, ?_, reached.puts, ?_, fun held => ?_, reached.colors⟩
  · rw [← termPuts_fst, reached.puts]
    rfl
  · rw [reached.text, owed_text stage, List.nil_append]
  · rcases reached.between with text | mark
    · cases held.symm.trans text.2.1
    · exact (last mark).resolve_left fun nothing => unmarked nothing.2

def numeralRed : Numeral := ⟨[49, 49], by simp, by simp, by decide⟩

/-- `??[11;11mA`: a plain `?`, an escape behind it and a letter. -/
theorem termPuts_text_red :
    ∃ after printed,
      (List.flatMap Piece.bytes
        [.plain 63 (by decide), .escape numeralRed [numeralRed] (by decide), .plain 65 (by decide)]).foldlM
          (termPutch fun _ => 0) (termInit .tiny fun _ => 0) = some after ∧
      termPuts (fun _ => 0) (termInit .tiny fun _ => 0) [63, 63, 91, 49, 49, 59, 49, 49, 109, 65] =
        some (after, printed) ∧
      printed ++ owed after = [63, 65] ∧ (after.lastQuChar → False) ∧
      after.colors = (0xFF7777, defaultBgcolor) := by
  obtain ⟨after, printed, fed, puts, text, last, colors⟩ :=
    @termPuts_text (fun _ => 0) (termInit .tiny fun _ => 0) ⟨rfl, rfl, rfl⟩ (by decide)
      [.plain 63 (by decide), .escape numeralRed [numeralRed] (by decide), .plain 65 (by decide)]
      (by simp [Piece.Apart, Piece.bytes, numeralRed])
  refine ⟨after, printed, fed, puts, text, fun held => ?_, colors⟩
  obtain ⟨piece, isLast, question⟩ := last held
  obtain rfl := Option.some.inj isLast
  exact absurd question (by decide)

end HanOS.Device
