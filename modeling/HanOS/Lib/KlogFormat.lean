import HanOS.Lib.KlogPutint

/-!
# Formatted printing in the kernel log (`klog_vprintf_core`)

A `%` directive ends in a step over its conversion character, whatever that is.  When the
format ends behind the `%` or its width, the character stepped over is the terminating NUL
and the loop goes on behind the string.  It stops at the NUL exactly for the formats in
which every directive is complete (`klogVprintfCore_iff`).
-/

namespace HanOS.Lib

/-- How the format can go wrong: a read behind the terminating NUL, or a loop running on when
    its passes are over. -/
inductive FormatFault
  | beyond | runsOn
  deriving DecidableEq, Repr

/-- `s[i]`; `s` are the characters before the NUL. -/
def charAt (s : List UInt8) (i : Nat) : Except FormatFault UInt8 :=
  if bound : i < s.length then .ok s[i]
  else if i = s.length then .ok 0
  else .error .beyond

def IsDigit (c : UInt8) : Prop := 48 ≤ c ∧ c ≤ 57

instance (c : UInt8) : Decidable (IsDigit c) := inferInstanceAs (Decidable (_ ∧ _))

/-- The conversion of a `uint32_t` to `int`. -/
def i32 (n : Nat) : Int := if n < 2 ^ 31 then n else n - 2 ^ 32

def klogPuts (s : List UInt8) (width : Int) : List UInt8 :=
  s ++ if width > 0 then List.replicate (width - s.length).toNat 32 else []

def klogPuthex (n : UInt64) (width : Int) : List UInt8 :=
  (List.range 16).flatMap fun passed =>
    if width > 0 ∧ (passed + 1 : Nat) + width ≤ 16 then []
    else
      let digit := (n.toNat / 2 ^ (60 - 4 * passed)) % 16
      [UInt8.ofNat (if digit ≤ 9 then digit + 48 else digit - 10 + 65)]

/-- The `while` loop over the width digits, from the index before them. -/
def widthDigits (s : List UInt8) : Nat → Nat → Nat → Except FormatFault (Nat × Nat)
  | 0, _, _ => .error .runsOn
  | fuel + 1, i, argWidth => do
    let c ← charAt s (i + 1)
    if IsDigit c then widthDigits s fuel (i + 1) (u32 (u32 (argWidth * 10) + (c.toNat - 48)))
    else return (i, argWidth)

section

variable (stringAt : UInt64 → List UInt8) (args : Nat → UInt64)

/-- The conversion: the bytes it prints and the arguments taken so far.  The arguments are the
    words `args 0`, `args 1` and so on, and `stringAt` gives the string at an address. -/
def klogDirective (conv : UInt8) (argWidth : Nat) (zeroFilling : Bool) (taken : Nat) :
    Except FormatFault (List UInt8 × Nat) :=
  if conv = 37 then .ok ([37], taken)  -- '%'
  else if conv = 100 then  -- 'd'
    match klogPutint (args taken).toInt64.toInt (i32 argWidth) zeroFilling with
    | none => .error .runsOn
    | some out => .ok (out, taken + 1)
  else if conv = 120 then .ok (klogPuthex (args taken) (i32 argWidth), taken + 1)  -- 'x'
  else if conv = 115 then .ok (klogPuts (stringAt (args taken)) (i32 argWidth), taken + 1)  -- 's'
  else if conv = 99 then .ok ([(args taken).toUInt8], taken + 1)  -- 'c'
  else if conv = 98 then  -- 'b'
    let word := if (args taken).toUInt32 ≠ 0 then [116, 114, 117, 101] else [102, 97, 108, 115, 101]
    .ok (klogPuts word 0, taken + 1)
  else .ok ([], taken)

/-- The `for` loop: the bytes printed and the index it stops at. -/
def formatLoop (s : List UInt8) : Nat → Nat → Nat → Except FormatFault (List UInt8 × Nat)
  | 0, _, _ => .error .runsOn
  | fuel + 1, i, taken => do
    let c ← charAt s i
    if c = 0 then return ([], i)
    else if c = 37 then
      let first ← charAt s (i + 1)
      let (i, argWidth) ← widthDigits s (s.length + 1) i 0
      let conv ← charAt s (i + 1)
      let (out, taken) ← klogDirective stringAt args conv argWidth (first = 48) taken
      -- the `i++` of the directive, then that of the loop
      let (rest, stop) ← formatLoop s fuel (i + 1 + 1) taken
      return (out ++ rest, stop)
    else
      let (rest, stop) ← formatLoop s fuel (i + 1) taken
      return (c :: rest, stop)

def klogVprintfCore (s : List UInt8) : Except FormatFault (List UInt8 × Nat) :=
  formatLoop stringAt args s (s.length + 1) 0 0

end

/-! ## Complete formats -/

/-- The formats in which a conversion character follows the digits behind every `%`. -/
inductive Tidy : List UInt8 → Prop
  | nil : Tidy []
  | literal {c : UInt8} {rest : List UInt8} (plain : c ≠ 37) : Tidy rest → Tidy (c :: rest)
  | directive {behind rest : List UInt8} {conv : UInt8}
      (complete : behind.dropWhile (fun c => decide (IsDigit c)) = conv :: rest) :
      Tidy rest → Tidy (37 :: behind)

section

variable {stringAt : UInt64 → List UInt8} {args : Nat → UInt64} {s before : List UInt8}

theorem charAt_append (before rest : List UInt8) (c : UInt8) :
    charAt (before ++ c :: rest) before.length = .ok c := by
  simp [charAt]

theorem charAt_end (s : List UInt8) : charAt s s.length = .ok 0 := by
  simp [charAt]

theorem charAt_beyond {i : Nat} (past : s.length < i) : charAt s i = .error .beyond := by
  unfold charAt
  rw [dif_neg (by omega), if_neg (by omega)]

theorem klogDirective_ok (conv : UInt8) (argWidth : Nat) (zeroFilling : Bool) (taken : Nat) :
    ∃ out, klogDirective stringAt args conv argWidth zeroFilling taken = .ok out := by
  unfold klogDirective
  obtain ⟨number, printed⟩ :=
    klogPutint_total (args taken).toInt64 (i32 argWidth) zeroFilling
  rw [printed]
  split
  · exact ⟨_, rfl⟩
  · split
    · exact ⟨_, rfl⟩
    · split
      · exact ⟨_, rfl⟩
      · split
        · exact ⟨_, rfl⟩
        · split
          · exact ⟨_, rfl⟩
          · split <;> exact ⟨_, rfl⟩

/-- The width loop stops before the first character that is no digit, the NUL at the latest. -/
theorem widthDigits_ok {mark : UInt8} {behind : List UInt8} {fuel : Nat} (argWidth : Nat)
    (here : s = before ++ mark :: behind) (enough : behind.length < fuel) :
    ∃ digits rest width, behind = digits ++ rest ∧
      behind.dropWhile (fun c => decide (IsDigit c)) = rest ∧
      widthDigits s fuel before.length argWidth = .ok (before.length + digits.length, width) := by
  induction behind generalizing before mark fuel argWidth with
  | nil =>
    obtain ⟨fuel, rfl⟩ : ∃ more, fuel = more + 1 := ⟨fuel - 1, by simp at enough; omega⟩
    have nul : charAt s (before.length + 1) = .ok 0 := by
      rw [← charAt_end s, here]
      simp
    refine ⟨[], [], argWidth, rfl, rfl, ?_⟩
    simp only [widthDigits, nul]
    rfl
  | cons c behind inductionHypothesis =>
    obtain ⟨fuel, rfl⟩ : ∃ more, fuel = more + 1 := ⟨fuel - 1, by simp at enough; omega⟩
    have next : charAt s (before.length + 1) = .ok c := by
      have read := charAt_append (before ++ [mark]) behind c
      rw [List.append_assoc, List.singleton_append, ← here] at read
      simpa using read
    by_cases digit : IsDigit c
    · rw [List.length_cons] at enough
      obtain ⟨digits, rest, width, split, dropped, loop⟩ :=
        inductionHypothesis (u32 (u32 (argWidth * 10) + (c.toNat - 48)))
          (by rw [here, List.append_assoc, List.singleton_append] :
            s = (before ++ [mark]) ++ c :: behind) (by omega : behind.length < fuel)
      refine ⟨c :: digits, rest, width, by rw [split, List.cons_append], ?_, ?_⟩
      · simp only [List.dropWhile_cons, digit, decide_true, if_true]
        exact dropped
      · rw [List.length_append, List.length_singleton, Nat.add_assoc, Nat.add_comm 1] at loop
        simp only [widthDigits, next, bind, Except.bind, if_pos digit]
        exact loop
    · refine ⟨[], c :: behind, argWidth, rfl, ?_, ?_⟩
      · simp [digit]
      · simp only [widthDigits, next, bind, Except.bind, if_neg digit]
        rfl

theorem tidy_literal {c : UInt8} {rest : List UInt8} (plain : c ≠ 37) :
    Tidy (c :: rest) ↔ Tidy rest := by
  constructor
  · intro tidy
    cases tidy with
    | literal _ tail => exact tail
    | directive _ _ => exact absurd rfl plain
  · exact .literal plain

theorem tidy_directive {behind after : List UInt8}
    (dropped : behind.dropWhile (fun c => decide (IsDigit c)) = after) :
    Tidy (37 :: behind) ↔ ∃ conv rest, after = conv :: rest ∧ Tidy rest := by
  constructor
  · intro tidy
    cases tidy with
    | literal plain _ => exact absurd rfl plain
    | directive complete tail => exact ⟨_, _, dropped.symm.trans complete, tail⟩
  · rintro ⟨conv, rest, rfl, tail⟩
    exact .directive dropped tail

/-- From any index the loop stops at the NUL when what is ahead is tidy, and reads on behind it
    when it is not. -/
theorem formatLoop_cases {rest : List UInt8} {fuel : Nat} (taken : Nat)
    (here : s = before ++ rest) (terminated : (0 : UInt8) ∉ s) (enough : rest.length < fuel) :
    (Tidy rest ∧ ∃ out,
        formatLoop stringAt args s fuel before.length taken = .ok (out, s.length)) ∨
      (¬ Tidy rest ∧
        formatLoop stringAt args s fuel before.length taken = .error .beyond) := by
  induction fuel generalizing before rest taken with
  | zero => omega
  | succ fuel inductionHypothesis =>
    cases rest with
    | nil =>
      rw [List.append_nil] at here
      subst here
      left
      refine ⟨.nil, [], ?_⟩
      simp only [formatLoop, charAt_end, bind, Except.bind, if_true]
      rfl
    | cons c rest =>
      rw [List.length_cons] at enough
      have nonzero : c ≠ 0 := by
        rintro rfl
        exact terminated (by rw [here]; simp)
      have read : charAt s before.length = .ok c := by
        rw [here]
        exact charAt_append before rest c
      by_cases mark : c = 37
      · subst mark
        -- the lookahead at the first width digit is the NUL at the furthest
        obtain ⟨first, look⟩ : ∃ first, charAt s (before.length + 1) = .ok first := by
          unfold charAt
          have length : s.length = before.length + (rest.length + 1) := by simp [here]
          split
          · exact ⟨_, rfl⟩
          · rw [if_pos (by omega)]
            exact ⟨_, rfl⟩
        have size : s.length = before.length + (rest.length + 1) := by simp [here]
        obtain ⟨digits, after, width, split, dropped, digitsRead⟩ :=
          widthDigits_ok 0 here (by omega : rest.length < s.length + 1)
        rw [tidy_directive dropped]
        simp only [formatLoop, read, bind, Except.bind, if_neg nonzero, if_true, look, digitsRead]
        cases after with
        | nil =>
          right
          rw [List.append_nil] at split
          subst split
          have nul : charAt s (before.length + rest.length + 1) = .ok 0 := by
            rw [← charAt_end s, size, Nat.add_assoc]
          obtain ⟨⟨out, taken'⟩, printed⟩ := @klogDirective_ok stringAt args 0 width (first = 48) taken
          obtain ⟨fuel, rfl⟩ : ∃ more, fuel = more + 1 := ⟨fuel - 1, by omega⟩
          have past : charAt s (before.length + rest.length + 1 + 1) = .error .beyond :=
            charAt_beyond (by omega)
          constructor
          · rintro ⟨_, _, none_left, _⟩
            cases none_left
          · simp only [nul, printed, formatLoop, past, bind, Except.bind]
        | cons conv after =>
          have place : s = (before ++ 37 :: digits) ++ conv :: after := by
            rw [here, split]
            simp
          have index : (before ++ 37 :: digits).length = before.length + digits.length + 1 := by
            simp only [List.length_append, List.length_cons]
            omega
          have next : charAt s (before.length + digits.length + 1) = .ok conv := by
            rw [← index, place]
            exact charAt_append _ after conv
          obtain ⟨⟨out, taken'⟩, printed⟩ :=
            @klogDirective_ok stringAt args conv width (first = 48) taken
          have shorter : after.length < fuel := by
            have lengths := congrArg List.length split
            simp only [List.length_append, List.length_cons] at lengths
            omega
          have tail := inductionHypothesis taken'
            (by rw [place]; simp : s = ((before ++ 37 :: digits) ++ [conv]) ++ after) shorter
          rw [List.length_append, index, List.length_singleton] at tail
          simp only [next, printed]
          rcases tail with ⟨tidy, rest', loop⟩ | ⟨untidy, loop⟩
          · left
            exact ⟨⟨conv, after, rfl, tidy⟩, out ++ rest', by rw [loop]; rfl⟩
          · right
            refine ⟨?_, by rw [loop]⟩
            rintro ⟨_, _, same, tidy⟩
            cases same
            exact untidy tidy
      · have tail := inductionHypothesis taken
          (by rw [here]; simp : s = (before ++ [c]) ++ rest) (by omega)
        rw [List.length_append, List.length_singleton] at tail
        rw [tidy_literal mark]
        simp only [formatLoop, read, bind, Except.bind, if_neg nonzero, if_neg mark]
        rcases tail with ⟨tidy, out, loop⟩ | ⟨untidy, loop⟩
        · left
          exact ⟨tidy, c :: out, by rw [loop]; rfl⟩
        · right
          exact ⟨untidy, by rw [loop]⟩

/-- The function reads its format up to the terminating NUL and no further exactly when every
    directive is complete. -/
theorem klogVprintfCore_iff (stringAt : UInt64 → List UInt8) (args : Nat → UInt64)
    (terminated : (0 : UInt8) ∉ s) :
    (∃ out, klogVprintfCore stringAt args s = .ok (out, s.length)) ↔ Tidy s := by
  have cases := @formatLoop_cases stringAt args s [] s (s.length + 1) 0 rfl terminated
    (Nat.lt_succ_self _)
  unfold klogVprintfCore
  rcases cases with ⟨tidy, out, loop⟩ | ⟨untidy, loop⟩
  · exact ⟨fun _ => tidy, fun _ => ⟨out, loop⟩⟩
  · constructor
    · rintro ⟨out, ran⟩
      cases loop.symm.trans ran
    · intro tidy
      exact absurd tidy untidy

theorem klogVprintfCore_iff_percent :
    (∃ out, klogVprintfCore (fun _ => []) (fun _ => 7) [37, 48, 50, 100, 32] = .ok (out, 5)) ↔
      Tidy [37, 48, 50, 100, 32] :=
  klogVprintfCore_iff (fun _ => []) (fun _ => 7) (by decide)

/-- A lone `%`: the function steps over the NUL and reads the byte behind it. -/
theorem klogVprintfCore_trailing :
    klogVprintfCore (fun _ => []) (fun _ => 0) [37] = .error .beyond ∧
      klogVprintfCore (fun _ => []) (fun _ => 0) [37, 52] = .error .beyond ∧
      ¬ ∃ out, klogVprintfCore (fun _ => []) (fun _ => 0) [37] = .ok (out, 1) := by
  have past : klogVprintfCore (fun _ => []) (fun _ => 0) [37] = .error .beyond := by rfl
  refine ⟨past, by rfl, ?_⟩
  rintro ⟨out, ran⟩
  cases past.symm.trans ran

end

end HanOS.Lib
