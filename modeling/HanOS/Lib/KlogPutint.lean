import HanOS.Lib.Klib
import Mathlib.Data.Nat.ModEq
import Mathlib.Tactic.NormNum

/-!
# Decimal numbers in the kernel log (`klog_putint`)

The digits come out right for every number.  The field width does not: the columns
counted for the number leave the sign out where they should count it, and the loop
that counts them goes past the largest power of ten of an `int64_t`.
-/

namespace HanOS.Lib

def i64 (n : Int) : Int :=
  if n % 2 ^ 64 < 2 ^ 63 then n % 2 ^ 64 else n % 2 ^ 64 - 2 ^ 64

/-- The conversion of an `int64_t` to `size_t`. -/
def unsigned (n : Int) : Nat := (n % 2 ^ 64).toNat

/-! The loops of `klog_putint`; `none` is a loop that runs on when `fuel` passes are over. -/

/-- The columns of the number: `i` runs through 9, 99, 999 and so on. -/
def widthLoop (nVal : Int) : Nat → Nat → Int → Option Int
  | 0, _, _ => none
  | fuel + 1, i, nWidth =>
    if nVal > i64 i ∧ i < 2 ^ 64 - 1 then
      widthLoop nVal fuel (u64 (u64 (i * 10) + 9)) (nWidth + 1)
    else some nWidth

def padLoop (c : UInt8) (nWidth width : Int) : Nat → Int → Option (List UInt8)
  | 0, _ => none
  | fuel + 1, zeroWidth =>
    if zeroWidth + nWidth < width then do
      let rest ← padLoop c nWidth width fuel (zeroWidth + 1)
      return c :: rest
    else some []

def divLoop : Nat → Nat → Nat → Option Nat
  | 0, _, _ => none
  | fuel + 1, temp, div => if temp > 0 then divLoop fuel (temp / 10) (u64 (div * 10)) else some div

def digitLoop (n : Nat) : Nat → Nat → Option (List UInt8)
  | 0, _ => none
  | fuel + 1, div =>
    if div ≥ 10 then do
      let digit := UInt8.ofNat (sub64 (n % div) (n % (div / 10)) / (div / 10))
      let rest ← digitLoop n fuel (div / 10)
      return (digit + 48) :: rest
    else some []

/-- `klog_putint`, with the bytes it hands to `klog_putch`. -/
def klogPutint (n width : Int) (zeroFilling : Bool) : Option (List UInt8) := do
  let nVal := if n < 0 then i64 (-1 * n) else n
  let counted ← widthLoop nVal 64 9 1
  let nWidth := if n < 0 then counted - 1 else counted
  let sign := if n < 0 then [45] else []
  let n := if n < 0 then i64 (-n) else n
  let pad ← padLoop (if zeroFilling then 48 else 32) nWidth width ((width - nWidth).toNat + 1) 0
  let zero := if n = 0 then [48] else []
  let div ← divLoop 20 (unsigned n) 1
  let digits ← digitLoop (unsigned n) 20 div
  return sign ++ pad ++ zero ++ digits

/-! ## The digits -/

def decimal (m : Nat) : List UInt8 := (Nat.toDigits 10 m).map fun c => UInt8.ofNat c.toNat

def lastDigits (m : Nat) : Nat → List UInt8
  | 0 => []
  | d + 1 => (UInt8.ofNat (m / 10 ^ d % 10) + 48) :: lastDigits m d

theorem lastDigits_snoc (m d : Nat) :
    lastDigits m (d + 1) = lastDigits (m / 10) d ++ [UInt8.ofNat (m % 10) + 48] := by
  induction d with
  | zero => simp [lastDigits]
  | succ d inductionHypothesis =>
    rw [lastDigits, inductionHypothesis, lastDigits, List.cons_append, Nat.div_div_eq_div_mul,
      ← Nat.pow_succ']

theorem digitChar_byte {d : Nat} (digit : d < 10) :
    UInt8.ofNat d.digitChar.toNat = UInt8.ofNat d + 48 := by
  obtain rfl | rfl | rfl | rfl | rfl | rfl | rfl | rfl | rfl | rfl :
      d = 0 ∨ d = 1 ∨ d = 2 ∨ d = 3 ∨ d = 4 ∨ d = 5 ∨ d = 6 ∨ d = 7 ∨ d = 8 ∨ d = 9 := by omega
  all_goals rfl

/-- The digits of a number are its last ones, when none is missing and none is ahead. -/
theorem decimal_eq_lastDigits {m d : Nat} (above : m < 10 ^ (d + 1)) (below : 10 ^ d ≤ m ∨ d = 0) :
    decimal m = lastDigits m (d + 1) := by
  induction d generalizing m with
  | zero =>
    have digit : m < 10 := by simpa using above
    rw [decimal, Nat.toDigits_of_lt_base digit, List.map_singleton, digitChar_byte digit]
    simp [lastDigits, Nat.mod_eq_of_lt digit]
  | succ d inductionHypothesis =>
    have two : 10 ^ (d + 1) ≤ m := below.resolve_right (Nat.succ_ne_zero d)
    have ten : 10 ≤ m := by
      rw [Nat.pow_succ] at two
      have positive := Nat.pow_pos (n := d) (show 0 < 10 by decide)
      omega
    have front : decimal (m / 10) = lastDigits (m / 10) (d + 1) := by
      apply inductionHypothesis
      · rw [Nat.div_lt_iff_lt_mul (by decide), ← Nat.pow_succ]
        exact above
      · left
        rw [Nat.le_div_iff_mul_le (by decide), ← Nat.pow_succ]
        exact two
    rw [decimal, Nat.toDigits_of_base_le (by decide) ten, List.map_append, List.map_singleton,
      digitChar_byte (Nat.mod_lt _ (by decide)), lastDigits_snoc, ← front]
    rfl

theorem length_decimal_le_iff {m d : Nat} (positive : 0 < d) :
    (decimal m).length ≤ d ↔ m < 10 ^ d := by
  rw [decimal, List.length_map]
  exact Nat.length_toDigits_le_iff (by decide) positive

theorem length_decimal_pos (m : Nat) : 0 < (decimal m).length := by
  rw [decimal, List.length_map]
  exact Nat.length_toDigits_pos

/-- The loop over `temp` finds the power of ten above the number. -/
theorem divLoop_eq {fuel k temp : Nat} (small : temp < 10 ^ (19 - k)) (room : k ≤ 19)
    (enough : 19 < fuel + k) :
    ∃ d, divLoop fuel temp (10 ^ k) = some (10 ^ (k + d)) ∧ temp < 10 ^ d ∧ k + d ≤ 19 ∧
      (d = 0 ∧ temp = 0 ∨ 0 < d ∧ 10 ^ (d - 1) ≤ temp) := by
  induction fuel generalizing k temp with
  | zero => omega
  | succ fuel inductionHypothesis =>
    unfold divLoop
    by_cases positive : temp > 0
    · have left : k < 19 := by
        by_contra full
        rw [show 19 - k = 0 by omega] at small
        omega
      have fits : (10 : Nat) ^ (k + 1) ≤ 10 ^ 19 := Nat.pow_le_pow_right (by decide) left
      have times : u64 (10 ^ k * 10) = 10 ^ (k + 1) := by
        rw [← Nat.pow_succ]
        exact u64_of_lt (Nat.lt_of_le_of_lt fits (by decide))
      have shorter : temp / 10 < 10 ^ (19 - (k + 1)) := by
        rw [Nat.div_lt_iff_lt_mul (by decide), ← Nat.pow_succ,
          show (19 - (k + 1)).succ = 19 - k by omega]
        exact small
      obtain ⟨d, loop, above, within, below⟩ :=
        inductionHypothesis shorter left (by omega : 19 < fuel + (k + 1))
      rw [if_pos positive, times, loop]
      refine ⟨d + 1, by rw [Nat.add_right_comm, Nat.add_assoc], ?_, by omega, .inr ⟨by omega, ?_⟩⟩
      · rw [Nat.pow_succ, ← Nat.div_lt_iff_lt_mul (by decide)]
        exact above
      · rw [Nat.add_sub_cancel]
        rcases below with ⟨rfl, _⟩ | ⟨some_left, low⟩
        · exact positive
        · rw [← Nat.sub_add_cancel some_left, Nat.pow_succ, ← Nat.le_div_iff_mul_le (by decide)]
          exact low
    · rw [if_neg positive]
      exact ⟨0, by rw [Nat.add_zero], by omega, by omega, .inl ⟨rfl, by omega⟩⟩

theorem digit_eq (n d : Nat) :
    sub64 (n % 10 ^ (d + 1)) (n % 10 ^ d) / 10 ^ d = n / 10 ^ d % 10 := by
  have split : n % 10 ^ (d + 1) = n % 10 ^ d + 10 ^ d * (n / 10 ^ d % 10) := Nat.mod_pow_succ
  rw [sub64_of_le (by omega), split, Nat.add_sub_cancel_left,
    Nat.mul_div_cancel_left _ (Nat.pow_pos (by decide))]

theorem digitLoop_eq (n : Nat) {fuel d : Nat} (enough : d < fuel) :
    digitLoop n fuel (10 ^ d) = some (lastDigits n d) := by
  induction d generalizing fuel with
  | zero =>
    obtain ⟨fuel, rfl⟩ : ∃ more, fuel = more + 1 := ⟨fuel - 1, by omega⟩
    simp [digitLoop, lastDigits]
  | succ d inductionHypothesis =>
    obtain ⟨fuel, rfl⟩ : ∃ more, fuel = more + 1 := ⟨fuel - 1, by omega⟩
    have ten : 10 ^ (d + 1) ≥ 10 := by
      rw [Nat.pow_succ]
      have positive := Nat.pow_pos (n := d) (show 0 < 10 by decide)
      omega
    have tenth : 10 ^ (d + 1) / 10 = 10 ^ d := by
      rw [Nat.pow_succ, Nat.mul_div_cancel _ (by decide)]
    unfold digitLoop
    rw [if_pos ten, tenth, digit_eq, inductionHypothesis (by omega)]
    rfl

theorem digits_eq {m : Nat} (bound : m ≤ 2 ^ 63) :
    ∃ div digits, divLoop 20 m 1 = some div ∧ digitLoop m 20 div = some digits ∧
      (if m = 0 then [48] else []) ++ digits = decimal m := by
  obtain ⟨d, loop, above, within, below⟩ :=
    @divLoop_eq 20 0 m (Nat.lt_of_le_of_lt bound (by decide)) (by decide) (by decide)
  rw [Nat.zero_add] at loop within
  refine ⟨_, _, loop, digitLoop_eq m (by omega), ?_⟩
  rcases below with ⟨rfl, rfl⟩ | ⟨positive, low⟩
  · rfl
  · obtain ⟨d, rfl⟩ : ∃ more, d = more + 1 := ⟨d - 1, by omega⟩
    rw [Nat.add_sub_cancel] at low
    have nonzero : m ≠ 0 := by
      have power := Nat.pow_pos (n := d) (show 0 < 10 by decide)
      omega
    rw [if_neg nonzero, List.nil_append, decimal_eq_lastDigits above (.inl low)]

/-! ## The padding -/

theorem padLoop_eq (c : UInt8) (nWidth width : Int) {fuel : Nat} {zeroWidth : Int}
    (enough : (width - nWidth - zeroWidth).toNat < fuel) :
    padLoop c nWidth width fuel zeroWidth =
      some (List.replicate (width - nWidth - zeroWidth).toNat c) := by
  induction fuel generalizing zeroWidth with
  | zero => omega
  | succ fuel inductionHypothesis =>
    unfold padLoop
    by_cases short : zeroWidth + nWidth < width
    · have one : (width - nWidth - zeroWidth).toNat =
          (width - nWidth - (zeroWidth + 1)).toNat + 1 := by omega
      rw [if_pos short, inductionHypothesis (by omega), one, List.replicate_succ]
      rfl
    · have none_left : (width - nWidth - zeroWidth).toNat = 0 := by omega
      rw [if_neg short, none_left]
      rfl

/-! ## The columns -/

section

variable {m fuel : Nat}

theorem i64_of_lt {i : Nat} (small : i < 2 ^ 63) : i64 i = i := by
  unfold i64
  omega

/-- One pass of the loop, modulo the 64 bits of `i`. -/
theorem next_nines (k : Nat) :
    u64 (u64 ((10 ^ k - 1) % 2 ^ 64 * 10) + 9) = (10 ^ (k + 1) - 1) % 2 ^ 64 := by
  have positive := Nat.pow_pos (n := k) (show 0 < 10 by decide)
  have power : 10 ^ (k + 1) - 1 = (10 ^ k - 1) * 10 + 9 := by
    rw [Nat.pow_succ]
    omega
  rw [power]
  unfold u64
  omega

theorem nines_lt {k : Nat} (few : k ≤ 19) : (10 ^ k - 1) % 2 ^ 64 = 10 ^ k - 1 := by
  have fits : (10 : Nat) ^ k ≤ 10 ^ 19 := Nat.pow_le_pow_right (by decide) few
  apply Nat.mod_eq_of_lt
  omega

/-- The loop counts the digits that the number has beyond the first `k`. -/
theorem widthLoop_skip {k j : Nat} (few : k + j ≤ 19)
    (long : ∀ i, k ≤ i → i < k + j → 10 ^ i ≤ m) :
    widthLoop m (fuel + j) (10 ^ k - 1) k = widthLoop m fuel (10 ^ (k + j) - 1) (k + j : Nat) := by
  induction j generalizing k with
  | zero => rfl
  | succ j inductionHypothesis =>
    have positive := Nat.pow_pos (n := k) (show 0 < 10 by decide)
    have fits : (10 : Nat) ^ k ≤ 10 ^ 18 := Nat.pow_le_pow_right (by decide) (by omega)
    have low := long k (Nat.le_refl k) (by omega)
    have step := next_nines k
    rw [nines_lt (by omega), nines_lt (by omega)] at step
    have more : (m : Int) > i64 (10 ^ k - 1 : Nat) ∧ 10 ^ k - 1 < 2 ^ 64 - 1 := by
      rw [i64_of_lt (by omega)]
      omega
    rw [← Nat.add_assoc, widthLoop, if_pos more, step]
    have rest := inductionHypothesis (k := k + 1) (by omega)
      (fun i above below => long i (by omega) (by omega))
    rw [show k + 1 + j = k + (j + 1) by omega] at rest
    exact_mod_cast rest

/-- Up to 18 digits the columns are the digits. -/
theorem widthLoop_short (short : m < 10 ^ 18) :
    widthLoop m 64 9 1 = some ((decimal m).length : Int) := by
  have positive := length_decimal_pos m
  have few : (decimal m).length ≤ 18 := (length_decimal_le_iff (by decide)).mpr short
  have above : m < 10 ^ (decimal m).length := (length_decimal_le_iff positive).mp (Nat.le_refl _)
  generalize length : (decimal m).length = d at positive few above
  have skip := @widthLoop_skip m (64 - (d - 1)) 1 (d - 1) (by omega) (by
    intro i low high
    by_contra less
    have fewer := (length_decimal_le_iff low).mpr (Nat.not_le.mp less)
    omega)
  rw [show 64 - (d - 1) + (d - 1) = 64 by omega, show 1 + (d - 1) = d by omega] at skip
  have fits : (10 : Nat) ^ d ≤ 10 ^ 18 := Nat.pow_le_pow_right (by decide) few
  have power := Nat.pow_pos (n := d) (show 0 < 10 by decide)
  obtain ⟨fuel, enough⟩ : ∃ fuel, 64 - (d - 1) = fuel + 1 := ⟨63 - (d - 1), by omega⟩
  have stop : ¬ ((m : Int) > i64 (10 ^ d - 1 : Nat) ∧ 10 ^ d - 1 < 2 ^ 64 - 1) := by
    rw [i64_of_lt (by omega)]
    omega
  have ends : widthLoop m (fuel + 1) (10 ^ d - 1) d = some (d : Int) := by
    rw [widthLoop, if_neg stop]
  rw [enough, ends] at skip
  exact skip

/-- From 19 digits on the comparison with `(int64_t)i` goes wrong, and the loop counts on. -/
theorem widthLoop_long (long : 10 ^ 18 ≤ m) :
    widthLoop m 64 9 1 = widthLoop m 45 7766279631452241919 20 := by
  have skip := @widthLoop_skip m 46 1 18 (by decide) (by
    intro i _ high
    exact Nat.le_trans (Nat.pow_le_pow_right (by decide) (by omega)) long)
  -- as an `int64_t` nineteen nines are negative
  have more : (m : Int) > i64 (10 ^ 19 - 1 : Nat) ∧ 10 ^ 19 - 1 < 2 ^ 64 - 1 := by
    refine ⟨?_, by decide⟩
    have negative : i64 (10 ^ 19 - 1 : Nat) < 0 := by decide
    omega
  refine skip.trans ?_
  rw [widthLoop, if_pos more]
  rfl

/-- The loop ends at 64 columns at the latest, where `i` is `UINT64_MAX`. -/
theorem widthLoop_ends (nVal : Int) {k : Nat} (within : k ≤ 64) (enough : 64 < fuel + k) :
    ∃ columns, widthLoop nVal fuel ((10 ^ k - 1) % 2 ^ 64) k = some columns ∧ k ≤ columns := by
  induction fuel generalizing k with
  | zero => omega
  | succ fuel inductionHypothesis =>
    unfold widthLoop
    split
    · rename_i more
      -- `10 ^ 64 - 1` is `UINT64_MAX` modulo its 64 bits
      have before : k < 64 := by
        by_contra last
        obtain rfl : k = 64 := by omega
        exact absurd more.2 (by decide)
      rw [next_nines]
      obtain ⟨columns, ends, past⟩ := inductionHypothesis before (by omega)
      exact ⟨columns, by exact_mod_cast ends, by omega⟩
    · exact ⟨k, rfl, Int.le_refl _⟩

theorem widthLoop_middle (long : 10 ^ 18 ≤ m) (low : m ≤ 7766279631452241919) :
    widthLoop m 64 9 1 = some 20 := by
  rw [widthLoop_long long, widthLoop, if_neg]
  rw [i64_of_lt (by decide)]
  omega

theorem widthLoop_high (high : 7766279631452241919 < m) (bound : m < 2 ^ 63) :
    ∃ columns, widthLoop m 64 9 1 = some columns ∧ 22 ≤ columns := by
  obtain ⟨columns, ends, past⟩ := @widthLoop_ends 43 m 22 (by decide) (by decide)
  refine ⟨columns, ?_, past⟩
  rw [widthLoop_long (by omega), widthLoop, if_pos, widthLoop, if_pos]
  · exact ends
  · refine ⟨?_, by decide⟩
    have less : i64 ((u64 (u64 (7766279631452241919 * 10) + 9) : Nat)) = 3875820019684212735 := by
      decide
    omega
  · refine ⟨?_, by decide⟩
    rw [i64_of_lt (by decide)]
    omega

end

/-! ## The field -/

def sign (n : Int) : List UInt8 := if n < 0 then [45] else []

def numeral (n : Int) : List UInt8 := sign n ++ decimal n.natAbs

/-- A number in a field: the numeral, padded behind the sign, as wide as asked or as needed. -/
structure IsField (n width : Int) (zeroFilling : Bool) (out : List UInt8) : Prop where
  padded : ∃ k, out = sign n ++ List.replicate k (if zeroFilling then 48 else 32) ++
    decimal n.natAbs
  length : (out.length : Int) = max width (numeral n).length

/-- The fields `klog_putint` gets right. -/
def FieldWorks (n width : Int) : Prop :=
  if n = -2 ^ 63 then width ≤ 0
  else if 0 ≤ n then n < 10 ^ 18 ∨ width ≤ 19
  else if n.natAbs < 10 ^ 18 then width < (decimal n.natAbs).length
  else if n.natAbs ≤ 7766279631452241919 then width ≤ 19
  else width ≤ 20

/-- What is written, by the number of columns counted. -/
theorem klogPutint_eq {n width columns : Int} {zeroFilling : Bool} (bound : n.natAbs ≤ 2 ^ 63)
    (below : n < 2 ^ 63)
    (counted : widthLoop (if n < 0 then i64 (-1 * n) else n) 64 9 1 = some columns) :
    klogPutint n width zeroFilling =
      some (sign n ++ List.replicate (width - if n < 0 then columns - 1 else columns).toNat
        (if zeroFilling then 48 else 32) ++ decimal n.natAbs) := by
  obtain ⟨div, digits, divided, written, numeral⟩ := digits_eq bound
  have magnitude : unsigned (if n < 0 then i64 (-n) else n) = n.natAbs := by
    unfold unsigned i64
    split
    · split <;> omega
    · omega
  have zero : (if n < 0 then i64 (-n) else n) = 0 ↔ n.natAbs = 0 := by
    unfold i64
    split
    · split <;> omega
    · omega
  have padding := @padLoop_eq (if zeroFilling then 48 else 32)
    (if n < 0 then columns - 1 else columns) width _ 0
    (by rw [Int.sub_zero]; exact Nat.lt_succ_self _)
  rw [Int.sub_zero] at padding
  unfold klogPutint
  simp only [counted, padding, magnitude, zero, divided, written, Option.bind_eq_bind,
    Option.bind_some, Option.pure_def, ← numeral, sign, List.append_assoc]

theorem klogPutint_total (n : Int64) (width : Int) (zeroFilling : Bool) :
    ∃ out, klogPutint n.toInt width zeroFilling = some out := by
  have low := n.le_toInt
  have high := n.toInt_lt
  obtain ⟨columns, counted, _⟩ := @widthLoop_ends 64
    (if n.toInt < 0 then i64 (-1 * n.toInt) else n.toInt) 1 (by decide) (by decide)
  exact ⟨_, klogPutint_eq (by omega) high counted⟩

/-- The field is right when the columns counted for the number are those of its numeral, or when
    no padding is asked for. -/
theorem isField_iff {n width columns : Int} {zeroFilling : Bool} (bound : n.natAbs ≤ 2 ^ 63)
    (below : n < 2 ^ 63)
    (counted : widthLoop (if n < 0 then i64 (-1 * n) else n) 64 9 1 = some columns) :
    (∃ out, klogPutint n width zeroFilling = some out ∧ IsField n width zeroFilling out) ↔
      (if n < 0 then columns - 1 else columns) = (numeral n).length ∨
        width ≤ (numeral n).length ∧ width ≤ if n < 0 then columns - 1 else columns := by
  rw [klogPutint_eq bound below counted]
  generalize (if n < 0 then columns - 1 else columns) = nWidth
  have lengths : ∀ k (c : UInt8), (sign n ++ List.replicate k c ++ decimal n.natAbs).length =
      k + (numeral n).length := by
    intro k c
    simp only [numeral, List.length_append, List.length_replicate]
    omega
  constructor
  · rintro ⟨out, written, _, length⟩
    cases written
    rw [lengths] at length
    omega
  · intro fits
    refine ⟨_, rfl, ⟨_, rfl⟩, ?_⟩
    rw [lengths]
    omega

/-- `klog_putint` writes the number in a field of the width asked for exactly in these cases. -/
theorem klogPutint_iff (n : Int64) (width : Int) (zeroFilling : Bool) :
    (∃ out, klogPutint n.toInt width zeroFilling = some out ∧
      IsField n.toInt width zeroFilling out) ↔ FieldWorks n.toInt width := by
  have low := n.le_toInt
  have high := n.toInt_lt
  generalize n.toInt = n at low high
  have bound : n.natAbs ≤ 2 ^ 63 := by omega
  have length : ((numeral n).length : Int) =
      (if n < 0 then 1 else 0) + ((decimal n.natAbs).length : Int) := by
    unfold numeral sign
    split
    · simp [Int.add_comm]
    · simp
  have positive := length_decimal_pos n.natAbs
  have short : (decimal n.natAbs).length ≤ 18 ↔ n.natAbs < 10 ^ 18 :=
    length_decimal_le_iff (by decide)
  have long : (decimal n.natAbs).length ≤ 19 := by
    rw [length_decimal_le_iff (by decide)]
    omega
  -- the value the loop counts the columns of
  have value : n ≠ -2 ^ 63 → (if n < 0 then i64 (-1 * n) else n) = (n.natAbs : Int) := by
    intro ordinary
    split
    · rw [i64]
      split <;> omega
    · omega
  unfold FieldWorks
  by_cases least : n = -2 ^ 63
  · have wrapped : widthLoop (if n < 0 then i64 (-1 * n) else n) 64 9 1 = some 1 := by
      subst least
      rfl
    have digits : ¬ (decimal n.natAbs).length ≤ 18 := by omega
    rw [isField_iff bound high wrapped, if_pos least, length, if_pos (by omega), if_pos (by omega)]
    omega
  · rw [if_neg least]
    have columns_iff := fun {columns : Int} counted =>
      @isField_iff n width columns zeroFilling bound high (by rw [value least]; exact counted)
    by_cases negative : n < 0
    · simp only [negative, if_true] at columns_iff length
      rw [if_neg (by omega)]
      by_cases few : n.natAbs < 10 ^ 18
      · rw [columns_iff (widthLoop_short few), if_pos few]
        omega
      · rw [if_neg few]
        by_cases middle : n.natAbs ≤ 7766279631452241919
        · rw [columns_iff (widthLoop_middle (by omega) middle), if_pos middle]
          omega
        · obtain ⟨columns, counted, past⟩ := @widthLoop_high n.natAbs (by omega) (by omega)
          rw [columns_iff counted, if_neg middle]
          omega
    · simp only [negative, if_false] at columns_iff length
      rw [if_pos (by omega)]
      by_cases few : n.natAbs < 10 ^ 18
      · rw [columns_iff (widthLoop_short few)]
        omega
      · by_cases middle : n.natAbs ≤ 7766279631452241919
        · rw [columns_iff (widthLoop_middle (by omega) middle)]
          omega
        · obtain ⟨columns, counted, past⟩ := @widthLoop_high n.natAbs (by omega) (by omega)
          rw [columns_iff counted]
          omega

/-- A negative number in a field of four columns takes six. -/
theorem klogPutint_negative :
    klogPutint (-5) 4 true = some [45, 48, 48, 48, 48, 53] ∧
      ¬ ∃ out, klogPutint (-5) 4 true = some out ∧ IsField (-5) 4 true out := by
  have written : klogPutint (-5) 4 true = some [45, 48, 48, 48, 48, 53] := by decide
  refine ⟨written, ?_⟩
  rintro ⟨out, same, field⟩
  cases written.symm.trans same
  exact absurd field.length (by decide)

end HanOS.Lib
