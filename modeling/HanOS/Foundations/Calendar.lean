import Mathlib.Algebra.Order.Ring.Nat
import Mathlib.Order.Monotone.Basic

/-!
# The Gregorian calendar

Days are numbered from the first of January of year 1, a Monday, which is day 1.  The number of a
date counts the days of the years before, of the months before and of its own month, and the
numbers of the years and months follow one another (`daysBeforeYear_succ`, `daysBeforeMonth_year`),
so the weekday is the remainder by 7.
-/

namespace HanOS.Foundations

def IsLeap (year : Nat) : Prop := year % 4 = 0 ∧ (year % 100 ≠ 0 ∨ year % 400 = 0)

instance (year : Nat) : Decidable (IsLeap year) := inferInstanceAs (Decidable (_ ∧ _))

def yearLength (year : Nat) : Nat := if IsLeap year then 366 else 365

/-- The days of a month; there are none in a month that does not exist. -/
def monthLength (year month : Nat) : Nat :=
  match month with
  | 1 | 3 | 5 | 7 | 8 | 10 | 12 => 31
  | 4 | 6 | 9 | 11 => 30
  | 2 => if IsLeap year then 29 else 28
  | _ => 0

def daysBeforeYear (year : Nat) : Nat :=
  365 * (year - 1) + (year - 1) / 4 + (year - 1) / 400 - (year - 1) / 100

def daysBeforeMonth (year : Nat) : Nat → Nat
  | 0 => 0
  | month + 1 => daysBeforeMonth year month + monthLength year month

structure Date where
  year : Nat
  month : Nat
  day : Nat
  inYear : 1 ≤ month ∧ month ≤ 12
  inMonth : 1 ≤ day ∧ day ≤ monthLength year month

namespace Date

variable (date : Date)

def number : Nat := daysBeforeYear date.year + daysBeforeMonth date.year date.month + date.day

/-- Sunday is 0. -/
def weekday : Nat := date.number % 7

/-- The first of January is 0. -/
def yearDay : Nat := daysBeforeMonth date.year date.month + date.day - 1

end Date

/-- The first of January of 2000 was a Saturday. -/
example : (Date.mk 2000 1 1 (by decide) (by decide)).weekday = 6 := by decide

variable {year month : Nat}

theorem daysBeforeYear_succ (positive : 1 ≤ year) :
    daysBeforeYear (year + 1) = daysBeforeYear year + yearLength year := by
  obtain ⟨before, rfl⟩ : ∃ n, year = n + 1 := ⟨year - 1, by omega⟩
  have fewer : before / 100 ≤ before := Nat.div_le_self ..
  simp only [daysBeforeYear, Nat.add_sub_cancel, Nat.succ_div, Nat.dvd_iff_mod_eq_zero]
  -- the quotients grow by one at the multiples
  generalize before / 4 = fourths, before / 100 = hundreds, before / 400 = cycles at *
  rw [yearLength]
  by_cases leap : IsLeap (before + 1)
  · rw [if_pos leap]
    rw [IsLeap] at leap
    split_ifs <;> omega
  · rw [if_neg leap]
    rw [IsLeap] at leap
    split_ifs <;> omega

theorem monthLength_le : monthLength year month ≤ 31 := by
  unfold monthLength
  split <;> first | decide | (split_ifs <;> decide)

theorem daysBeforeYear_mono : Monotone daysBeforeYear := by
  refine monotone_nat_of_le_succ fun year => ?_
  rcases Nat.eq_zero_or_pos year with rfl | positive
  · decide
  · rw [daysBeforeYear_succ positive]
    exact Nat.le_add_right ..

/-- The months make up the year. -/
theorem daysBeforeMonth_year (behind : 13 ≤ month) :
    daysBeforeMonth year month = yearLength year := by
  induction month, behind using Nat.le_induction with
  | base =>
    simp only [daysBeforeMonth, monthLength, yearLength]
    split <;> rfl
  | succ month behind inductionHypothesis =>
    rw [daysBeforeMonth, inductionHypothesis, monthLength] <;> omega

theorem daysBeforeMonth_mono : Monotone (daysBeforeMonth year) :=
  monotone_nat_of_le_succ fun _ => Nat.le_add_right ..

theorem daysBeforeMonth_le : daysBeforeMonth year month ≤ yearLength year := by
  rw [← daysBeforeMonth_year (Nat.le_add_left 13 month)]
  exact daysBeforeMonth_mono (Nat.le_add_right month 13)

theorem yearLength_le : yearLength year ≤ 366 := by
  rw [yearLength]
  split <;> decide

theorem yearLength_ge : 365 ≤ yearLength year := by
  rw [yearLength]
  split <;> decide

/-! ## Moments -/

namespace Date

theorem number_bounds (date : Date) (era : 1 ≤ date.year) :
    daysBeforeYear date.year < date.number ∧ date.number ≤ daysBeforeYear (date.year + 1) := by
  have within : daysBeforeMonth date.year (date.month + 1) ≤ yearLength date.year := daysBeforeMonth_le
  have bounds := date.inMonth
  rw [daysBeforeMonth] at within
  rw [daysBeforeYear_succ era, number]
  omega

/-- Every day has one date. -/
theorem number_inj {date other : Date} (era : 1 ≤ date.year) (era' : 1 ≤ other.year)
    (same : date.number = other.number) : date = other := by
  have bounds := date.number_bounds era
  have bounds' := other.number_bounds era'
  have sameYear : date.year = other.year := by
    rcases Nat.lt_trichotomy date.year other.year with before | same | after
    · have later : daysBeforeYear (date.year + 1) ≤ _ := daysBeforeYear_mono before
      omega
    · exact same
    · have later : daysBeforeYear (other.year + 1) ≤ _ := daysBeforeYear_mono after
      omega
  obtain ⟨year, month, day, inYear, inMonth⟩ := date
  obtain ⟨year', month', day', inYear', inMonth'⟩ := other
  obtain rfl : year = year' := sameYear
  simp only [number] at same
  have sameMonth : month = month' := by
    rcases Nat.lt_trichotomy month month' with before | same | after
    · have later : daysBeforeMonth year (month + 1) ≤ _ := daysBeforeMonth_mono before
      rw [daysBeforeMonth] at later
      omega
    · exact same
    · have later : daysBeforeMonth year (month' + 1) ≤ _ := daysBeforeMonth_mono after
      rw [daysBeforeMonth] at later
      omega
  subst sameMonth
  obtain rfl : day = day' := by omega
  rfl

end Date

structure Moment where
  date : Date
  hour : Nat
  min : Nat
  sec : Nat
  era : 1 ≤ date.year
  inDay : hour < 24
  inHour : min < 60
  inMin : sec < 60

namespace Moment

/-- The seconds of all days before and of the day itself; day 1 is the first. -/
def stamp (m : Moment) : Nat := m.date.number * 86400 + m.hour * 3600 + m.min * 60 + m.sec

theorem stamp_injective : Function.Injective stamp := by
  intro m other same
  obtain ⟨date, hour, min, sec, era, inDay, inHour, inMin⟩ := m
  obtain ⟨date', hour', min', sec', era', inDay', inHour', inMin'⟩ := other
  simp only [stamp] at same
  obtain rfl := Date.number_inj era era' (by omega)
  obtain ⟨rfl, rfl, rfl⟩ : hour = hour' ∧ min = min' ∧ sec = sec' := by omega
  rfl

end Moment

end HanOS.Foundations
