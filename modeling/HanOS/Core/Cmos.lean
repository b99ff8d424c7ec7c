import HanOS.Foundations.Calendar
import HanOS.Foundations.Loop
import HanOS.Lib.Klib

/-!
# The real time clock (`core/cmos.c`)

`secs_of_years` and `secs_of_month` turn a date into seconds since 1970, by loops over the years and
months that are over.  `fuel` bounds the passes of such a loop, and `none` is a loop that goes on.
-/

namespace HanOS.Core

open HanOS.Foundations HanOS.Lib

/-- The conversion of an `int` to `uint64_t`. -/
def toU64 (n : Int) : Nat := (n % 2 ^ 64).toNat

/-- A pass of `secs_of_years`, on `years` and `days`. -/
def countYear (s : Nat × Nat) : Nat × Nat :=
  let (years, days) := s
  let days := u64 (days + 365)
  let days :=
    if years % 4 = 0 then
      if years % 100 = 0 then
        if years % 400 = 0 then u64 (days + 1) else days
      else u64 (days + 1)
    else days
  (years - 1, days)

def secsOfYears (fuel years : Nat) : Option Nat :=
  (whileLoop (fun s => s.1 > 1969) countYear fuel (years, 0)).map fun s => u64 (s.2 * 86400)

def countMonth (year : Nat) (s : Nat × Nat) : Nat × Nat :=
  let (i, days) := s
  let days :=
    match i with
    | 12 | 10 | 8 | 7 | 5 | 3 | 1 => u64 (days + 31)
    | 11 | 9 | 6 | 4 => u64 (days + 30)
    | 2 =>
      let days := u64 (days + 28)
      if year % 4 = 0 ∧ (year % 100 ≠ 0 ∨ year % 400 = 0) then u64 (days + 1) else days
    | _ => days
  (u64 (i + 1), days)

def secsOfMonth (fuel months year : Nat) : Option Nat :=
  (whileLoop (fun s => s.1 ≤ months) (countMonth year) fuel (1, 0)).map fun s => u64 (s.2 * 86400)

/-- `cmos_rtc_t`, without the weekday and the century. -/
structure CmosRtc where
  seconds : UInt8
  minutes : UInt8
  hours : UInt8
  day : UInt8
  month : UInt8
  year : UInt16
  deriving DecidableEq, Repr

/-- `cmos_current_time`, and the boot time of `cmos_init`, for what `cmos_read_rtc` has read. -/
def cmosCurrentTime (fuel : Nat) (rtc : CmosRtc) : Option Nat := do
  let years ← secsOfYears fuel (toU64 (rtc.year.toNat - 1))
  let months ← secsOfMonth fuel (toU64 (rtc.month.toNat - 1)) rtc.year.toNat
  return u64 (years + months + toU64 ((rtc.day.toNat - 1) * 86400) + rtc.hours.toNat * 3600 +
    rtc.minutes.toNat * 60 + rtc.seconds.toNat)

/-! ## The loops count the days of the calendar -/

variable {fuel years months year days i : Nat}

theorem toU64_eq {n : Int} (eq : n = i) (small : i < 2 ^ 64) : toU64 n = i := by
  rw [toU64]
  omega

theorem toU64_natCast (small : i < 2 ^ 64) : toU64 i = i := toU64_eq rfl small

theorem countYear_eq (small : days + 366 < 2 ^ 64) :
    countYear (year, days) = (year - 1, days + yearLength year) := by
  have first : u64 (days + 365) = days + 365 := u64_of_lt (by omega)
  have second : u64 (days + 365 + 1) = days + 366 := u64_of_lt (by omega)
  rw [countYear, yearLength, first, second]
  simp only [IsLeap]
  by_cases fourth : year % 4 = 0 <;> by_cases hundredth : year % 100 = 0 <;>
    by_cases cycle : year % 400 = 0 <;> simp [fourth, hundredth, cycle]

theorem countMonth_eq (small : days + 31 < 2 ^ 64) (next : i + 1 < 2 ^ 64) :
    countMonth year (i, days) = (i + 1, days + monthLength year i) := by
  have add : ∀ n ≤ 31, u64 (days + n) = days + n := fun n le => u64_of_lt (by omega)
  have leapDay : u64 (days + 28 + 1) = days + 29 := add 29 (by omega)
  unfold countMonth monthLength
  simp only [u64_of_lt next, IsLeap, add 31 le_rfl, add 30 (by omega), leapDay, add 28 (by omega)]
  congr 1
  split
  case h_13 => split <;> first | rfl | contradiction
  case h_12 => exact (apply_ite (days + ·) _ 29 28).symm
  all_goals rfl

theorem secsOfYears_mono {secs more : Nat} (ended : secsOfYears fuel years = some secs)
    (le : fuel ≤ more) : secsOfYears more years = some secs := by
  obtain ⟨final, loop, rfl⟩ := Option.map_eq_some_iff.mp ended
  exact congrArg (Option.map _) (whileLoop_mono loop le)

theorem secsOfMonth_mono {secs more : Nat} (ended : secsOfMonth fuel months year = some secs)
    (le : fuel ≤ more) : secsOfMonth more months year = some secs := by
  obtain ⟨final, loop, rfl⟩ := Option.map_eq_some_iff.mp ended
  exact congrArg (Option.map _) (whileLoop_mono loop le)

theorem secsOfYears_eq (epoch : 1969 ≤ years) (small : years < 2 ^ 32) (enough : years - 1969 ≤ fuel) :
    secsOfYears fuel years =
      some ((daysBeforeYear (years + 1) - daysBeforeYear 1970) * 86400) := by
  have bound : daysBeforeYear (years + 1) < 2 ^ 41 := by
    rw [daysBeforeYear]
    omega
  have grows : ∀ year ≤ years + 1, daysBeforeYear year ≤ daysBeforeYear (years + 1) :=
    fun year le => daysBeforeYear_mono le
  have loop := @whileLoop_trace _ (fun s : Nat × Nat => s.1 > 1969) _ countYear fuel
    (fun k => (years - k, daysBeforeYear (years + 1) - daysBeforeYear (years + 1 - k))) (years - 1969)
    (fun k below => by simp only; omega)
    (fun k below => by
      -- the pass counts the days of the year `years - k`
      have last := @daysBeforeYear_succ (years - k) (by omega)
      have less := grows (years - k + 1) (by omega)
      rw [countYear_eq (by omega), show years + 1 - k = years - k + 1 by omega,
        show years + 1 - (k + 1) = years - k by omega, Nat.sub_sub, Prod.mk.injEq]
      exact ⟨rfl, by omega⟩)
    (by simp only; omega) enough
  rw [Nat.sub_zero, Nat.sub_zero, Nat.sub_self, show years + 1 - (years - 1969) = 1970 by omega] at loop
  rw [secsOfYears, loop, Option.map_some, u64_of_lt (by omega)]

theorem secsOfMonth_eq (small : months < 2 ^ 32) (enough : months ≤ fuel) :
    secsOfMonth fuel months year = some (daysBeforeMonth year (months + 1) * 86400) := by
  have bound : ∀ month, daysBeforeMonth year month ≤ 31 * month := by
    intro month
    induction month with
    | zero => exact le_rfl
    | succ month inductionHypothesis =>
      have length := @monthLength_le year month
      rw [daysBeforeMonth]
      omega
  have loop := @whileLoop_trace _ (fun s : Nat × Nat => s.1 ≤ months) _ (countMonth year) fuel
    (fun k => (k + 1, daysBeforeMonth year (k + 1))) months
    (fun k below => by simp only; omega)
    (fun k below => by
      have few := bound (k + 1)
      exact countMonth_eq (by omega) (by omega))
    (by simp only; omega) enough
  have total := bound (months + 1)
  exact (congrArg (Option.map _) loop).trans (by rw [Option.map_some, u64_of_lt (by omega)])

/-- The loop over the months does not end for the largest `uint64_t`. -/
theorem secsOfMonth_forever : secsOfMonth fuel (2 ^ 64 - 1) year = none := by
  have loop := @whileLoop_forever _ (fun s : Nat × Nat => s.1 ≤ 2 ^ 64 - 1) _ (countMonth year) fuel
    (1, 0) (fun s => s.1 < 2 ^ 64) (fun s below => by omega)
    (fun s _ => by
      obtain ⟨i, days⟩ := s
      exact Nat.mod_lt _ (by omega)) (by omega)
  rw [secsOfMonth, loop, Option.map_none]

end HanOS.Core
