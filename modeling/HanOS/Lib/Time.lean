import HanOS.Core.Cmos
import HanOS.Fs.Vfs

/-!
# Broken-down time (`lib/time.c`)

`localtime` finds the year, the month, the day and the hour of a time by four nested loops, each of
which goes on with what the one around it has left.  Times from 2100 on are found in no year, and
`tm` stays as it is.
-/

namespace HanOS.Lib

open HanOS.Core HanOS.Foundations HanOS.Fs

def yearIsLeap (year : Nat) : Bool := year % 4 = 0 ∧ (year % 100 ≠ 0 ∨ year % 400 = 0)

def dayOfWeek (seconds : Nat) : Nat := (seconds / 86400 + 4) % 7

def daysInMonth (month year : Nat) : Nat :=
  match month with
  | 12 => 31
  | 11 => 30
  | 10 => 31
  | 9 => 30
  | 8 => 31
  | 7 => 31
  | 6 => 30
  | 5 => 31
  | 4 => 30
  | 3 => 31
  | 2 => if yearIsLeap year then 29 else 28
  | 1 => 31
  | _ => 0

/-- `localtime`; where a loop finds nothing, the fields that are not set yet stay as they are. -/
def localtime (t : Nat) (tm : Tm) : Tm :=
  seekThen t (fun year => (if yearIsLeap year then 366 else 365) * 86400)
    (List.range' 1970 (2100 - 1970)) 0 tm fun year yearSec =>
  let tm := { tm with year := year - 1900 }
  seekThen t (fun month => daysInMonth month year * 86400) (List.range' 1 12) yearSec tm
    fun month seconds =>
  let tm := { tm with mon := month - 1 }
  seekThen t (fun _ => 60 * 60 * 24) (List.range' 1 (daysInMonth month year)) seconds tm
    fun day seconds =>
  let tm := { tm with mday := day }
  seekThen t (fun _ => 60 * 60) (List.range' 1 24) seconds tm fun hour seconds =>
  let remaining := t - seconds
  { tm with
    hour := hour - 1
    min := (remaining / 60 : Nat)
    sec := (remaining % 60 : Nat)
    wday := dayOfWeek t
    yday := ((t - yearSec) / 86400 : Nat)
    isdst := 0 }

/-- `mktime`, with a bound on the passes of the loops it calls. -/
def mktime (fuel : Nat) (tm : Tm) : Option Nat := do
  let years ← secsOfYears fuel (toU64 (tm.year + 1900))
  let months ← secsOfMonth fuel (toU64 tm.mon) (toU64 (tm.year + 1900))
  return u64 (years + months + toU64 ((tm.mday - 1) * 86400) + toU64 (tm.hour * 3600) +
    toU64 (tm.min * 60) + toU64 tm.sec)

/-! ## The date that is found -/

theorem yearIsLeap_iff {year : Nat} : yearIsLeap year ↔ IsLeap year := by
  simp [yearIsLeap, IsLeap]

theorem daysInMonth_eq (month year : Nat) : daysInMonth month year = monthLength year month := by
  unfold daysInMonth monthLength
  simp only [yearIsLeap_iff]
  split <;> first | rfl | (split <;> first | rfl | contradiction)

def yearStart (year : Nat) : Nat := (daysBeforeYear year - daysBeforeYear 1970) * 86400

def localtimeEnd : Nat := 4102444800

theorem yearStart_succ {year : Nat} (epoch : 1970 ≤ year) :
    yearStart (year + 1) = yearStart year + yearLength year * 86400 := by
  have next := @daysBeforeYear_succ year (by omega)
  have later := daysBeforeYear_mono epoch
  rw [yearStart, yearStart, next]
  omega

theorem yearStart_end : yearStart 2100 = localtimeEnd := by
  simp [yearStart, daysBeforeYear, localtimeEnd]

/-- A time and the fields `localtime` makes of it. -/
structure IsTime (t : Nat) (tm : Tm) (date : Date) : Prop where
  year : tm.year + 1900 = date.year
  mon : tm.mon + 1 = date.month
  mday : tm.mday = date.day
  hour : 0 ≤ tm.hour ∧ tm.hour < 24
  min : 0 ≤ tm.min ∧ tm.min < 60
  sec : 0 ≤ tm.sec ∧ tm.sec < 60
  wday : tm.wday = date.weekday
  yday : tm.yday = date.yearDay
  isdst : tm.isdst = 0
  secs : (yearStart date.year + date.yearDay * 86400 : Nat) + tm.hour * 3600 + tm.min * 60 + tm.sec = t
  range : 1970 ≤ date.year ∧ date.year < 2100

theorem yearStart_mono : Monotone yearStart := fun _ _ le =>
  Nat.mul_le_mul_right _ (Nat.sub_le_sub_right (daysBeforeYear_mono le) _)

theorem yearStart_epoch : yearStart 1970 = 0 := by rw [yearStart, Nat.sub_self, Nat.zero_mul]

/-- The years in `localtime` follow one another. -/
theorem yearStart_step (k : Nat) :
    yearStart (1970 + (k + 1)) =
      yearStart (1970 + k) + (if yearIsLeap (1970 + k) then 366 else 365) * 86400 := by
  rw [← Nat.add_assoc, yearStart_succ (Nat.le_add_right ..), yearLength]
  simp only [yearIsLeap_iff]

theorem seek_year {t : Nat} (inRange : t < localtimeEnd) :
    ∃ year, 1970 ≤ year ∧ year < 2100 ∧
      seek t (fun year => (if yearIsLeap year then 366 else 365) * 86400)
        (List.range' 1970 (2100 - 1970)) 0 = some (year, yearStart year) ∧
      yearStart year ≤ t ∧ t < yearStart year + yearLength year * 86400 := by
  have epoch : yearStart (1970 + 0) = 0 := yearStart_epoch
  have last : yearStart (1970 + (2100 - 1970)) = localtimeEnd := yearStart_end
  obtain ⟨k, below, found, low, high⟩ := @seek_range'
    (fun year => (if yearIsLeap year then 366 else 365) * 86400) t (fun k => yearStart (1970 + k)) 1970
    (2100 - 1970) (fun k _ => yearStart_step k) (epoch.trans_le (Nat.zero_le t))
    (inRange.trans_eq last.symm)
  rw [epoch] at found
  refine ⟨1970 + k, Nat.le_add_right .., by omega, found, low, ?_⟩
  rw [← yearStart_succ (Nat.le_add_right ..)]
  exact high

theorem seek_month {t year : Nat} (low : yearStart year ≤ t)
    (high : t < yearStart year + yearLength year * 86400) :
    ∃ m < 12,
      seek t (fun month => daysInMonth month year * 86400) (List.range' 1 12) (yearStart year) =
        some (1 + m, yearStart year + daysBeforeMonth year (m + 1) * 86400) ∧
      yearStart year + daysBeforeMonth year (m + 1) * 86400 ≤ t ∧
      t < yearStart year + daysBeforeMonth year (m + 1) * 86400 + daysInMonth (1 + m) year * 86400 := by
  have none : daysBeforeMonth year (0 + 1) = 0 := rfl
  have start : yearStart year + daysBeforeMonth year (0 + 1) * 86400 = yearStart year := by
    rw [none, Nat.zero_mul, Nat.add_zero]
  have all : daysBeforeMonth year (12 + 1) = yearLength year := daysBeforeMonth_year le_rfl
  obtain ⟨m, inYear, found, lower, upper⟩ := @seek_range'
    (fun month => daysInMonth month year * 86400) t
    (fun k => yearStart year + daysBeforeMonth year (k + 1) * 86400) 1 12
    (fun k _ => by
      rw [daysInMonth_eq, daysBeforeMonth, Nat.add_mul, Nat.add_assoc, Nat.add_comm 1 k])
    (start.trans_le low)
    (by rwa [all])
  rw [start] at found
  refine ⟨m, inYear, found, lower, ?_⟩
  rw [daysInMonth_eq, Nat.add_assoc, ← Nat.add_mul, Nat.add_comm 1 m]
  exact upper

theorem seek_equal {t start length n : Nat} (low : start ≤ t) (high : t < start + n * length) :
    ∃ k < n, seek t (fun _ => length) (List.range' 1 n) start = some (1 + k, start + k * length) ∧
      start + k * length ≤ t ∧ t < start + k * length + length := by
  obtain ⟨k, below, found, lower, upper⟩ := @seek_range' (fun _ => length) t
    (fun k => start + k * length) 1 n (fun k _ => by rw [Nat.succ_mul, Nat.add_assoc])
    (by rwa [Nat.zero_mul]) high
  rw [Nat.zero_mul] at found
  rw [Nat.succ_mul, ← Nat.add_assoc] at upper
  exact ⟨k, below, found, lower, upper⟩

theorem localtime_of_found {t year yearSec month monthSec day daySec hour hourSec : Nat} (tm : Tm)
    (foundYear : seek t (fun year => (if yearIsLeap year then 366 else 365) * 86400)
      (List.range' 1970 (2100 - 1970)) 0 = some (year, yearSec))
    (foundMonth : seek t (fun month => daysInMonth month year * 86400) (List.range' 1 12) yearSec =
      some (month, monthSec))
    (foundDay : seek t (fun _ => 60 * 60 * 24) (List.range' 1 (daysInMonth month year)) monthSec =
      some (day, daySec))
    (foundHour : seek t (fun _ => 60 * 60) (List.range' 1 24) daySec = some (hour, hourSec)) :
    localtime t tm = {
      sec := ((t - hourSec) % 60 : Nat)
      min := ((t - hourSec) / 60 : Nat)
      hour := (hour : Int) - 1
      mday := day
      mon := (month : Int) - 1
      year := (year : Int) - 1900
      wday := dayOfWeek t
      yday := ((t - yearSec) / 86400 : Nat)
      isdst := 0 } := by
  rw [localtime, seekThen_some foundYear, seekThen_some foundMonth, seekThen_some foundDay,
    seekThen_some foundHour]

theorem localtime_isTime {t : Nat} (inRange : t < localtimeEnd) (tm : Tm) :
    ∃ date, IsTime t (localtime t tm) date := by
  obtain ⟨year, epoch, last, foundYear, yearLow, yearHigh⟩ := seek_year inRange
  obtain ⟨m, inYear, foundMonth, monthLow, monthHigh⟩ := seek_month yearLow yearHigh
  obtain ⟨d, inMonth, foundDay, dayLow, dayHigh⟩ := seek_equal monthLow monthHigh
  obtain ⟨h, inDay, foundHour, hourLow, hourHigh⟩ := @seek_equal t _ 3600 24 dayLow dayHigh
  rw [localtime_of_found tm foundYear foundMonth foundDay foundHour]
  rw [daysInMonth_eq, Nat.add_comm 1 m] at inMonth
  clear foundYear foundMonth foundDay foundHour monthHigh yearHigh dayHigh
  have start : yearStart year = (daysBeforeYear year - daysBeforeYear 1970) * 86400 := rfl
  have first := daysBeforeYear_mono epoch
  have epochDays : daysBeforeYear 1970 = 719162 := by
    simp only [daysBeforeYear, Nat.reduceSub, Nat.reduceMul, Nat.reduceDiv, Nat.reduceAdd]
  rw [epochDays] at start first
  refine ⟨⟨year, m + 1, d + 1, by omega, by omega⟩, ?_⟩
  generalize before : daysBeforeMonth year (m + 1) = monthDays at *
  have yearDay : (t - yearStart year) / 86400 = monthDays + d := by omega
  have day : t / 86400 = daysBeforeYear year - 719162 + monthDays + d := by omega
  exact {
    year := Int.sub_add_cancel ..
    mon := by rw [Int.sub_add_cancel, Nat.add_comm]
    mday := congrArg _ (Nat.add_comm ..)
    hour := by dsimp only; omega
    min := by dsimp only; omega
    sec := by dsimp only; omega
    wday := by
      rw [dayOfWeek, day, Date.weekday, Date.number, before]
      dsimp only
      omega
    yday := by
      rw [yearDay, Date.yearDay, before]
      rfl
    isdst := rfl
    secs := by
      rw [Date.yearDay, before]
      dsimp only
      omega
    range := ⟨epoch, last⟩ }

theorem localtime_assigns {t : Nat} (inRange : t < localtimeEnd) (tm other : Tm) :
    localtime t tm = localtime t other := by
  obtain ⟨year, _, _, foundYear, yearLow, yearHigh⟩ := seek_year inRange
  obtain ⟨m, _, foundMonth, monthLow, monthHigh⟩ := seek_month yearLow yearHigh
  obtain ⟨d, _, foundDay, dayLow, dayHigh⟩ := seek_equal monthLow monthHigh
  obtain ⟨h, _, foundHour, _, _⟩ := @seek_equal t _ 3600 24 dayLow dayHigh
  rw [localtime_of_found tm foundYear foundMonth foundDay foundHour,
    localtime_of_found other foundYear foundMonth foundDay foundHour]

/-- From 2100 on nothing is assigned. -/
theorem localtime_late {t : Nat} (late : localtimeEnd ≤ t) (tm : Tm) : localtime t tm = tm := by
  have epoch : yearStart (1970 + 0) = 0 := yearStart_epoch
  have last : yearStart (1970 + (2100 - 1970)) = localtimeEnd := yearStart_end
  have missing := @seek_none (fun year => (if yearIsLeap year then 366 else 365) * 86400) t
    (fun k => yearStart (1970 + k)) 1970 (2100 - 1970) (fun k _ => yearStart_step k)
    (last.trans_le late)
  rw [epoch] at missing
  exact seekThen_none missing

/-! ## The way back -/

structure Shows (rtc : CmosRtc) (tm : Tm) : Prop where
  year : rtc.year.toNat = tm.year + 1900
  month : rtc.month.toNat = tm.mon + 1
  day : rtc.day.toNat = tm.mday
  hours : rtc.hours.toNat = tm.hour
  minutes : rtc.minutes.toNat = tm.min
  seconds : rtc.seconds.toNat = tm.sec

section Back

variable {t fuel more : Nat} {tm : Tm} {date : Date}

/-- The years before a date and the months before it, in seconds. -/
theorem secsOfYears_date (range : 1970 ≤ date.year ∧ date.year < 2100) (enough : 131 ≤ fuel) :
    secsOfYears fuel (toU64 ((date.year : Int) - 1)) = some (yearStart date.year) := by
  obtain ⟨before, next⟩ : ∃ n, date.year = n + 1 := ⟨date.year - 1, by omega⟩
  rw [next, Nat.cast_succ, Int.add_sub_cancel, toU64_natCast (by omega)]
  exact secsOfYears_eq (by omega) (by omega) (by omega)

theorem secsOfMonth_date (enough : 131 ≤ fuel) :
    secsOfMonth fuel (toU64 ((date.month : Int) - 1)) date.year =
      some (daysBeforeMonth date.year date.month * 86400) := by
  obtain ⟨first, december⟩ := date.inYear
  obtain ⟨before, next⟩ : ∃ n, date.month = n + 1 := ⟨date.month - 1, by omega⟩
  rw [next, Nat.cast_succ, Int.add_sub_cancel, toU64_natCast (by omega)]
  exact secsOfMonth_eq (by omega) (by omega)

theorem IsTime.secs_date (time : IsTime t tm date) :
    (yearStart date.year + daysBeforeMonth date.year date.month * 86400 : Nat) +
      (tm.mday - 1) * 86400 + tm.hour * 3600 + tm.min * 60 + tm.sec = t := by
  have secs := time.secs
  have day := time.mday
  have positive := date.inMonth.1
  rw [Date.yearDay] at secs
  omega

theorem cmosCurrentTime_eq {rtc : CmosRtc} (time : IsTime t tm date) (shown : Shows rtc tm)
    (small : t < 2 ^ 64) : cmosCurrentTime 131 rtc = some t := by
  have total := time.secs_date
  rw [← shown.hours, ← shown.minutes, ← shown.seconds, time.mday] at total
  have first := date.inMonth.1
  have year : rtc.year.toNat = date.year := by exact_mod_cast shown.year.trans time.year
  have month : rtc.month.toNat = date.month := by exact_mod_cast shown.month.trans time.mon
  have day : rtc.day.toNat = date.day := by exact_mod_cast shown.day.trans time.mday
  have days : toU64 (((date.day : Int) - 1) * 86400) = (date.day - 1) * 86400 := by
    rw [show ((date.day : Int) - 1) * 86400 = ((date.day - 1) * 86400 : Nat) by omega]
    exact toU64_natCast (by omega)
  rw [cmosCurrentTime, year, month, day, secsOfYears_date time.range (Nat.le_refl 131),
    secsOfMonth_date (Nat.le_refl 131), days]
  exact congrArg some (by rw [u64_of_lt] <;> omega)

theorem mktime_mono {secs : Nat} (ended : mktime fuel tm = some secs) (le : fuel ≤ more) :
    mktime more tm = some secs := by
  simp only [mktime, Option.bind_eq_bind, Option.bind_eq_some_iff] at ended ⊢
  obtain ⟨years, first, months, second, result⟩ := ended
  exact ⟨years, secsOfYears_mono first le, months, secsOfMonth_mono second le, result⟩

theorem IsTime.clock (time : IsTime t tm date) :
    ∃ hour min sec : Nat, (tm.hour = hour ∧ tm.min = min ∧ tm.sec = sec) ∧
      yearStart date.year + daysBeforeMonth date.year date.month * 86400 + (date.day - 1) * 86400 +
        hour * 3600 + min * 60 + sec = t := by
  have total := time.secs_date
  rw [time.mday] at total
  have positive := date.inMonth.1
  obtain ⟨hour, hourIs⟩ := Int.eq_ofNat_of_zero_le time.hour.1
  obtain ⟨min, minIs⟩ := Int.eq_ofNat_of_zero_le time.min.1
  obtain ⟨sec, secIs⟩ := Int.eq_ofNat_of_zero_le time.sec.1
  refine ⟨hour, min, sec, ⟨hourIs, minIs, secIs⟩, ?_⟩
  rw [hourIs, minIs, secIs] at total
  omega

/-- The moment of a broken-down time. -/
theorem IsTime.moment (time : IsTime t tm date) :
    ∃ m : Moment, m.date = date ∧ (m.hour : Int) = tm.hour ∧ (m.min : Int) = tm.min ∧
      (m.sec : Int) = tm.sec ∧ t + 719163 * 86400 = m.stamp := by
  obtain ⟨hour, min, sec, ⟨hourIs, minIs, secIs⟩, total⟩ := time.clock
  have range := time.range
  have first := date.inMonth.1
  have ofHour := time.hour
  have ofMin := time.min
  have ofSec := time.sec
  have epoch : daysBeforeYear 1970 = 719162 := by
    simp only [daysBeforeYear, Nat.reduceSub, Nat.reduceMul, Nat.reduceDiv, Nat.reduceAdd]
  have later := @daysBeforeYear_mono 1970 date.year range.1
  refine ⟨⟨date, hour, min, sec, by omega, by omega, by omega, by omega⟩, rfl, hourIs.symm, minIs.symm,
    secIs.symm, ?_⟩
  rw [epoch] at later
  rw [yearStart, epoch] at total
  rw [Moment.stamp, Date.number]
  dsimp only
  omega

/-- `secs_of_years` takes the years that are over, and `mktime` gives it the year itself. -/
theorem mktime_eq (time : IsTime t tm date) (inRange : t < localtimeEnd) :
    mktime 131 tm = some (t + yearLength date.year * 86400) := by
  have range := time.range
  have years : secsOfYears 131 (toU64 (tm.year + 1900)) = some (yearStart (date.year + 1)) := by
    rw [time.year, toU64_natCast (by omega)]
    exact secsOfYears_eq (by omega) (by omega) (by omega)
  have months := @secsOfMonth_date 131 date (Nat.le_refl 131)
  rw [← time.mon, Int.add_sub_cancel] at months
  have year : toU64 (tm.year + 1900) = date.year := toU64_eq time.year (by omega)
  obtain ⟨hour, min, sec, ⟨hourIs, minIs, secIs⟩, total⟩ := time.clock
  have mday := time.mday
  have first := date.inMonth.1
  have length : date.day ≤ 31 := date.inMonth.2.trans monthLength_le
  have yearDays : yearLength date.year ≤ 366 := yearLength_le
  rw [localtimeEnd] at inRange
  rw [mktime, years, year, months, hourIs, minIs, secIs]
  clear years months year hourIs minIs secIs range
  have days : toU64 ((tm.mday - 1) * 86400) = (date.day - 1) * 86400 :=
    toU64_eq (by omega) (by omega)
  have hours : toU64 (hour * 3600) = hour * 3600 := toU64_eq (by omega) (by omega)
  have mins : toU64 (min * 60) = min * 60 := toU64_eq (by omega) (by omega)
  have secs : toU64 sec = sec := toU64_eq rfl (by omega)
  rw [days, hours, mins, secs, yearStart_succ time.range.1]
  exact congrArg some (by rw [u64_of_lt] <;> omega)

end Back

/-- `localtime` inverts the conversion of a date to seconds. -/
theorem localtime_inverse {t : Nat} (inRange : t < 4102444800) (tm : Tm) :
    ∃ date, IsTime t (localtime t tm) date ∧
      (∃ fuel years months,
        secsOfYears fuel (toU64 ((localtime t tm).year + 1900 - 1)) = some years ∧
        secsOfMonth fuel (toU64 ((localtime t tm).mon + 1 - 1))
          (toU64 ((localtime t tm).year + 1900)) = some months ∧
        (years + months : Nat) + ((localtime t tm).mday - 1) * 86400 + (localtime t tm).hour * 3600 +
          (localtime t tm).min * 60 + (localtime t tm).sec = t) ∧
      ∀ rtc, Shows rtc (localtime t tm) → ∃ fuel, cmosCurrentTime fuel rtc = some t := by
  obtain ⟨date, time⟩ := localtime_isTime inRange tm
  have years := secsOfYears_date time.range (Nat.le_refl 131)
  have months := @secsOfMonth_date 131 date (Nat.le_refl 131)
  refine ⟨date, time, ⟨131, _, _, ?_, ?_, time.secs_date⟩, fun rtc shown => ⟨131, ?_⟩⟩
  · rwa [time.year]
  · rwa [time.mon, time.year, toU64_natCast (by have := time.range; omega)]
  · exact cmosCurrentTime_eq time shown (by omega)

theorem localtime_inverse_leapDay :
    ∃ date, IsTime 951782400 (localtime 951782400 Tm.zero) date ∧
      (∃ fuel years months,
        secsOfYears fuel (toU64 ((localtime 951782400 Tm.zero).year + 1900 - 1)) = some years ∧
        secsOfMonth fuel (toU64 ((localtime 951782400 Tm.zero).mon + 1 - 1))
          (toU64 ((localtime 951782400 Tm.zero).year + 1900)) = some months ∧
        (years + months : Nat) + ((localtime 951782400 Tm.zero).mday - 1) * 86400 +
          (localtime 951782400 Tm.zero).hour * 3600 + (localtime 951782400 Tm.zero).min * 60 +
          (localtime 951782400 Tm.zero).sec = (951782400 : Nat)) ∧
      ∀ rtc, Shows rtc (localtime 951782400 Tm.zero) →
        ∃ fuel, cmosCurrentTime fuel rtc = some 951782400 :=
  localtime_inverse (by decide) Tm.zero

/-- `mktime` is late by the length of the year. -/
theorem mktime_localtime {t : Nat} (inRange : t < 4102444800) (tm : Tm) :
    ∃ date, IsTime t (localtime t tm) date ∧
      ∃ fuel, mktime fuel (localtime t tm) = some (t + yearLength date.year * 86400) := by
  obtain ⟨date, time⟩ := localtime_isTime inRange tm
  exact ⟨date, time, 131, mktime_eq time inRange⟩

theorem mktime_localtime_ne {t : Nat} (inRange : t < 4102444800) (tm : Tm) :
    ¬ ∃ fuel, mktime fuel (localtime t tm) = some t := by
  rintro ⟨fuel, back⟩
  obtain ⟨date, _, enough, late⟩ := mktime_localtime inRange tm
  have same := (mktime_mono back (Nat.le_max_left fuel enough)).symm.trans
    (mktime_mono late (Nat.le_max_right fuel enough))
  have positive : 365 ≤ yearLength date.year := yearLength_ge
  have equal := Option.some.inj same
  omega

theorem mktime_localtime_ne_leapDay :
    ¬ ∃ fuel, mktime fuel (localtime 951782400 Tm.zero) = some 951782400 :=
  mktime_localtime_ne (by decide) Tm.zero

/-- The epoch comes back as the first of January of 1971. -/
theorem mktime_epoch :
    mktime 2 (localtime 0 Tm.zero) = some 31536000 ∧
      ¬ ∃ fuel, mktime fuel (localtime 0 Tm.zero) = some 0 := by
  have late : mktime 2 (localtime 0 Tm.zero) = some 31536000 := by decide
  refine ⟨late, ?_⟩
  rintro ⟨fuel, back⟩
  cases (mktime_mono back (Nat.le_max_left fuel 2)).symm.trans
    (mktime_mono late (Nat.le_max_right fuel 2))

end HanOS.Lib
