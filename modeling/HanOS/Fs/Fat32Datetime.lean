import HanOS.Fs.Fat32Names
import HanOS.Lib.Time

/-!
# Modification times (`fs/fat32.h`)

`fat32_get_datetime` makes a `tm_t` of the sixteen-bit `modify_date` and `modify_time` of an entry,
whatever they are.  The months of a year are counted up to `month - 1`, which is negative if there is
no month, and `localtime` knows no year from 2100 on.
-/

namespace HanOS.Fs

open HanOS.Core HanOS.Foundations HanOS.Lib

namespace FatDirEntry

variable (de : FatDirEntry)

def modifyTime : Nat := (de 22).toNat + 256 * (de 23).toNat

def modifyDate : Nat := (de 24).toNat + 256 * (de 25).toNat

def year : Nat := ((de.modifyDate &&& 0xFE00) >>> 9) + 1980

def month : Nat := (de.modifyDate &&& 0x01E0) >>> 5

def day : Nat := de.modifyDate &&& 0x001F

def hour : Nat := (de.modifyTime &&& 0xF800) >>> 11

def min : Nat := (de.modifyTime &&& 0x07E0) >>> 5

def sec : Nat := (de.modifyTime &&& 0x001F) * 2

end FatDirEntry

def fat32CreateTime (fuel : Nat) (de : FatDirEntry) : Option Nat := do
  let years ← secsOfYears fuel (toU64 (de.year - 1))
  let months ← secsOfMonth fuel (toU64 (de.month - 1)) (toU64 de.year)
  return u64 (years + months + toU64 ((de.day - 1) * 86400) + de.hour * 3600 + de.min * 60 + de.sec)

/-- `fat32_get_datetime`, with a bound on the passes of each loop of `secs_of_years` and
    `secs_of_month`. -/
def fat32GetDatetime (fuel : Nat) (de : FatDirEntry) (t : Tm) : Option Tm :=
  (fat32CreateTime fuel de).map fun createTime => localtime createTime t

/-! ## Fields of any value -/

variable {de : FatDirEntry} {fuel : Nat}

theorem field_le {word mask shift : Nat} : (word &&& mask) >>> shift ≤ mask >>> shift := by
  rw [Nat.shiftRight_eq_div_pow, Nat.shiftRight_eq_div_pow]
  exact Nat.div_le_div_right Nat.and_le_right

namespace FatDirEntry

def secondOfDay (de : FatDirEntry) : Nat := de.hour * 3600 + de.min * 60 + de.sec

theorem year_range : 1980 ≤ de.year ∧ de.year ≤ 2107 :=
  ⟨Nat.le_add_left .., Nat.add_le_add_right (field_le.trans (by decide)) 1980⟩

theorem month_le : de.month ≤ 15 := field_le.trans (by decide)

theorem day_le : de.day ≤ 31 := Nat.and_le_right

theorem secondOfDay_lt : de.secondOfDay < 172800 := by
  have hour : de.hour ≤ 31 := field_le.trans (by decide)
  have min : de.min ≤ 63 := field_le.trans (by decide)
  have sec : de.sec ≤ 62 := Nat.mul_le_mul_right 2 Nat.and_le_right
  rw [secondOfDay]
  omega

end FatDirEntry

theorem fat32CreateTime_none (missing : de.month = 0) : fat32CreateTime fuel de = none := by
  have forever : toU64 ((de.month : Int) - 1) = 2 ^ 64 - 1 := by
    rw [missing]
    rfl
  rw [fat32CreateTime, forever, secsOfMonth_forever]
  cases secsOfYears fuel (toU64 ((de.year : Int) - 1)) <;> rfl

/-- On day 0 the day before the first is meant. -/
theorem u64_day {start day rest : Nat} (early : 86400 ≤ start)
    (small : start + day * 86400 + rest < 2 ^ 64) :
    u64 (start + toU64 (((day : Int) - 1) * 86400) + rest) = start + day * 86400 + rest - 86400 := by
  rcases Nat.eq_zero_or_pos day with rfl | positive
  · rw [show toU64 (((0 : Nat) - 1) * 86400) = 2 ^ 64 - 86400 from rfl, u64]
    omega
  · have later : toU64 (((day : Int) - 1) * 86400) = day * 86400 - 86400 :=
      toU64_eq (by omega) (by omega)
    rw [later, u64_of_lt] <;> omega

/-- The month and the day go on where the year ends. -/
theorem fat32CreateTime_eq (present : de.month ≠ 0) (enough : 138 ≤ fuel) :
    fat32CreateTime fuel de =
      some (yearStart de.year + daysBeforeMonth de.year de.month * 86400 + de.day * 86400 +
        de.secondOfDay - 86400) := by
  obtain ⟨first, last⟩ := de.year_range
  have months := de.month_le
  have days := de.day_le
  have seconds := de.secondOfDay_lt
  obtain ⟨years, yearIs⟩ : ∃ n, de.year = n + 1 := ⟨de.year - 1, by omega⟩
  obtain ⟨before, monthIs⟩ : ∃ n, de.month = n + 1 := ⟨de.month - 1, by omega⟩
  have yearsOver : secsOfYears fuel (toU64 ((de.year : Int) - 1)) = some (yearStart de.year) := by
    rw [yearIs, Nat.cast_succ, Int.add_sub_cancel, toU64_natCast (by omega)]
    exact secsOfYears_eq (by omega) (by omega) (by omega)
  have monthsOver : secsOfMonth fuel (toU64 ((de.month : Int) - 1)) (toU64 de.year) =
      some (daysBeforeMonth de.year de.month * 86400) := by
    rw [monthIs, Nat.cast_succ, Int.add_sub_cancel, toU64_natCast (by omega),
      toU64_natCast (by omega)]
    exact secsOfMonth_eq (by omega) (by omega)
  have early : yearStart 1980 ≤ yearStart de.year := yearStart_mono first
  have late : yearStart de.year ≤ yearStart 2107 := yearStart_mono last
  rw [show yearStart 1980 = 315532800 by decide] at early
  rw [show yearStart 2107 = 4323283200 by decide] at late
  have yearEnd : daysBeforeMonth de.year de.month ≤ 366 := daysBeforeMonth_le.trans yearLength_le
  rw [fat32CreateTime, yearsOver, monthsOver]
  simp only [Option.bind_eq_bind, Option.bind_some, Option.pure_def, Option.some.injEq]
  rw [FatDirEntry.secondOfDay] at seconds ⊢
  rw [Nat.add_assoc _ (de.hour * 3600), Nat.add_assoc, u64_day] <;> omega

namespace FatDirEntry

/-- The time is before 2100; the month and the day may go on where the year ends. -/
def Before2100 (de : FatDirEntry) : Prop :=
  de.year < 2099 ∨
    de.year = 2099 ∧
      (de.month < 12 ∨ de.month = 12 ∧ (de.day < 31 ∨ de.secondOfDay < 86400) ∨
        de.day = 0 ∧ de.secondOfDay < 86400) ∨
    de.year = 2100 ∧ de.month = 1 ∧ de.day = 0 ∧ de.secondOfDay < 86400

instance : Decidable de.Before2100 := inferInstanceAs (Decidable (_ ∨ _))

theorem before2100_iff (present : de.month ≠ 0) :
    yearStart de.year + daysBeforeMonth de.year de.month * 86400 + de.day * 86400 +
      de.secondOfDay - 86400 < localtimeEnd ↔ de.Before2100 := by
  have months := de.month_le
  have days := de.day_le
  have seconds := de.secondOfDay_lt
  have yearEnd : daysBeforeMonth de.year de.month ≤ yearLength de.year := daysBeforeMonth_le
  have next : yearStart (de.year + 1) = _ := yearStart_succ (by have := de.year_range; omega)
  have length : 365 ≤ yearLength de.year := yearLength_ge
  rw [Before2100, localtimeEnd]
  rcases Nat.lt_trichotomy de.year 2099 with before | lastYear | beyond
  · have late : yearStart (de.year + 1) ≤ yearStart 2099 := yearStart_mono before
    rw [show yearStart 2099 = 4070908800 by decide] at late
    omega
  · rw [lastYear, show yearStart 2099 = 4070908800 by decide]
    rcases Nat.lt_trichotomy de.month 12 with before | december | beyond
    · have fewer : daysBeforeMonth 2099 de.month ≤ 304 :=
        daysBeforeMonth_mono (Nat.le_of_lt_succ before)
      omega
    · rw [december, show daysBeforeMonth 2099 12 = 334 from rfl]
      omega
    · rw [daysBeforeMonth_year beyond, show yearLength 2099 = 365 from rfl]
      omega
  · have late : yearStart 2100 ≤ yearStart de.year := yearStart_mono beyond
    rw [yearStart_end, localtimeEnd] at late
    rcases Nat.lt_trichotomy de.month 1 with none | january | beyondMonth
    · omega
    · rw [january, show daysBeforeMonth de.year 1 = 0 from rfl]
      rcases Nat.eq_or_lt_of_le beyond with first | later
      · rw [← first, yearStart_end, localtimeEnd]
        omega
      · have wholeYear : yearStart 2101 ≤ yearStart de.year := yearStart_mono later
        rw [show yearStart 2101 = 4133980800 by decide] at wholeYear
        omega
    · have more : 31 ≤ daysBeforeMonth de.year de.month := daysBeforeMonth_mono beyondMonth
      omega

end FatDirEntry

/-- Without a month the months are counted for ever; otherwise 138 passes are enough. -/
theorem fat32GetDatetime_isSome_iff (enough : 138 ≤ fuel) (tm : Tm) :
    (fat32GetDatetime fuel de tm).isSome ↔ de.month ≠ 0 := by
  rw [fat32GetDatetime, Option.isSome_map]
  by_cases missing : de.month = 0
  · rw [fat32CreateTime_none missing]
    simp [missing]
  · rw [fat32CreateTime_eq missing enough]
    simp [missing]

theorem fat32GetDatetime_forever_iff :
    (∀ fuel tm, fat32GetDatetime fuel de tm = none) ↔ de.month = 0 := by
  constructor
  · intro forever
    by_contra present
    have ended := (fat32GetDatetime_isSome_iff le_rfl Tm.zero).mpr present
    rw [forever] at ended
    cases ended
  · intro missing fuel tm
    rw [fat32GetDatetime, fat32CreateTime_none missing, Option.map_none]

/-- `fat32_get_datetime` ends within the passes that the fields allow and assigns all of the `tm_t`. -/
theorem fat32GetDatetime_iff (de : FatDirEntry) :
    (∃ result, ∀ tm, fat32GetDatetime 138 de tm = some result) ↔
      de.month ≠ 0 ∧ de.Before2100 := by
  by_cases missing : de.month = 0
  · constructor
    · rintro ⟨result, ended⟩
      cases (fat32GetDatetime_forever_iff.mpr missing 138 Tm.zero).symm.trans (ended Tm.zero)
    · rintro ⟨present, _⟩
      exact absurd missing present
  rw [← FatDirEntry.before2100_iff missing]
  have created := fat32CreateTime_eq missing (Nat.le_refl 138)
  generalize yearStart de.year + daysBeforeMonth de.year de.month * 86400 + de.day * 86400 +
    de.secondOfDay - 86400 = t at created
  have decoded : ∀ tm, fat32GetDatetime 138 de tm = some (localtime t tm) := fun tm => by
    rw [fat32GetDatetime, created, Option.map_some]
  constructor
  · rintro ⟨result, ended⟩
    refine ⟨missing, ?_⟩
    by_contra late
    -- every structure comes out as it went in
    have same : ∀ tm, tm = result := fun tm => by
      rw [← localtime_late (Nat.le_of_not_lt late) tm]
      exact Option.some.inj ((decoded tm).symm.trans (ended tm))
    cases (same Tm.zero).trans (same { Tm.zero with isdst := 1 }).symm
  · rintro ⟨_, early⟩
    exact ⟨localtime t Tm.zero, fun tm =>
      (decoded tm).trans (congrArg some (localtime_assigns early tm Tm.zero))⟩

/-- An entry that is all zeros has no month. -/
theorem fat32GetDatetime_zeros :
    (∀ fuel tm, fat32GetDatetime fuel (fun _ => 0) tm = none) ∧
      ¬ ∃ result, ∀ tm, fat32GetDatetime 138 (fun _ => 0) tm = some result := by
  have forever := fat32GetDatetime_forever_iff.mpr (show FatDirEntry.month (fun _ => 0) = 0 by decide)
  refine ⟨forever, ?_⟩
  rintro ⟨result, ended⟩
  cases (forever 138 Tm.zero).symm.trans (ended Tm.zero)

/-! ## Fields of a date -/

structure FatDirEntry.Means (de : FatDirEntry) (m : Moment) : Prop where
  year : de.year = m.date.year
  month : de.month = m.date.month
  day : de.day = m.date.day
  hour : de.hour = m.hour
  min : de.min = m.min
  sec : de.sec = m.sec

theorem FatDirEntry.Means.stamp {m : Moment} (means : de.Means m) :
    ∃ t, fat32CreateTime 138 de = some t ∧ t + 719163 * 86400 = m.stamp := by
  have inYear := m.date.inYear
  have inMonth := m.date.inMonth
  have range := de.year_range
  have epoch : daysBeforeYear 1970 = 719162 := by
    simp only [daysBeforeYear, Nat.reduceSub, Nat.reduceMul, Nat.reduceDiv, Nat.reduceAdd]
  have later := @daysBeforeYear_mono 1970 de.year (by omega)
  refine ⟨_, fat32CreateTime_eq (by rw [means.month]; omega) (Nat.le_refl 138), ?_⟩
  rw [epoch, means.year] at later
  rw [Moment.stamp, Date.number, FatDirEntry.secondOfDay, yearStart, epoch, means.year, means.month,
    means.day, means.hour, means.min, means.sec]
  omega

/-- The way of a date through the seconds since 1970 and back: `fat32_get_datetime` gives the fields of
    the entry, for every date before 2100 and every time of day. -/
theorem fat32GetDatetime_fields {m : Moment} (means : de.Means m) (range : m.date.year < 2100)
    (tm : Tm) :
    ∃ result, fat32GetDatetime 138 de tm = some result ∧
      result.year + 1900 = de.year ∧ result.mon + 1 = de.month ∧ result.mday = de.day ∧
      result.hour = de.hour ∧ result.min = de.min ∧ result.sec = de.sec ∧
      result.wday = m.date.weekday ∧ result.yday = m.date.yearDay := by
  obtain ⟨t, created, stamp⟩ := means.stamp
  have inRange : t < localtimeEnd := by
    have bounds := m.date.number_bounds m.era
    have later : daysBeforeYear (m.date.year + 1) ≤ daysBeforeYear 2100 := daysBeforeYear_mono range
    rw [show daysBeforeYear 2100 = 766644 by
      simp only [daysBeforeYear, Nat.reduceSub, Nat.reduceMul, Nat.reduceDiv, Nat.reduceAdd]] at later
    have ofHour := m.inDay
    have ofMin := m.inHour
    have ofSec := m.inMin
    rw [Moment.stamp] at stamp
    rw [localtimeEnd]
    omega
  obtain ⟨date, time⟩ := localtime_isTime inRange tm
  obtain ⟨m', rfl, hour, min, sec, stamp'⟩ := time.moment
  -- a stamp is that of one moment
  obtain rfl : m = m' := Moment.stamp_injective (stamp.symm.trans stamp')
  refine ⟨localtime t tm, by rw [fat32GetDatetime, created, Option.map_some], ?_⟩
  rw [means.year, means.month, means.day, means.hour, means.min, means.sec]
  exact ⟨time.year, time.mon, time.mday, hour.symm, min.symm, sec.symm, time.wday, time.yday⟩

/-- The last two seconds of the 29th of February of 2024. -/
def leapEntry : FatDirEntry := fun k =>
  if k = 22 then 0x7D else if k = 23 then 0xBF else if k = 24 then 0x5D else if k = 25 then 0x58 else 0

theorem fat32GetDatetime_fields_leapDay :
    ∃ result, fat32GetDatetime 138 leapEntry Tm.zero = some result ∧ result.year + 1900 = 2024 ∧
      result.mon + 1 = 2 ∧ result.mday = 29 ∧ result.hour = 23 ∧ result.min = 59 ∧ result.sec = 58 ∧
      result.wday = 4 ∧ result.yday = 59 := by
  have means : leapEntry.Means ⟨⟨2024, 2, 29, by decide, by decide⟩, 23, 59, 58, by decide, by decide,
      by decide, by decide⟩ := by
    constructor <;> decide
  exact fat32GetDatetime_fields means (by decide) Tm.zero

end HanOS.Fs
