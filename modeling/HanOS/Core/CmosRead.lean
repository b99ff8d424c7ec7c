import HanOS.Core.Cmos
import Mathlib.Data.Nat.Find

/-!
# Reading the real time clock (`core/cmos.c`)

The clock ticks while `cmos_read_rtc` reads its registers one by one.  The function
reads them until two readings in a row agree; if a reading takes less than a minute,
the registers then all belong to one moment (`readTwice_still`).  The bytes it has
read are then converted, by the format that status register B names.
-/

namespace HanOS.Core

open HanOS.Foundations HanOS.Lib

/-- What each access of the ports finds in the register it names. -/
abbrev Rtc := Nat → UInt8 → UInt8

structure RtcRegisters where
  seconds : UInt8
  minutes : UInt8
  hours : UInt8
  weekdays : UInt8
  day : UInt8
  month : UInt8
  year : UInt16
  century : UInt8
  deriving DecidableEq, Repr

def updateInProgress (rtc : Rtc) (k : Nat) : Prop := rtc k 0x0A &&& 0x80 ≠ 0

instance (rtc : Rtc) : DecidablePred (updateInProgress rtc) := fun _ =>
  inferInstanceAs (Decidable (_ ≠ _))

/-- `while (update_in_progress());` from access `k` on, with the number of the access after it. -/
def waitUpdate (rtc : Rtc) (fuel k : Nat) : Option Nat :=
  (whileLoop (updateInProgress rtc) (· + 1) fuel k).map (· + 1)

def readRegisters (rtc : Rtc) (k : Nat) : RtcRegisters where
  seconds := rtc k 0x00
  minutes := rtc (k + 1) 0x02
  hours := rtc (k + 2) 0x04
  weekdays := rtc (k + 3) 0x06
  day := rtc (k + 4) 0x07
  month := rtc (k + 5) 0x08
  year := (rtc (k + 6) 0x09).toUInt16
  century := rtc (k + 7) 0x32

/-- The `do` loop, of at most `passes` passes. -/
def readTwice (rtc : Rtc) (fuel : Nat) : Nat → Nat → RtcRegisters → Option (RtcRegisters × Nat)
  | 0, _, _ => none
  | passes + 1, k, last => do
    let k ← waitUpdate rtc fuel k
    let next := readRegisters rtc k
    if next ≠ last then readTwice rtc fuel passes (k + 8) next else some (next, k + 8)

def bcdToBinary (n : UInt8) : UInt8 := (n &&& 0x0F) + n / 16 * 10

/-- The conversion if bit 2 of register B is clear; bit 7 of the hours stays. -/
def RtcRegisters.fromBcd (r : RtcRegisters) : RtcRegisters where
  seconds := bcdToBinary r.seconds
  minutes := bcdToBinary r.minutes
  hours := ((r.hours &&& 0x0F) + (r.hours &&& 0x70) / 16 * 10) ||| (r.hours &&& 0x80)
  weekdays := bcdToBinary r.weekdays
  day := bcdToBinary r.day
  month := bcdToBinary r.month
  year := (r.year &&& 0x0F) + r.year / 16 * 10
  century := bcdToBinary r.century

/-- `century_register` is 0 as long as nothing sets it. -/
def fullYear (centuryRegister : Int) (century : UInt8) (year : UInt16) : UInt16 :=
  if year < 100 then
    if centuryRegister ≠ 0 then year + century.toUInt16 * 100
    else
      let year := year + 2022 / 100 * 100
      if year < 2022 then year + 100 else year
  else year

def RtcRegisters.convert (centuryRegister : Int) (regB : UInt8) (r : RtcRegisters) : RtcRegisters :=
  let r := if regB &&& 0x04 = 0 then r.fromBcd else r
  let r :=
    if regB &&& 0x02 = 0 ∧ r.hours &&& 0x80 ≠ 0 then
      { r with hours := ((r.hours &&& 0x7F) + 12) % 24 }
    else r
  { r with year := fullYear centuryRegister r.century r.year }

def cmosReadRtc (centuryRegister : Int) (rtc : Rtc) (fuel : Nat) : Option (RtcRegisters × Nat) := do
  let k ← waitUpdate rtc fuel 0
  let (r, k) ← readTwice rtc fuel fuel (k + 8) (readRegisters rtc k)
  return (r.convert centuryRegister (rtc k 0x0B), k + 1)

def RtcRegisters.rtc (r : RtcRegisters) : CmosRtc :=
  { seconds := r.seconds, minutes := r.minutes, hours := r.hours, day := r.day, month := r.month,
    year := r.year }

/-! ## The clock -/

/-- A number of two digits in the format of bit 2 of register B. -/
def encodeByte (regB : UInt8) (n : Nat) : UInt8 :=
  UInt8.ofNat (if regB &&& 0x04 = 0 then n / 10 * 16 + n % 10 else n)

/-- The hours in the format of bit 1: 0 to 23, or 1 to 12 with bit 7 from noon on. -/
def encodeHours (regB : UInt8) (hour : Nat) : UInt8 :=
  if regB &&& 0x02 = 0 then
    encodeByte regB (if hour % 12 = 0 then 12 else hour % 12) ||| (if hour < 12 then 0 else 0x80)
  else encodeByte regB hour

def face (regB : UInt8) (m : Moment) (reg : UInt8) : UInt8 :=
  if reg = 0x00 then encodeByte regB m.sec
  else if reg = 0x02 then encodeByte regB m.min
  else if reg = 0x04 then encodeHours regB m.hour
  else if reg = 0x06 then encodeByte regB (m.date.weekday + 1)
  else if reg = 0x07 then encodeByte regB m.date.day
  else if reg = 0x08 then encodeByte regB m.date.month
  else if reg = 0x09 then encodeByte regB (m.date.year % 100)
  else if reg = 0x32 then encodeByte regB (m.date.year / 100)
  else regB

def clockRegisters : List UInt8 := [0x00, 0x02, 0x04, 0x06, 0x07, 0x08, 0x09, 0x32, 0x0B]

/-- The clock shows `time k` at access `k`, goes forward, and a reading of all registers takes less
    than a minute, with the wait for the update flag before the next one. -/
structure Ticks (rtc : Rtc) (regB : UInt8) (time : Nat → Moment) : Prop where
  shows : ∀ k, ∀ reg ∈ clockRegisters, rtc k reg = face regB (time k) reg
  forward : ∀ j k, j ≤ k → (time j).stamp ≤ (time k).stamp
  prompt : ∀ j w, (∀ i < w, updateInProgress rtc (j + 8 + i)) →
    (time (j + 9 + w)).stamp < (time j).stamp + 60
  digits : ∀ k, (time k).date.year < 10000

structure Reads (r : RtcRegisters) (m : Moment) : Prop where
  seconds : r.seconds.toNat = m.sec
  minutes : r.minutes.toNat = m.min
  hours : r.hours.toNat = m.hour
  weekdays : r.weekdays.toNat = m.date.weekday + 1
  day : r.day.toNat = m.date.day
  month : r.month.toNat = m.date.month
  year : r.year.toNat = m.date.year

/-! ## Two readings that agree -/

variable {rtc : Rtc} {regB : UInt8} {time : Nat → Moment} {fuel passes k : Nat}

theorem waitUpdate_waited {next : Nat} (waited : waitUpdate rtc fuel k = some next) :
    ∃ w, next = k + w + 1 ∧ ∀ i < w, updateInProgress rtc (k + i) := by
  obtain ⟨last, ended, rfl⟩ := Option.map_eq_some_iff.mp waited
  obtain ⟨w, rfl, busy⟩ := whileLoop_invariant (fun s => ∃ w, s = k + w ∧ ∀ i < w, updateInProgress rtc (k + i))
    (fun s goes held => by
      obtain ⟨w, rfl, busy⟩ := held
      refine ⟨w + 1, rfl, fun i below => ?_⟩
      rcases Nat.lt_succ_iff_lt_or_eq.mp below with earlier | rfl
      · exact busy i earlier
      · exact goes)
    ⟨0, rfl, fun i below => absurd below (Nat.not_lt_zero i)⟩ ended
  exact ⟨w, rfl, busy⟩

theorem readTwice_agree {j next : Nat} {r : RtcRegisters}
    (ended : readTwice rtc fuel passes (j + 8) (readRegisters rtc j) = some (r, next)) :
    ∃ j' w, r = readRegisters rtc j' ∧ r = readRegisters rtc (j' + 9 + w) ∧ j' < next ∧
      ∀ i < w, updateInProgress rtc (j' + 8 + i) := by
  induction passes generalizing j with
  | zero => cases ended
  | succ passes inductionHypothesis =>
    rw [readTwice] at ended
    obtain ⟨later, waited, ended⟩ := Option.bind_eq_some_iff.mp ended
    obtain ⟨w, rfl, busy⟩ := waitUpdate_waited waited
    have place : j + 8 + w + 1 = j + 9 + w := by omega
    rw [place] at ended
    by_cases agree : readRegisters rtc (j + 9 + w) = readRegisters rtc j
    · simp only [agree, ne_eq, not_true, if_false, Option.some.injEq, Prod.mk.injEq] at ended
      exact ⟨j, w, ended.1.symm, by rw [← ended.1, agree], by omega, busy⟩
    · simp only [ne_eq, agree, not_false_eq_true, if_true] at ended
      exact inductionHypothesis ended

theorem encodeByte_inj {m n : Nat} (small : m < 60) (small' : n < 60)
    (same : encodeByte regB m = encodeByte regB n) : m = n := by
  have place := congrArg UInt8.toNat same
  simp only [encodeByte, UInt8.toNat_ofNat'] at place
  split at place <;> omega

/-- Readings that agree are of one moment: the seconds are the same and no minute has passed. -/
theorem Ticks.still (ticks : Ticks rtc regB time) {j w : Nat}
    (agree : readRegisters rtc j = readRegisters rtc (j + 9 + w))
    (busy : ∀ i < w, updateInProgress rtc (j + 8 + i)) :
    readRegisters rtc j = readRegisters (fun _ => face regB (time j)) 0 := by
  have seconds := congrArg RtcRegisters.seconds agree
  simp only [readRegisters] at seconds
  rw [ticks.shows _ _ (by simp [clockRegisters]), ticks.shows _ _ (by simp [clockRegisters])] at seconds
  have sec := encodeByte_inj (time j).inMin (time (j + 9 + w)).inMin seconds
  have forward := ticks.forward j (j + 9 + w) (by omega)
  have prompt := ticks.prompt j w busy
  have same : (time (j + 9 + w)).stamp = (time j).stamp := by
    rw [Moment.stamp, Moment.stamp] at *
    omega
  have between : ∀ i ≤ 8, time (j + i) = time j := by
    intro i few
    have low := ticks.forward j (j + i) (by omega)
    have high := ticks.forward (j + i) (j + 9 + w) (by omega)
    exact Moment.stamp_injective (by omega)
  have shown : ∀ i ≤ 8, ∀ reg ∈ clockRegisters, rtc (j + i) reg = face regB (time j) reg := by
    intro i few reg member
    rw [ticks.shows _ _ member, between i few]
  have first := shown 0 (by decide) 0x00 (by simp [clockRegisters])
  simp only [readRegisters, RtcRegisters.mk.injEq]
  refine ⟨first, shown 1 (by decide) _ ?_, shown 2 (by decide) _ ?_, shown 3 (by decide) _ ?_,
    shown 4 (by decide) _ ?_, shown 5 (by decide) _ ?_, congrArg _ (shown 6 (by decide) _ ?_),
    shown 7 (by decide) _ ?_⟩ <;> simp [clockRegisters]

/-! ## The conversion -/

def decodeByte (regB n : UInt8) : UInt8 := if regB &&& 0x04 = 0 then bcdToBinary n else n

def decodeYear (regB : UInt8) (year : UInt16) : UInt16 :=
  if regB &&& 0x04 = 0 then (year &&& 0x0F) + year / 16 * 10 else year

def decodeHours (regB hours : UInt8) : UInt8 :=
  let hours := if regB &&& 0x04 = 0 then
    ((hours &&& 0x0F) + (hours &&& 0x70) / 16 * 10) ||| (hours &&& 0x80) else hours
  if regB &&& 0x02 = 0 ∧ hours &&& 0x80 ≠ 0 then ((hours &&& 0x7F) + 12) % 24 else hours

theorem convert_eq (r : RtcRegisters) (centuryRegister : Int) (regB : UInt8) :
    r.convert centuryRegister regB = {
      seconds := decodeByte regB r.seconds
      minutes := decodeByte regB r.minutes
      hours := decodeHours regB r.hours
      weekdays := decodeByte regB r.weekdays
      day := decodeByte regB r.day
      month := decodeByte regB r.month
      year := fullYear centuryRegister (decodeByte regB r.century) (decodeYear regB r.year)
      century := decodeByte regB r.century } := by
  unfold RtcRegisters.convert decodeByte decodeHours decodeYear
  by_cases bcd : regB &&& 0x04 = 0
  · simp only [if_pos bcd, RtcRegisters.fromBcd]
    split_ifs <;> rfl
  · simp only [if_neg bcd]
    split_ifs <;> rfl

theorem decodeByte_encode {n : Nat} (small : n < 100) :
    decodeByte regB (encodeByte regB n) = UInt8.ofNat n := by
  by_cases bcd : regB &&& 0x04 = 0
  · simp only [decodeByte, encodeByte, bcd, if_true]
    revert n
    decide
  · simp only [decodeByte, encodeByte, bcd, if_false]

theorem decodeYear_encode {n : Nat} (small : n < 100) :
    decodeYear regB (encodeByte regB n).toUInt16 = UInt16.ofNat n := by
  by_cases bcd : regB &&& 0x04 = 0
  · simp only [decodeYear, encodeByte, bcd, if_true]
    revert n
    decide
  · simp only [decodeYear, encodeByte, bcd, if_false]
    revert n
    decide

/-- On a clock of 12 hours, noon and midnight are exchanged. -/
theorem decodeHours_encode {hour : Nat} (inDay : hour < 24) :
    (decodeHours regB (encodeHours regB hour)).toNat =
      if regB &&& 0x02 = 0 ∧ hour % 12 = 0 then 12 - hour else hour := by
  by_cases bcd : regB &&& 0x04 = 0
  · by_cases twelve : regB &&& 0x02 = 0
    · simp only [decodeHours, encodeHours, encodeByte, bcd, twelve, if_true, true_and]
      revert hour
      decide
    · simp only [decodeHours, encodeHours, encodeByte, bcd, twelve, if_true, if_false, false_and]
      revert hour
      decide
  · by_cases twelve : regB &&& 0x02 = 0
    · simp only [decodeHours, encodeHours, encodeByte, bcd, twelve, if_true, if_false, true_and]
      revert hour
      decide
    · simp only [decodeHours, encodeHours, encodeByte, bcd, twelve, if_false, false_and]
      revert hour
      decide

theorem fullYear_eq {centuryRegister : Int} {year : Nat} (digits : year < 10000) :
    (fullYear centuryRegister (UInt8.ofNat (year / 100)) (UInt16.ofNat (year % 100))).toNat =
      if centuryRegister = 0 then (if year % 100 < 22 then 2100 else 2000) + year % 100 else year := by
  have window : ∀ n < 100, (if (UInt16.ofNat n + 2022 / 100 * 100) < 2022 then
      UInt16.ofNat n + 2022 / 100 * 100 + 100 else UInt16.ofNat n + 2022 / 100 * 100).toNat =
        (if n < 22 then 2100 else 2000) + n := by decide
  have twoDigits : UInt16.ofNat (year % 100) < 100 := by
    rw [UInt16.lt_iff_toNat_lt, UInt16.toNat_ofNat']
    show _ < 100
    omega
  rw [fullYear, if_pos twoDigits]
  by_cases unset : centuryRegister = 0
  · rw [if_neg (not_not.mpr unset), if_pos unset]
    exact window _ (Nat.mod_lt _ (by decide))
  · rw [if_pos unset, if_neg unset, UInt16.toNat_add, UInt16.toNat_mul, UInt16.toNat_ofNat',
      UInt8.toNat_toUInt16, UInt8.toNat_ofNat']
    show (_ % 65536 + _ % 256 * 100 % 65536) % 65536 = _
    have split := Nat.div_add_mod year 100
    have century : year / 100 < 100 := by omega
    rw [Nat.mod_eq_of_lt (by omega : year / 100 < 256)]
    omega

/-- A clock of two digits and a window of a hundred years, or of four digits. -/
def YearKnown (centuryRegister : Int) (year : Nat) : Prop :=
  centuryRegister = 0 → 2022 ≤ year ∧ year < 2122

/-- What is read is right, but for noon and midnight on a clock of 12 hours, and years outside the
    window. -/
theorem reads_iff {centuryRegister : Int} {m : Moment} (digits : m.date.year < 10000) :
    Reads ((readRegisters (fun _ => face regB m) 0).convert centuryRegister regB) m ↔
      (regB &&& 0x02 ≠ 0 ∨ m.hour % 12 ≠ 0) ∧ YearKnown centuryRegister m.date.year := by
  have inYear := m.date.inYear
  have inMonth := m.date.inMonth
  have length := @monthLength_le m.date.year m.date.month
  have weekday : m.date.weekday < 7 := Nat.mod_lt _ (by decide)
  -- the fields other than the hours and the year are always right
  have byte : ∀ n < 100, (decodeByte regB (encodeByte regB n)).toNat = n := by
    intro n small
    rw [decodeByte_encode small, UInt8.toNat_ofNat']
    omega
  have hours := @decodeHours_encode regB m.hour m.inDay
  have year : (fullYear centuryRegister (decodeByte regB (encodeByte regB (m.date.year / 100)))
      (decodeYear regB (encodeByte regB (m.date.year % 100)).toUInt16)).toNat =
        if centuryRegister = 0 then (if m.date.year % 100 < 22 then 2100 else 2000) + m.date.year % 100
        else m.date.year := by
    rw [decodeByte_encode (by omega), decodeYear_encode (by omega)]
    exact fullYear_eq digits
  rw [convert_eq]
  constructor
  · intro reads
    have readHours := hours.symm.trans reads.hours
    have readYear := year.symm.trans reads.year
    constructor
    · by_cases twelve : regB &&& 0x02 = 0
      · refine .inr fun exchanged => ?_
        rw [if_pos ⟨twelve, exchanged⟩] at readHours
        omega
      · exact .inl twelve
    · intro unset
      rw [if_pos unset] at readYear
      split at readYear <;> omega
  · rintro ⟨clock, known⟩
    refine ⟨byte _ (by have := m.inMin; omega), byte _ (by have := m.inHour; omega), hours.trans ?_,
      byte _ (by omega), byte _ (by omega), byte _ (by omega), year.trans ?_⟩
    · rw [if_neg]
      rintro ⟨twelve, exchanged⟩
      exact clock.elim (fun other => other twelve) (fun other => other exchanged)
    · split
      · next unset =>
        obtain ⟨low, high⟩ := known unset
        split <;> omega
      · rfl

theorem cmosCurrentTime_reads {r : RtcRegisters} {m : Moment} (reads : Reads r m)
    (epoch : 1970 ≤ m.date.year) :
    cmosCurrentTime (m.date.year + 12) r.rtc = some (m.stamp - 719163 * 86400) := by
  obtain ⟨first, december⟩ := m.date.inYear
  have inMonth := m.date.inMonth
  have length := @monthLength_le m.date.year m.date.month
  have small : m.date.year < 65536 := reads.year ▸ r.year.toNat_lt
  obtain ⟨before, yearIs⟩ : ∃ n, m.date.year = n + 1 := ⟨m.date.year - 1, by omega⟩
  obtain ⟨past, monthIs⟩ : ∃ n, m.date.month = n + 1 := ⟨m.date.month - 1, by omega⟩
  have years : secsOfYears (m.date.year + 12) (toU64 ((m.date.year : Int) - 1)) =
      some ((daysBeforeYear m.date.year - daysBeforeYear 1970) * 86400) := by
    rw [yearIs, show toU64 ((before + 1 : Nat) - 1) = before from toU64_eq (by omega) (by omega)]
    exact secsOfYears_eq (by omega) (by omega) (by omega)
  have months : secsOfMonth (m.date.year + 12) (toU64 ((m.date.month : Int) - 1)) m.date.year =
      some (daysBeforeMonth m.date.year m.date.month * 86400) := by
    rw [monthIs, show toU64 ((past + 1 : Nat) - 1) = past from toU64_eq (by omega) (by omega)]
    exact secsOfMonth_eq (by omega) (by omega)
  have days : toU64 (((m.date.day : Int) - 1) * 86400) = (m.date.day - 1) * 86400 :=
    toU64_eq (by omega) (by omega)
  have early := daysBeforeYear_mono epoch
  have late : daysBeforeYear m.date.year < 2 ^ 26 := by
    rw [daysBeforeYear]
    omega
  have within : daysBeforeMonth m.date.year m.date.month ≤ 366 := daysBeforeMonth_le.trans yearLength_le
  have ofHour := m.inDay
  have ofMin := m.inHour
  have ofSec := m.inMin
  rw [show daysBeforeYear 1970 = 719162 by
    simp only [daysBeforeYear, Nat.reduceSub, Nat.reduceMul, Nat.reduceDiv, Nat.reduceAdd]] at years early
  simp only [cmosCurrentTime, RtcRegisters.rtc, reads.year, reads.month, reads.day, reads.hours,
    reads.minutes, reads.seconds, years, months, days, Option.bind_eq_bind, Option.bind_some,
    Option.pure_def, Option.some.injEq]
  rw [Moment.stamp, Date.number, u64_of_lt (by omega)]
  omega

/-! ## The call -/

/-- The update flag is clear and the registers stay as they are, for `n` accesses from `k` on. -/
structure Still (rtc : Rtc) (k n : Nat) : Prop where
  settled : ∀ i < n, ¬ updateInProgress rtc (k + i)
  same : ∀ i < n, ∀ reg ∈ clockRegisters, rtc (k + i) reg = rtc k reg

theorem waitUpdate_ends {K : Nat} (settled : ¬ updateInProgress rtc K) (ahead : k ≤ K) (enough : K ≤ fuel) :
    ∃ next, waitUpdate rtc fuel k = some next ∧ k < next ∧ next ≤ K + 1 := by
  have ends : ∃ w, ¬ updateInProgress rtc (k + w) := ⟨K - k, by rwa [Nat.add_sub_cancel' ahead]⟩
  have few : Nat.find ends ≤ K - k := Nat.find_min' ends (by rwa [Nat.add_sub_cancel' ahead])
  have loop := @whileLoop_trace _ (updateInProgress rtc) _ (· + 1) fuel (fun i => k + i) (Nat.find ends)
    (fun i below => not_not.mp (Nat.find_min ends below)) (fun _ _ => rfl) (Nat.find_spec ends) (by omega)
  rw [Nat.add_zero] at loop
  exact ⟨k + Nat.find ends + 1, by rw [waitUpdate, loop, Option.map_some], by omega, by omega⟩

theorem Still.readRegisters {K n j : Nat} (still : Still rtc K n) (low : K ≤ j) (high : j + 8 ≤ K + n) :
    readRegisters rtc j = readRegisters (fun _ => rtc K) 0 := by
  obtain ⟨i, rfl⟩ := Nat.exists_eq_add_of_le low
  have shown : ∀ d < 8, ∀ reg ∈ clockRegisters, rtc (K + i + d) reg = rtc K reg := by
    intro d few reg member
    rw [Nat.add_assoc]
    exact still.same (i + d) (by omega) reg member
  simp only [Core.readRegisters, RtcRegisters.mk.injEq]
  refine ⟨shown 0 (by decide) _ ?_, shown 1 (by decide) _ ?_, shown 2 (by decide) _ ?_,
    shown 3 (by decide) _ ?_, shown 4 (by decide) _ ?_, shown 5 (by decide) _ ?_,
    congrArg _ (shown 6 (by decide) _ ?_), shown 7 (by decide) _ ?_⟩ <;> simp [clockRegisters]

theorem readTwice_step {next : Nat} (waited : waitUpdate rtc fuel k = some next) (last : RtcRegisters) :
    readTwice rtc fuel (passes + 1) k last =
      if readRegisters rtc next ≠ last then readTwice rtc fuel passes (next + 8) (readRegisters rtc next)
      else some (readRegisters rtc next, next + 8) := by
  rw [readTwice, waited]
  rfl

section Ends

variable {K : Nat} (still : Still rtc K 27) (enough : K + 27 ≤ fuel)

include still enough

theorem readTwice_again (low : K ≤ k) (high : k ≤ K + 18) :
    ∃ result, readTwice rtc fuel (passes + 1) k (readRegisters (fun _ => rtc K) 0) = some result := by
  have settled : ¬ updateInProgress rtc k := by
    obtain ⟨i, rfl⟩ := Nat.exists_eq_add_of_le low
    exact still.settled i (by omega)
  obtain ⟨next, waited, after, before⟩ := @waitUpdate_ends rtc fuel k k settled le_rfl (by omega)
  rw [readTwice_step waited, still.readRegisters (by omega) (by omega), if_neg (not_not.mpr rfl)]
  exact ⟨_, rfl⟩

theorem readTwice_window (low : K ≤ k) (high : k ≤ K + 9) (last : RtcRegisters) :
    ∃ result, readTwice rtc fuel (passes + 2) k last = some result := by
  have settled : ¬ updateInProgress rtc k := by
    obtain ⟨i, rfl⟩ := Nat.exists_eq_add_of_le low
    exact still.settled i (by omega)
  obtain ⟨next, waited, after, before⟩ := @waitUpdate_ends rtc fuel k k settled le_rfl (by omega)
  rw [readTwice_step waited, still.readRegisters (by omega) (by omega)]
  split
  · exact readTwice_again still enough (by omega) (by omega)
  · exact ⟨_, rfl⟩

/-- Once the clock stands still for three readings the loop ends. -/
theorem readTwice_ends (near : k ≤ K + 9) (many : K + 3 ≤ passes + k) (two : 2 ≤ passes)
    (last : RtcRegisters) : ∃ result, readTwice rtc fuel passes k last = some result := by
  induction passes generalizing k last with
  | zero => omega
  | succ passes inductionHypothesis =>
    by_cases low : K ≤ k
    · obtain ⟨more, rfl⟩ : ∃ n, passes = n + 1 := ⟨passes - 1, by omega⟩
      exact readTwice_window still enough low near last
    · obtain ⟨next, waited, after, before⟩ :=
        @waitUpdate_ends rtc fuel k K (still.settled 0 (by decide)) (by omega) (by omega)
      rw [readTwice_step waited]
      split
      · exact inductionHypothesis (by omega) (by omega) (by omega) _
      · exact ⟨_, rfl⟩

end Ends

/-- `cmos_read_rtc` on a clock that ticks.  It returns once the clock has stood still for 27 accesses;
    and what it returns is a moment that the clock showed during the call, read right if and only if
    the clock does not show noon or midnight in the 12-hour format and its year is known.  Where it is
    read right, `cmos_current_time` makes the seconds since 1970 of it. -/
theorem cmosReadRtc_iff (centuryRegister : Int) (ticks : Ticks rtc regB time) :
    (∀ K, Still rtc K 27 → ∃ fuel result, cmosReadRtc centuryRegister rtc fuel = some result) ∧
    ∀ fuel result accesses, cmosReadRtc centuryRegister rtc fuel = some (result, accesses) →
      ∃ k < accesses,
        (Reads result (time k) ↔
          (regB &&& 0x02 ≠ 0 ∨ (time k).hour % 12 ≠ 0) ∧ YearKnown centuryRegister (time k).date.year) ∧
        (Reads result (time k) → 1970 ≤ (time k).date.year →
          ∃ fuel, cmosCurrentTime fuel result.rtc = some ((time k).stamp - 719163 * 86400)) := by
  constructor
  · intro K still
    obtain ⟨next, waited, _, before⟩ := @waitUpdate_ends rtc (K + 27) 0 K (still.settled 0 (by decide))
      (Nat.zero_le K) (by omega)
    obtain ⟨⟨r, k⟩, read⟩ := @readTwice_ends rtc (K + 27) (K + 27) (next + 8) K still le_rfl (by omega)
      (by omega) (by omega) (readRegisters rtc next)
    exact ⟨K + 27, (r.convert centuryRegister (rtc k 0x0B), k + 1), by
      rw [cmosReadRtc, waited]
      simp [read]⟩
  · intro fuel result accesses read
    simp only [cmosReadRtc, Option.bind_eq_bind, Option.bind_eq_some_iff, Option.pure_def,
      Option.some.injEq, Prod.mk.injEq] at read
    obtain ⟨first, _, ⟨r, last⟩, twice, rfl, rfl⟩ := read
    obtain ⟨k, w, here, again, early, busy⟩ := readTwice_agree twice
    have one := ticks.still (here.symm.trans again) busy
    have status : rtc last 0x0B = regB := ticks.shows last 0x0B (by simp [clockRegisters])
    simp only [here, one, status]
    exact ⟨k, Nat.lt_succ_of_lt early, reads_iff (ticks.digits k),
      fun reads epoch => ⟨_, cmosCurrentTime_reads reads epoch⟩⟩

/-- Half past nine in the evening, on a clock of 12 hours in BCD. -/
def eveningClock : Moment :=
  ⟨⟨2024, 2, 29, by decide, by decide⟩, 21, 30, 7, by decide, by decide, by decide, by decide⟩

/-- The clock turns a second further at access 12. -/
def turningClock (k : Nat) : Moment := if k < 12 then eveningClock else { eveningClock with sec := 8, inMin := by decide }

def turningRtc : Rtc := fun k reg => if reg = 0x0A then 0 else face 0 (turningClock k) reg

theorem turningRtc_ticks : Ticks turningRtc 0 turningClock where
  shows k reg member := by
    have other : reg ≠ 0x0A := by
      rintro rfl
      simp [clockRegisters] at member
    rw [turningRtc, if_neg other]
  forward j k le := by
    unfold turningClock
    split <;> split <;> first | omega | decide
  prompt j w _ := by
    unfold turningClock
    split <;> split <;> decide
  digits k := by
    unfold turningClock
    split <;> decide

theorem cmosReadRtc_iff_turning :
    ∃ result accesses, cmosReadRtc 0 turningRtc 4 = some (result, accesses) ∧ ∃ k < accesses,
      Reads result (turningClock k) ∧
        ∃ fuel, cmosCurrentTime fuel result.rtc = some ((turningClock k).stamp - 719163 * 86400) := by
  have read : (cmosReadRtc 0 turningRtc 4).isSome := by decide +kernel
  obtain ⟨⟨result, accesses⟩, read⟩ := Option.isSome_iff_exists.mp read
  obtain ⟨k, early, right, secs⟩ := (cmosReadRtc_iff 0 turningRtc_ticks).2 4 result accesses read
  have evening : ∀ k, (turningClock k).hour = 21 ∧ (turningClock k).date.year = 2024 := by
    intro k
    unfold turningClock
    split <;> exact ⟨rfl, rfl⟩
  have reads := right.mpr ⟨.inr (by rw [(evening k).1]; decide), fun _ => by rw [(evening k).2]; decide⟩
  exact ⟨result, accesses, read, k, early, reads, secs reads (by rw [(evening k).2]; decide)⟩

end HanOS.Core
