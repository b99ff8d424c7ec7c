import HanOS.Lib.Klib
import Mathlib.Data.Rat.Defs
import Mathlib.Tactic.Linarith
import Mathlib.Tactic.Positivity

/-!
# The time slice of a CPU (`core/timer.c`)

`apic_timer_init` measures how many divided ticks pass in 50 ms, and
`apic_timer_set_period` turns the measured frequency into the initial count of a
period.  The calibration multiplies by 2 where 50 ms call for 20, so the initial
count is a tenth of the ticks in the period (`initialCount_tenth`).
-/

namespace HanOS.Core

open HanOS.Lib

/-- The statics of `timer.c` and the timer registers of the CPU's APIC. -/
structure ApicTimer where
  baseFreq : Nat
  divisor : Nat
  vector : Nat
  lvt : Nat
  dcr : Nat
  /-- The last value written to `APIC_REG_TIMER_ICR`. -/
  icr : Nat
  deriving DecidableEq, Repr

def uint32Max : Nat := 4294967295

def apicTimerFlagPeriodic : Nat := 2 ^ 17

def apicTimerFlagMasked : Nat := 2 ^ 16

def timesliceDefault : Nat := 1 * 1000000

inductive ApicTimerMode
  | periodic | oneshot
  deriving DecidableEq, Repr

/-- `apic_timer_init`; `vector` is what `idt_get_available_vector` returned and `ccr` the
    current count register after the `sleep(50)`. -/
def apicTimerInit (vector ccr : Nat) : ApicTimer where
  vector := vector
  lvt := apicTimerFlagMasked ||| vector
  dcr := 1
  divisor := 4
  icr := uint32Max
  -- both products are on `uint32_t`, `divisor` being a `uint8_t`
  baseFreq := u32 (u32 (sub32 uint32Max ccr * 2) * 4)

variable (t : ApicTimer)

/-- `none` is a division by zero. -/
def apicTimerSetFrequency (freq : Nat) : Option ApicTimer :=
  if u64 (freq * t.divisor) = 0 then none
  else some { t with icr := u32 (t.baseFreq / u64 (freq * t.divisor)) }

def apicTimerSetPeriod (tv : Nat) : Option ApicTimer :=
  if tv = 0 then none else apicTimerSetFrequency t (1000000000 / tv)

def apicTimerSetMode : ApicTimerMode → ApicTimer
  | .periodic => { t with lvt := t.lvt ||| apicTimerFlagPeriodic }
  | .oneshot => { t with lvt := t.lvt &&& (uint32Max - apicTimerFlagPeriodic) }

def apicTimerStart : ApicTimer :=
  { t with lvt := t.lvt &&& (uint32Max - apicTimerFlagMasked) }

def schedInitTimer (vector ccr : Nat) : Option ApicTimer := do
  let t ← apicTimerSetPeriod (apicTimerInit vector ccr) timesliceDefault
  return apicTimerStart (apicTimerSetMode t .periodic)

/-! ## The initial count -/

/-- The divided ticks in `tv` nanoseconds, when `d` of them pass in 50 ms. -/
def ticksIn (d tv : Nat) : ℚ := d * tv / (50 * 10 ^ 6)

/-- A count that is a quantity up to integer rounding. -/
def Rounds (count : Nat) (quantity : ℚ) : Prop := |(count : ℚ) - quantity| < 1

variable {vector d tv : Nat}

/-- The counter runs down from `UINT32_MAX`, so `d` ticks leave it at `UINT32_MAX - d`. -/
theorem apicTimerInit_baseFreq (small : 8 * d < 2 ^ 32) :
    (apicTimerInit vector (uint32Max - d)).baseFreq = 8 * d := by
  have counted : sub32 uint32Max (uint32Max - d) = d := by
    rw [sub32_of_le (Nat.sub_le ..)]
    unfold uint32Max
    omega
  have doubled : u32 (d * 2) = d * 2 := u32_of_lt (by omega)
  have quadrupled : u32 (d * 2 * 4) = d * 2 * 4 := u32_of_lt (by omega)
  simp only [apicTimerInit, counted, doubled, quadrupled]
  omega

theorem apicTimerSetPeriod_icr (small : 8 * d < 2 ^ 32) (divides : tv ∣ 10 ^ 9) :
    ∃ after, apicTimerSetPeriod (apicTimerInit vector (uint32Max - d)) tv = some after ∧
      after.icr = d * tv / 500000000 := by
  obtain ⟨freq, period⟩ := divides
  have tv_pos : 0 < tv := by
    apply Nat.pos_of_ne_zero
    rintro rfl
    simp at period
  have frequency : 1000000000 / tv = freq := by
    rw [show 1000000000 = 10 ^ 9 by rfl, period, Nat.mul_div_cancel_left freq tv_pos]
  have freq_pos : 0 < freq := by
    apply Nat.pos_of_ne_zero
    rintro rfl
    simp at period
  have freq_le : freq ≤ 1000000000 := frequency ▸ Nat.div_le_self ..
  have divisor : u64 (freq * 4) = freq * 4 := u64_of_lt (by omega)
  have count : 8 * d / (freq * 4) = d * tv / 500000000 := by
    calc 8 * d / (freq * 4) = (2 * d) * 4 / (freq * 4) := by rw [Nat.mul_right_comm]
      _ = 2 * d / freq := Nat.mul_div_mul_right _ _ (by decide)
      _ = (2 * d * tv) / (freq * tv) := (Nat.mul_div_mul_right _ _ tv_pos).symm
      _ = 2 * (d * tv) / (2 * 500000000) := by rw [Nat.mul_comm freq tv, ← period, Nat.mul_assoc]; rfl
      _ = d * tv / 500000000 := Nat.mul_div_mul_left _ _ (by decide)
  have fits : u32 (d * tv / 500000000) = d * tv / 500000000 := by
    apply u32_of_lt
    rw [← count]
    exact Nat.lt_of_le_of_lt (Nat.div_le_self ..) small
  refine ⟨_, by
    rw [apicTimerSetPeriod, if_neg tv_pos.ne', frequency, apicTimerSetFrequency]
    exact if_neg (by simp only [apicTimerInit, divisor]; omega), ?_⟩
  simp only [apicTimerInit_baseFreq small]
  simp only [apicTimerInit, divisor, count, fits]

theorem initialCount_tenth (d tv : Nat) :
    10 * ((d * tv / 500000000 : Nat) : ℚ) ≤ ticksIn d tv := by
  have rounded : d * tv / 500000000 * 500000000 ≤ d * tv := Nat.div_mul_le_self ..
  have cast : ((d * tv / 500000000 : Nat) : ℚ) * 500000000 ≤ d * tv := by exact_mod_cast rounded
  unfold ticksIn
  rw [le_div_iff₀ (by positivity)]
  linarith

/-- A tenth of a quantity, rounded, is the quantity rounded only below one tick. -/
theorem rounds_tenth {count : Nat} {quantity : ℚ} (positive : 0 ≤ quantity)
    (tenth : 10 * (count : ℚ) ≤ quantity) : Rounds count quantity ↔ quantity < 1 := by
  unfold Rounds
  rw [abs_sub_lt_iff]
  constructor
  · rintro ⟨_, close⟩
    cases count with
    | zero => simpa using close
    | succ count =>
      have one : (1 : ℚ) ≤ (count + 1 : Nat) := by exact_mod_cast Nat.succ_pos count
      linarith
  · intro below
    have none_left : (count : ℚ) < 1 := by linarith
    constructor
    · linarith
    · have nonneg : (0 : ℚ) ≤ count := Nat.cast_nonneg count
      linarith

/-- The initial count is the number of ticks in the period exactly when the period is shorter
    than one tick. -/
theorem apicTimerSetPeriod_rounds_iff (small : 8 * d < 2 ^ 32) (divides : tv ∣ 10 ^ 9) :
    (∃ after, apicTimerSetPeriod (apicTimerInit vector (uint32Max - d)) tv = some after ∧
      Rounds after.icr (ticksIn d tv)) ↔ ticksIn d tv < 1 := by
  obtain ⟨after, set, icr⟩ := @apicTimerSetPeriod_icr vector d tv small divides
  have nonneg : 0 ≤ ticksIn d tv := by unfold ticksIn; positivity
  have rounds := rounds_tenth nonneg (initialCount_tenth d tv)
  rw [← icr] at rounds
  simp only [set, Option.some.injEq, exists_eq_left', rounds]

theorem apicTimerSetPeriod_rounds_iff_short :
    (∃ after, apicTimerSetPeriod (apicTimerInit 33 (uint32Max - 1)) 1 = some after ∧
      Rounds after.icr (ticksIn 1 1)) ↔ ticksIn 1 1 < 1 :=
  apicTimerSetPeriod_rounds_iff (by decide) (by decide)

/-- 2500000 divided ticks in 50 ms (a 200 MHz timer): 50000 of them pass in the default time
    slice of 1 ms, and the initial count is 5000. -/
theorem apicTimerSetPeriod_tenth :
    8 * 2500000 < 2 ^ 32 ∧ timesliceDefault ∣ 10 ^ 9 ∧ ticksIn 2500000 timesliceDefault = 50000 ∧
      ∃ after, apicTimerSetPeriod (apicTimerInit 33 (uint32Max - 2500000)) timesliceDefault =
          some after ∧
        after.icr = 5000 ∧ ¬ Rounds after.icr (ticksIn 2500000 timesliceDefault) := by
  have passed : ticksIn 2500000 timesliceDefault = 50000 := by
    norm_num [ticksIn, timesliceDefault]
  have wrong : ¬ Rounds 5000 50000 := by norm_num [Rounds]
  refine ⟨by decide, by decide, passed, _, rfl, by decide, ?_⟩
  rw [passed]
  exact wrong

/-- The slices `sched_init` sets up last a tenth of the default time slice at most. -/
theorem schedInitTimer_slice (small : 8 * d < 2 ^ 32) :
    ∃ after, schedInitTimer vector (uint32Max - d) = some after ∧
      10 * (after.icr : ℚ) ≤ ticksIn d timesliceDefault := by
  obtain ⟨set, eq, icr⟩ := @apicTimerSetPeriod_icr vector d timesliceDefault small (by decide)
  refine ⟨apicTimerStart (apicTimerSetMode set .periodic), ?_, ?_⟩
  · simp [schedInitTimer, eq]
  · have kept : (apicTimerStart (apicTimerSetMode set .periodic)).icr = set.icr := rfl
    rw [kept, icr]
    exact initialCount_tenth d timesliceDefault

end HanOS.Core
