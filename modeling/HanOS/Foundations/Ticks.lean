import Mathlib.Algebra.Order.Floor.Div
import Mathlib.Data.Nat.Basic
import Mathlib.Tactic.TypeStar

/-!
# Waiting on a clock that ticks

A clock adds `rate` to its reading at every multiple of `tick`.  Whoever waits for the
reading to grow by `wait` is due from one point of time on, the alarm.  What can be
said of the times at which he is due is therefore a bound on the alarm
(`notBefore_iff`, `from_iff`).
-/

namespace HanOS.Foundations

structure Ticks where
  tick : Nat
  rate : Nat
  positive : 0 < tick

namespace Ticks

variable (c : Ticks) {start wait limit t : Nat}

def stamp (t : Nat) : Nat := t / c.tick * c.rate

/-- The first time from `start` on at which the reading has grown by `wait`. -/
def alarm (start wait : Nat) : Nat :=
  max start ((start / c.tick + wait ⌈/⌉ c.rate) * c.tick)

theorem stamp_mono {earlier later : Nat} (le : earlier ≤ later) : c.stamp earlier ≤ c.stamp later :=
  Nat.mul_le_mul_right _ (Nat.div_le_div_right le)

theorem start_le_alarm : start ≤ c.alarm start wait := Nat.le_max_left ..

theorem alarm_zero : c.alarm start 0 = start := by
  unfold alarm
  rw [zero_ceilDiv, Nat.add_zero]
  exact Nat.max_eq_left (Nat.div_mul_le_self ..)

/-- The clock of a wait that ends has a rate. -/
theorem due_iff (runs : wait = 0 ∨ 0 < c.rate) (later : start ≤ t) :
    c.stamp start + wait ≤ c.stamp t ↔ c.alarm start wait ≤ t := by
  rcases Nat.eq_zero_or_pos wait with none_left | waits
  · subst none_left
    rw [c.alarm_zero]
    exact ⟨fun _ => later, c.stamp_mono⟩
  · have rate : 0 < c.rate := runs.resolve_left waits.ne'
    unfold stamp alarm
    rw [Nat.max_le, and_iff_right later, ← Nat.le_div_iff_mul_le c.positive]
    -- in ticks: the reading has grown by `wait` when the ticks since the start are enough
    constructor
    · intro due
      have grown : wait ≤ c.rate * (t / c.tick - start / c.tick) := by
        rw [Nat.mul_comm, Nat.sub_mul]
        omega
      have ticks := (ceilDiv_le_iff_le_mul rate).mpr grown
      have passed : start / c.tick ≤ t / c.tick := Nat.div_le_div_right later
      omega
    · intro reached
      have grown := (ceilDiv_le_iff_le_mul rate).mp
        (show wait ⌈/⌉ c.rate ≤ t / c.tick - start / c.tick by omega)
      have passed : start / c.tick * c.rate ≤ t / c.tick * c.rate :=
        Nat.mul_le_mul_right _ (Nat.div_le_div_right later)
      rw [Nat.mul_comm, Nat.sub_mul] at grown
      omega

/-- Nobody is due on a clock that stands still. -/
theorem not_due (stands : ¬ (wait = 0 ∨ 0 < c.rate)) : ¬ c.stamp start + wait ≤ c.stamp t := by
  obtain ⟨waits, rate⟩ := not_or.mp stands
  have still : c.rate = 0 := by omega
  simp only [stamp, still, Nat.mul_zero]
  omega

/-- Due at no time before `earliest`, among the times at which the reading is below `limit`. -/
theorem notBefore_iff {earliest : Nat} (runs : wait = 0 ∨ 0 < c.rate) :
    (∀ t, start ≤ t → c.stamp t < limit → c.stamp start + wait ≤ c.stamp t → earliest ≤ t) ↔
      (c.stamp (c.alarm start wait) < limit → earliest ≤ c.alarm start wait) := by
  constructor
  · intro never below
    exact never _ c.start_le_alarm below ((c.due_iff runs c.start_le_alarm).mpr (Nat.le_refl _))
  · intro bound t later below due
    have reached := (c.due_iff runs later).mp due
    exact (bound (Nat.lt_of_le_of_lt (c.stamp_mono reached) below)).trans reached

/-- Due at all times from `latest` on at which the reading is below `limit`. -/
theorem from_iff {latest : Nat} (later : start ≤ latest) (fits : c.stamp start + wait < limit) :
    (∀ t, latest ≤ t → c.stamp t < limit → c.stamp start + wait ≤ c.stamp t) ↔
      (wait = 0 ∨ 0 < c.rate) ∧ c.alarm start wait ≤ latest := by
  constructor
  · intro always
    have runs : wait = 0 ∨ 0 < c.rate := by
      by_contra stands
      have still : c.rate = 0 := by omega
      have below : c.stamp latest < limit := by
        simp only [stamp, still, Nat.mul_zero] at fits ⊢
        omega
      exact c.not_due stands (always latest (Nat.le_refl _) below)
    refine ⟨runs, ?_⟩
    -- one instant before a later alarm the reading is below the deadline, so below the limit
    by_contra late
    have before : latest ≤ c.alarm start wait - 1 := by omega
    have undue : ¬ c.stamp start + wait ≤ c.stamp (c.alarm start wait - 1) := by
      rw [c.due_iff runs (later.trans before)]
      omega
    exact undue (always _ before (by omega))
  · rintro ⟨runs, bound⟩ t passed _
    exact (c.due_iff runs (later.trans passed)).mpr (bound.trans passed)

/-- On a clock that is exact or slow, nobody is due before the time he waits for: `unit` of time
    are no less than one of the reading. -/
theorem alarm_not_early {unit : Nat} (slow : c.rate * unit ≤ c.tick) (runs : wait = 0 ∨ 0 < c.rate) :
    start + wait * unit ≤ c.alarm start wait + c.tick := by
  -- the wait is counted from the tick before `start`
  have phase : start < (start / c.tick + 1) * c.tick := Nat.lt_mul_of_div_lt
    (Nat.lt_succ_self _) c.positive
  have waited : wait * unit ≤ (wait ⌈/⌉ c.rate) * c.tick := by
    rcases Nat.eq_zero_or_pos wait with none_left | waits
    · simp [none_left]
    · have rate : 0 < c.rate := runs.resolve_left waits.ne'
      calc wait * unit ≤ c.rate * (wait ⌈/⌉ c.rate) * unit :=
            Nat.mul_le_mul_right _ (le_smul_ceilDiv rate)
        _ = (wait ⌈/⌉ c.rate) * (c.rate * unit) := by
            rw [Nat.mul_comm c.rate, Nat.mul_assoc]
        _ ≤ (wait ⌈/⌉ c.rate) * c.tick := Nat.mul_le_mul_left _ slow
  have reached : (start / c.tick + wait ⌈/⌉ c.rate) * c.tick ≤ c.alarm start wait :=
    Nat.le_max_right ..
  rw [Nat.add_mul] at reached phase
  omega

/-- On a clock that is exact, everybody is due a tick after the time he waits for. -/
theorem alarm_not_late {unit : Nat} (exact_rate : c.rate * unit = c.tick) :
    c.alarm start wait ≤ start + wait * unit + c.tick := by
  have rate : 0 < c.rate := by
    apply Nat.pos_of_ne_zero
    intro still
    rw [still, Nat.zero_mul] at exact_rate
    exact absurd exact_rate.symm c.positive.ne'
  have unit_pos : 0 < unit := by
    apply Nat.pos_of_ne_zero
    rintro rfl
    exact absurd exact_rate.symm c.positive.ne'
  have rounded : c.rate * (wait ⌈/⌉ c.rate) ≤ wait + c.rate := by
    rw [Nat.ceilDiv_eq_add_pred_div]
    exact (Nat.mul_div_le ..).trans (by omega)
  have waited : (wait ⌈/⌉ c.rate) * c.tick ≤ wait * unit + c.tick := by
    calc (wait ⌈/⌉ c.rate) * c.tick = c.rate * (wait ⌈/⌉ c.rate) * unit := by
          rw [← exact_rate, Nat.mul_comm c.rate (wait ⌈/⌉ c.rate), Nat.mul_assoc]
      _ ≤ (wait + c.rate) * unit := Nat.mul_le_mul_right _ rounded
      _ = wait * unit + c.tick := by rw [Nat.add_mul, exact_rate]
  have floor : start / c.tick * c.tick ≤ start := Nat.div_mul_le_self ..
  apply Nat.max_le.mpr
  rw [Nat.add_mul]
  constructor <;> omega

end Ticks

end HanOS.Foundations
