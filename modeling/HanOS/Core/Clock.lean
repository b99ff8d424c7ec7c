import HanOS.Foundations.Ticks
import HanOS.Lib.Klib

/-!
# The system clock (`core/hpet.c`, `core/pit.c`)

`hpet_get_nanos` is the main counter of the HPET times its period in nanoseconds, or,
when the machine has no HPET, the number of PIT interrupts.  Time is in femtoseconds,
the unit in which an HPET states its period.
-/

namespace HanOS.Core

open HanOS.Foundations HanOS.Lib

structure HpetRegs where
  generalCapabilities : Nat
  generalConfiguration : Nat
  mainCounterValue : Nat
  deriving DecidableEq, Repr

/-- The statics of `hpet.c`, with the registers `hpet` points to. -/
structure Hpet where
  hpet : Option HpetRegs
  hpetPeriod : Nat
  deriving DecidableEq, Repr

def hpetStatics : Hpet := { hpet := none, hpetPeriod := 0 }

/-- `hpet_init`, given what `acpi_get_sdt("HPET")` leads to; `none` is the division by a
    period of zero. -/
def hpetInit (h : Hpet) (sdt : Option HpetRegs) : Option Hpet :=
  match sdt with
  | none => some h
  | some regs =>
    -- legacy replacement capable
    if regs.generalCapabilities.testBit 15 = false then some { h with hpet := none }
    else
      let counterClkPeriod := regs.generalCapabilities / 2 ^ 32
      if counterClkPeriod = 0 then none
      else
        some
          { hpet := some { regs with generalConfiguration := regs.generalConfiguration ||| 1 }
            hpetPeriod := counterClkPeriod / 1000000 }

def hpetGetNanos (h : Hpet) (pitTicks : Nat) : Nat :=
  match h.hpet with
  | none => pitTicks
  | some regs => u64 (regs.mainCounterValue * h.hpetPeriod)

def pitFreqHz : Nat := 1000

def pitCallback (pitTicks : Nat) : Nat := u64 (pitTicks + 1)

/-! ## The clock over time -/

def femtosPerSecond : Nat := 10 ^ 15

def femtosPerMilli : Nat := 10 ^ 12

def femtosPerNano : Nat := 10 ^ 6

theorem nanos_femtos (millis : Nat) :
    millis * 1000000 * femtosPerNano = millis * femtosPerMilli := by
  rw [Nat.mul_assoc]
  rfl

def pitTicksAt (t : Nat) : Nat := pitCallback^[t / (femtosPerSecond / pitFreqHz)] 0

/-- What the boot found: an HPET whose counter has this period, or none that can be used. -/
inductive Clock
  | hpet (period : Nat) (positive : 0 < period)
  | pit

namespace Clock

def ticks : Clock → Ticks
  | hpet period positive =>
    { tick := period, rate := period / femtosPerNano, positive := positive }
  | pit => { tick := femtosPerSecond / pitFreqHz, rate := 1, positive := by decide }

def resolution : Clock → Nat
  | hpet _ _ => femtosPerNano
  | pit => femtosPerMilli

/-- One tick of the clock and its resolution. -/
def slack (c : Clock) : Nat := c.ticks.tick + c.resolution

/-- The statics of `hpet.c` at time `t`, the main counter having run since time 0. -/
def hpetAt (c : Clock) (t : Nat) : Hpet :=
  match c with
  | hpet period _ =>
    { hpet := some
        { generalCapabilities := period * 2 ^ 32 + 2 ^ 15
          generalConfiguration := 1
          mainCounterValue := u64 (t / period) }
      hpetPeriod := period / femtosPerNano }
  | pit => hpetStatics

def reading (c : Clock) (t : Nat) : Nat := hpetGetNanos (c.hpetAt t) (pitTicksAt t)

/-- Neither clock is fast. -/
theorem rate_unit (c : Clock) : c.ticks.rate * femtosPerNano ≤ c.ticks.tick := by
  cases c with
  | hpet period _ => exact Nat.div_mul_le_self ..
  | pit => decide

theorem pitCallback_iterate (n : Nat) : pitCallback^[n] 0 = u64 n := by
  induction n with
  | zero => rfl
  | succ n inductionHypothesis =>
    rw [Function.iterate_succ_apply', inductionHypothesis]
    unfold pitCallback u64
    omega

/-- The clock counts its ticks modulo `2 ^ 64`. -/
theorem reading_eq (c : Clock) (t : Nat) : c.reading t = u64 (c.ticks.stamp t) := by
  cases c with
  | hpet period positive =>
    simp only [reading, hpetGetNanos, hpetAt, ticks, Ticks.stamp]
    unfold u64
    exact Nat.mod_mul_mod ..
  | pit =>
    simp only [reading, hpetGetNanos, hpetAt, hpetStatics, pitTicksAt, ticks, Ticks.stamp,
      pitCallback_iterate, Nat.mul_one]

theorem reading_of_lt {c : Clock} {t : Nat} (inTime : c.ticks.stamp t < 2 ^ 64) :
    c.reading t = c.ticks.stamp t := by
  rw [reading_eq, u64_of_lt inTime]

end Clock

def Hpet.counted (h : Hpet) (t : Nat) : Hpet :=
  { h with hpet := h.hpet.map fun regs =>
      { regs with mainCounterValue := u64 (t / (regs.generalCapabilities / 2 ^ 32)) } }

/-- After `hpet_init`, `hpet_get_nanos` reads one of the clocks. -/
theorem hpetInit_clock {sdt : Option HpetRegs} {h : Hpet}
    (booted : hpetInit hpetStatics sdt = some h) :
    ∃ c : Clock, ∀ t, hpetGetNanos (h.counted t) (pitTicksAt t) = c.reading t := by
  cases sdt with
  | none =>
    simp only [hpetInit, Option.some.injEq] at booted
    subst booted
    exact ⟨.pit, fun _ => rfl⟩
  | some regs =>
    simp only [hpetInit] at booted
    split at booted
    · cases booted
      exact ⟨.pit, fun _ => rfl⟩
    · split at booted
      · cases booted
      · rename_i _ period
        cases booted
        exact ⟨.hpet (regs.generalCapabilities / 2 ^ 32) (Nat.pos_of_ne_zero period), fun _ => rfl⟩

end HanOS.Core
