import HanOS.Foundations.ByteMem
import Mathlib.Tactic.IntervalCases
import Mathlib.Tactic.Tauto

/-!
# Bits in memory

A bit is named by the address of its byte and its position in it.  Setting or
clearing one leaves every other bit and every other byte as it was.
-/

namespace HanOS.Foundations

def bitAt (m : Mem) (a k : Nat) : Bool := (m a &&& 1#8 <<< k) ≠ 0

def withBit (m : Mem) (a k : Nat) : Mem := fun x => if x = a then m x ||| 1#8 <<< k else m x

def withoutBit (m : Mem) (a k : Nat) : Mem := fun x => if x = a then m x &&& ~~~(1#8 <<< k) else m x

variable {m m' : Mem} {a b k j x : Nat}

theorem bitAt_congr (same : m a = m' a) : bitAt m a k = bitAt m' a k := by
  rw [bitAt, bitAt, same]

theorem getLsbD_mask (bound : k < 8) (other : j < 8) : (1#8 <<< k).getLsbD j = decide (j = k) := by
  interval_cases k <;> interval_cases j <;> rfl

theorem bitAt_eq_getLsbD (bound : k < 8) : bitAt m a k = (m a).getLsbD k := by
  rw [bitAt]
  cases set : (m a).getLsbD k with
  | true =>
    refine decide_eq_true fun zero => ?_
    have bit := congrArg (BitVec.getLsbD · k) zero
    simp [set, getLsbD_mask bound bound, -BitVec.shiftLeft_eq'] at bit
  | false =>
    refine decide_eq_false (not_not.mpr (BitVec.eq_of_getLsbD_eq fun j other => ?_))
    rw [BitVec.getLsbD_and, getLsbD_mask bound other,
      show (0 : Byte).getLsbD j = false from BitVec.getLsbD_zero]
    by_cases same : j = k
    · rw [same, set, Bool.false_and]
    · rw [decide_eq_false same, Bool.and_false]

theorem withBit_outside (outside : x ≠ a) : withBit m a k x = m x := if_neg outside

theorem withoutBit_outside (outside : x ≠ a) : withoutBit m a k x = m x := if_neg outside

theorem bitAt_withBit (bound : k < 8) (other : j < 8) :
    bitAt (withBit m a k) b j = if b = a ∧ j = k then true else bitAt m b j := by
  by_cases same : b = a
  · rw [bitAt_eq_getLsbD other, bitAt_eq_getLsbD other, withBit, if_pos same, BitVec.getLsbD_or,
      getLsbD_mask bound other]
    by_cases bit : j = k <;> simp [same, bit]
  · rw [if_neg (by tauto), bitAt_congr (withBit_outside same)]

theorem bitAt_withoutBit (bound : k < 8) (other : j < 8) :
    bitAt (withoutBit m a k) b j = if b = a ∧ j = k then false else bitAt m b j := by
  by_cases same : b = a
  · rw [bitAt_eq_getLsbD other, bitAt_eq_getLsbD other, withoutBit, if_pos same, BitVec.getLsbD_and,
      BitVec.getLsbD_not, getLsbD_mask bound other]
    by_cases bit : j = k <;> simp [same, bit, other]
  · rw [if_neg (by tauto), bitAt_congr (withoutBit_outside same)]

end HanOS.Foundations
