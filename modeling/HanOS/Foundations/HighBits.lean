import Mathlib.Algebra.Group.Nat.Defs
import Mathlib.Data.Nat.Bitwise

/-!
# Masks of high bits

`highBits w k` has the bits from `k` on.  Its complement is one less than `2 ^ k`, which is how the size
of an aligned range is read off the bits of its base that can be written.
-/

namespace HanOS.Foundations

variable {w v k i : Nat}

def highBits (w k : Nat) : BitVec w := BitVec.allOnes w <<< k

theorem getLsbD_highBits : (highBits w k).getLsbD i = (decide (i < w) && decide (k ≤ i)) := by
  rw [highBits, BitVec.getLsbD_shiftLeft, BitVec.getLsbD_allOnes]
  grind

theorem not_highBits_add_one : ~~~highBits w k + 1 = 1#w <<< k :=
  calc ~~~highBits w k + 1
    _ = -highBits w k := (BitVec.neg_eq_not_add _).symm
    _ = 1#w <<< k := by
      rw [highBits, ← BitVec.neg_one_eq_allOnes, BitVec.shiftLeft_neg, BitVec.neg_neg]

theorem setWidth_highBits (le : v ≤ w) : (highBits w k).setWidth v = highBits v k := by
  apply BitVec.eq_of_getLsbD_eq
  intro i below
  rw [BitVec.getLsbD_setWidth, getLsbD_highBits, getLsbD_highBits]
  grind

/-- The low bits of an aligned word. -/
theorem getLsbD_of_aligned {x : BitVec w} (aligned : 2 ^ k ∣ x.toNat) (below : i < k) :
    x.getLsbD i = false := by
  obtain ⟨multiple, total⟩ := aligned
  rw [← BitVec.testBit_toNat, total, Nat.testBit_two_pow_mul]
  grind

end HanOS.Foundations
