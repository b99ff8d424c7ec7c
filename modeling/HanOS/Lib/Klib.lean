import Mathlib.Algebra.Order.Ring.Nat

/-!
# Unsigned arithmetic (`lib/klib.h`)

C values are natural numbers; `u32` and `u64` are the conversions to the unsigned
types, applied where the code's own arithmetic can leave their range.
-/

namespace HanOS.Lib

def u32 (n : Nat) : Nat := n % 2 ^ 32

def u64 (n : Nat) : Nat := n % 2 ^ 64

/-- `a - b` on `uint32_t` -/
def sub32 (a b : Nat) : Nat := if b ≤ a then a - b else 2 ^ 32 + a - b

/-- `a - b` on `size_t` -/
def sub64 (a b : Nat) : Nat := if b ≤ a then a - b else 2 ^ 64 + a - b

def divRoundup32 (a b : Nat) : Nat := u32 (u32 a + (b - 1)) / b

def divRoundup64 (a b : Nat) : Nat := u64 (u64 a + (b - 1)) / b

variable {a b n : Nat}

theorem u32_of_lt (bound : n < 2 ^ 32) : u32 n = n := Nat.mod_eq_of_lt bound

theorem u64_of_lt (bound : n < 2 ^ 64) : u64 n = n := Nat.mod_eq_of_lt bound

theorem sub32_of_le (le : b ≤ a) : sub32 a b = a - b := if_pos le

theorem sub64_of_le (le : b ≤ a) : sub64 a b = a - b := if_pos le

end HanOS.Lib
