import HanOS.Foundations.ByteMem

/-!
# C strings (`lib/string.c`)

A string is the list of its bytes before the terminating NUL.  Reading past the
list reads that NUL.
-/

namespace HanOS.Lib

open HanOS.Foundations

abbrev CString := List Byte

/-- `strncmp`: the difference at the first byte where the strings differ or one of them ends. -/
def strncmp : CString → CString → Nat → Int
  | _, _, 0 => 0
  | a, b, len + 1 =>
    let x := a.headD 0
    let y := b.headD 0
    if x ≠ y ∨ x = 0 ∨ y = 0 then x.toInt - y.toInt
    else strncmp a.tail b.tail len

def strcmp : CString → CString → Int
  | [], b => 0 - (b.headD 0).toInt
  | x :: a, b =>
    let y := b.headD 0
    if x ≠ y ∨ x = 0 ∨ y = 0 then x.toInt - y.toInt else strcmp a b.tail

/-- Within the bound and without NUL bytes, `strncmp` compares the whole strings. -/
theorem strncmp_eq_zero_iff {a b : CString} {len : Nat} (aFits : a.length < len)
    (bFits : b.length < len) (aTerminated : (0 : Byte) ∉ a) (bTerminated : (0 : Byte) ∉ b) :
    strncmp a b len = 0 ↔ a = b := by
  induction len generalizing a b with
  | zero => omega
  | succ len inductionHypothesis =>
    have differ : ∀ x y : Byte, x ≠ y → x.toInt - y.toInt ≠ 0 := fun x y distinct equal =>
      distinct (BitVec.eq_of_toInt_eq (by omega))
    cases a with
    | nil =>
      cases b with
      | nil => simp [strncmp]
      | cons y b =>
        have nonzero : (0 : Byte) ≠ y := fun equal => bTerminated (by simp [equal])
        simpa [strncmp] using differ y 0 nonzero.symm
    | cons x a =>
      have nonzero : x ≠ 0 := fun equal => aTerminated (by simp [equal])
      cases b with
      | nil => simpa [strncmp] using differ x 0 nonzero
      | cons y b =>
        by_cases same : x = y
        · subst same
          simp only [List.length_cons, List.mem_cons, not_or] at aFits bFits aTerminated bTerminated
          simpa [strncmp, show x ≠ 0#8 from nonzero] using
            inductionHypothesis (by omega) (by omega) aTerminated.2 bTerminated.2
        · simp [strncmp, same, differ x y same]

end HanOS.Lib
