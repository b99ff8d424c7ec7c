import Mathlib.Algebra.GroupWithZero.Nat
import Mathlib.Data.List.DropRight
import Mathlib.Logic.Function.Basic
import Mathlib.Tactic.TypeStar

/-!
# Ring buffers

A position counts up without end and a buffer of `size` elements keeps it at its
remainder.  `window buff start count` are the elements at `count` positions from
`start` on.  A write at the position behind a window that leaves one element free
extends the window (`window_write`).
-/

namespace HanOS.Foundations

variable {α : Type*} {size : Nat}

/-- The index `i` of position `p`, for positions that have wrapped around once at most. -/
def Wraps (size i p : Nat) : Prop := i < size ∧ (i = p ∨ i + size = p)

theorem Wraps.mod {i p : Nat} (wraps : Wraps size i p) : p % size = i := by
  obtain ⟨bound, rfl | rfl⟩ := wraps
  · exact Nat.mod_eq_of_lt bound
  · rw [Nat.add_mod_right, Nat.mod_eq_of_lt bound]

theorem Wraps.next {i p : Nat} (wraps : Wraps size i p) (near : p + 1 < 2 * size) :
    Wraps size (if i + 1 ≥ size then 0 else i + 1) (p + 1) := by
  obtain ⟨bound, place⟩ := wraps
  unfold Wraps
  by_cases last : i + 1 ≥ size
  · rw [if_pos last]
    omega
  · rw [if_neg last]
    omega

variable [NeZero size]

theorem Wraps.ofNat {i p : Nat} (wraps : Wraps size i p) : Fin.ofNat size p = ⟨i, wraps.1⟩ :=
  Fin.ext wraps.mod

def window (buff : Fin size → α) (start count : Nat) : List α :=
  (List.range count).map fun j => buff (Fin.ofNat size (start + j))

@[simp] theorem window_zero (buff : Fin size → α) (start : Nat) : window buff start 0 = [] := rfl

@[simp] theorem length_window (buff : Fin size → α) (start count : Nat) :
    (window buff start count).length = count := by
  simp [window]

theorem window_snoc (buff : Fin size → α) (start count : Nat) :
    window buff start (count + 1) =
      window buff start count ++ [buff (Fin.ofNat size (start + count))] := by
  simp [window, List.range_succ]

theorem window_cons (buff : Fin size → α) (start count : Nat) :
    window buff start (count + 1) =
      buff (Fin.ofNat size start) :: window buff (start + 1) count := by
  simp only [window, List.range_succ_eq_map, List.map_cons, List.map_map, Nat.add_zero]
  congr 1
  apply List.map_congr_left
  intro j _
  simp only [Function.comp, Nat.succ_eq_add_one]
  congr 2
  omega

/-- A window may start at the index of its first position. -/
theorem window_wrap (buff : Fin size → α) {i p : Nat} (wraps : Wraps size i p) (count : Nat) :
    window buff p count = window buff i count := by
  apply List.map_congr_left
  intro j _
  congr 1
  apply Fin.ext
  simp only [Fin.ofNat]
  obtain ⟨_, rfl | rfl⟩ := wraps
  · rfl
  · rw [Nat.add_right_comm, Nat.add_mod_right]

/-- Different positions less than a full turn apart are different elements. -/
theorem ofNat_ne {p q : Nat} (less : p < q) (near : q < p + size) :
    Fin.ofNat size p ≠ Fin.ofNat size q := by
  intro same
  have mod : p % size = q % size := congrArg Fin.val same
  have apart : (q - p) % size = 0 := Nat.sub_mod_eq_zero_of_mod_eq mod.symm
  rw [Nat.mod_eq_of_lt (by omega)] at apart
  omega

theorem window_write [DecidableEq (Fin size)] (buff : Fin size → α) (start : Nat) {count : Nat}
    (room : count < size) (value : α) :
    window (Function.update buff (Fin.ofNat size (start + count)) value) start (count + 1) =
      window buff start count ++ [value] := by
  rw [window_snoc, Function.update_self]
  congr 1
  apply List.map_congr_left
  intro j member
  have earlier : j < count := List.mem_range.mp member
  exact Function.update_of_ne (ofNat_ne (by omega) (by omega)) _ _

end HanOS.Foundations
