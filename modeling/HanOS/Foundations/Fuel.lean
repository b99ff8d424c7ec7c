import Mathlib.Order.Filter.AtTopBot.Basic

/-!
# Enough fuel

A program whose loops are bounded by a number of passes is a function of that number, its fuel.
`Ends f result` says that from some fuel on the result is always the same.  The loops of a program
may need different amounts: `Ends.bind` puts the parts of a program together without naming them.
-/

namespace HanOS.Foundations

universe u

variable {ε : Type*} {α β : Type u} {f : Nat → Except ε α} {g : α → Nat → Except ε β} {a : α}

def Ends (f : Nat → Except ε α) (result : Except ε α) : Prop :=
  ∀ᶠ fuel in Filter.atTop, f fuel = result

theorem Ends.from {result : Except ε α} (least : Nat)
    (same : ∀ fuel, least ≤ fuel → f fuel = result) : Ends f result :=
  Filter.eventually_atTop.mpr ⟨least, same⟩

theorem Ends.const {value result : Except ε α} (same : value = result) : Ends (fun _ => value) result :=
  .from 0 fun _ _ => same

theorem Ends.bind {result : Except ε β} (ends : Ends f (.ok a)) (rest : Ends (g a) result) :
    Ends (fun fuel => f fuel >>= fun x => g x fuel) result := by
  filter_upwards [ends, rest] with fuel first second
  rw [first]
  exact second

/-- What stops the first part stops the whole. -/
theorem Ends.stop {e : ε} (ends : Ends f (.error e)) :
    Ends (fun fuel => f fuel >>= fun x => g x fuel) (.error e) := by
  filter_upwards [ends] with fuel first
  rw [first]
  rfl

end HanOS.Foundations
