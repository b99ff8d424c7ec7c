import Mathlib.Data.Nat.Basic
import Mathlib.Tactic.TypeStar

/-!
# Loops

`forLoop body n` is `for (i = 0; i < n; i++) body`.  A loop is reasoned about by an
invariant that says what the first `i` passes have done (`forLoop_invariant`).

`whileLoop test body fuel` is `while (test) body`, with a result if it ends within `fuel` passes.
Whether it does is shown by the states it goes through (`whileLoop_trace`), or by an invariant under
which the test never fails (`whileLoop_forever`).

`seek` goes through a list of lengths that follow one another, and finds the one that reaches beyond
a point (`seek_range'`).
-/

namespace HanOS.Foundations

variable {State : Type*}

def forLoop (body : Nat → State → State) : Nat → State → State
  | 0, state => state
  | n + 1, state => body n (forLoop body n state)

theorem forLoop_invariant {body : Nat → State → State} {n : Nat} {state : State}
    (holds : Nat → State → Prop) (initially : holds 0 state)
    (step : ∀ i, i < n → ∀ s, holds i s → holds (i + 1) (body i s)) :
    holds n (forLoop body n state) := by
  induction n with
  | zero => exact initially
  | succ n inductionHypothesis =>
    apply step n (Nat.lt_succ_self n)
    apply inductionHypothesis
    intro i bound
    exact step i (Nat.lt_succ_of_lt bound)

theorem forLoop_kept {Value : Type*} {body : Nat → State → State} {n : Nat} {state : State}
    (view : State → Value) (kept : ∀ i s, view (body i s) = view s) :
    view (forLoop body n state) = view state := by
  apply forLoop_invariant fun _ s => view s = view state
  · rfl
  · intro i _ s held
    rw [kept, held]

/-- A state that no pass changes comes out as it went in. -/
theorem forLoop_same {body : Nat → State → State} {n : Nat} {state : State}
    (same : ∀ i, body i state = state) : forLoop body n state = state := by
  apply forLoop_invariant fun _ s => s = state
  · rfl
  · intro i _ s held
    rw [held, same]

/-! ## Loops with a test -/

section While

variable {test : State → Prop} [DecidablePred test] {body : State → State} {fuel more : Nat}
  {state final other : State}

def whileLoop (test : State → Prop) [DecidablePred test] (body : State → State) :
    Nat → State → Option State
  | 0, state => if test state then none else some state
  | fuel + 1, state => if test state then whileLoop test body fuel (body state) else some state

theorem whileLoop_mono (ended : whileLoop test body fuel state = some final) (le : fuel ≤ more) :
    whileLoop test body more state = some final := by
  induction fuel generalizing state more with
  | zero =>
    rw [whileLoop] at ended
    split at ended
    · cases ended
    · next stops => cases more <;> rwa [whileLoop, if_neg stops]
  | succ fuel inductionHypothesis =>
    obtain ⟨more, rfl⟩ : ∃ n, more = n + 1 := ⟨more - 1, by omega⟩
    rw [whileLoop] at ended ⊢
    split at ended
    · next goes => exact (if_pos goes).trans (inductionHypothesis ended (by omega))
    · next stops => exact (if_neg stops).trans ended

theorem whileLoop_invariant (holds : State → Prop)
    (step : ∀ s, test s → holds s → holds (body s)) (initially : holds state)
    (ended : whileLoop test body fuel state = some final) : holds final := by
  induction fuel generalizing state with
  | zero =>
    rw [whileLoop] at ended
    split at ended
    · cases ended
    · cases ended
      exact initially
  | succ fuel inductionHypothesis =>
    rw [whileLoop] at ended
    split at ended
    · next goes => exact inductionHypothesis (step state goes initially) ended
    · cases ended
      exact initially

/-- The bound does not matter to the result. -/
theorem whileLoop_unique (ended : whileLoop test body fuel state = some final)
    (again : whileLoop test body more state = some other) : final = other :=
  Option.some.inj ((whileLoop_mono ended (Nat.le_max_left fuel more)).symm.trans
    (whileLoop_mono again (Nat.le_max_right fuel more)))

/-- The loop goes through the states `trace 0`, `trace 1` and so on up to `trace n`. -/
theorem whileLoop_trace (trace : Nat → State) {n : Nat} (goes : ∀ k < n, test (trace k))
    (step : ∀ k < n, body (trace k) = trace (k + 1)) (stops : ¬ test (trace n)) (enough : n ≤ fuel) :
    whileLoop test body fuel (trace 0) = some (trace n) := by
  induction n generalizing trace fuel with
  | zero => cases fuel <;> rw [whileLoop, if_neg stops]
  | succ n inductionHypothesis =>
    obtain ⟨fuel, rfl⟩ : ∃ m, fuel = m + 1 := ⟨fuel - 1, by omega⟩
    rw [whileLoop, if_pos (goes 0 (Nat.succ_pos n)), step 0 (Nat.succ_pos n)]
    exact inductionHypothesis (fun k => trace (k + 1)) (fun k below => goes (k + 1) (by omega))
      (fun k below => step (k + 1) (by omega)) stops (by omega)

theorem whileLoop_forever (holds : State → Prop) (goes : ∀ s, holds s → test s)
    (step : ∀ s, holds s → holds (body s)) (initially : holds state) :
    whileLoop test body fuel state = none := by
  induction fuel generalizing state with
  | zero => rw [whileLoop, if_pos (goes state initially)]
  | succ fuel inductionHypothesis =>
    rw [whileLoop, if_pos (goes state initially)]
    exact inductionHypothesis (step state initially)

end While

/-! ## Searches -/

section Seek

variable {length : Nat → Nat} {point : Nat}

/-- The item of the list in which the point lies, with the place where it starts; the items have
    their lengths and follow one another from `start` on. -/
def seek (point : Nat) (length : Nat → Nat) : List Nat → Nat → Option (Nat × Nat)
  | [], _ => none
  | x :: xs, start =>
    if point < start + length x then some (x, start) else seek point length xs (start + length x)

/-- Goes on with what `seek` finds. -/
def seekThen {α : Type*} (point : Nat) (length : Nat → Nat) (items : List Nat) (start : Nat)
    (missing : α) (found : Nat → Nat → α) : α :=
  match seek point length items start with
  | none => missing
  | some (x, start) => found x start

section SeekThen

variable {α : Type*} {items : List Nat} {start x place : Nat} {missing : α} {found : Nat → Nat → α}

theorem seekThen_some (at_x : seek point length items start = some (x, place)) :
    seekThen point length items start missing found = found x place := by
  rw [seekThen, at_x]

theorem seekThen_none (nowhere : seek point length items start = none) :
    seekThen point length items start missing found = missing := by
  rw [seekThen, nowhere]

end SeekThen

/-- Items with consecutive numbers from `a` on, which start at `starts 0`, `starts 1` and so on. -/
theorem seek_range' (starts : Nat → Nat) {a n : Nat}
    (step : ∀ k < n, starts (k + 1) = starts k + length (a + k)) (low : starts 0 ≤ point)
    (high : point < starts n) :
    ∃ k < n, seek point length (List.range' a n) (starts 0) = some (a + k, starts k) ∧
      starts k ≤ point ∧ point < starts (k + 1) := by
  induction n generalizing a starts with
  | zero => omega
  | succ n inductionHypothesis =>
    have first : starts 1 = starts 0 + length a := step 0 (Nat.succ_pos n)
    rw [List.range'_succ, seek, ← first]
    split
    · next within => exact ⟨0, Nat.succ_pos n, rfl, low, within⟩
    · next beyond =>
      obtain ⟨k, below, found, lower, upper⟩ := inductionHypothesis (fun k => starts (k + 1))
        (fun k below => by rw [step (k + 1) (by omega), Nat.add_right_comm a, Nat.add_assoc])
        (Nat.le_of_not_lt beyond) high
      exact ⟨k + 1, by omega, found.trans (by rw [Nat.add_right_comm, Nat.add_assoc]), lower, upper⟩

theorem starts_le (starts : Nat → Nat) {a n : Nat}
    (step : ∀ k < n, starts (k + 1) = starts k + length (a + k)) : starts 0 ≤ starts n := by
  induction n with
  | zero => exact le_rfl
  | succ n inductionHypothesis =>
    have last := step n (Nat.lt_succ_self n)
    have below := inductionHypothesis fun k below => step k (Nat.lt_succ_of_lt below)
    omega

theorem seek_none (starts : Nat → Nat) {a n : Nat}
    (step : ∀ k < n, starts (k + 1) = starts k + length (a + k)) (beyond : starts n ≤ point) :
    seek point length (List.range' a n) (starts 0) = none := by
  induction n generalizing a starts with
  | zero => rfl
  | succ n inductionHypothesis =>
    have first : starts 1 = starts 0 + length a := step 0 (Nat.succ_pos n)
    have rest : ∀ k < n, starts (k + 1 + 1) = starts (k + 1) + length (a + 1 + k) := fun k below => by
      rw [step (k + 1) (by omega), Nat.add_right_comm a, Nat.add_assoc]
    have ends : starts 1 ≤ starts (n + 1) := starts_le (fun k => starts (k + 1)) rest
    rw [List.range'_succ, seek, ← first, if_neg (by omega)]
    exact inductionHypothesis (fun k => starts (k + 1)) rest beyond

end Seek

end HanOS.Foundations
