import Mathlib.Tactic.TypeStar

/-!
# Runs of a guarded transition system

A system is a partial step function on states: `none` is a step the system does
not survive.  `Run step guard start final` says that some sequence of actions,
each allowed by `guard` in the state it is taken in, leads from `start` to
`final`.  A safety property of every reachable state is an invariant: it holds at
the start and every allowed step preserves it (`Run.invariant`).
-/

namespace HanOS.Foundations

variable {State Action : Type*}

inductive Run (step : State → Action → Option State) (guard : State → Action → Prop)
    (start : State) : State → Prop
  | refl : Run step guard start start
  | tail {before after : State} {action : Action} : Run step guard start before →
      guard before action → step before action = some after → Run step guard start after

/-- The guard of a run whose every action is allowed. -/
def anyAction : State → Action → Prop := fun _ _ => True

variable {step : State → Action → Option State} {guard : State → Action → Prop}
  {start final : State}

theorem Run.invariant (holds : State → Prop) (initially : holds start)
    (preserved : ∀ before action after, holds before → guard before action →
      step before action = some after → holds after)
    (run : Run step guard start final) : holds final := by
  induction run with
  | refl => exact initially
  | tail _ allowed stepped inductionHypothesis =>
    exact preserved _ _ _ inductionHypothesis allowed stepped

/-- Simulation: when every allowed step is matched by a step of another system or leaves its state
    related, a run has a run of that system beside it. -/
theorem Run.simulation {Other OtherAction : Type*} {otherStep : Other → OtherAction → Option Other}
    {otherStart : Other} (related : State → Other → Prop) (initially : related start otherStart)
    (matched : ∀ before other action after, related before other → guard before action →
      step before action = some after → ∃ next, related after next ∧
        (next = other ∨ ∃ otherAction, otherStep other otherAction = some next))
    (run : Run step guard start final) :
    ∃ otherFinal, related final otherFinal ∧ Run otherStep anyAction otherStart otherFinal := by
  induction run with
  | refl => exact ⟨otherStart, initially, .refl⟩
  | tail _ allowed stepped inductionHypothesis =>
    obtain ⟨other, relation, otherRun⟩ := inductionHypothesis
    obtain ⟨next, relation', same | ⟨otherAction, moved⟩⟩ := matched _ _ _ _ relation allowed stepped
    · exact ⟨next, relation', same ▸ otherRun⟩
    · exact ⟨next, relation', .tail otherRun trivial moved⟩

/-- A list of actions executed in order gives a run, when every one of them is allowed in its turn. -/
theorem Run.of_guarded [∀ state action, Decidable (guard state action)] {actions : List Action}
    (executed : actions.foldlM (fun state action =>
      if guard state action then step state action else none) start = some final) :
    Run step guard start final := by
  suffices extend : ∀ (actions : List Action) (middle : State), Run step guard start middle →
      actions.foldlM (fun state action => if guard state action then step state action else none)
        middle = some final → Run step guard start final from
    extend actions start .refl executed
  intro actions
  induction actions with
  | nil => intro middle run finished; cases finished; exact run
  | cons action actions inductionHypothesis =>
    intro middle run finished
    rw [List.foldlM_cons] at finished
    obtain ⟨next, turn, finished⟩ := Option.bind_eq_some_iff.mp finished
    split at turn
    · next allowed => exact inductionHypothesis next (.tail run allowed turn) finished
    · cases turn

/-- The same, when the guard lets every one of them pass in any state. -/
theorem Run.of_allowed {actions : List Action} (allowed : ∀ action ∈ actions, ∀ state, guard state action)
    (executed : actions.foldlM step start = some final) : Run step guard start final := by
  classical
  apply @Run.of_guarded _ _ step guard start final _ actions
  rw [← executed]
  clear executed
  induction actions generalizing start with
  | nil => rfl
  | cons action actions inductionHypothesis =>
    simp only [List.foldlM_cons, if_pos (allowed action (List.mem_cons_self ..) start)]
    congr 1
    funext next
    exact inductionHypothesis fun other member => allowed other (List.mem_cons_of_mem _ member)

theorem Run.of_foldlM (allowed : ∀ state action, guard state action) (actions : List Action)
    (executed : actions.foldlM step start = some final) : Run step guard start final :=
  Run.of_allowed (fun action _ state => allowed state action) executed

theorem foldlM_invariant {actions : List Action} (holds : State → Prop) (initially : holds start)
    (preserved : ∀ before action after, holds before → step before action = some after → holds after)
    (finished : actions.foldlM step start = some final) : holds final := by
  induction actions generalizing start with
  | nil => exact Option.some.inj finished ▸ initially
  | cons action actions inductionHypothesis =>
    rw [List.foldlM_cons] at finished
    obtain ⟨next, stepped, rest⟩ := Option.bind_eq_some_iff.mp finished
    exact inductionHypothesis (preserved start action next initially stepped) rest

/-- Every action of a list is allowed in the state it is taken in. -/
def Along (step : State → Action → Option State) (guard : State → Action → Prop) :
    State → List Action → Prop
  | _, [] => True
  | state, action :: rest =>
      guard state action ∧ ∀ next, step state action = some next → Along step guard next rest

/-- An invariant that lets every allowed step succeed carries a list of them through. -/
theorem Along.finishes {actions : List Action} (holds : State → Prop)
    (along : Along step guard start actions) (initially : holds start)
    (preserved : ∀ before action, holds before → guard before action →
      ∃ after, step before action = some after ∧ holds after) :
    ∃ final, actions.foldlM step start = some final ∧ holds final := by
  induction actions generalizing start with
  | nil => exact ⟨start, rfl, initially⟩
  | cons action actions inductionHypothesis =>
    obtain ⟨next, stepped, held⟩ := preserved start action initially along.1
    obtain ⟨final, finished, last⟩ := inductionHypothesis (along.2 next stepped) held
    refine ⟨final, ?_, last⟩
    rw [List.foldlM_cons, stepped]
    exact finished

end HanOS.Foundations
