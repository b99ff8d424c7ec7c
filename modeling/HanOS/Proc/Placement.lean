import HanOS.Proc.Sched
import Mathlib.Algebra.BigOperators.Group.Finset.Basic
import Mathlib.Data.Fintype.Basic

/-!
# Every task is in exactly one place

The sections of `do_context_switch`, `sched_add` and `sched_sleep`, interleaved in
any order on any number of CPUs, keep each task that was ever added either queued
once or running on one CPU, and keep the idle tasks out of the queue.

The argument is a conservation law.  `places s t` counts the queue entries and the
CPUs that hold `t`; a context switch moves tasks between the two kinds of places
without changing the count (`doContextSwitch_places`), and only `sched_add` makes a
new one.
-/

namespace HanOS.Proc

open HanOS.Foundations

variable {cpus : Nat}

/-! ## The system -/

/-- One lock-protected section, with what it reads from outside. -/
inductive Section (cpus : Nat)
  | contextSwitch (cpu : Fin cpus) (stack : Stack cpus) (nanos : Nat → Nat)
  | add
  | sleep (cpu : Fin cpus) (nanos millis : Nat)

def sectionStep (s : Sched cpus) : Section cpus → Option (Sched cpus)
  | .contextSwitch cpu stack nanos => (doContextSwitch s cpu stack nanos).map Prod.fst
  | .add => some (schedAdd s)
  | .sleep cpu nanos millis => some (schedSleep s cpu nanos millis)

/-- Empty queues and one idle task for each CPU, all made before the run starts. -/
structure Initial (s : Sched cpus) : Prop where
  active : s.tasksActive = []
  running : ∀ cpu, s.tasksRunning cpu = none
  idle : ∀ cpu, ∃ t : Nat, s.tasksIdle cpu = some t ∧ t < s.currTid
  idle_injective : ∀ cpu other t, s.tasksIdle cpu = some t → s.tasksIdle other = some t → cpu = other

theorem Initial.idle_below {s : Sched cpus} (initial : Initial s) (cpu : Fin cpus) (t : Nat)
    (idle : s.tasksIdle cpu = some t) : t < s.currTid := by
  obtain ⟨u, same, below⟩ := initial.idle cpu
  exact Option.some.inj (idle.symm.trans same) ▸ below

/-- The tasks `sched_add` has made in a run from `start`. -/
def Added (start s : Sched cpus) (t : Nat) : Prop := start.currTid ≤ t ∧ t < s.currTid

/-! ## Counting places -/

def runningCount (running : Fin cpus → Option TaskRef) (t : TaskRef) : Nat :=
  ∑ cpu, if running cpu = some t then 1 else 0

def places (s : Sched cpus) (t : TaskRef) : Nat :=
  s.tasksActive.count (some t) + runningCount s.tasksRunning t

theorem runningCount_update (running : Fin cpus → Option TaskRef) (cpu : Fin cpus)
    (next : Option TaskRef) (t : TaskRef) :
    runningCount (Function.update running cpu next) t + (if running cpu = some t then 1 else 0) =
      runningCount running t + (if next = some t then 1 else 0) := by
  have elsewhere : ∀ other ∈ Finset.univ.erase cpu,
      (if Function.update running cpu next other = some t then 1 else 0) =
        if running other = some t then 1 else 0 := by
    intro other member
    rw [Function.update_of_ne (Finset.ne_of_mem_erase member)]
  have split : ∀ held : Fin cpus → Option TaskRef, runningCount held t =
      (if held cpu = some t then 1 else 0) +
        ∑ other ∈ Finset.univ.erase cpu, if held other = some t then 1 else 0 :=
    fun held => (Finset.add_sum_erase _ _ (Finset.mem_univ cpu)).symm
  rw [split (Function.update running cpu next), split running, Finset.sum_congr rfl elsewhere,
    Function.update_self]
  omega

theorem runningCount_eq_zero {running : Fin cpus → Option TaskRef} {t : TaskRef} :
    runningCount running t = 0 ↔ ∀ cpu, running cpu ≠ some t := by
  simp [runningCount]

theorem runningCount_eq_one {running : Fin cpus → Option TaskRef} {t : TaskRef}
    (one : runningCount running t = 1) : ∃! cpu, running cpu = some t := by
  have positive : ∃ cpu, running cpu = some t := by
    by_contra nowhere
    rw [runningCount_eq_zero.mpr (fun cpu held => nowhere ⟨cpu, held⟩)] at one
    omega
  obtain ⟨cpu, held⟩ := positive
  refine ⟨cpu, held, ?_⟩
  have vacated := runningCount_update running cpu none t
  simp only [held, one, if_true, reduceCtorEq, if_false] at vacated
  have none_left := runningCount_eq_zero.mp (by omega : runningCount
    (Function.update running cpu none) t = 0)
  intro other alsoHeld
  by_contra different
  exact none_left other (by rwa [Function.update_of_ne different])

/-! ## What a section does to the places -/

theorem Selection.count {tasks : TaskRef → Task cpus} {nanos : Nat → Nat}
    {active : List (Option TaskRef)} {next : Option TaskRef} {left : List (Option TaskRef)}
    (selection : Selection tasks nanos active (next, left)) (t : TaskRef) :
    active.count (some t) = left.count (some t) + (if next = some t then 1 else 0) := by
  cases selection with
  | found before after u split skipped runnable =>
    subst split
    simp only [List.count_append, List.count_cons, beq_iff_eq, Option.some.injEq]
    omega
  | gaveUp skipped => simp

theorem saveCurrent_tasksRunning (s : Sched cpus) (cpu : Fin cpus) (stack : Stack cpus) :
    (saveCurrent s cpu stack).tasksRunning = s.tasksRunning := by
  unfold saveCurrent; split <;> rfl

theorem saveCurrent_tasksIdle (s : Sched cpus) (cpu : Fin cpus) (stack : Stack cpus) :
    (saveCurrent s cpu stack).tasksIdle = s.tasksIdle := by
  unfold saveCurrent; split <;> rfl

theorem saveCurrent_currTid (s : Sched cpus) (cpu : Fin cpus) (stack : Stack cpus) :
    (saveCurrent s cpu stack).currTid = s.currTid := by
  unfold saveCurrent; split <;> rfl

theorem saveCurrent_gate (s : Sched cpus) (cpu : Fin cpus) (stack : Stack cpus) :
    (saveCurrent s cpu stack).smpNumCpus = s.smpNumCpus ∧ (saveCurrent s cpu stack).cpuNum = s.cpuNum := by
  unfold saveCurrent
  split <;> exact ⟨rfl, rfl⟩

/-- The interrupted task enters the queue, the idle task of the CPU does not. -/
theorem saveCurrent_count (s : Sched cpus) (cpu : Fin cpus) (stack : Stack cpus) (t : TaskRef) :
    (saveCurrent s cpu stack).tasksActive.count (some t) =
      s.tasksActive.count (some t) +
        (if s.tasksRunning cpu = some t ∧ s.tasksIdle cpu ≠ some t then 1 else 0) := by
  unfold saveCurrent
  cases held : s.tasksRunning cpu with
  | none => simp
  | some curr =>
    by_cases idle : some curr = s.tasksIdle cpu
    · have absent : ¬ (some curr = some t ∧ s.tasksIdle cpu ≠ some t) := by
        rintro ⟨same, other⟩
        exact other (idle.symm.trans same)
      simp only [ne_eq, idle, not_true, if_false] at absent ⊢
      rw [if_neg absent, Nat.add_zero]
    · simp only [ne_eq, idle, not_false_eq_true, if_true, List.count_append, List.count_singleton,
        beq_iff_eq]
      by_cases same : some curr = some t
      · rw [if_pos same, if_pos ⟨same, fun other => idle (same.trans other.symm)⟩]
      · rw [if_neg same, if_neg (fun both => same both.1)]

/-- A section of `do_context_switch` either returned at the gate, or it selected from the queue
    with the interrupted task in it and dispatched the choice, or the idle task in its place. -/
theorem doContextSwitch_cases {s after : Sched cpus} {cpu : Fin cpus} {stack : Stack cpus}
    {nanos : Nat → Nat} {next : Option TaskRef}
    (switched : doContextSwitch s cpu stack nanos = some (after, next)) :
    (s.smpNumCpus ≠ some s.cpuNum ∧ after = s ∧ next = none) ∨
      ∃ chosen left t,
        Selection (saveCurrent s cpu stack).tasks nanos (saveCurrent s cpu stack).tasksActive
          (chosen, left) ∧
        (chosen <|> s.tasksIdle cpu) = some t ∧ next = some t ∧
        dispatch (saveCurrent s cpu stack) cpu (chosen, left) = some (after, some t) := by
  unfold doContextSwitch at switched
  split at switched
  · rename_i closed
    simp only [Option.some.injEq, Prod.mk.injEq] at switched
    exact .inl ⟨closed, switched.1.symm, switched.2.symm⟩
  · right
    obtain ⟨⟨chosen, left⟩, selected, dispatched⟩ := Option.bind_eq_some_iff.mp switched
    refine ⟨chosen, left, ?_⟩
    have selection := selectNext_selection selected
    simp only [dispatch, saveCurrent_tasksIdle] at dispatched ⊢
    cases pick : (chosen <|> s.tasksIdle cpu) with
    | none => simp [pick] at dispatched
    | some t =>
      simp only [pick, Option.some.injEq, Prod.mk.injEq] at dispatched ⊢
      obtain ⟨rfl, rfl⟩ := dispatched
      exact ⟨t, selection, rfl, rfl, rfl, rfl⟩

theorem dispatch_fields {s after : Sched cpus} {cpu : Fin cpus} {chosen : Option TaskRef}
    {left : List (Option TaskRef)} {t : TaskRef}
    (dispatched : dispatch s cpu (chosen, left) = some (after, some t)) :
    after.tasksActive = left ∧
      after.tasksRunning = Function.update s.tasksRunning cpu (some t) ∧
      after.tasksIdle = s.tasksIdle ∧ after.currTid = s.currTid := by
  simp only [dispatch] at dispatched
  split at dispatched
  · simp at dispatched
  · simp only [Option.some.injEq, Prod.mk.injEq] at dispatched
    obtain ⟨rfl, rfl⟩ := dispatched
    exact ⟨rfl, rfl, rfl, rfl⟩

/-! ## The invariant -/

/-- Each added task has one place, tasks that do not exist yet have none, and an idle task is
    never queued and runs on its own CPU only. -/
structure Placement (start s : Sched cpus) : Prop where
  idle_fixed : s.tasksIdle = start.tasksIdle
  made : start.currTid ≤ s.currTid
  once : ∀ t, Added start s t → places s t = 1
  nowhere : ∀ t, ¬ Added start s t → (∀ cpu, start.tasksIdle cpu ≠ some t) → places s t = 0
  idle_unqueued : ∀ cpu t, start.tasksIdle cpu = some t → s.tasksActive.count (some t) = 0
  idle_home : ∀ cpu other t, start.tasksIdle cpu = some t → s.tasksRunning other = some t →
    other = cpu

/-- The invariant when numbers and places of the non-idle tasks are as they were. -/
theorem Placement.of_places {start s after : Sched cpus} (placed : Placement start s)
    (idle_fixed : after.tasksIdle = s.tasksIdle) (made : after.currTid = s.currTid)
    (conserved : ∀ t, (∀ cpu, start.tasksIdle cpu ≠ some t) → places after t = places s t)
    (idle_below : ∀ cpu (t : Nat), start.tasksIdle cpu = some t → t < start.currTid)
    (idle_unqueued : ∀ cpu t, start.tasksIdle cpu = some t → after.tasksActive.count (some t) = 0)
    (idle_home : ∀ cpu other t, start.tasksIdle cpu = some t →
      after.tasksRunning other = some t → other = cpu) :
    Placement start after where
  idle_fixed := idle_fixed.trans placed.idle_fixed
  made := made ▸ placed.made
  once t added := by
    have before : Added start s t := ⟨added.1, made ▸ added.2⟩
    rw [conserved t, placed.once t before]
    intro cpu idle
    exact absurd (idle_below cpu t idle) (Nat.not_lt.mpr added.1)
  nowhere t unknown notIdle := by
    have before : ¬ Added start s t := fun added => unknown ⟨added.1, made.symm ▸ added.2⟩
    rw [conserved t notIdle, placed.nowhere t before notIdle]
  idle_unqueued := idle_unqueued
  idle_home := idle_home

theorem Placement.initial {start : Sched cpus} (initial : Initial start) :
    Placement start start where
  idle_fixed := rfl
  made := Nat.le_refl _
  once t added := absurd added.2 (Nat.not_lt.mpr added.1)
  nowhere t _ _ := by
    simp only [places, initial.active, List.count_nil, Nat.zero_add]
    exact runningCount_eq_zero.mpr (fun cpu => by simp [initial.running cpu])
  idle_unqueued cpu t _ := by simp [initial.active]
  idle_home cpu other t _ held := by simp [initial.running other] at held

/-- The idle tasks are those of the start, they are not queued, and run on their own CPUs only. -/
structure IdleApart (start s : Sched cpus) : Prop where
  fixed : s.tasksIdle = start.tasksIdle
  unqueued : ∀ cpu t, start.tasksIdle cpu = some t → s.tasksActive.count (some t) = 0
  home : ∀ cpu other t, start.tasksIdle cpu = some t → s.tasksRunning other = some t → other = cpu

theorem Placement.idleApart {start s : Sched cpus} (placed : Placement start s) : IdleApart start s :=
  ⟨placed.idle_fixed, placed.idle_unqueued, placed.idle_home⟩

/-- A context switch moves tasks between the queue and the CPUs. -/
theorem doContextSwitch_places {start s after : Sched cpus} (initial : Initial start)
    (apart : IdleApart start s) {cpu : Fin cpus} {stack : Stack cpus} {nanos : Nat → Nat}
    {next : Option TaskRef} (switched : doContextSwitch s cpu stack nanos = some (after, next)) :
    IdleApart start after ∧ after.currTid = s.currTid ∧
      ∀ t, (∀ cpu, start.tasksIdle cpu ≠ some t) → places after t = places s t := by
  rcases doContextSwitch_cases switched with ⟨_, rfl, _⟩ | ⟨chosen, left, t, selection, pick, _, dispatched⟩
  · exact ⟨apart, rfl, fun _ _ => rfl⟩
  obtain ⟨active, running, idle, currTid⟩ := dispatch_fields dispatched
  rw [saveCurrent_tasksRunning] at running
  rw [saveCurrent_tasksIdle] at idle
  rw [saveCurrent_currTid] at currTid
  -- what the selection leaves in the queue, in terms of the queue before the section
  have queue : ∀ u, after.tasksActive.count (some u) + (if chosen = some u then 1 else 0) =
      s.tasksActive.count (some u) +
        (if s.tasksRunning cpu = some u ∧ s.tasksIdle cpu ≠ some u then 1 else 0) := by
    intro u
    rw [active, ← selection.count u, saveCurrent_count]
  -- an idle task was not in the queue, so the selection cannot have chosen it
  have idle_unchosen : ∀ owner u, start.tasksIdle owner = some u → chosen ≠ some u ∧
      after.tasksActive.count (some u) = 0 := by
    intro owner u isIdle
    have absent := apart.unqueued owner u isIdle
    have unsaved : ¬ (s.tasksRunning cpu = some u ∧ s.tasksIdle cpu ≠ some u) := by
      rintro ⟨held, other⟩
      rw [apart.home owner cpu u isIdle held, apart.fixed] at other
      exact other isIdle
    have counted := queue u
    rw [absent, if_neg unsaved] at counted
    constructor
    · intro picked
      rw [if_pos picked] at counted
      omega
    · omega
  refine ⟨⟨idle.trans apart.fixed, fun owner u isIdle => (idle_unchosen owner u isIdle).2, ?_⟩,
    currTid, ?_⟩
  · intro owner other u isIdle held
    rw [running] at held
    by_cases here : other = cpu
    · subst here
      rw [Function.update_self] at held
      obtain rfl := Option.some.inj held
      cases chosen with
      | some v =>
        simp only [Option.orElse_eq_orElse, Option.orElse_some, Option.some.injEq] at pick
        subst pick
        exact absurd rfl (idle_unchosen owner v isIdle).1
      | none =>
        simp only [Option.orElse_eq_orElse, Option.orElse_none, apart.fixed] at pick
        exact initial.idle_injective other owner t pick isIdle
    · rw [Function.update_of_ne here] at held
      exact apart.home owner other u isIdle held
  · intro u notIdle
    have moved := runningCount_update s.tasksRunning cpu (some t) u
    have counted := queue u
    have notMine : s.tasksIdle cpu ≠ some u := by rw [apart.fixed]; exact notIdle cpu
    have dispatchedIff : (t = u) ↔ chosen = some u := by
      cases chosen with
      | some v =>
        simp only [Option.orElse_eq_orElse, Option.orElse_some, Option.some.injEq] at pick
        rw [pick, Option.some.injEq]
      | none =>
        simp only [Option.orElse_eq_orElse, Option.orElse_none] at pick
        constructor
        · intro same
          exact absurd (same ▸ pick) notMine
        · intro impossible
          cases impossible
    simp only [Option.some.injEq, dispatchedIff] at moved
    simp only [notMine, ne_eq, not_false_eq_true, and_true] at counted
    simp only [places, running]
    omega

theorem Placement.contextSwitch {start s after : Sched cpus} (initial : Initial start)
    (placed : Placement start s) {cpu : Fin cpus} {stack : Stack cpus} {nanos : Nat → Nat}
    {next : Option TaskRef}
    (switched : doContextSwitch s cpu stack nanos = some (after, next)) :
    Placement start after := by
  obtain ⟨apart, currTid, conserved⟩ := doContextSwitch_places initial placed.idleApart switched
  exact placed.of_places (apart.fixed.trans placed.idle_fixed.symm) currTid conserved
    initial.idle_below apart.unqueued apart.home

theorem schedAdd_cases (s : Sched cpus) :
    (s.currTid = tidMax ∧ schedAdd s = { s with tasksActive := s.tasksActive ++ [none] }) ∨
      (schedAdd s =
        { s with
          tasks := Function.update s.tasks s.currTid (freshTask s.currTid)
          currTid := s.currTid + 1
          tasksActive := s.tasksActive ++ [some s.currTid] }) := by
  unfold schedAdd taskMake
  by_cases full : s.currTid = tidMax
  · exact .inl ⟨full, by simp [full]⟩
  · exact .inr (by simp only [full, if_false])

theorem Placement.add {start s : Sched cpus} (initial : Initial start)
    (placed : Placement start s) : Placement start (schedAdd s) := by
  have idle_below := initial.idle_below
  rcases schedAdd_cases s with ⟨_, full⟩ | made
  · -- the NULL that is queued is no task's entry
    rw [full]
    apply placed.of_places
    case idle_below => exact idle_below
    case idle_home => exact placed.idle_home
    case conserved => intro t _; simp [places]
    case idle_unqueued => intro cpu t idle; simpa using placed.idle_unqueued cpu t idle
    all_goals rfl
  · -- the new task has no place yet
    have old := placed.made
    have fresh : places s s.currTid = 0 := by
      apply placed.nowhere
      · exact fun added => Nat.lt_irrefl _ added.2
      · intro cpu idle
        have below := idle_below cpu _ idle
        omega
    have count : ∀ t, places (schedAdd s) t = places s t + if s.currTid = t then 1 else 0 := by
      intro t
      simp only [made, places, List.count_append, List.count_singleton, beq_iff_eq,
        Option.some.injEq]
      omega
    have currTid : (schedAdd s).currTid = s.currTid + 1 := by rw [made]
    refine ⟨?_, by omega, ?_, ?_, ?_, ?_⟩
    · rw [made]; exact placed.idle_fixed
    · intro t added
      rw [count t]
      obtain ⟨above, below⟩ := added
      by_cases newest : s.currTid = t
      · rw [← newest, fresh, if_pos rfl]
      · rw [if_neg newest, placed.once t ⟨above, by omega⟩]
    · intro t unknown notIdle
      rw [count t]
      by_cases newest : s.currTid = t
      · exact absurd ⟨by omega, by omega⟩ unknown
      · have before : ¬ Added start s t := by
          rintro ⟨above, below⟩
          exact unknown ⟨above, by omega⟩
        rw [if_neg newest, placed.nowhere t before notIdle]
    · intro cpu t idle
      have below := idle_below cpu t idle
      have other : s.currTid ≠ t := by omega
      rw [made]
      simpa [other] using placed.idle_unqueued cpu t idle
    · rw [made]; exact placed.idle_home

theorem schedSleep_queues (s : Sched cpus) (cpu : Fin cpus) (nanos millis : Nat) :
    (schedSleep s cpu nanos millis).tasksActive = s.tasksActive ∧
      (schedSleep s cpu nanos millis).tasksRunning = s.tasksRunning ∧
      (schedSleep s cpu nanos millis).tasksIdle = s.tasksIdle ∧
      (schedSleep s cpu nanos millis).currTid = s.currTid := by
  unfold schedSleep
  split
  · split <;> exact ⟨rfl, rfl, rfl, rfl⟩
  · exact ⟨rfl, rfl, rfl, rfl⟩

theorem Placement.sleep {start s : Sched cpus} (initial : Initial start)
    (placed : Placement start s) (cpu : Fin cpus) (nanos millis : Nat) :
    Placement start (schedSleep s cpu nanos millis) := by
  obtain ⟨active, running, idle, currTid⟩ := schedSleep_queues s cpu nanos millis
  refine placed.of_places idle currTid (fun t _ => ?_) initial.idle_below ?_ ?_
  · rw [places, places, active, running]
  · rw [active]
    exact placed.idle_unqueued
  · rw [running]
    exact placed.idle_home

theorem Placement.step {start s after : Sched cpus} (initial : Initial start)
    (placed : Placement start s) (action : Section cpus)
    (stepped : sectionStep s action = some after) : Placement start after := by
  cases action with
  | contextSwitch cpu stack nanos =>
    obtain ⟨⟨next, chosen⟩, switched, rfl⟩ := Option.map_eq_some_iff.mp stepped
    exact placed.contextSwitch initial switched
  | add => cases stepped; exact placed.add initial
  | sleep cpu nanos millis => cases stepped; exact placed.sleep initial cpu nanos millis

theorem Placement.run {start s : Sched cpus} (initial : Initial start)
    (run : Run sectionStep anyAction start s) : Placement start s :=
  run.invariant (Placement start) (.initial initial)
    (fun _ action _ placed _ stepped => placed.step initial action stepped)

/-- No task runs on two CPUs. -/
theorem Placement.running_once {start s : Sched cpus} (placed : Placement start s)
    {cpu other : Fin cpus} {t : TaskRef} (here : s.tasksRunning cpu = some t)
    (there : s.tasksRunning other = some t) : cpu = other := by
  by_cases idle : ∃ owner, start.tasksIdle owner = some t
  · obtain ⟨owner, idle⟩ := idle
    rw [placed.idle_home owner cpu t idle here, placed.idle_home owner other t idle there]
  · have somewhere : runningCount s.tasksRunning t ≠ 0 :=
      fun zero => runningCount_eq_zero.mp zero cpu here
    by_cases added : Added start s t
    · have once := placed.once t added
      simp only [places] at once
      exact (runningCount_eq_one (by omega)).unique here there
    · have nowhere := placed.nowhere t added (fun owner held => idle ⟨owner, held⟩)
      simp only [places] at nowhere
      omega

theorem Placement.running_made {start s : Sched cpus} (initial : Initial start)
    (placed : Placement start s) {cpu : Fin cpus} {t : Nat}
    (here : s.tasksRunning cpu = some t) : t < s.currTid := by
  by_cases idle : ∃ owner, start.tasksIdle owner = some t
  · obtain ⟨owner, idle⟩ := idle
    exact Nat.lt_of_lt_of_le (initial.idle_below owner t idle) placed.made
  · by_contra unmade
    have unknown : ¬ Added start s t := fun added => unmade added.2
    have nowhere := placed.nowhere t unknown (fun owner held => idle ⟨owner, held⟩)
    simp only [places] at nowhere
    exact runningCount_eq_zero.mp (by omega) cpu here

theorem Placement.queued_waits {start s : Sched cpus} (placed : Placement start s) {t : TaskRef}
    (queued : some t ∈ s.tasksActive) (cpu : Fin cpus) : s.tasksRunning cpu ≠ some t := by
  have positive := List.count_pos_iff.mpr queued
  have notIdle : ∀ owner, start.tasksIdle owner ≠ some t := by
    intro owner idle
    rw [placed.idle_unqueued owner t idle] at positive
    omega
  have once : places s t ≤ 1 := by
    by_cases added : Added start s t
    · exact Nat.le_of_eq (placed.once t added)
    · rw [placed.nowhere t added notIdle]; omega
  simp only [places] at once
  exact runningCount_eq_zero.mp (by omega) cpu

/-! ## Placement of every task -/

/-- In every interleaving each added task is queued exactly once and running nowhere, or
    running on exactly one CPU and not queued; an idle task is never queued and runs on its
    own CPU only. -/
theorem added_task_in_one_place {start s : Sched cpus} (initial : Initial start)
    (run : Run sectionStep anyAction start s) :
    (∀ t, Added start s t →
      (s.tasksActive.count (some t) = 1 ∧ ∀ cpu, s.tasksRunning cpu ≠ some t) ∨
      (some t ∉ s.tasksActive ∧ ∃! cpu, s.tasksRunning cpu = some t)) ∧
    (∀ cpu t, start.tasksIdle cpu = some t →
      some t ∉ s.tasksActive ∧ ∀ other, s.tasksRunning other = some t → other = cpu) := by
  have placed := Placement.run initial run
  constructor
  · intro t added
    have once := placed.once t added
    simp only [places] at once
    rcases Nat.eq_zero_or_pos (runningCount s.tasksRunning t) with nowhere | somewhere
    · exact .inl ⟨by omega, runningCount_eq_zero.mp nowhere⟩
    · exact .inr ⟨List.count_eq_zero.mp (by omega), runningCount_eq_one (by omega)⟩
  · intro cpu t idle
    exact ⟨List.count_eq_zero.mp (placed.idle_unqueued cpu t idle),
      fun other held => placed.idle_home cpu other t idle held⟩

/-- Two CPUs after `sched_init`: tasks 0 and 1 are their idle tasks. -/
def twoCpus : Sched 2 where
  smpNumCpus := some 2
  smpInitialized := true
  cpuNum := 2
  tasks t := { kstackTop := .kernel t, tid := t, lastTick := 0, wakeupTime := 0, status := .ready }
  currTid := 2
  tasksRunning _ := none
  tasksIdle cpu := some cpu.val
  tasksCoordinate _ := 0
  tasksActive := []
  rsp0 _ := none

theorem twoCpus_initial : Initial twoCpus where
  active := rfl
  running _ := rfl
  idle cpu := ⟨cpu.val, rfl, cpu.isLt⟩
  idle_injective _ _ _ left right := Fin.ext (Option.some.inj (left.trans right.symm))

/-- Two tasks are added and the first of them is dispatched on CPU 0. -/
def twoCpusSections : List (Section 2) :=
  [.add, .add, .contextSwitch 0 (.boot 0) (fun _ => 0)]

theorem added_task_in_one_place_twoCpus :
    ∃ s, twoCpusSections.foldlM sectionStep twoCpus = some s ∧ Added twoCpus s 2 ∧
      ((s.tasksActive.count (some 2) = 1 ∧ ∀ cpu, s.tasksRunning cpu ≠ some 2) ∨
        (some 2 ∉ s.tasksActive ∧ ∃! cpu, s.tasksRunning cpu = some 2)) :=
  have made : Added twoCpus (schedAdd (schedAdd twoCpus)) 2 := ⟨by decide, by decide⟩
  ⟨_, rfl, made, (added_task_in_one_place twoCpus_initial
    (Run.of_foldlM (fun _ _ => trivial) twoCpusSections rfl)).1 2 made⟩

end HanOS.Proc
