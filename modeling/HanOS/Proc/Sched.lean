import HanOS.Foundations.Run
import Mathlib.Logic.Function.Basic
import Mathlib.Algebra.Group.Nat.Defs
import Mathlib.Data.List.Basic

/-!
# The scheduler (`proc/sched.c`, `proc/task.c`)

Model of the code under `sched_lock`: `do_context_switch`, `sched_sleep` and
`sched_add`, over any number of CPUs.  Every read of `hpet_get_nanos` is an input.

* A task is named by its creation number.  `task_make` allocates the structure and
  its stack, neither is ever freed, so the numbers stand for the addresses.
* A saved stack pointer is recorded as the stack it points into.
* `none` as the result of a section is a NULL dereference.
-/

namespace HanOS.Proc

abbrev TaskRef := Nat

inductive TaskStatus
  | ready | running | sleeping | dead
  deriving DecidableEq, Repr

/-- A stack a CPU can execute on: the one it booted on, or the kernel stack of a task. -/
inductive Stack (cpus : Nat)
  | boot (cpu : Fin cpus)
  | kernel (task : TaskRef)
  deriving DecidableEq, Repr

structure Task (cpus : Nat) where
  kstackTop : Stack cpus
  tid : Nat
  lastTick : Nat
  wakeupTime : Nat
  status : TaskStatus
  deriving DecidableEq, Repr

def tidMax : Nat := 65535

def millisToNanos (millis : Nat) : Nat := millis * 1000000 % 2 ^ 64

/-- The data `sched_lock` protects, with the counters `do_context_switch` compares first. -/
structure Sched (cpus : Nat) where
  /-- `smp_get_info()`: NULL before `smp_init`, then the structure's `num_cpus`. -/
  smpNumCpus : Option Nat
  smpInitialized : Bool
  cpuNum : Nat
  tasks : TaskRef → Task cpus
  currTid : Nat
  tasksRunning : Fin cpus → Option TaskRef
  tasksIdle : Fin cpus → Option TaskRef
  tasksCoordinate : Fin cpus → Nat
  /-- The vector holds pointers, so an entry may be NULL. -/
  tasksActive : List (Option TaskRef)
  /-- The task whose kernel stack the CPU's `tss.rsp0` names. -/
  rsp0 : Fin cpus → Option TaskRef

variable {cpus : Nat}

/-! ## `task_make`, `sched_add`, `sched_sleep` -/

/-- A task as `task_make` fills it in, its saved registers at the top of its kernel stack. -/
def freshTask (t : TaskRef) : Task cpus where
  kstackTop := .kernel t
  tid := t
  lastTick := 0
  wakeupTime := 0
  status := .ready

def taskMake (s : Sched cpus) : Option TaskRef × Sched cpus :=
  if s.currTid = tidMax then (none, s)
  else
    (some s.currTid,
      { s with
        tasks := Function.update s.tasks s.currTid (freshTask s.currTid)
        currTid := s.currTid + 1 })

/-- `sched_add` pushes what `task_make` returned, NULL included. -/
def schedAdd (s : Sched cpus) : Sched cpus :=
  let (t, s) := taskMake s
  { s with tasksActive := s.tasksActive ++ [t] }

/-- `sched_sleep` up to its `hlt`; before SMP is up it only waits. -/
def schedSleep (s : Sched cpus) (cpu : Fin cpus) (nanos millis : Nat) : Sched cpus :=
  if s.smpInitialized then
    match s.tasksRunning cpu with
    | none => s
    | some curr =>
      { s with
        tasks := Function.update s.tasks curr
          { s.tasks curr with
            wakeupTime := (nanos + millisToNanos millis) % 2 ^ 64
            status := .sleeping } }
  else s

/-! ## `do_context_switch` -/

/-- The `if (curr)` block: save the interrupted task and queue it unless it is the idle task. -/
def saveCurrent (s : Sched cpus) (cpu : Fin cpus) (stack : Stack cpus) : Sched cpus :=
  match s.tasksRunning cpu with
  | none => s
  | some curr =>
    let task := s.tasks curr
    { s with
      tasks := Function.update s.tasks curr
        { task with
          kstackTop := stack
          lastTick := s.tasksCoordinate cpu
          status := if task.status = .running then .ready else task.status }
      tasksActive :=
        if some curr ≠ s.tasksIdle cpu then s.tasksActive ++ [some curr] else s.tasksActive }

/-- The test that ends the loop at a task; `now` is the clock as that pass reads it. -/
def Runnable (tasks : TaskRef → Task cpus) (now : Nat) (t : TaskRef) : Prop :=
  (tasks t).status = .ready ∨ (tasks t).status = .sleeping ∧ (tasks t).wakeupTime ≤ now

instance (tasks : TaskRef → Task cpus) (now : Nat) (t : TaskRef) :
    Decidable (Runnable tasks now t) :=
  inferInstanceAs (Decidable (_ ∨ _))

/-- The `while (true)` loop: the chosen task (or NULL) and the queue it leaves.  The clock is
    read as `nanos loopSize`; `fuel` bounds the passes and `selectNext` gives it enough. -/
def selectLoop (tasks : TaskRef → Task cpus) (nanos : Nat → Nat) :
    Nat → Nat → List (Option TaskRef) → Option (Option TaskRef × List (Option TaskRef))
  | 0, _, _ => none
  | _ + 1, _, [] => some (none, [])
  | _ + 1, _, none :: _ => none
  | fuel + 1, loopSize, some next :: rest =>
    if Runnable tasks (nanos loopSize) next then some (some next, rest)
    else
      let active := rest ++ [some next]
      -- the whole queue has been visited: give up with NULL
      if loopSize + 1 ≥ active.length then some (none, active)
      else selectLoop tasks nanos fuel (loopSize + 1) active

def selectNext (tasks : TaskRef → Task cpus) (nanos : Nat → Nat)
    (active : List (Option TaskRef)) : Option (Option TaskRef × List (Option TaskRef)) :=
  selectLoop tasks nanos (active.length + 1) 0 active

/-- The tail of the section: the idle fallback and the switch of the bookkeeping. -/
def dispatch (s : Sched cpus) (cpu : Fin cpus) :
    Option TaskRef × List (Option TaskRef) → Option (Sched cpus × Option TaskRef)
  | (next, active) =>
    match next <|> s.tasksIdle cpu with
    | none => none
    | some next =>
      some
        ({ s with
          tasks := Function.update s.tasks next { s.tasks next with status := .running }
          tasksRunning := Function.update s.tasksRunning cpu (some next)
          tasksCoordinate :=
            Function.update s.tasksCoordinate cpu ((s.tasksCoordinate cpu + 1) % 2 ^ 64)
          tasksActive := active
          rsp0 := Function.update s.rsp0 cpu (some next) }, some next)

/-- `do_context_switch` up to `lock_release`, with the task `exit_context_switch` is then
    called on; no task when the CPUs are not all up and the function returns at once. -/
def doContextSwitch (s : Sched cpus) (cpu : Fin cpus) (stack : Stack cpus) (nanos : Nat → Nat) :
    Option (Sched cpus × Option TaskRef) :=
  if s.smpNumCpus ≠ some s.cpuNum then some (s, none)
  else
    let s := saveCurrent s cpu stack
    (selectNext s.tasks nanos s.tasksActive).bind (dispatch s cpu)

/-! ## The selection -/

/-- The entries of `before` were visited from the front and none was runnable. -/
def Skipped (tasks : TaskRef → Task cpus) (nanos : Nat → Nat) (before : List (Option TaskRef)) :
    Prop :=
  ∀ i (bound : i < before.length), ∃ t, before[i] = some t ∧ ¬ Runnable tasks (nanos i) t

/-- What the loop does to a queue: it takes the first runnable task and leaves the queue
    rotated to start behind it, or it finds none and leaves the queue as it was. -/
inductive Selection (tasks : TaskRef → Task cpus) (nanos : Nat → Nat)
    (active : List (Option TaskRef)) : Option TaskRef × List (Option TaskRef) → Prop
  | found (before after : List (Option TaskRef)) (t : TaskRef)
      (split : active = before ++ some t :: after) (skipped : Skipped tasks nanos before)
      (runnable : Runnable tasks (nanos before.length) t) :
      Selection tasks nanos active (some t, after ++ before)
  | gaveUp (skipped : Skipped tasks nanos active) : Selection tasks nanos active (none, active)

section

variable {tasks : TaskRef → Task cpus} {nanos : Nat → Nat}

theorem Skipped.nil : Skipped tasks nanos [] := fun _ bound => absurd bound (Nat.not_lt_zero _)

theorem Skipped.snoc {before : List (Option TaskRef)} {t : TaskRef}
    (skipped : Skipped tasks nanos before) (unready : ¬ Runnable tasks (nanos before.length) t) :
    Skipped tasks nanos (before ++ [some t]) := by
  intro i bound
  rcases Nat.lt_or_ge i before.length with earlier | last
  · simpa only [List.getElem_append_left earlier] using skipped i earlier
  · have here : i = before.length := by simp at bound; omega
    subst here
    exact ⟨t, by simp, unready⟩

/-- The loop, entered with `before` already rotated to the back of the queue. -/
theorem selectLoop_selection (todo before : List (Option TaskRef)) (fuel : Nat)
    (skipped : Skipped tasks nanos before) (progress : todo = [] → before = [])
    {result : Option TaskRef × List (Option TaskRef)}
    (selected : selectLoop tasks nanos fuel before.length (todo ++ before) = some result) :
    Selection tasks nanos (before ++ todo) result := by
  induction todo generalizing before fuel with
  | nil =>
    obtain rfl := progress rfl
    cases fuel with
    | zero => simp [selectLoop] at selected
    | succ fuel =>
      simp only [selectLoop, List.append_nil, Option.some.injEq] at selected
      subst selected
      exact .gaveUp .nil
  | cons entry todo inductionHypothesis =>
    cases fuel with
    | zero => simp [selectLoop] at selected
    | succ fuel =>
      cases entry with
      | none => simp [selectLoop] at selected
      | some next =>
        simp only [List.cons_append, selectLoop] at selected
        split at selected
        · rename_i runnable
          cases selected
          exact .found before todo next rfl skipped runnable
        · rename_i unready
          -- it goes to the back, and the loop has visited one more
          have visited := skipped.snoc unready
          split at selected
          · rename_i all
            have done : todo = [] := by
              apply List.eq_nil_of_length_eq_zero
              simp only [List.length_append, List.length_cons, List.length_nil] at all
              omega
            subst done
            cases selected
            exact .gaveUp visited
          · rename_i more
            rw [List.append_cons]
            apply inductionHypothesis (before ++ [some next]) fuel visited
            · intro done
              subst done
              simp at more
            · simpa only [List.length_append, List.length_cons, List.length_nil,
                List.append_assoc] using selected

theorem selectNext_selection {active : List (Option TaskRef)}
    {result : Option TaskRef × List (Option TaskRef)}
    (selected : selectNext tasks nanos active = some result) :
    Selection tasks nanos active result := by
  rw [selectNext, ← List.append_nil active] at selected
  exact selectLoop_selection active [] _ .nil (fun _ => rfl) selected

/-- Without a NULL in the queue the loop returns: the fuel `selectNext` gives is enough. -/
theorem selectLoop_total (active : List (Option TaskRef)) (fuel loopSize : Nat)
    (enough : active.length < fuel + loopSize) (positive : 0 < fuel)
    (nonnull : none ∉ active) : ∃ result, selectLoop tasks nanos fuel loopSize active = some result := by
  induction fuel generalizing active loopSize with
  | zero => omega
  | succ fuel inductionHypothesis =>
    match active with
    | [] => exact ⟨_, rfl⟩
    | none :: _ => simp at nonnull
    | some next :: rest =>
      simp only [selectLoop]
      split
      · exact ⟨_, rfl⟩
      · split
        · exact ⟨_, rfl⟩
        · rename_i more
          simp only [List.length_append, List.length_cons, List.length_nil, ge_iff_le,
            Nat.not_le] at more enough
          apply inductionHypothesis
          · simp only [List.length_append, List.length_cons, List.length_nil]
            omega
          · omega
          · simpa using nonnull

theorem selectNext_total {active : List (Option TaskRef)} (nonnull : none ∉ active) :
    ∃ result, selectNext tasks nanos active = some result :=
  selectLoop_total active _ 0 (by omega) (Nat.succ_pos _) nonnull

end

end HanOS.Proc
