import HanOS.Proc.Placement
import Mathlib.Algebra.GroupWithZero.Nat
import Mathlib.Tactic.FinCases

/-!
# Kernel stacks while CPUs switch

A tick is two steps: the section of `do_context_switch` under `sched_lock`, which
queues the interrupted task and picks the next one, and later the load of the next
task's stack pointer in `exit_context_switch`.  In between the CPU still executes
on the stack of the task it has queued, so another CPU can pick that task and move
onto the same stack.

`Settled` is the condition under which a section does not do that: the task at
which the queue's scan ends is not one whose stack a CPU between its two steps
still uses.  Runs of such sections keep all stacks distinct.
-/

namespace HanOS.Proc

open HanOS.Foundations

variable {cpus : Nat}

/-! ## The system -/

/-- The scheduler's data, the stack each CPU's `rsp` points into, and the task whose stack a
    CPU that has left the lock is about to load. -/
structure Machine (cpus : Nat) where
  sched : Sched cpus
  executing : Fin cpus → Stack cpus
  leaving : Fin cpus → Option TaskRef

inductive Event (cpus : Nat)
  | enter (cpu : Fin cpus) (nanos : Nat → Nat)
  | exit (cpu : Fin cpus)
  | add
  | sleep (cpu : Fin cpus) (nanos millis : Nat)

/-- The section of a tick; interrupts are off until `exit_context_switch` returns. -/
def enterContextSwitch (m : Machine cpus) (cpu : Fin cpus) (nanos : Nat → Nat) :
    Option (Machine cpus) :=
  if m.leaving cpu ≠ none then none
  else
    (doContextSwitch m.sched cpu (m.executing cpu) nanos).map fun (sched, next) =>
      { m with sched := sched, leaving := Function.update m.leaving cpu next }

/-- `mov %rdi, %rsp` in `exit_context_switch(next->kstack_top)`. -/
def exitContextSwitch (m : Machine cpus) (cpu : Fin cpus) : Option (Machine cpus) :=
  (m.leaving cpu).map fun next =>
    { m with
      executing := Function.update m.executing cpu (m.sched.tasks next).kstackTop
      leaving := Function.update m.leaving cpu none }

def machineStep (m : Machine cpus) : Event cpus → Option (Machine cpus)
  | .enter cpu nanos => enterContextSwitch m cpu nanos
  | .exit cpu => exitContextSwitch m cpu
  | .add => some { m with sched := schedAdd m.sched }
  | .sleep cpu nanos millis =>
    if m.leaving cpu ≠ none then none
    else some { m with sched := schedSleep m.sched cpu nanos millis }

/-- Every CPU on the stack it booted on, no tick under way, and fresh idle tasks. -/
structure MachineInitial (m : Machine cpus) : Prop where
  sched : Initial m.sched
  executing : ∀ cpu, m.executing cpu = .boot cpu
  leaving : ∀ cpu, m.leaving cpu = none
  kstackTop : ∀ t : Nat, t < m.sched.currTid → (m.sched.tasks t).kstackTop = .kernel t

def StacksDistinct (m : Machine cpus) : Prop :=
  ∀ cpu other, m.executing cpu = m.executing other → cpu = other

/-! ## The window between the two steps -/

def twoCpusMachine : Machine 2 where
  sched := twoCpus
  executing := .boot
  leaving _ := none

theorem twoCpusMachine_initial : MachineInitial twoCpusMachine where
  sched := twoCpus_initial
  executing _ := rfl
  leaving _ := rfl
  kstackTop _ _ := rfl

section

local instance twoNeZero : NeZero 2 := ⟨by decide⟩

/-- CPU 0 runs task 2, ticks again and picks task 3; before it loads the stack of task 3,
    CPU 1 ticks, picks task 2 and loads its stack. -/
def overlappingTicks : List (Event 2) :=
  [.add, .add, .enter 0 (fun _ => 0), .exit 0, .enter 0 (fun _ => 0), .enter 1 (fun _ => 0), .exit 1]

end

theorem two_cpus_on_one_stack :
    ∃ m, Run machineStep anyAction twoCpusMachine m ∧ MachineInitial twoCpusMachine ∧
      m.executing 0 = .kernel 2 ∧ m.executing 1 = .kernel 2 ∧ ¬ StacksDistinct m := by
  refine ⟨_, Run.of_foldlM (fun _ _ => trivial) overlappingTicks rfl, twoCpusMachine_initial,
    rfl, rfl, ?_⟩
  intro distinct
  exact absurd (distinct 0 1 rfl) (by decide)

/-! ## Sections that leave used stacks alone -/

/-- The scan of the queue, with the interrupted task of `cpu` in it, ends at `t`. -/
def FirstRunnable (s : Sched cpus) (cpu : Fin cpus) (stack : Stack cpus) (nanos : Nat → Nat)
    (t : TaskRef) : Prop :=
  ∃ before after, (saveCurrent s cpu stack).tasksActive = before ++ some t :: after ∧
    Skipped (saveCurrent s cpu stack).tasks nanos before ∧
    Runnable (saveCurrent s cpu stack).tasks (nanos before.length) t

/-- A CPU enters its section only when no other CPU, on its way from the section to
    `exit_context_switch`, still executes on the stack of the first runnable task. -/
def Settled (m : Machine cpus) : Event cpus → Prop
  | .enter cpu nanos =>
    ∀ other, other ≠ cpu → m.leaving other ≠ none →
      ∀ t, FirstRunnable m.sched cpu (m.executing cpu) nanos t → m.executing other ≠ .kernel t
  | _ => True

def homeStack (s : Sched cpus) (cpu : Fin cpus) : Stack cpus :=
  match s.tasksRunning cpu with
  | none => .boot cpu
  | some t => .kernel t

/-- The invariant: a CPU outside a switch is on the stack of its running task, a CPU in a switch
    has it reserved for itself, and saved stack pointers point into the task's own stack. -/
structure StackOwnership (start m : Machine cpus) : Prop where
  placed : Placement start.sched m.sched
  outside : ∀ cpu, m.leaving cpu = none → m.executing cpu = homeStack m.sched cpu
  picked : ∀ cpu t, m.leaving cpu = some t → m.sched.tasksRunning cpu = some t
  reserved : ∀ cpu other t, m.leaving cpu = some t → other ≠ cpu → m.executing other ≠ .kernel t
  booted : ∀ cpu other, m.executing other = .boot cpu → other = cpu
  idle_home : ∀ cpu other t, start.sched.tasksIdle cpu = some t → m.executing other = .kernel t →
    other = cpu
  kstackTop : ∀ t : Nat, t < m.sched.currTid → (m.sched.tasks t).kstackTop = .kernel t
  distinct : StacksDistinct m

theorem StackOwnership.initial {start : Machine cpus} (initial : MachineInitial start) :
    StackOwnership start start where
  placed := .initial initial.sched
  outside cpu _ := by simp [homeStack, initial.sched.running, initial.executing]
  picked cpu t leaving := by simp [initial.leaving] at leaving
  reserved cpu other t leaving := by simp [initial.leaving] at leaving
  booted cpu other executing := by simpa [initial.executing] using executing
  idle_home cpu other t _ executing := by simp [initial.executing] at executing
  kstackTop := initial.kstackTop
  distinct cpu other same := by simpa [initial.executing] using same

theorem saveCurrent_kstackTop {s : Sched cpus} {cpu : Fin cpus} (t : TaskRef)
    (own : (s.tasks t).kstackTop = .kernel t) :
    ((saveCurrent s cpu (homeStack s cpu)).tasks t).kstackTop = .kernel t := by
  unfold saveCurrent homeStack
  cases s.tasksRunning cpu with
  | none => exact own
  | some curr =>
    by_cases same : t = curr
    · subst same; simp
    · simpa [Function.update_of_ne same] using own

theorem dispatch_kstackTop {s after : Sched cpus} {cpu : Fin cpus} {chosen : Option TaskRef}
    {left : List (Option TaskRef)} {next : TaskRef}
    (dispatched : dispatch s cpu (chosen, left) = some (after, some next)) (t : TaskRef) :
    (after.tasks t).kstackTop = (s.tasks t).kstackTop := by
  simp only [dispatch] at dispatched
  split at dispatched
  · simp at dispatched
  · rename_i pick _
    simp only [Option.some.injEq, Prod.mk.injEq] at dispatched
    obtain ⟨rfl, rfl⟩ := dispatched
    by_cases same : t = pick
    · subst same; simp
    · simp [Function.update_of_ne same]

/-- The queue the selection sees holds the old queue and the interrupted task. -/
theorem mem_saveCurrent {s : Sched cpus} {cpu : Fin cpus} {stack : Stack cpus} {t : TaskRef}
    (queued : some t ∈ (saveCurrent s cpu stack).tasksActive) :
    some t ∈ s.tasksActive ∨ s.tasksRunning cpu = some t := by
  have counted := saveCurrent_count s cpu stack t
  have positive := List.count_pos_iff.mpr queued
  by_cases held : s.tasksRunning cpu = some t
  · exact .inr held
  · rw [if_neg (fun both => held both.1)] at counted
    exact .inl (List.count_pos_iff.mp (by omega))

/-- A CPU outside a switch does not execute on the stack of a queued task. -/
theorem StackOwnership.queued_unused {start m : Machine cpus} (owned : StackOwnership start m)
    {t : TaskRef} (queued : some t ∈ m.sched.tasksActive) {other : Fin cpus}
    (outside : m.leaving other = none) : m.executing other ≠ .kernel t := by
  rw [owned.outside other outside, homeStack]
  cases held : m.sched.tasksRunning other with
  | none => simp
  | some u =>
    intro same
    cases same
    exact owned.placed.queued_waits queued other held

/-- What a settled section picks is on no other CPU's stack. -/
theorem StackOwnership.pick_unused {start m : Machine cpus}
    (owned : StackOwnership start m) {cpu : Fin cpus} {nanos : Nat → Nat}
    (settled : Settled m (.enter cpu nanos)) (outside : m.leaving cpu = none)
    {chosen : Option TaskRef} {left : List (Option TaskRef)} {t : TaskRef}
    (selection : Selection (saveCurrent m.sched cpu (m.executing cpu)).tasks nanos
      (saveCurrent m.sched cpu (m.executing cpu)).tasksActive (chosen, left))
    (pick : (chosen <|> m.sched.tasksIdle cpu) = some t) (other : Fin cpus) (ne : other ≠ cpu) :
    m.executing other ≠ .kernel t := by
  intro used
  cases selection with
  | gaveUp _ =>
    -- the idle task of `cpu`: only `cpu` is ever on its stack
    simp only [Option.orElse_eq_orElse, Option.orElse_none, owned.placed.idle_fixed] at pick
    exact ne (owned.idle_home cpu other t pick used)
  | found before after u split skipped runnable =>
    simp only [Option.orElse_eq_orElse, Option.orElse_some, Option.some.injEq] at pick
    subst pick
    by_cases free : m.leaving other = none
    · have queued : some u ∈ (saveCurrent m.sched cpu (m.executing cpu)).tasksActive := by
        rw [split]; simp
      rcases mem_saveCurrent queued with queued | held
      · exact owned.queued_unused queued free used
      · -- the interrupted task itself: `cpu` is on its stack
        have mine : m.executing cpu = .kernel u := by
          rw [owned.outside cpu outside, homeStack, held]
        exact ne (owned.distinct other cpu (used.trans mine.symm))
    · exact settled other ne free u ⟨before, after, split, skipped, runnable⟩ used

theorem StackOwnership.enter {start m after : Machine cpus} (initial : MachineInitial start)
    (owned : StackOwnership start m) {cpu : Fin cpus} {nanos : Nat → Nat}
    (settled : Settled m (.enter cpu nanos))
    (entered : enterContextSwitch m cpu nanos = some after) : StackOwnership start after := by
  unfold enterContextSwitch at entered
  split at entered
  · simp at entered
  rename_i outside
  rw [ne_eq, Decidable.not_not] at outside
  obtain ⟨⟨sched, next⟩, switched, rfl⟩ := Option.map_eq_some_iff.mp entered
  have placed := owned.placed.contextSwitch initial.sched switched
  rcases doContextSwitch_cases switched with ⟨_, rfl, rfl⟩ | ⟨chosen, left, t, selection, pick, rfl, dispatched⟩
  · -- the CPUs are not all up: nothing happened
    have same : Function.update m.leaving cpu none = m.leaving := by
      rw [← outside]; exact Function.update_eq_self cpu m.leaving
    simpa only [same] using owned
  -- the picked task has a stack nobody executes on
  have unused := owned.pick_unused settled outside selection pick
  obtain ⟨_, running, _, currTid⟩ := dispatch_fields dispatched
  rw [saveCurrent_tasksRunning] at running
  rw [saveCurrent_currTid] at currTid
  refine ⟨placed, ?_, ?_, ?_, owned.booted, owned.idle_home, ?_, owned.distinct⟩
  · intro other free
    by_cases here : other = cpu
    · subst here; simp at free
    · simp only [Function.update_of_ne here] at free
      simp only [homeStack, running, Function.update_of_ne here]
      exact owned.outside other free
  · intro other u leaving
    by_cases here : other = cpu
    · subst here
      simpa [running] using leaving
    · simp only [Function.update_of_ne here] at leaving
      simpa only [running, Function.update_of_ne here] using owned.picked other u leaving
  · intro owner other u leaving ne
    by_cases here : owner = cpu
    · subst here
      simp only [Function.update_self, Option.some.injEq] at leaving
      exact leaving ▸ unused other ne
    · simp only [Function.update_of_ne here] at leaving
      exact owned.reserved owner other u leaving ne
  · intro u bound
    rw [dispatch_kstackTop dispatched u, owned.outside cpu outside]
    exact saveCurrent_kstackTop u (owned.kstackTop u (currTid ▸ bound))

theorem StackOwnership.exit {start m after : Machine cpus} (initial : MachineInitial start)
    (owned : StackOwnership start m) {cpu : Fin cpus}
    (exited : exitContextSwitch m cpu = some after) : StackOwnership start after := by
  obtain ⟨t, leaving, rfl⟩ := Option.map_eq_some_iff.mp exited
  have running := owned.picked cpu t leaving
  have top := owned.kstackTop t (owned.placed.running_made initial.sched running)
  rw [top]
  refine ⟨owned.placed, ?_, ?_, ?_, ?_, ?_, owned.kstackTop, ?_⟩
  · intro other free
    by_cases here : other = cpu
    · -- it is on the stack of its running task now
      subst here; simp [homeStack, running]
    · simp only [Function.update_of_ne here] at free ⊢
      exact owned.outside other free
  · intro other u pending
    by_cases here : other = cpu
    · subst here; simp at pending
    · simp only [Function.update_of_ne here] at pending
      exact owned.picked other u pending
  · intro owner other u pending ne
    by_cases mine : owner = cpu
    · subst mine; simp at pending
    simp only [Function.update_of_ne mine] at pending
    by_cases here : other = cpu
    · subst here
      simp only [Function.update_self, ne_eq, Stack.kernel.injEq]
      -- the task would be running twice
      rintro rfl
      exact ne (owned.placed.running_once running (owned.picked owner t pending))
    · simp only [Function.update_of_ne here]
      exact owned.reserved owner other u pending ne
  · intro owner other booted
    by_cases here : other = cpu
    · subst here; simp at booted
    · simp only [Function.update_of_ne here] at booted
      exact owned.booted owner other booted
  · intro owner other u idle used
    by_cases here : other = cpu
    · subst here
      simp only [Function.update_self, Stack.kernel.injEq] at used
      subst used
      exact owned.placed.idle_home owner other t idle running
    · simp only [Function.update_of_ne here] at used
      exact owned.idle_home owner other u idle used
  · -- the stack was reserved, so no other CPU is on it
    intro left right same
    by_cases hereLeft : left = cpu <;> by_cases hereRight : right = cpu
    · exact hereLeft.trans hereRight.symm
    · subst hereLeft
      simp only [Function.update_self, Function.update_of_ne hereRight] at same
      exact absurd same.symm (owned.reserved left right t leaving hereRight)
    · subst hereRight
      simp only [Function.update_self, Function.update_of_ne hereLeft] at same
      exact absurd same (owned.reserved right left t leaving hereLeft)
    · simp only [Function.update_of_ne hereLeft, Function.update_of_ne hereRight] at same
      exact owned.distinct left right same

theorem StackOwnership.add {start m : Machine cpus} (initial : MachineInitial start)
    (owned : StackOwnership start m) :
    StackOwnership start { m with sched := schedAdd m.sched } := by
  have placed := owned.placed.add initial.sched
  have running : (schedAdd m.sched).tasksRunning = m.sched.tasksRunning := by
    rcases schedAdd_cases m.sched with ⟨_, same⟩ | same <;> rw [same]
  refine ⟨placed, ?_, ?_, owned.reserved, owned.booted, owned.idle_home, ?_, owned.distinct⟩
  · intro cpu free
    simpa only [homeStack, running] using owned.outside cpu free
  · intro cpu t leaving
    rw [running]
    exact owned.picked cpu t leaving
  · intro t
    rcases schedAdd_cases m.sched with ⟨_, same⟩ | same
    · rw [same]; exact owned.kstackTop t
    · simp only [same]
      intro bound
      by_cases newest : t = m.sched.currTid
      · rw [newest, Function.update_self]; rfl
      · rw [Function.update_of_ne newest]
        exact owned.kstackTop t (by omega)

theorem schedSleep_kstackTop (s : Sched cpus) (cpu : Fin cpus) (nanos millis : Nat) (t : TaskRef) :
    ((schedSleep s cpu nanos millis).tasks t).kstackTop = (s.tasks t).kstackTop := by
  unfold schedSleep
  split
  · split
    · rfl
    · rename_i curr _
      by_cases same : t = curr
      · subst same; simp
      · simp [Function.update_of_ne same]
  · rfl

theorem StackOwnership.sleep {start m : Machine cpus} (initial : MachineInitial start)
    (owned : StackOwnership start m) (cpu : Fin cpus) (nanos millis : Nat) :
    StackOwnership start { m with sched := schedSleep m.sched cpu nanos millis } := by
  obtain ⟨_, running, _, currTid⟩ := schedSleep_queues m.sched cpu nanos millis
  refine ⟨owned.placed.sleep initial.sched cpu nanos millis, ?_, ?_, owned.reserved, owned.booted,
    owned.idle_home, ?_, owned.distinct⟩
  · intro other free
    simpa only [homeStack, running] using owned.outside other free
  · intro other t leaving
    rw [running]
    exact owned.picked other t leaving
  · intro t bound
    rw [schedSleep_kstackTop]
    exact owned.kstackTop t (currTid ▸ bound)

theorem StackOwnership.step {start m after : Machine cpus} (initial : MachineInitial start)
    (owned : StackOwnership start m) (event : Event cpus) (settled : Settled m event)
    (stepped : machineStep m event = some after) : StackOwnership start after := by
  cases event with
  | enter cpu nanos => exact owned.enter initial settled stepped
  | exit cpu => exact owned.exit initial stepped
  | add => cases stepped; exact owned.add initial
  | sleep cpu nanos millis =>
    simp only [machineStep] at stepped
    split at stepped
    · simp at stepped
    · cases stepped; exact owned.sleep initial cpu nanos millis

/-- In every interleaving whose sections are settled, no two CPUs ever execute on the same
    stack, in any state on the way. -/
theorem stacks_distinct_of_settled {start m : Machine cpus} (initial : MachineInitial start)
    (run : Run machineStep Settled start m) : StacksDistinct m :=
  (run.invariant (StackOwnership start) (.initial initial)
    (fun _ event _ owned settled stepped => owned.step initial event settled stepped)).distinct

/-- A task is added and both CPUs tick, one after the other. -/
theorem stacks_distinct_of_settled_twoCpus :
    ∃ m, Run machineStep Settled twoCpusMachine m ∧ m.executing 0 = .kernel 2 ∧
      m.executing 1 = .kernel 1 ∧ StacksDistinct m := by
  have added : Run machineStep Settled twoCpusMachine _ :=
    .tail .refl (show Settled twoCpusMachine .add from trivial) rfl
  have entered := added.tail (show Settled _ (.enter 0 fun _ => 0) from
    fun _ _ leaving => absurd rfl leaving) rfl
  have exited := entered.tail (show Settled _ (.exit 0) from trivial) rfl
  have enteredOther := exited.tail (show Settled _ (.enter 1 fun _ => 0) from
    fun other _ leaving => absurd (by fin_cases other <;> rfl) leaving) rfl
  have run := enteredOther.tail (show Settled _ (.exit 1) from trivial) rfl
  exact ⟨_, run, rfl, rfl, stacks_distinct_of_settled twoCpusMachine_initial run⟩

end HanOS.Proc
