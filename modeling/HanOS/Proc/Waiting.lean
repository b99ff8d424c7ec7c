import HanOS.Proc.SelectionLaw

/-!
# How long a task waits

The queue is served from the front, and a task that could run is never passed over.
A task that waits at position `p` of the queue, ready or with its time to wake come,
is therefore dispatched by one of the next `p + 1` context switches, whichever CPUs
they happen on and whatever is added or put to sleep meanwhile.
-/

namespace HanOS.Proc

open HanOS.Foundations

variable {cpus : Nat}

def Section.isSwitch : Section cpus → Bool
  | .contextSwitch .. => true
  | _ => false

/-- The task could run at any time from `since` on. -/
def Awake (task : Task cpus) (since : Nat) : Prop :=
  task.status = .ready ∨ task.status = .sleeping ∧ task.wakeupTime ≤ since

structure Waits (s : Sched cpus) (since : Nat) (t : TaskRef) : Prop where
  queued : some t ∈ s.tasksActive
  awake : Awake (s.tasks t) since

/-- The clock shows `since` or later whenever the sections read it. -/
def ReadFrom (since : Nat) (sections : List (Section cpus)) : Prop :=
  ∀ cpu stack nanos, .contextSwitch cpu stack nanos ∈ sections → ∀ i, since ≤ nanos i

/-- One of the sections dispatches the task, after `passed` other context switches at most. -/
def DispatchedBy (s : Sched cpus) (sections : List (Section cpus)) (t : TaskRef) (passed : Nat) : Prop :=
  ∃ earlier cpu stack nanos later middle after,
    sections = earlier ++ .contextSwitch cpu stack nanos :: later ∧
    earlier.countP Section.isSwitch ≤ passed ∧ earlier.foldlM sectionStep s = some middle ∧
    doContextSwitch middle cpu stack nanos = some (after, some t)

variable {start s after : Sched cpus} {since : Nat} {t : TaskRef}

/-! ## One section -/

theorem candidates_append (s : Sched cpus) (cpu : Fin cpus) :
    ∃ rest, candidates s cpu = s.tasksActive ++ rest := by
  unfold candidates
  cases s.tasksRunning cpu with
  | none => exact ⟨[], (List.append_nil _).symm⟩
  | some curr =>
    by_cases idle : some curr ≠ s.tasksIdle cpu
    · exact ⟨[some curr], if_pos idle⟩
    · exact ⟨[], (if_neg idle).trans (List.append_nil _).symm⟩

theorem saveCurrent_other {cpu : Fin cpus} (unused : s.tasksRunning cpu ≠ some t) (stack : Stack cpus) :
    (saveCurrent s cpu stack).tasks t = s.tasks t := by
  unfold saveCurrent
  cases held : s.tasksRunning cpu with
  | none => rfl
  | some curr =>
    have other : t ≠ curr := fun same => unused (same ▸ held)
    exact Function.update_of_ne other ..

theorem dispatch_other {cpu : Fin cpus} {chosen : Option TaskRef × List (Option TaskRef)} {next : TaskRef}
    (dispatched : dispatch s cpu chosen = some (after, some next)) (other : t ≠ next) :
    after.tasks t = s.tasks t := by
  obtain ⟨choice, active⟩ := chosen
  simp only [dispatch] at dispatched
  split at dispatched
  · simp at dispatched
  · simp only [Option.some.injEq, Prod.mk.injEq] at dispatched
    obtain ⟨rfl, rfl⟩ := dispatched
    exact Function.update_of_ne other ..

theorem Placement.queued_made (initial : Initial start) (placed : Placement start s) {t : Nat}
    (queued : some t ∈ s.tasksActive) : t < s.currTid := by
  have positive := List.count_pos_iff.mpr queued
  by_contra unmade
  have unknown : ¬ Added start s t := fun added => unmade added.2
  have old := placed.made
  have nowhere := placed.nowhere t unknown fun cpu idle => by
    have below := initial.idle_below cpu t idle
    omega
  simp only [places] at nowhere
  omega

theorem Awake.unskipped {tasks : TaskRef → Task cpus} {nanos : Nat → Nat} (awake : Awake (tasks t) since)
    (later : ∀ i, since ≤ nanos i) {before : List (Option TaskRef)}
    (skipped : Skipped tasks nanos before) : some t ∉ before := by
  intro member
  obtain ⟨i, bound, here⟩ := List.getElem_of_mem member
  obtain ⟨u, there, unready⟩ := skipped i bound
  obtain rfl : t = u := Option.some.inj (here.symm.trans there)
  exact unready (awake.imp_right fun sleeping => ⟨sleeping.1, sleeping.2.trans (later i)⟩)

/-- A context switch dispatches the task that waits, or brings it closer. -/
theorem Waits.contextSwitch (waits : Waits s since t) (initial : Initial start)
    (placed : Placement start s) (up : s.smpNumCpus = some s.cpuNum) {cpu : Fin cpus}
    {stack : Stack cpus} {nanos : Nat → Nat} (later : ∀ i, since ≤ nanos i) {next : Option TaskRef}
    (switched : doContextSwitch s cpu stack nanos = some (after, next)) :
    next = some t ∨
      Waits after since t ∧ after.tasksActive.idxOf (some t) < s.tasksActive.idxOf (some t) := by
  obtain ⟨idle, idles, _⟩ := initial.idle cpu
  rw [← placed.idle_fixed] at idles
  rcases doContextSwitch_cases switched with ⟨closed, _, _⟩ | ⟨chosen, left, u, _, _, rfl, dispatched⟩
  · exact absurd up closed
  · -- the task is queued, so the interrupted one is another
    have saved := saveCurrent_other (placed.queued_waits waits.queued cpu) stack
    obtain ⟨rest, split⟩ := candidates_append s cpu
    have selected := doContextSwitch_selected up idles switched
    rw [split] at selected
    have moved := selected.advances (List.mem_append_left rest waits.queued) fun before skipped =>
      Awake.unskipped (saved ▸ waits.awake) later skipped
    rw [List.idxOf_append_of_mem waits.queued] at moved
    by_cases taken : u = t
    · exact .inl (congrArg some taken)
    · obtain ⟨queued, closer⟩ := moved.resolve_left taken
      refine .inr ⟨⟨queued, ?_⟩, closer⟩
      rw [dispatch_other dispatched (Ne.symm taken), saved]
      exact waits.awake

theorem Waits.elsewhere (waits : Waits s since t) (initial : Initial start) (placed : Placement start s)
    {sect : Section cpus} (other : sect.isSwitch = false) (stepped : sectionStep s sect = some after) :
    Waits after since t ∧ after.tasksActive.idxOf (some t) = s.tasksActive.idxOf (some t) := by
  cases sect with
  | contextSwitch cpu stack nanos => cases other
  | add =>
    cases stepped
    have old : t ≠ s.currTid := Nat.ne_of_lt (placed.queued_made initial waits.queued)
    rcases schedAdd_cases s with ⟨_, full⟩ | made
    · rw [full]
      exact ⟨⟨List.mem_append_left _ waits.queued, waits.awake⟩, List.idxOf_append_of_mem waits.queued⟩
    · rw [made]
      refine ⟨⟨List.mem_append_left _ waits.queued, ?_⟩, List.idxOf_append_of_mem waits.queued⟩
      simpa only [Function.update_of_ne old] using waits.awake
  | sleep cpu nanos millis =>
    cases stepped
    unfold schedSleep
    split
    · split
      · exact ⟨waits, rfl⟩
      · next curr held =>
        have apart : t ≠ curr := fun same => placed.queued_waits waits.queued cpu (same ▸ held)
        refine ⟨⟨waits.queued, ?_⟩, rfl⟩
        simpa only [Function.update_of_ne apart] using waits.awake
    · exact ⟨waits, rfl⟩

/-- No section stops or starts the scheduler. -/
theorem sectionStep_gate {sect : Section cpus} (stepped : sectionStep s sect = some after) :
    after.smpNumCpus = s.smpNumCpus ∧ after.cpuNum = s.cpuNum := by
  cases sect with
  | contextSwitch cpu stack nanos =>
    obtain ⟨⟨switched, next⟩, turn, rfl⟩ := Option.map_eq_some_iff.mp stepped
    rcases doContextSwitch_cases turn with ⟨_, rfl, _⟩ | ⟨chosen, left, u, _, _, _, dispatched⟩
    · exact ⟨rfl, rfl⟩
    · simp only [dispatch] at dispatched
      split at dispatched
      · simp at dispatched
      · simp only [Option.some.injEq, Prod.mk.injEq] at dispatched
        obtain ⟨rfl, _⟩ := dispatched
        exact saveCurrent_gate s cpu stack
  | add =>
    cases stepped
    rcases schedAdd_cases s with ⟨_, full⟩ | made
    · rw [full]
      exact ⟨rfl, rfl⟩
    · rw [made]
      exact ⟨rfl, rfl⟩
  | sleep cpu nanos millis =>
    cases stepped
    unfold schedSleep
    split
    · split <;> exact ⟨rfl, rfl⟩
    · exact ⟨rfl, rfl⟩

/-! ## Many sections -/

theorem DispatchedBy.cons {sect : Section cpus} {sections : List (Section cpus)} {passed : Nat}
    (stepped : sectionStep s sect = some after) (dispatched : DispatchedBy after sections t passed) :
    DispatchedBy s (sect :: sections) t (passed + if sect.isSwitch then 1 else 0) := by
  obtain ⟨earlier, cpu, stack, nanos, later, middle, last, split, few, ran, switched⟩ := dispatched
  refine ⟨sect :: earlier, cpu, stack, nanos, later, middle, last, congrArg (sect :: ·) split, ?_, ?_,
    switched⟩
  · rw [List.countP_cons]
    omega
  · rw [List.foldlM_cons, stepped]
    exact ran

/-- Bounded waiting.  After any run, a task that waits at a position of the queue is dispatched by one
    of the next sections, as soon as there are more context switches among them than tasks ahead of
    it; and at most as many context switches as there are tasks ahead come first. -/
theorem dispatched_within (initial : Initial start) (ran : Run sectionStep anyAction start s)
    (up : s.smpNumCpus = some s.cpuNum) (waits : Waits s since t) {sections : List (Section cpus)}
    (read : ReadFrom since sections) {final : Sched cpus}
    (finished : sections.foldlM sectionStep s = some final)
    (enough : s.tasksActive.idxOf (some t) < sections.countP Section.isSwitch) :
    DispatchedBy s sections t (s.tasksActive.idxOf (some t)) := by
  have placed := Placement.run initial ran
  clear ran
  -- the induction is on the sections; the bound is the position of the task
  generalize position : s.tasksActive.idxOf (some t) = passed at enough ⊢
  have bound : s.tasksActive.idxOf (some t) ≤ passed := position.le
  clear position
  induction sections generalizing s passed with
  | nil => simp at enough
  | cons sect sections inductionHypothesis =>
    rw [List.foldlM_cons] at finished
    obtain ⟨next, stepped, rest⟩ := Option.bind_eq_some_iff.mp finished
    obtain ⟨gate, count⟩ := sectionStep_gate stepped
    have up' : next.smpNumCpus = some next.cpuNum := by rw [gate, count, up]
    have read' : ReadFrom since sections := fun cpu stack nanos member =>
      read cpu stack nanos (List.mem_cons_of_mem _ member)
    have placed' := placed.step initial sect stepped
    rw [List.countP_cons] at enough
    cases kind : sect.isSwitch with
    | true =>
      cases sect with
      | contextSwitch cpu stack nanos =>
        obtain ⟨⟨after, chosen⟩, switched, rfl⟩ := Option.map_eq_some_iff.mp stepped
        rcases waits.contextSwitch initial placed up (read cpu stack nanos (List.mem_cons_self ..))
          switched with rfl | ⟨waits', closer⟩
        · exact ⟨[], cpu, stack, nanos, sections, s, after, rfl, Nat.zero_le _, rfl, switched⟩
        · obtain ⟨fewer, rfl⟩ : ∃ fewer, passed = fewer + 1 := ⟨passed - 1, by omega⟩
          have sooner := inductionHypothesis up' waits' read' rest placed' fewer
            (by simpa [Section.isSwitch] using enough) (Nat.le_of_lt_succ (closer.trans_le bound))
          exact sooner.cons stepped
      | add => cases kind
      | sleep cpu nanos millis => cases kind
    | false =>
      obtain ⟨waits', same⟩ := waits.elsewhere initial placed kind stepped
      have sooner := inductionHypothesis up' waits' read' rest placed' passed
        (by simpa [kind] using enough) (same ▸ bound)
      simpa [kind] using sooner.cons stepped

/-- Task 2 waits behind task 3; it is dispatched by one of two switches on different CPUs. -/
theorem dispatched_within_twoCpus :
    ∃ s, Run sectionStep anyAction twoCpus s ∧
      DispatchedBy s [.contextSwitch 0 (.boot 0) fun _ => 7, .add, .contextSwitch 1 (.boot 1) fun _ => 7] 3 1 := by
  have run : Run sectionStep anyAction twoCpus _ :=
    Run.of_foldlM (fun _ _ => trivial) ([.add, .add] : List (Section 2)) rfl
  refine ⟨_, run, @dispatched_within _ _ _ 0 3 twoCpus_initial run rfl ⟨by decide, .inl rfl⟩ _ ?_ _ rfl
    (by decide)⟩
  exact fun _ _ _ _ _ => Nat.zero_le _

end HanOS.Proc
