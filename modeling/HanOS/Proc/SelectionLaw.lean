import HanOS.Proc.Placement

/-!
# What a context switch selects

`do_context_switch` rotates the queue to its first runnable task and takes it out.  A
ready task is therefore dispatched, or comes closer to the front by all the tasks that
were passed over and the one that was taken.
-/

namespace HanOS.Proc

variable {cpus : Nat}

/-- `tasks_active` with the interrupted task behind it, unless that is the idle task. -/
def candidates (s : Sched cpus) (cpu : Fin cpus) : List (Option TaskRef) :=
  match s.tasksRunning cpu with
  | none => s.tasksActive
  | some curr =>
    if some curr ≠ s.tasksIdle cpu then s.tasksActive ++ [some curr] else s.tasksActive

/-- How the queue `left` and the task `next` come out of the queue `active`. -/
inductive Selected (tasks : TaskRef → Task cpus) (nanos : Nat → Nat) (idle : TaskRef) :
    List (Option TaskRef) → TaskRef → List (Option TaskRef) → Prop
  /-- The first runnable task is taken; those behind it now stand before those ahead of it. -/
  | first {before behind : List (Option TaskRef)} {t : TaskRef}
      (skipped : Skipped tasks nanos before) (runnable : Runnable tasks (nanos before.length) t) :
      Selected tasks nanos idle (before ++ some t :: behind) t (behind ++ before)
  | none_runnable {active : List (Option TaskRef)} (skipped : Skipped tasks nanos active) :
      Selected tasks nanos idle active idle active

section

variable {tasks : TaskRef → Task cpus} {nanos : Nat → Nat} {idle next : TaskRef}
  {active left : List (Option TaskRef)}

theorem Skipped.not_ready {before : List (Option TaskRef)} (skipped : Skipped tasks nanos before)
    {t : TaskRef} (ready : (tasks t).status = .ready) : some t ∉ before := by
  intro member
  obtain ⟨i, bound, here⟩ := List.getElem_of_mem member
  obtain ⟨u, there, unready⟩ := skipped i bound
  obtain rfl : t = u := Option.some.inj (here.symm.trans there)
  exact unready (.inl ready)

/-- The idle task is chosen over an unchanged queue exactly when no candidate is runnable. -/
theorem Selected.idle_iff (selected : Selected tasks nanos idle active next left) :
    next = idle ∧ left = active ↔ Skipped tasks nanos active := by
  cases selected with
  | @first before behind t skipped runnable =>
    constructor
    · rintro ⟨_, same⟩
      have lengths := congrArg List.length same
      simp only [List.length_append, List.length_cons] at lengths
      omega
    · intro all
      have bound : before.length < (before ++ some next :: behind).length := by simp
      obtain ⟨u, here, unready⟩ := all before.length bound
      simp only [List.getElem_append_right, Nat.le_refl, Nat.sub_self, List.getElem_cons_zero,
        Option.some.injEq] at here
      subst here
      exact absurd runnable unready
  | none_runnable skipped => exact ⟨fun _ => skipped, fun _ => ⟨rfl, rfl⟩⟩

/-- A task that no pass skips is taken, or has fewer tasks ahead of it. -/
theorem Selected.advances (selected : Selected tasks nanos idle active next left) {t : TaskRef}
    (queued : some t ∈ active)
    (unskipped : ∀ before, Skipped tasks nanos before → some t ∉ before) :
    next = t ∨ some t ∈ left ∧ left.idxOf (some t) < active.idxOf (some t) := by
  cases selected with
  | @first before behind _ skipped _ =>
    by_cases same : next = t
    · exact .inl same
    · right
      -- the task stands behind the one that was taken
      have passed := unskipped before skipped
      have other : (some next == some t) = false := by simpa using same
      have member : some t ∈ behind := by
        rcases List.mem_append.mp queued with ahead | here
        · exact absurd ahead passed
        · rcases List.mem_cons.mp here with taken | member
          · exact absurd (Option.some.inj taken).symm same
          · exact member
      refine ⟨List.mem_append_left _ member, ?_⟩
      rw [List.idxOf_append_of_mem member, List.idxOf_append_of_notMem passed, List.idxOf_cons,
        other]
      simp only [cond_false]
      omega
  | none_runnable skipped => exact absurd queued (unskipped _ skipped)

/-- A ready task is taken, or has fewer tasks ahead of it. -/
theorem Selected.progress (selected : Selected tasks nanos idle active next left) {t : TaskRef}
    (queued : some t ∈ active) (ready : (tasks t).status = .ready) :
    next = t ∨ some t ∈ left ∧ left.idxOf (some t) < active.idxOf (some t) :=
  selected.advances queued fun _ skipped => skipped.not_ready ready

end

theorem saveCurrent_tasksActive (s : Sched cpus) (cpu : Fin cpus) (stack : Stack cpus) :
    (saveCurrent s cpu stack).tasksActive = candidates s cpu := by
  unfold saveCurrent candidates
  cases s.tasksRunning cpu with
  | none => rfl
  | some curr => rfl

theorem doContextSwitch_total {s : Sched cpus} {cpu : Fin cpus} {idle : TaskRef}
    (up : s.smpNumCpus = some s.cpuNum) (idles : s.tasksIdle cpu = some idle)
    (nonnull : none ∉ s.tasksActive) (stack : Stack cpus) (nanos : Nat → Nat) :
    ∃ after next, doContextSwitch s cpu stack nanos = some (after, some next) := by
  have queued : none ∉ (saveCurrent s cpu stack).tasksActive := by
    rw [saveCurrent_tasksActive]
    unfold candidates
    split
    · exact nonnull
    · split
      · simpa using nonnull
      · exact nonnull
  obtain ⟨⟨chosen, left⟩, selected⟩ :=
    @selectNext_total _ (saveCurrent s cpu stack).tasks nanos _ queued
  have idles' : (saveCurrent s cpu stack).tasksIdle cpu = some idle := by
    rw [saveCurrent_tasksIdle, idles]
  unfold doContextSwitch
  rw [if_neg (by simp [up])]
  simp only [selected, Option.bind_some, dispatch, idles']
  cases chosen with
  | none => exact ⟨_, _, rfl⟩
  | some next => exact ⟨_, _, rfl⟩

/-- What a switch that dispatched `next` selected from. -/
theorem doContextSwitch_selected {s after : Sched cpus} {cpu : Fin cpus} {idle next : TaskRef}
    {stack : Stack cpus} {nanos : Nat → Nat} (up : s.smpNumCpus = some s.cpuNum)
    (idles : s.tasksIdle cpu = some idle)
    (switched : doContextSwitch s cpu stack nanos = some (after, some next)) :
    Selected (saveCurrent s cpu stack).tasks nanos idle (candidates s cpu) next
      after.tasksActive := by
  rcases doContextSwitch_cases switched with ⟨closed, _, _⟩ | ⟨chosen, left, t, selection, pick,
    same, dispatched⟩
  · exact absurd up closed
  · obtain rfl := Option.some.inj same
    rw [(dispatch_fields dispatched).1]
    rw [saveCurrent_tasksActive] at selection
    generalize candidates s cpu = active at selection
    cases selection with
    | found before behind u split skipped runnable =>
      -- the loop's choice goes before the idle task
      subst split
      simp only [Option.orElse_eq_orElse, Option.orElse_some, Option.some.injEq] at pick
      subst pick
      exact .first skipped runnable
    | gaveUp skipped =>
      simp only [Option.orElse_eq_orElse, Option.orElse_none, idles, Option.some.injEq] at pick
      subst pick
      exact .none_runnable skipped

/-- The task that a switch returns is the one it made the CPU's own. -/
theorem doContextSwitch_running {s after : Sched cpus} {cpu : Fin cpus} {next : TaskRef}
    {stack : Stack cpus} {nanos : Nat → Nat}
    (switched : doContextSwitch s cpu stack nanos = some (after, some next)) :
    after.tasksRunning cpu = some next ∧ (after.tasks next).status = .running := by
  rcases doContextSwitch_cases switched with ⟨_, _, nothing⟩ | ⟨chosen, left, t, _, pick, same, dispatched⟩
  · cases nothing
  · obtain rfl := Option.some.inj same
    simp only [dispatch, saveCurrent_tasksIdle, pick, Option.some.injEq, Prod.mk.injEq] at dispatched
    obtain ⟨rfl, _⟩ := dispatched
    simp

theorem doContextSwitch_some {s after : Sched cpus} {cpu : Fin cpus} {stack : Stack cpus}
    {nanos : Nat → Nat} {pick : Option TaskRef} (up : s.smpNumCpus = some s.cpuNum)
    (switched : doContextSwitch s cpu stack nanos = some (after, pick)) :
    ∃ next, pick = some next := by
  rcases doContextSwitch_cases switched with ⟨closed, _, _⟩ | ⟨_, _, next, _, _, same, _⟩
  · exact absurd up closed
  · exact ⟨next, same⟩

/-- What a context switch on `cpu` did to the candidates when it took `next` and left `after`. -/
structure SelectionLaw (s after : Sched cpus) (cpu : Fin cpus) (idle next : TaskRef) (stack : Stack cpus)
    (nanos : Nat → Nat) : Prop where
  recorded : after.tasksRunning cpu = some next ∧ (after.tasks next).status = .running
  selected : Selected (saveCurrent s cpu stack).tasks nanos idle (candidates s cpu) next after.tasksActive
  idle_iff : next = idle ∧ after.tasksActive = candidates s cpu ↔
    Skipped (saveCurrent s cpu stack).tasks nanos (candidates s cpu)
  progress : ∀ t, some t ∈ candidates s cpu → ((saveCurrent s cpu stack).tasks t).status = .ready →
    next = t ∨ some t ∈ after.tasksActive ∧
      after.tasksActive.idxOf (some t) < (candidates s cpu).idxOf (some t)

/-- The selection law.  With all CPUs up, a context switch on a queue of tasks dispatches one; and
    whatever the queue holds, when it returns it has taken a task by the order of the queue. -/
theorem contextSwitch_selects {s : Sched cpus} {cpu : Fin cpus} {idle : TaskRef}
    (up : s.smpNumCpus = some s.cpuNum) (idles : s.tasksIdle cpu = some idle)
    (stack : Stack cpus) (nanos : Nat → Nat) :
    (none ∉ s.tasksActive → ∃ after next, doContextSwitch s cpu stack nanos = some (after, some next)) ∧
      ∀ after pick, doContextSwitch s cpu stack nanos = some (after, pick) →
        ∃ next, pick = some next ∧ SelectionLaw s after cpu idle next stack nanos := by
  constructor
  · intro nonnull
    exact doContextSwitch_total up idles nonnull stack nanos
  · intro after pick switched
    obtain ⟨next, rfl⟩ := doContextSwitch_some up switched
    have selected := doContextSwitch_selected up idles switched
    exact ⟨next, rfl, doContextSwitch_running switched, selected, selected.idle_iff,
      fun t queued ready => selected.progress queued ready⟩

/-- Tasks 2 and 3 are queued, 2 is ready and 3 sleeps; the switch takes 2. -/
theorem contextSwitch_selects_two :
    let s : Sched 2 := { twoCpus with
      tasksActive := [some 3, some 2]
      tasks := fun t =>
        { freshTask t with status := if t = 3 then .sleeping else .ready, wakeupTime := 9 } }
    ∃ after, doContextSwitch s 0 (.boot 0) (fun _ => 5) = some (after, some 2) ∧
      SelectionLaw s after 0 0 2 (.boot 0) fun _ => 5 := by
  intro s
  obtain ⟨total, law⟩ := @contextSwitch_selects _ s 0 0 rfl rfl (.boot 0) fun _ => 5
  obtain ⟨after, next, switched⟩ := total (by simp [s])
  obtain ⟨taken, same, holds⟩ := law after (some next) switched
  obtain rfl := Option.some.inj same
  have two : some (some 2) = some (some next) := congrArg (Option.map Prod.snd) switched
  obtain rfl := Option.some.inj (Option.some.inj two)
  exact ⟨after, switched, holds⟩

end HanOS.Proc
