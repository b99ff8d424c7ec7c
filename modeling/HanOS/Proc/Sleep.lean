import HanOS.Core.Clock
import HanOS.Proc.Placement

/-!
# How long a task sleeps

`sched_sleep` adds nanoseconds to what `hpet_get_nanos` returns.  Between that and its
next dispatch the task stays asleep with this deadline whatever the CPUs do
(`Asleep.run`), so how long it sleeps is decided by the clock alone: it wakes at the
first tick at which the reading has grown enough, the alarm of the clock.  On a clock
that counts nanoseconds exactly that is right to a tick; without an HPET the readings
are milliseconds and the sleep is a million times too long (`onTime_pit_iff`).
-/

namespace HanOS.Proc

open HanOS.Core HanOS.Foundations HanOS.Lib

variable {cpus : Nat}

/-! ## Asleep -/

/-- The task sleeps until the deadline; it is no idle task. -/
structure Asleep (s : Sched cpus) (t : TaskRef) (deadline : Nat) : Prop where
  status : (s.tasks t).status = .sleeping
  wakeupTime : (s.tasks t).wakeupTime = deadline
  made : Nat.lt t s.currTid
  notIdle : ∀ cpu, s.tasksIdle cpu ≠ some t

/-- The sections while the task does not execute: no CPU that runs it calls `sched_sleep`, and
    none dispatches it. -/
def Halted (t : TaskRef) (s : Sched cpus) : Section cpus → Prop
  | .contextSwitch cpu stack nanos =>
    ∀ after, doContextSwitch s cpu stack nanos ≠ some (after, some t)
  | .add => True
  | .sleep cpu _ _ => s.tasksRunning cpu ≠ some t

theorem Asleep.saveCurrent {s : Sched cpus} {t : TaskRef} {deadline : Nat}
    (asleep : Asleep s t deadline) (cpu : Fin cpus) (stack : Stack cpus) :
    Asleep (saveCurrent s cpu stack) t deadline := by
  refine ⟨?_, ?_, ?_, ?_⟩
  · unfold Proc.saveCurrent
    cases s.tasksRunning cpu with
    | none => exact asleep.status
    | some curr =>
      by_cases same : t = curr
      · subst same
        simp [asleep.status]
      · simpa [Function.update_of_ne same] using asleep.status
  · unfold Proc.saveCurrent
    cases s.tasksRunning cpu with
    | none => exact asleep.wakeupTime
    | some curr =>
      by_cases same : t = curr
      · subst same
        simpa using asleep.wakeupTime
      · simpa [Function.update_of_ne same] using asleep.wakeupTime
  · rw [saveCurrent_currTid]
    exact asleep.made
  · rw [saveCurrent_tasksIdle]
    exact asleep.notIdle

theorem Asleep.runnable_iff {s : Sched cpus} {t : TaskRef} {deadline : Nat}
    (asleep : Asleep s t deadline) (now : Nat) : Runnable s.tasks now t ↔ deadline ≤ now := by
  simp [Runnable, asleep.status, asleep.wakeupTime]

/-- A switch that dispatches the sleeping task found its deadline reached. -/
theorem Asleep.selected {s after : Sched cpus} {t : TaskRef} {deadline : Nat}
    (asleep : Asleep s t deadline) {cpu : Fin cpus} {stack : Stack cpus} {nanos : Nat → Nat}
    (switched : doContextSwitch s cpu stack nanos = some (after, some t)) :
    ∃ i, deadline ≤ nanos i := by
  rcases doContextSwitch_cases switched with ⟨_, _, impossible⟩ | ⟨chosen, left, u, selection, pick,
    same, _⟩
  · cases impossible
  · obtain rfl := Option.some.inj same
    cases selection with
    | gaveUp _ =>
      -- the idle task is dispatched in its place
      simp only [Option.orElse_eq_orElse, Option.orElse_none] at pick
      exact absurd pick (asleep.notIdle cpu)
    | found before behind v split skipped runnable =>
      simp only [Option.orElse_eq_orElse, Option.orElse_some, Option.some.injEq] at pick
      subst pick
      exact ⟨before.length, ((asleep.saveCurrent cpu stack).runnable_iff _).mp runnable⟩

/-- The running task sleeps and no other is queued: a switch dispatches it again once its
    deadline is reached. -/
theorem Asleep.wakes {s : Sched cpus} {t : TaskRef} {deadline : Nat} (asleep : Asleep s t deadline)
    {cpu : Fin cpus} {nanos : Nat → Nat} (up : s.smpNumCpus = some s.cpuNum)
    (running : s.tasksRunning cpu = some t) (empty : s.tasksActive = [])
    (reached : deadline ≤ nanos 0) (stack : Stack cpus) :
    ∃ after, doContextSwitch s cpu stack nanos = some (after, some t) := by
  have queued : (Proc.saveCurrent s cpu stack).tasksActive = [some t] := by
    simp only [Proc.saveCurrent, running, empty]
    rw [if_pos (Ne.symm (asleep.notIdle cpu))]
    rfl
  have runnable := ((asleep.saveCurrent cpu stack).runnable_iff (nanos 0)).mpr reached
  unfold doContextSwitch
  rw [if_neg (by simp [up])]
  simp only [queued, selectNext, selectLoop, runnable, if_true, Option.bind_some, Proc.dispatch,
    Option.orElse_eq_orElse, Option.orElse_some]
  exact ⟨_, rfl⟩

theorem Asleep.dispatch {s after : Sched cpus} {t : TaskRef} {deadline : Nat}
    (asleep : Asleep s t deadline) {cpu : Fin cpus} {chosen : Option TaskRef}
    {left : List (Option TaskRef)} {next : TaskRef} (other : next ≠ t)
    (dispatched : dispatch s cpu (chosen, left) = some (after, some next)) :
    Asleep after t deadline := by
  simp only [Proc.dispatch] at dispatched
  split at dispatched
  · simp at dispatched
  · simp only [Option.some.injEq, Prod.mk.injEq] at dispatched
    obtain ⟨rfl, rfl⟩ := dispatched
    refine ⟨?_, ?_, asleep.made, asleep.notIdle⟩
    · simpa [Function.update_of_ne (Ne.symm other)] using asleep.status
    · simpa [Function.update_of_ne (Ne.symm other)] using asleep.wakeupTime

theorem Asleep.step {s after : Sched cpus} {t : TaskRef} {deadline : Nat}
    (asleep : Asleep s t deadline) (action : Section cpus) (halted : Halted t s action)
    (stepped : sectionStep s action = some after) : Asleep after t deadline := by
  cases action with
  | contextSwitch cpu stack nanos =>
    obtain ⟨⟨after, next⟩, switched, rfl⟩ := Option.map_eq_some_iff.mp stepped
    rcases doContextSwitch_cases switched with ⟨_, same, _⟩ | ⟨chosen, left, u, _, _, same, dispatched⟩
    · subst same
      exact asleep
    · subst same
      have other : u ≠ t := by
        rintro rfl
        exact halted after switched
      exact (asleep.saveCurrent cpu stack).dispatch other dispatched
  | add =>
    cases stepped
    rcases schedAdd_cases s with ⟨_, full⟩ | made
    · rw [full]
      exact ⟨asleep.status, asleep.wakeupTime, asleep.made, asleep.notIdle⟩
    · have other : t ≠ s.currTid := Nat.ne_of_lt asleep.made
      rw [made]
      refine ⟨?_, ?_, Nat.lt_succ_of_lt asleep.made, asleep.notIdle⟩
      · simpa [Function.update_of_ne other] using asleep.status
      · simpa [Function.update_of_ne other] using asleep.wakeupTime
  | sleep cpu nanos millis =>
    cases stepped
    unfold schedSleep
    split
    · split
      · exact asleep
      · rename_i curr running
        have other : t ≠ curr := by
          rintro rfl
          exact halted running
        refine ⟨?_, ?_, asleep.made, asleep.notIdle⟩
        · simpa [Function.update_of_ne other] using asleep.status
        · simpa [Function.update_of_ne other] using asleep.wakeupTime
    · exact asleep

theorem Asleep.run {s after : Sched cpus} {t : TaskRef} {deadline : Nat}
    (asleep : Asleep s t deadline) (run : Run sectionStep (Halted t) s after) :
    Asleep after t deadline :=
  run.invariant (fun s => Asleep s t deadline) asleep
    (fun _ action _ held halted stepped => held.step action halted stepped)

/-! ## A task that calls `sched_sleep` -/

/-- A task that was added in the run from `start` runs on the CPU, with SMP up. -/
structure Sleeper (start s : Sched cpus) (cpu : Fin cpus) (t : TaskRef) : Prop where
  initial : Initial start
  run : Run sectionStep anyAction start s
  added : Added start s t
  running : s.tasksRunning cpu = some t
  initialized : s.smpInitialized = true

theorem Sleeper.asleep {start s : Sched cpus} {cpu : Fin cpus} {t : TaskRef}
    (sleeper : Sleeper start s cpu t) (nanos millis : Nat) :
    Asleep (schedSleep s cpu nanos millis) t (u64 (nanos + millisToNanos millis)) := by
  simp only [schedSleep, sleeper.initialized, sleeper.running, if_true]
  refine ⟨by simp, by simp [u64], sleeper.added.2, ?_⟩
  intro owner idle
  have placed := Placement.run sleeper.initial sleeper.run
  rw [placed.idle_fixed] at idle
  exact absurd (sleeper.initial.idle_below owner t idle) (Nat.not_lt.mpr sleeper.added.1)

/-- A task that calls `sched_sleep(millis)` at time `t0` is not dispatched before the time is over
    and is runnable at every switch from then on, to within the slack of the clock.  The times
    are those before the clock's 64 bits run over. -/
def SleepsFor (c : Clock) (millis t0 : Nat) : Prop :=
  ∀ {cpus : Nat} (start s s' : Sched cpus) (cpu : Fin cpus) (t : TaskRef), Sleeper start s cpu t →
    Run sectionStep (Halted t) (schedSleep s cpu (c.reading t0) millis) s' →
    ∀ (other : Fin cpus) (stack : Stack cpus) (times : Nat → Nat),
      (∀ i, t0 ≤ times i ∧ c.ticks.stamp (times i) < 2 ^ 64) →
      (∀ after, doContextSwitch s' other stack (fun i => c.reading (times i)) =
          some (after, some t) →
        ∃ i, t0 + millis * femtosPerMilli ≤ times i + c.slack) ∧
      ∀ i, t0 + millis * femtosPerMilli + c.slack ≤ times i →
        Runnable (saveCurrent s' other stack).tasks (c.reading (times i)) t

/-- The deadline against the clock. -/
def WakesFor (c : Clock) (millis t0 : Nat) : Prop :=
  ∀ t1, t0 ≤ t1 → c.ticks.stamp t1 < 2 ^ 64 →
    (u64 (c.reading t0 + millisToNanos millis) ≤ c.reading t1 →
      t0 + millis * femtosPerMilli ≤ t1 + c.slack) ∧
    (t0 + millis * femtosPerMilli + c.slack ≤ t1 →
      u64 (c.reading t0 + millisToNanos millis) ≤ c.reading t1)

/-- A task is added and CPU 0 dispatches it. -/
theorem twoCpus_sleeper :
    ∃ s : Sched 2, Sleeper twoCpus s 0 2 ∧ s.smpNumCpus = some s.cpuNum ∧ s.tasksActive = [] :=
  ⟨_, ⟨twoCpus_initial, Run.of_foldlM (fun _ _ => trivial)
    [.add, .contextSwitch 0 (.boot 0) (fun _ => 0)] rfl, ⟨by decide, by decide⟩, rfl, rfl⟩, rfl, rfl⟩

theorem sleepsFor_iff_wakesFor (c : Clock) (millis t0 : Nat) :
    SleepsFor c millis t0 ↔ WakesFor c millis t0 := by
  constructor
  · -- with one task and no other to run, a switch at any time asks for its deadline
    intro sleeps t1 later inTime
    obtain ⟨s, sleeper, up, empty⟩ := twoCpus_sleeper
    have asleep := sleeper.asleep (c.reading t0) millis
    have kept : schedSleep s 0 (c.reading t0) millis =
        { s with tasks := (schedSleep s 0 (c.reading t0) millis).tasks } := by
      simp only [schedSleep, sleeper.initialized, sleeper.running, if_true]
    obtain ⟨never, always⟩ := sleeps twoCpus s _ 0 2 sleeper .refl 0 (.boot 0) (fun _ => t1)
      (fun _ => ⟨later, inTime⟩)
    constructor
    · intro reached
      obtain ⟨after, switched⟩ := @Asleep.wakes _ _ _ _ asleep 0 (fun _ => c.reading t1)
        (by rw [kept]; exact up) (by rw [kept]; exact sleeper.running) (by rw [kept]; exact empty)
        reached (.boot 0)
      obtain ⟨_, waited⟩ := never after switched
      exact waited
    · intro waited
      exact ((asleep.saveCurrent 0 (.boot 0)).runnable_iff _).mp (always 0 waited)
  · intro wakes cpus start s s' cpu t sleeper run other stack times bounds
    have asleep := (sleeper.asleep (c.reading t0) millis).run run
    constructor
    · intro after switched
      obtain ⟨i, reached⟩ := asleep.selected switched
      exact ⟨i, (wakes (times i) (bounds i).1 (bounds i).2).1 reached⟩
    · intro i waited
      rw [(asleep.saveCurrent other stack).runnable_iff]
      exact (wakes (times i) (bounds i).1 (bounds i).2).2 waited

/-! ## The condition on the clock -/

/-- The nanoseconds `sched_sleep` adds take the clock as long as the milliseconds, to within its
    slack.  Where the deadline runs over 64 bits it lies in the past. -/
def OnTime (c : Clock) (millis t0 : Nat) : Prop :=
  let wait := millisToNanos millis
  let alarm := c.ticks.alarm t0 wait
  if c.ticks.stamp t0 + wait < 2 ^ 64 then
    (wait = 0 ∨ 0 < c.ticks.rate) ∧ alarm ≤ t0 + millis * femtosPerMilli + c.slack ∧
      (c.ticks.stamp alarm < 2 ^ 64 → t0 + millis * femtosPerMilli ≤ alarm + c.slack)
  else millis * femtosPerMilli ≤ c.slack

variable {c : Clock} {millis t0 : Nat}

theorem wakesFor_iff_onTime (inTime : c.ticks.stamp t0 < 2 ^ 64) :
    WakesFor c millis t0 ↔ OnTime c millis t0 := by
  have now := Clock.reading_of_lt inTime
  unfold WakesFor OnTime
  rw [now]
  by_cases fits : c.ticks.stamp t0 + millisToNanos millis < 2 ^ 64
  · -- the deadline is compared as it was computed
    have until_due : ∀ t1, c.ticks.stamp t1 < 2 ^ 64 →
        (u64 (c.ticks.stamp t0 + millisToNanos millis) ≤ c.reading t1 ↔
          c.ticks.stamp t0 + millisToNanos millis ≤ c.ticks.stamp t1) := by
      intro t1 below
      rw [u64_of_lt fits, Clock.reading_of_lt below]
    have latest := @Ticks.from_iff c.ticks t0 (millisToNanos millis) (2 ^ 64)
      (t0 + millis * femtosPerMilli + c.slack) (by omega) fits
    have earliest := @Ticks.notBefore_iff c.ticks t0 (millisToNanos millis) (2 ^ 64)
      (t0 + millis * femtosPerMilli - c.slack)
    simp only [if_pos fits]
    constructor
    · intro wakes
      obtain ⟨runs, bound⟩ := latest.mp fun t1 waited below =>
        (until_due t1 below).mp ((wakes t1 (by omega) below).2 waited)
      refine ⟨runs, bound, fun below => ?_⟩
      have first := (earliest runs).mp (fun t1 later below due => by
        have waited := (wakes t1 later below).1 ((until_due t1 below).mpr due)
        omega) below
      omega
    · rintro ⟨runs, bound, early⟩ t1 later below
      rw [until_due t1 below]
      constructor
      · intro due
        have first := (earliest runs).mpr (fun inTime => by
          have bound := early inTime
          omega) t1 later below due
        omega
      · intro waited
        exact latest.mpr ⟨runs, bound⟩ t1 waited below
  · -- the deadline has run over: it is behind the clock at once
    have wait_lt : millisToNanos millis < 2 ^ 64 := Nat.mod_lt _ (by decide)
    have wrapped : u64 (c.ticks.stamp t0 + millisToNanos millis) =
        c.ticks.stamp t0 + millisToNanos millis - 2 ^ 64 := by
      unfold u64
      omega
    have past : ∀ t1, t0 ≤ t1 → c.ticks.stamp t1 < 2 ^ 64 →
        u64 (c.ticks.stamp t0 + millisToNanos millis) ≤ c.reading t1 := by
      intro t1 later below
      rw [Clock.reading_of_lt below, wrapped]
      have grown := c.ticks.stamp_mono later
      omega
    simp only [if_neg fits]
    constructor
    · intro wakes
      have first := (wakes t0 (Nat.le_refl _) inTime).1 (past t0 (Nat.le_refl _) inTime)
      omega
    · intro short t1 later below
      exact ⟨fun _ => by omega, fun _ => past t1 later below⟩

/-- A task sleeps for the time it asks for exactly when the clock is on time. -/
theorem schedSleep_iff (inTime : c.ticks.stamp t0 < 2 ^ 64) :
    SleepsFor c millis t0 ↔ OnTime c millis t0 :=
  (sleepsFor_iff_wakesFor c millis t0).trans (wakesFor_iff_onTime inTime)

theorem schedSleep_iff_five :
    SleepsFor (.hpet 69841279 (by decide)) 5 123 ↔ OnTime (.hpet 69841279 (by decide)) 5 123 :=
  schedSleep_iff (by decide)

/-- Without an HPET, `sched_sleep(1)` waits for a reading of 1000000, and a second after it
    the reading is 1000. -/
theorem schedSleep_pit : millisToNanos 1 = 1000000 ∧ Clock.pit.reading femtosPerSecond = 1000 ∧
    ¬ SleepsFor .pit 1 0 := by
  have start : Clock.pit.reading 0 = 0 := by
    rw [Clock.reading_eq]
    rfl
  have second : Clock.pit.reading femtosPerSecond = 1000 := by
    rw [Clock.reading_eq]
    rfl
  refine ⟨rfl, second, fun sleeps => ?_⟩
  have woken := ((sleepsFor_iff_wakesFor .pit 1 0).mp sleeps femtosPerSecond (by decide)
    (by decide)).2 (by decide)
  rw [start, second] at woken
  exact absurd woken (by decide)

/-! ## What the condition says of the two clocks -/

/-- While no sum runs over 64 bits, no clock is early. -/
theorem onTime_iff (fits : c.ticks.stamp t0 + millis * 1000000 < 2 ^ 64) :
    OnTime c millis t0 ↔ (millis = 0 ∨ 0 < c.ticks.rate) ∧
      c.ticks.alarm t0 (millis * 1000000) ≤ t0 + millis * femtosPerMilli + c.slack := by
  have wait : millisToNanos millis = millis * 1000000 := Nat.mod_eq_of_lt (by omega)
  have same : millis * 1000000 = 0 ↔ millis = 0 := by omega
  unfold OnTime
  simp only [wait, if_pos fits, same]
  constructor
  · rintro ⟨runs, bound, _⟩
    exact ⟨runs, bound⟩
  · rintro ⟨runs, bound⟩
    refine ⟨runs, bound, fun _ => ?_⟩
    -- a truncated period makes the clock slow, never fast
    have early := @Ticks.alarm_not_early c.ticks t0 (millis * 1000000) femtosPerNano
      (Clock.rate_unit c) (runs.imp_left same.mpr)
    rw [nanos_femtos] at early
    unfold Clock.slack
    omega

/-- An HPET whose period is a whole number of nanoseconds is on time. -/
theorem onTime_hpet {period : Nat} (positive : 0 < period) (whole : femtosPerNano ∣ period)
    (fits : (Clock.hpet period positive).ticks.stamp t0 + millis * 1000000 < 2 ^ 64) :
    OnTime (.hpet period positive) millis t0 := by
  have unit : (Clock.hpet period positive).ticks.rate * femtosPerNano = period :=
    Nat.div_mul_cancel whole
  rw [onTime_iff fits]
  constructor
  · right
    apply Nat.pos_of_ne_zero
    intro still
    rw [still, Nat.zero_mul] at unit
    omega
  · have late := @Ticks.alarm_not_late (Clock.hpet period positive).ticks t0 (millis * 1000000)
      femtosPerNano unit
    rw [nanos_femtos] at late
    unfold Clock.slack
    omega

/-- Without an HPET only a sleep of no time is on time. -/
theorem onTime_pit_iff (fits : Clock.pit.ticks.stamp t0 + millis * 1000000 < 2 ^ 64) :
    OnTime .pit millis t0 ↔ millis = 0 := by
  rw [onTime_iff fits]
  constructor
  · rintro ⟨_, bound⟩
    -- the alarm is a million times too far away
    have late := @Ticks.alarm_not_early Clock.pit.ticks t0 (millis * 1000000) femtosPerMilli
      (by decide) (.inr (by decide))
    have tick : Clock.pit.ticks.tick = femtosPerMilli := by decide
    have slack : Clock.pit.slack = 2 * femtosPerMilli := by decide
    rw [slack] at bound
    rw [tick] at late
    unfold femtosPerMilli at late bound
    omega
  · rintro rfl
    refine ⟨.inl rfl, ?_⟩
    rw [Nat.zero_mul, Ticks.alarm_zero]
    omega

/-- What the boot finds decides: without an HPET no time but none is slept as it is asked for, and with
    one whose period is a whole number of nanoseconds every time is. -/
theorem sleepsFor_booted {sdt : Option HpetRegs} {h : Hpet}
    (booted : hpetInit hpetStatics sdt = some h) :
    ∃ c : Clock, (∀ t, hpetGetNanos (h.counted t) (pitTicksAt t) = c.reading t) ∧
      ∀ t0 millis, c.ticks.stamp t0 + millis * 1000000 < 2 ^ 64 →
        match c with
        | .pit => SleepsFor .pit millis t0 ↔ millis = 0
        | .hpet period positive => femtosPerNano ∣ period → SleepsFor (.hpet period positive) millis t0 := by
  obtain ⟨c, reading⟩ := hpetInit_clock booted
  refine ⟨c, reading, fun t0 millis fits => ?_⟩
  have sleeps := (sleepsFor_iff_wakesFor c millis t0).trans (wakesFor_iff_onTime (by omega))
  cases c with
  | pit => exact sleeps.trans (onTime_pit_iff fits)
  | hpet period positive => exact fun whole => sleeps.mpr (onTime_hpet positive whole fits)

end HanOS.Proc
