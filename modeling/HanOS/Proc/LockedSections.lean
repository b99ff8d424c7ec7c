import HanOS.Lib.LockAside
import HanOS.Proc.Placement

/-!
# The scheduler under its spinlock

`sectionStep` takes a section of the scheduler in one step.  Here the CPUs execute
`lock_lock` and `lock_release` instruction by instruction, and what is between them in any
number of steps on the data.  `sched_add` has the lock for its `vec_push_back` only: it
calls `task_make` before it comes to the lock, while other threads may have it (`makeTask`).

The steps under the lock know nothing of a task that is not pushed yet, so `task_make`
commutes with them.  Whenever the lock is free, the data is one that whole sections and calls
of `task_make` reach, and there every added task is in the queue, on a CPU, or with the thread
that is adding it (`locked_sections`).
-/

namespace HanOS.Proc

open HanOS.Foundations HanOS.Lib

variable {cpus : Nat} {Cpu Thread : Type*} [DecidableEq Cpu] [DecidableEq Thread]

/-! ## With the lock and without it -/

/-- The scheduler, and what `task_make` has returned to the threads in `sched_add`. -/
structure Adding (Thread : Type*) (cpus : Nat) where
  sched : Sched cpus
  made : Thread → Option (Option TaskRef)

/-- What a thread does while it has the lock. -/
inductive Locked (Thread : Type*) (cpus : Nat)
  | contextSwitch (cpu : Fin cpus) (stack : Stack cpus) (nanos : Nat → Nat)
  | push (thread : Thread)
  | sleep (cpu : Fin cpus) (nanos millis : Nat)

/-- A thread pushes what it has made itself. -/
def Locked.Own (thread : Thread) : Locked Thread cpus → Prop
  | .push other => other = thread
  | .contextSwitch _ _ _ | .sleep _ _ _ => True

instance Locked.decidableOwn (thread : Thread) (sect : Locked Thread cpus) :
    Decidable (sect.Own thread) :=
  match sect with
  | .push other => inferInstanceAs (Decidable (other = thread))
  | .contextSwitch _ _ _ | .sleep _ _ _ => inferInstanceAs (Decidable True)

def pushActive (s : Sched cpus) (t : Option TaskRef) : Sched cpus :=
  { s with tasksActive := s.tasksActive ++ [t] }

def onSched (f : Sched cpus → Option (Sched cpus)) (a : Adding Thread cpus) : Option (Adding Thread cpus) :=
  (f a.sched).map fun s => { a with sched := s }

def pushMade (thread : Thread) (a : Adding Thread cpus) : Option (Adding Thread cpus) :=
  (a.made thread).map fun t => ⟨pushActive a.sched t, Function.update a.made thread none⟩

def lockedStep (a : Adding Thread cpus) : Locked Thread cpus → Option (Adding Thread cpus)
  | .contextSwitch cpu stack nanos =>
    onSched (fun s => (doContextSwitch s cpu stack nanos).map Prod.fst) a
  | .push thread => pushMade thread a
  | .sleep cpu nanos millis => onSched (fun s => some (schedSleep s cpu nanos millis)) a

/-- `task_make`, called by a thread in `sched_add`. -/
def makeTask (thread : Thread) (a : Adding Thread cpus) : Option (Adding Thread cpus) :=
  match a.made thread with
  | some _ => none
  | none => some ⟨(taskMake a.sched).2, Function.update a.made thread (some (taskMake a.sched).1)⟩

/-- With nothing in between the two are `sched_add`. -/
theorem makeTask_push {a : Adding Thread cpus} {thread : Thread} (idle : a.made thread = none) :
    (makeTask thread a).bind (fun a => lockedStep a (.push thread)) =
      some { a with sched := schedAdd a.sched } := by
  have restored : Function.update a.made thread none = a.made := by
    rw [← idle, Function.update_eq_self]
  simp [makeTask, idle, lockedStep, pushMade, restored, pushActive, schedAdd]

def addingStep (a : Adding Thread cpus) : Locked Thread cpus ⊕ Thread → Option (Adding Thread cpus)
  | .inl sect => lockedStep a sect
  | .inr thread => makeTask thread a

/-! ## Where the tasks are -/

/-- Each added task has one place, or one thread that is adding it. -/
structure Kept (start : Sched cpus) (a : Adding Thread cpus) : Prop where
  apart : IdleApart start a.sched
  made_le : start.currTid ≤ a.sched.currTid
  once : ∀ t, Added start a.sched t →
    (places a.sched t = 1 ∧ ∀ u, a.made u ≠ some (some t)) ∨
      (places a.sched t = 0 ∧ ∃! u, a.made u = some (some t))
  nowhere : ∀ t, ¬ Added start a.sched t → (∀ cpu, start.tasksIdle cpu ≠ some t) → places a.sched t = 0
  held : ∀ u t, a.made u = some (some t) → Added start a.sched t

variable {start s after : Sched cpus} {a b : Adding Thread cpus} {thread : Thread}

theorem taskMake_full (full : s.currTid = tidMax) : taskMake s = (none, s) := if_pos full

theorem taskMake_new (room : s.currTid ≠ tidMax) : taskMake s =
    (some s.currTid, { s with tasks := Function.update s.tasks s.currTid (freshTask s.currTid)
                              currTid := s.currTid + 1 }) := if_neg room

omit [DecidableEq Thread] in
theorem Kept.initial (initial : Initial a.sched) (idle : ∀ u, a.made u = none) : Kept a.sched a where
  apart := (Placement.initial initial).idleApart
  made_le := Nat.le_refl _
  once t added := absurd added.2 (Nat.not_lt.mpr added.1)
  nowhere := (Placement.initial initial).nowhere
  held u t has := by
    rw [idle u] at has
    cases has

omit [DecidableEq Thread] in
/-- The places of the tasks are those of before, and nothing is made or pushed. -/
theorem Kept.of_places (kept : Kept start a) (initial : Initial start) (apart : IdleApart start after)
    (same : after.currTid = a.sched.currTid)
    (conserved : ∀ t, (∀ cpu, start.tasksIdle cpu ≠ some t) → places after t = places a.sched t) :
    Kept start { a with sched := after } := by
  have added : ∀ {t}, Added start after t ↔ Added start a.sched t := by
    intro t
    rw [Added, Added, same]
  refine ⟨apart, same ▸ kept.made_le, fun t new => ?_, fun t old notIdle => ?_, fun u t has => ?_⟩
  · have notIdle : ∀ cpu, start.tasksIdle cpu ≠ some t := fun cpu idle =>
      absurd (initial.idle_below cpu t idle) (Nat.not_lt.mpr new.1)
    simp only [conserved t notIdle]
    exact kept.once t (added.mp new)
  · simp only [conserved t notIdle]
    exact kept.nowhere t (fun new => old (added.mpr new)) notIdle
  · exact added.mpr (kept.held u t has)

theorem Kept.push (kept : Kept start a) (initial : Initial start) {t : Option TaskRef}
    (has : a.made thread = some t) :
    Kept start ⟨pushActive a.sched t, Function.update a.made thread none⟩ := by
  have others : ∀ u new, Function.update a.made thread none u = some (some new) →
      u ≠ thread ∧ a.made u = some (some new) := by
    intro u new still
    by_cases here : u = thread
    · rw [here, Function.update_self] at still
      cases still
    · exact ⟨here, by rwa [Function.update_of_ne here] at still⟩
  have count : ∀ u, places (pushActive a.sched t) u = places a.sched u + if t = some u then 1 else 0 := by
    intro u
    simp only [pushActive, places, List.count_append, List.count_singleton, beq_iff_eq]
    omega
  refine ⟨⟨kept.apart.fixed, fun cpu u idle => ?_, kept.apart.home⟩, kept.made_le, fun u new => ?_,
    fun u old notIdle => ?_, fun u new still => kept.held u new (others u new still).2⟩
  · have below := initial.idle_below cpu u idle
    have other : t ≠ some u := by
      rintro rfl
      exact absurd below (Nat.not_lt.mpr (kept.held thread u has).1)
    simpa [pushActive, other] using kept.apart.unqueued cpu u idle
  · rw [count u]
    by_cases pushed : t = some u
    · subst pushed
      -- the thread was the one that had the task
      obtain ⟨_, nobody⟩ | ⟨zero, owner, _, only⟩ := kept.once u new
      · exact absurd has (nobody thread)
      · refine .inl ⟨by rw [zero, if_pos rfl], fun v still => ?_⟩
        obtain ⟨other, holds⟩ := others v u still
        exact other ((only v holds).trans (only thread has).symm)
    · rw [if_neg pushed, Nat.add_zero]
      obtain ⟨one, nobody⟩ | ⟨zero, owner, holds, only⟩ := kept.once u new
      · exact .inl ⟨one, fun v still => nobody v (others v u still).2⟩
      · refine .inr ⟨zero, owner, ?_, fun v still => only v (others v u still).2⟩
        have here : owner ≠ thread := by
          rintro rfl
          exact pushed (Option.some.inj (has.symm.trans holds))
        simpa only [Function.update_of_ne here] using holds
  · rw [count u, if_neg, kept.nowhere u old notIdle]
    rintro rfl
    exact old (kept.held thread u has)

theorem Kept.make (kept : Kept start a) (initial : Initial start)
    (made : makeTask thread a = some b) : Kept start b := by
  cases idle : a.made thread with
  | some _ => simp [makeTask, idle] at made
  | none =>
    simp only [makeTask, idle, Option.some.injEq] at made
    subst made
    by_cases full : a.sched.currTid = tidMax
    · rw [taskMake_full full]
      -- NULL is returned, and no task is made
      have others : ∀ u t, Function.update a.made thread (some none) u = some (some t) ↔
          a.made u = some (some t) := by
        intro u t
        by_cases here : u = thread
        · simp [here, idle]
        · rw [Function.update_of_ne here]
      refine ⟨kept.apart, kept.made_le, fun t new => ?_, kept.nowhere, fun u t has => ?_⟩
      · simpa only [others, ne_eq] using kept.once t new
      · exact kept.held u t ((others u t).mp has)
    · rw [taskMake_new full]
      -- the new task is nowhere but with the thread that made it
      have fresh : places a.sched a.sched.currTid = 0 := by
        refine kept.nowhere _ (fun new => Nat.lt_irrefl _ new.2) fun cpu held => ?_
        exact absurd (initial.idle_below cpu _ held) (Nat.not_lt.mpr kept.made_le)
      have others : ∀ u t, Function.update a.made thread (some (some a.sched.currTid)) u =
          some (some t) ↔ (u = thread ∧ t = a.sched.currTid) ∨ a.made u = some (some t) := by
        intro u t
        by_cases here : u = thread
        · simp [here, idle, eq_comm]
        · simp [here]
      have older : ∀ {t}, Added start a.sched t → t ≠ a.sched.currTid := fun new => by
        have below := new.2
        omega
      refine ⟨⟨kept.apart.fixed, kept.apart.unqueued, kept.apart.home⟩,
        Nat.le_succ_of_le kept.made_le, fun t new => ?_, fun t old notIdle => ?_, fun u t has => ?_⟩
      · by_cases newest : t = a.sched.currTid
        · subst newest
          refine .inr ⟨fresh, thread, by simp, fun u has => ?_⟩
          rcases (others u _).mp has with ⟨here, _⟩ | earlier
          · exact here
          · exact absurd rfl (older (kept.held u _ earlier))
        · have before : Added start a.sched t := ⟨new.1, by have := new.2; simp only at this; omega⟩
          have still := kept.once t before
          simp only [others, newest, and_false, false_or, ne_eq]
          exact still
      · exact kept.nowhere t (fun new => old ⟨new.1, Nat.lt_succ_of_lt new.2⟩) notIdle
      · rcases (others u t).mp has with ⟨_, rfl⟩ | earlier
        · exact ⟨kept.made_le, Nat.lt_succ_self _⟩
        · have new := kept.held u t earlier
          exact ⟨new.1, Nat.lt_succ_of_lt new.2⟩

theorem Kept.step (kept : Kept start a) (initial : Initial start)
    {event : Locked Thread cpus ⊕ Thread} (stepped : addingStep a event = some b) : Kept start b := by
  cases event with
  | inr thread => exact kept.make initial stepped
  | inl sect =>
    cases sect with
    | contextSwitch cpu stack nanos =>
      obtain ⟨s, moved, rfl⟩ := Option.map_eq_some_iff.mp stepped
      obtain ⟨⟨s, next⟩, switched, rfl⟩ := Option.map_eq_some_iff.mp moved
      obtain ⟨apart, same, conserved⟩ := doContextSwitch_places initial kept.apart switched
      exact kept.of_places initial apart same conserved
    | push thread =>
      obtain ⟨t, has, rfl⟩ := Option.map_eq_some_iff.mp stepped
      exact kept.push initial has
    | sleep cpu nanos millis =>
      obtain rfl : { a with sched := schedSleep a.sched cpu nanos millis } = b :=
        Option.some.inj stepped
      obtain ⟨active, running, idle, currTid⟩ := schedSleep_queues a.sched cpu nanos millis
      have apart := kept.apart
      refine kept.of_places initial ⟨idle.trans apart.fixed, ?_, ?_⟩ currTid fun t _ => ?_
      · rw [active]
        exact apart.unqueued
      · rw [running]
        exact apart.home
      · rw [places, places, active, running]

/-! ## The tasks the steps know -/

/-- What is queued, on a CPU or idle has been made. -/
structure KnownTasks (s : Sched cpus) : Prop where
  queued : ∀ t, some t ∈ s.tasksActive → t < s.currTid
  running : ∀ cpu (t : Nat), s.tasksRunning cpu = some t → t < s.currTid
  idle : ∀ cpu (t : Nat), s.tasksIdle cpu = some t → t < s.currTid

structure Known (a : Adding Thread cpus) : Prop where
  sched : KnownTasks a.sched
  made : ∀ u (t : Nat), a.made u = some (some t) → t < a.sched.currTid

omit [DecidableEq Thread] in
theorem Kept.known (kept : Kept start a) (initial : Initial start) : Known a := by
  have idle : ∀ cpu (t : Nat), start.tasksIdle cpu = some t → t < a.sched.currTid := fun cpu t held =>
    Nat.lt_of_lt_of_le (initial.idle_below cpu t held) kept.made_le
  have somewhere : ∀ t, places a.sched t ≠ 0 → t < a.sched.currTid := by
    intro t has
    by_contra unmade
    refine has (kept.nowhere t (fun new => unmade new.2) fun cpu held => ?_)
    exact unmade (idle cpu t held)
  refine ⟨⟨fun t queued => somewhere t ?_, fun cpu t running => somewhere t ?_, fun cpu t held => ?_⟩,
    fun u t has => (kept.held u t has).2⟩
  · have positive := List.count_pos_iff.mpr queued
    rw [places]
    omega
  · rw [places]
    intro none_
    exact runningCount_eq_zero.mp (Nat.eq_zero_of_add_eq_zero_left none_) cpu running
  · rw [kept.apart.fixed] at held
    exact idle cpu t held

/-- Tasks that only change places stay known. -/
theorem KnownTasks.moved (known : KnownTasks s) (currTid : after.currTid = s.currTid)
    (idle : after.tasksIdle = s.tasksIdle)
    (queued : ∀ t, some t ∈ after.tasksActive → some t ∈ s.tasksActive ∨ ∃ cpu, s.tasksRunning cpu = some t)
    (running : ∀ cpu t, after.tasksRunning cpu = some t →
      s.tasksRunning cpu = some t ∨ some t ∈ s.tasksActive ∨ s.tasksIdle cpu = some t) :
    KnownTasks after := by
  refine ⟨fun t member => ?_, fun cpu t held => ?_, fun cpu t held => ?_⟩
  · rw [currTid]
    rcases queued t member with earlier | ⟨cpu, held⟩
    · exact known.queued t earlier
    · exact known.running cpu t held
  · rw [currTid]
    rcases running cpu t held with earlier | waiting | idle
    · exact known.running cpu t earlier
    · exact known.queued t waiting
    · exact known.idle cpu t idle
  · rw [currTid]
    rw [idle] at held
    exact known.idle cpu t held

theorem KnownTasks.saveCurrent (known : KnownTasks s) (cpu : Fin cpus) (stack : Stack cpus) :
    KnownTasks (saveCurrent s cpu stack) := by
  refine known.moved (saveCurrent_currTid ..) (saveCurrent_tasksIdle ..) (fun t member => ?_)
    fun other t held => ?_
  · -- the interrupted task is the only one that comes to the queue
    by_cases mine : s.tasksRunning cpu = some t
    · exact .inr ⟨cpu, mine⟩
    · have positive := List.count_pos_iff.mpr member
      rw [saveCurrent_count, if_neg (fun saved => mine saved.1)] at positive
      exact .inl (List.count_pos_iff.mp positive)
  · rw [saveCurrent_tasksRunning] at held
    exact .inl held

theorem Selection.member {tasks : TaskRef → Task cpus} {nanos : Nat → Nat}
    {active left : List (Option TaskRef)} {next : Option TaskRef} {t : TaskRef}
    (selection : Selection tasks nanos active (next, left)) (has : next = some t ∨ some t ∈ left) :
    some t ∈ active := by
  rw [← List.count_pos_iff, selection.count t]
  rcases has with picked | kept
  · rw [if_pos picked]
    omega
  · have positive := List.count_pos_iff.mpr kept
    omega

def selectAndDispatch (cpu : Fin cpus) (nanos : Nat → Nat) (s : Sched cpus) : Option (Sched cpus) :=
  ((selectNext s.tasks nanos s.tasksActive).bind (dispatch s cpu)).map Prod.fst

theorem KnownTasks.selectAndDispatch (known : KnownTasks s) {cpu : Fin cpus} {nanos : Nat → Nat}
    (moved : selectAndDispatch cpu nanos s = some after) : after.currTid = s.currTid ∧ KnownTasks after := by
  obtain ⟨⟨_, next⟩, dispatched, rfl⟩ := Option.map_eq_some_iff.mp moved
  obtain ⟨⟨chosen, left⟩, selected, dispatched⟩ := Option.bind_eq_some_iff.mp dispatched
  have member := fun t => (selectNext_selection selected).member (t := t)
  rw [dispatch] at dispatched
  cases pick : chosen <|> s.tasksIdle cpu with
  | none => simp [pick] at dispatched
  | some t =>
    simp only [pick, Option.some.injEq, Prod.mk.injEq] at dispatched
    obtain ⟨rfl, rfl⟩ := dispatched
    refine ⟨rfl, known.moved rfl rfl (fun u kept => .inl (member u (.inr kept))) fun other u held => ?_⟩
    by_cases here : other = cpu
    · subst here
      simp only [Function.update_self] at held
      rw [held] at pick
      cases chosen with
      | none => exact .inr (.inr pick)
      | some v => exact .inr (.inl (member u (.inl pick)))
    · simp only [Function.update_of_ne here] at held
      exact .inl held

theorem KnownTasks.schedSleep (known : KnownTasks s) (cpu : Fin cpus) (nanos millis : Nat) :
    KnownTasks (schedSleep s cpu nanos millis) := by
  obtain ⟨active, running, idle, currTid⟩ := schedSleep_queues s cpu nanos millis
  refine known.moved currTid idle (fun t member => .inl ?_) fun other t held => .inl ?_
  · rwa [active] at member
  · rwa [running] at held

/-! ## `task_make` commutes with them -/

/-- What `task_make` leaves of the scheduler. -/
def grown (s : Sched cpus) : Sched cpus := (taskMake s).2

/-- It makes a task, and changes no other field. -/
theorem grown_eq (s : Sched cpus) :
    grown s = { s with tasks := (grown s).tasks, currTid := (grown s).currTid } := by
  by_cases full : s.currTid = tidMax
  · simp [grown, taskMake_full full]
  · simp [grown, taskMake_new full]

@[simp] theorem grown_tasksActive (s : Sched cpus) : (grown s).tasksActive = s.tasksActive := by
  rw [grown_eq]

@[simp] theorem grown_tasksRunning (s : Sched cpus) : (grown s).tasksRunning = s.tasksRunning := by
  rw [grown_eq]

@[simp] theorem grown_tasksIdle (s : Sched cpus) : (grown s).tasksIdle = s.tasksIdle := by
  rw [grown_eq]

@[simp] theorem grown_tasksCoordinate (s : Sched cpus) :
    (grown s).tasksCoordinate = s.tasksCoordinate := by
  rw [grown_eq]

@[simp] theorem grown_rsp0 (s : Sched cpus) : (grown s).rsp0 = s.rsp0 := by
  rw [grown_eq]

@[simp] theorem grown_smpNumCpus (s : Sched cpus) : (grown s).smpNumCpus = s.smpNumCpus := by
  rw [grown_eq]

@[simp] theorem grown_cpuNum (s : Sched cpus) : (grown s).cpuNum = s.cpuNum := by
  rw [grown_eq]

@[simp] theorem grown_smpInitialized (s : Sched cpus) : (grown s).smpInitialized = s.smpInitialized := by
  rw [grown_eq]

theorem grown_tasks {s : Sched cpus} {t : Nat} (below : t < s.currTid) : (grown s).tasks t = s.tasks t := by
  by_cases full : s.currTid = tidMax
  · rw [grown, taskMake_full full]
  · rw [grown, taskMake_new full]
    exact Function.update_of_ne (Nat.ne_of_lt below) ..

/-- A change of known tasks, and of what is not the tasks, comes before or behind. -/
theorem grown_change (s : Sched cpus) {t : Nat} (below : t < s.currTid) (task : Task cpus)
    (running : Fin cpus → Option TaskRef) (coordinate : Fin cpus → Nat) (active : List (Option TaskRef))
    (rsp0 : Fin cpus → Option TaskRef) :
    grown { s with tasks := Function.update s.tasks t task, tasksRunning := running
                   tasksCoordinate := coordinate, tasksActive := active, rsp0 := rsp0 } =
      { grown s with tasks := Function.update (grown s).tasks t task, tasksRunning := running
                     tasksCoordinate := coordinate, tasksActive := active, rsp0 := rsp0 } := by
  by_cases full : s.currTid = tidMax
  · simp [grown, taskMake, full]
  · simp only [grown, taskMake, full, if_false]
    rw [Function.update_comm (Nat.ne_of_gt below)]

theorem saveCurrent_grown {s : Sched cpus} {cpu : Fin cpus} (stack : Stack cpus)
    (running : ∀ t : Nat, s.tasksRunning cpu = some t → t < s.currTid) :
    saveCurrent (grown s) cpu stack = grown (saveCurrent s cpu stack) := by
  unfold saveCurrent
  rw [grown_tasksRunning, grown_tasksIdle, grown_tasksActive]
  cases held : s.tasksRunning cpu with
  | none => rfl
  | some curr =>
    have below := running curr held
    simp [grown_change s below, grown_tasks below]

theorem selectLoop_grown {s : Sched cpus} (nanos : Nat → Nat) (fuel loopSize : Nat)
    (active : List (Option TaskRef)) (queued : ∀ t, some t ∈ active → t < s.currTid) :
    selectLoop (grown s).tasks nanos fuel loopSize active = selectLoop s.tasks nanos fuel loopSize active := by
  induction fuel generalizing loopSize active with
  | zero => rfl
  | succ fuel inductionHypothesis =>
    match active with
    | [] | none :: _ => rfl
    | some next :: rest =>
      have below := queued next (List.mem_cons_self ..)
      -- what goes to the back was in the queue
      have again := inductionHypothesis (loopSize + 1) (rest ++ [some next]) fun t member => by
        refine queued t ?_
        simpa [or_comm] using member
      have same : Runnable (grown s).tasks (nanos loopSize) next ↔ Runnable s.tasks (nanos loopSize) next := by
        rw [Runnable, Runnable, grown_tasks below]
      simp only [selectLoop, same, again]

theorem selectNext_grown {s : Sched cpus} (nanos : Nat → Nat)
    (queued : ∀ t, some t ∈ s.tasksActive → t < s.currTid) :
    selectNext (grown s).tasks nanos (grown s).tasksActive = selectNext s.tasks nanos s.tasksActive := by
  rw [grown_tasksActive]
  exact selectLoop_grown nanos _ 0 _ queued

theorem dispatch_grown {s : Sched cpus} {cpu : Fin cpus} {pick : Option TaskRef × List (Option TaskRef)}
    (chosen : ∀ t : Nat, pick.1 = some t → t < s.currTid)
    (idle : ∀ t : Nat, s.tasksIdle cpu = some t → t < s.currTid) :
    dispatch (grown s) cpu pick = (dispatch s cpu pick).map fun (s, next) => (grown s, next) := by
  obtain ⟨next, active⟩ := pick
  simp only [dispatch, grown_tasksIdle]
  cases taken : next <|> s.tasksIdle cpu with
  | none => rfl
  | some t =>
    have below : t < s.currTid := by
      cases next with
      | none => exact idle t taken
      | some u => exact chosen t taken
    simp [grown_change s below, grown_tasks below]

theorem schedSleep_grown {s : Sched cpus} {cpu : Fin cpus} (nanos millis : Nat)
    (running : ∀ t : Nat, s.tasksRunning cpu = some t → t < s.currTid) :
    schedSleep (grown s) cpu nanos millis = grown (schedSleep s cpu nanos millis) := by
  unfold schedSleep
  rw [grown_smpInitialized, grown_tasksRunning]
  by_cases up : s.smpInitialized
  · rw [if_pos up, if_pos up]
    cases held : s.tasksRunning cpu with
    | none => rfl
    | some curr =>
      have below := running curr held
      simp [grown_change s below, grown_tasks below]
  · rw [if_neg up, if_neg up]

theorem selectAndDispatch_grown {cpu : Fin cpus} {nanos : Nat → Nat} (known : KnownTasks s) :
    selectAndDispatch cpu nanos (grown s) = (selectAndDispatch cpu nanos s).map grown := by
  simp only [selectAndDispatch, selectNext_grown nanos known.queued]
  cases selected : selectNext s.tasks nanos s.tasksActive with
  | none => rfl
  | some pick =>
    have chosen : ∀ t : Nat, pick.1 = some t → t < s.currTid := fun t picked =>
      known.queued t ((selectNext_selection selected).member (.inl picked))
    simp only [Option.bind_some, dispatch_grown chosen (known.idle cpu), Option.map_map]
    rfl

/-! ## The machine -/

/-- A step that leaves the tasks known and commutes with `task_make` on the other threads. -/
def Independent (thread : Thread) (f : Adding Thread cpus → Option (Adding Thread cpus)) : Prop :=
  ∀ a, Known a → (∀ other, thread ≠ other → CommutesAt makeTask other a f) ∧
    ∀ b, f a = some b → Known b

theorem makeTask_eq_some : makeTask thread a = some b ↔ a.made thread = none ∧
    b = ⟨grown a.sched, Function.update a.made thread (some (taskMake a.sched).1)⟩ := by
  cases idle : a.made thread with
  | some _ => simp [makeTask, idle]
  | none => simp [makeTask, idle, grown, eq_comm]

theorem taskMake_fst (same : after.currTid = s.currTid) : (taskMake after).1 = (taskMake s).1 := by
  by_cases full : s.currTid = tidMax
  · rw [taskMake_full full, taskMake_full (same.trans full)]
  · rw [taskMake_new full, taskMake_new (same ▸ full), same]

theorem onSched_independent {f : Sched cpus → Option (Sched cpus)}
    (commutes : ∀ s, KnownTasks s → f (grown s) = (f s).map grown)
    (keeps : ∀ s after, KnownTasks s → f s = some after → after.currTid = s.currTid ∧ KnownTasks after) :
    Independent thread (onSched f) := by
  intro a known
  refine ⟨fun other _ next did moved made => ?_, fun b did => ?_⟩
  · obtain ⟨s, stepped, rfl⟩ := Option.map_eq_some_iff.mp did
    obtain ⟨idle, rfl⟩ := makeTask_eq_some.mp made
    refine ⟨_, makeTask_eq_some.mpr ⟨idle, rfl⟩, ?_⟩
    -- `currTid` is the same before and behind the step, so the same task is made
    have same := (keeps _ _ known.sched stepped).1
    simp [onSched, commutes _ known.sched, stepped, taskMake_fst same]
  · obtain ⟨s, stepped, rfl⟩ := Option.map_eq_some_iff.mp did
    obtain ⟨same, after⟩ := keeps _ _ known.sched stepped
    exact ⟨after, fun u t has => same ▸ known.made u t has⟩

theorem grown_pushActive (s : Sched cpus) (t : Option TaskRef) :
    grown (pushActive s t) = pushActive (grown s) t := by
  by_cases full : s.currTid = tidMax
  · simp [grown, taskMake, pushActive, full]
  · simp [grown, taskMake, pushActive, full]

theorem pushMade_independent :
    Independent thread (pushMade thread : Adding Thread cpus → Option (Adding Thread cpus)) := by
  intro a known
  refine ⟨fun other different _ did moved made => ?_, fun b did => ?_⟩
  · obtain ⟨t, has, rfl⟩ := Option.map_eq_some_iff.mp did
    obtain ⟨idle, rfl⟩ := makeTask_eq_some.mp made
    simp only [Function.update_of_ne (Ne.symm different)] at idle
    refine ⟨_, makeTask_eq_some.mpr ⟨idle, rfl⟩, ?_⟩
    have kept : Function.update a.made other (some (taskMake a.sched).1) thread = some t := by
      rwa [Function.update_of_ne different]
    have same : (taskMake (pushActive a.sched t)).1 = (taskMake a.sched).1 := taskMake_fst rfl
    simp only [pushMade, kept, Option.map_some, same, grown_pushActive]
    rw [Function.update_comm different]
  · obtain ⟨t, has, rfl⟩ := Option.map_eq_some_iff.mp did
    refine ⟨⟨fun u member => ?_, known.sched.running, known.sched.idle⟩, fun u new still => ?_⟩
    · simp only [pushActive, List.mem_append, List.mem_singleton] at member
      rcases member with earlier | rfl
      · exact known.sched.queued u earlier
      · exact known.made thread u has
    · by_cases here : u = thread
      · simp [here] at still
      · simp only [Function.update_of_ne here] at still
        exact known.made u new still

/-- The body of a section does the section, in steps that know no task that is not pushed yet. -/
structure Performs (body : Locked Thread cpus → List (Adding Thread cpus → Option (Adding Thread cpus))) :
    Prop where
  whole : ∀ sect a, perform (body sect) a = lockedStep a sect
  independent : ∀ thread sect, sect.Own thread → ∀ f ∈ body sect, Independent thread f

variable {body : Locked Thread cpus → List (Adding Thread cpus → Option (Adding Thread cpus))}
  {m begin : LockMachine Cpu Thread (Locked Thread cpus) (Adding Thread cpus)}

theorem Performs.wholeStep (performs : Performs body) : wholeStep body makeTask = addingStep := by
  funext a event
  cases event with
  | inl sect => exact performs.whole sect a
  | inr thread => rfl

theorem Kept.run (tasks : Initial a.sched) (idle : ∀ u, a.made u = none)
    (run : Run addingStep anyAction a b) : Kept a.sched b :=
  run.invariant (Kept a.sched) (.initial tasks idle)
    fun _ _ _ kept _ stepped => kept.step tasks stepped

theorem Performs.commute (performs : Performs body) (tasks : Initial a.sched)
    (idle : ∀ u, a.made u = none) : StepsCommute body makeTask (fun thread sect => sect.Own thread) a := by
  intro before run owner thread sect todo did middle moved other own split done taken
  rw [performs.wholeStep] at run
  have known := (Kept.run tasks idle run).known tasks
  refine perform_commutes known (fun f member data good => ?_) done taken
  have inBody : f ∈ body sect := split ▸ List.mem_append_left todo member
  obtain ⟨commutes, keeps⟩ := performs.independent owner sect own f inBody data good
  exact ⟨commutes thread other, keeps⟩

/-- Over the data of every interleaving, with `task_make` called without the lock at any time, there is
    a run of whole sections and calls of `task_make`, of which the holder of the lock has done a part
    more; in it each task is queued, on a CPU or with the thread that is adding it, and there once. -/
theorem locked_sections (performs : Performs body) (initial : LockInitial begin)
    (tasks : Initial begin.data.sched) (idle : ∀ u, begin.data.made u = none)
    (run : Run (asideStep body makeTask) (AsideGuard fun thread sect => sect.Own thread) begin m) :
    ∃ a, Run addingStep anyAction begin.data a ∧ Kept begin.data.sched a ∧
      (m.lock.lock = false → m.data = a) ∧
      ∀ t sect todo, (m.contexts t).owned body = some (sect, todo) →
        ∃ did, body sect = did ++ todo ∧ perform did a = some m.data := by
  obtain ⟨a, wholes, free, part⟩ := aside_serial (performs.commute tasks idle) initial run
  rw [performs.wholeStep] at wholes
  exact ⟨a, wholes, .run tasks idle wholes, free, part⟩

/-- `do_context_switch` in two steps: the interrupted task is queued, then the next one dispatched. -/
def twoSteps : Locked Thread cpus → List (Adding Thread cpus → Option (Adding Thread cpus))
  | .contextSwitch cpu stack nanos =>
    [onSched fun s => some (if s.smpNumCpus ≠ some s.cpuNum then s else saveCurrent s cpu stack),
      onSched fun s => if s.smpNumCpus ≠ some s.cpuNum then some s else selectAndDispatch cpu nanos s]
  | .push thread => [pushMade thread]
  | .sleep cpu nanos millis => [onSched fun s => some (schedSleep s cpu nanos millis)]

theorem twoSteps_performs : Performs (@twoSteps cpus Thread _) where
  whole sect a := by
    cases sect with
    | contextSwitch cpu stack nanos =>
      -- the first step leaves the gate as it is, so both steps are done or none
      obtain ⟨gate, count⟩ := saveCurrent_gate a.sched cpu stack
      by_cases closed : a.sched.smpNumCpus ≠ some a.sched.cpuNum
      · simp [twoSteps, perform, lockedStep, onSched, doContextSwitch, closed]
      · simp [twoSteps, perform, lockedStep, onSched, doContextSwitch, selectAndDispatch, gate, count,
          not_not.mp closed]
    | push thread => simp [twoSteps, lockedStep]
    | sleep cpu nanos millis => simp [twoSteps, lockedStep]
  independent thread sect own f member := by
    cases sect with
    | contextSwitch cpu stack nanos =>
      simp only [twoSteps, List.mem_cons, List.not_mem_nil, or_false] at member
      rcases member with rfl | rfl
      · refine onSched_independent (fun s known => ?_) fun s after known moved => ?_
        · by_cases closed : s.smpNumCpus ≠ some s.cpuNum
          · simp [closed]
          · simp [not_not.mp closed, saveCurrent_grown stack (known.running cpu)]
        · obtain rfl := Option.some.inj moved
          split
          · exact ⟨rfl, known⟩
          · exact ⟨saveCurrent_currTid .., known.saveCurrent cpu stack⟩
      · refine onSched_independent (fun s known => ?_) fun s after known moved => ?_
        · by_cases closed : s.smpNumCpus ≠ some s.cpuNum
          · simp [closed]
          · simp [not_not.mp closed, selectAndDispatch_grown known]
        · split at moved
          · obtain rfl := Option.some.inj moved
            exact ⟨rfl, known⟩
          · exact known.selectAndDispatch moved
    | push other =>
      obtain rfl := List.mem_singleton.mp member
      obtain rfl : other = thread := own
      exact pushMade_independent
    | sleep cpu nanos millis =>
      obtain rfl := List.mem_singleton.mp member
      refine onSched_independent (fun s known => ?_) fun s after known moved => ?_
      · simp [schedSleep_grown nanos millis (known.running cpu)]
      · obtain rfl := Option.some.inj moved
        exact ⟨(schedSleep_queues ..).2.2.2, known.schedSleep cpu nanos millis⟩

def twoCpusLocked : LockMachine (Fin 2) (Fin 2) (Locked (Fin 2) 2) (Adding (Fin 2) 2) where
  lock := lockNew
  data := ⟨twoCpus, fun _ => none⟩
  contexts _ := ⟨.outside, ⟨true, true, 5⟩, [], ⟨false, false, 0⟩⟩
  running := id

local instance lockedNeZero : NeZero 2 := ⟨by decide⟩

/-- CPU 0 makes a task and takes the lock; before it pushes it, CPU 1 makes one too. -/
def twoAdds : List (AsideEvent (Fin 2) (Fin 2) (Locked (Fin 2) 2)) :=
  .aside 0 :: .lock (.lock 0 (.push 0)) :: List.replicate 5 (.lock (.execute 0)) ++
    [.lock (.work 0 ⟨true, false, 5⟩), .aside 1, .lock (.lock 1 (.push 1)), .lock (.execute 1)]

theorem locked_sections_twoCpus :
    ∃ m, Run (asideStep twoSteps makeTask) (AsideGuard fun thread sect => sect.Own thread) twoCpusLocked m ∧
      ∃ a, Run addingStep anyAction twoCpusLocked.data a ∧ Kept twoCpus a ∧
        ∃ did, [pushMade (0 : Fin 2)] = did ++ [] ∧ perform did a = some m.data := by
  have run := Run.of_guarded (show twoAdds.foldlM (fun m event =>
    if AsideGuard (fun thread (sect : Locked (Fin 2) 2) => sect.Own thread) m event then
      asideStep twoSteps makeTask m event else none) twoCpusLocked = some _ from rfl)
  have initial : LockInitial twoCpusLocked := ⟨rfl, fun _ => rfl, fun _ => rfl, fun _ _ same => same⟩
  obtain ⟨a, sections, kept, _, part⟩ :=
    locked_sections twoSteps_performs initial twoCpus_initial (fun _ => rfl) run
  exact ⟨_, run, a, sections, kept, part 0 (.push 0) [] rfl⟩

end HanOS.Proc
