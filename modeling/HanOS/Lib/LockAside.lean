import HanOS.Lib.Lock

/-!
# Steps beside the lock

A thread outside `lock_lock` and `lock_release` may change the data without the lock.  Where
such steps commute with what the thread inside has done, the machine still follows a run of
whole sections, with the steps aside in between (`aside_serial`).
-/

namespace HanOS.Lib

open HanOS.Foundations

variable {Cpu Thread Sect Data : Type*}

inductive AsideEvent (Cpu Thread Sect : Type*)
  | lock (event : LockEvent Cpu Thread Sect)
  /-- A step on the data that the thread takes without the lock. -/
  | aside (cpu : Cpu)

section

variable [DecidableEq Cpu] [DecidableEq Thread]

def asideStep (body : Sect → List (Data → Option Data)) (aside : Thread → Data → Option Data)
    (m : LockMachine Cpu Thread Sect Data) : AsideEvent Cpu Thread Sect →
      Option (LockMachine Cpu Thread Sect Data)
  | .lock event => lockStep body m event
  | .aside cpu =>
    match (m.context cpu).place with
    | .outside => (aside (m.running cpu) m.data).map fun data => { m with data := data }
    | _ => none

end

/-- A thread comes to the lock with sections that are its own. -/
def AsideGuard (own : Thread → Sect → Prop) (m : LockMachine Cpu Thread Sect Data) :
    AsideEvent Cpu Thread Sect → Prop
  | .lock (.lock cpu sect) => own (m.running cpu) sect
  | .lock event => LockGuard m event
  | .aside _ => True

instance AsideGuard.decidable {cpus : Nat} [DecidableEq Thread] (own : Thread → Sect → Prop)
    [decidableOwn : ∀ thread sect, Decidable (own thread sect)] (m : LockMachine (Fin cpus) Thread Sect Data)
    (event : AsideEvent (Fin cpus) Thread Sect) : Decidable (AsideGuard own m event) :=
  match event with
  | .lock (.lock cpu sect) => decidableOwn (m.running cpu) sect
  | .lock (.execute cpu) => LockGuard.decidable m (.execute cpu)
  | .lock (.work cpu flags) => LockGuard.decidable m (.work cpu flags)
  | .lock (.release cpu) => LockGuard.decidable m (.release cpu)
  | .lock (.compute cpu flags) => LockGuard.decidable m (.compute cpu flags)
  | .lock (.switch cpu thread) => LockGuard.decidable m (.switch cpu thread)
  | .aside _ => .isTrue trivial

theorem AsideGuard.lock {own : Thread → Sect → Prop} {m : LockMachine Cpu Thread Sect Data}
    {event : LockEvent Cpu Thread Sect} (allowed : AsideGuard own m (.lock event)) :
    LockGuard m event := by
  cases event with
  | lock cpu sect => trivial
  | execute | work | release | compute | switch => exact allowed

/-! ## The sections of the threads -/

def Context.sect (c : Context Sect Data) : Option Sect :=
  match c.place with
  | .outside => none
  | .locking _ sect | .inside sect _ | .releasing _ sect => some sect

theorem Context.owned_sect {body : Sect → List (Data → Option Data)} {c : Context Sect Data} {sect : Sect}
    {todo : List (Data → Option Data)} (owned : c.owned body = some (sect, todo)) :
    c.sect = some sect := by
  unfold Context.owned at owned
  unfold Context.sect
  cases place : c.place with
  | outside => simp [place] at owned
  | inside sect todo =>
    simp only [place, Option.some.injEq, Prod.mk.injEq] at owned
    rw [owned.1]
  | locking instr sect =>
    cases instr <;> simp [place] at owned
    all_goals simp [owned]
  | releasing instr sect =>
    cases instr <;> simp [place] at owned
    all_goals simp [owned]

variable {body : Sect → List (Data → Option Data)} {l : LockT} {c : Context Sect Data} {sect : Sect}

theorem Context.execute_sect {after : LockT × Context Sect Data}
    (moved : c.execute body l = some after) : after.2.sect = c.sect ∨ after.2.sect = none := by
  obtain ⟨place, flags, stack, called⟩ := c
  cases place with
  | outside => cases moved
  | inside sect todo => cases moved
  | locking instr sect =>
    left
    cases instr with
    | pop =>
      cases stack with
      | nil => cases moved
      | cons word stack => cases moved; rfl
    | pushfq | cli | bts | jnc | pause | bt | jc | btsAgain | jcAgain => cases moved; rfl
  | releasing instr sect =>
    cases instr with
    | push | btr => cases moved; exact .inl rfl
    | popfq =>
      cases stack with
      | nil => cases moved
      | cons word stack => cases moved; exact .inr rfl

section

variable [DecidableEq Cpu] [DecidableEq Thread] {aside : Thread → Data → Option Data}
  {own : Thread → Sect → Prop} {start m after : LockMachine Cpu Thread Sect Data}
  {s : Exclusive Thread Sect Data}

/-- Every thread has come to the lock with a section of its own. -/
def OwnSections (own : Thread → Sect → Prop) (m : LockMachine Cpu Thread Sect Data) : Prop :=
  ∀ t sect, (m.contexts t).sect = some sect → own t sect

omit [DecidableEq Cpu] in
theorem OwnSections.put (before : OwnSections own m) (cpu : Cpu) {c : Context Sect Data}
    (kept : ∀ sect, c.sect = some sect → own (m.running cpu) sect) : OwnSections own (m.put cpu c) := by
  intro t sect has
  simp only [LockMachine.put] at has
  by_cases here : t = m.running cpu
  · rw [here, Function.update_self] at has
    exact here ▸ kept sect has
  · rw [Function.update_of_ne here] at has
    exact before t sect has

theorem OwnSections.step {event : LockEvent Cpu Thread Sect} (before : OwnSections own m)
    (allowed : AsideGuard own m (.lock event)) (stepped : lockStep body m event = some after) :
    OwnSections own after := by
  have mine : ∀ cpu, ∀ sect, (m.context cpu).sect = some sect → own (m.running cpu) sect :=
    fun cpu sect has => before (m.running cpu) sect has
  cases event with
  | execute cpu =>
    obtain ⟨⟨l, c⟩, moved, rfl⟩ := Option.map_eq_some_iff.mp stepped
    refine before.put cpu fun sect has => mine cpu sect ?_
    -- an instruction keeps the section, and `popfq` gives it up
    cases Context.execute_sect moved with
    | inl same => rw [← same, has]
    | inr none_ =>
      rw [none_] at has
      cases has
  | lock cpu sect =>
    cases place : (m.context cpu).place with
    | outside =>
      simp only [lockStep, place] at stepped
      cases stepped
      refine before.put cpu fun other has => ?_
      obtain rfl : sect = other := Option.some.inj has
      exact allowed
    | locking | inside | releasing => simp [lockStep, place] at stepped
  | work cpu flags =>
    cases place : (m.context cpu).place with
    | outside | locking | releasing => simp [lockStep, place] at stepped
    | inside sect todo =>
      cases todo with
      | nil => simp [lockStep, place] at stepped
      | cons f todo =>
        simp only [lockStep, place] at stepped
        obtain ⟨data, moved, rfl⟩ := Option.map_eq_some_iff.mp stepped
        refine before.put cpu fun other has => mine cpu other ?_
        rw [Context.sect, place]
        exact has
  | release cpu =>
    cases place : (m.context cpu).place with
    | outside | locking | releasing => simp [lockStep, place] at stepped
    | inside sect todo =>
      cases todo with
      | cons f todo => simp [lockStep, place] at stepped
      | nil =>
        simp only [lockStep, place] at stepped
        cases stepped
        refine before.put cpu fun other has => mine cpu other ?_
        rw [Context.sect, place]
        exact has
  | compute cpu flags =>
    cases place : (m.context cpu).place with
    | outside =>
      simp only [lockStep, place] at stepped
      cases stepped
      refine before.put cpu fun other has => mine cpu other ?_
      rw [Context.sect, place]
      rw [Context.sect] at has
      simpa only [place] using has
    | locking | inside | releasing => simp [lockStep, place] at stepped
  | switch cpu thread =>
    -- no thread comes to another section
    have same : after.contexts = m.contexts := by
      cases place : (m.context cpu).place <;>
        cases interrupt : (m.context cpu).flags.interrupt <;>
        simp only [lockStep, place, interrupt, Option.some.injEq, reduceCtorEq] at stepped <;>
        simp [← stepped]
    intro t sect has
    rw [same] at has
    exact before t sect has

/-! ## Every run -/

/-- A step aside of another thread commutes with what a thread has done of a section of its own. -/
def StepsCommute (body : Sect → List (Data → Option Data)) (aside : Thread → Data → Option Data)
    (own : Thread → Sect → Prop) (data : Data) : Prop :=
  ∀ before, Run (wholeStep body aside) anyAction data before →
    ∀ owner thread sect todo did middle moved, owner ≠ thread → own owner sect →
      body sect = did ++ todo → perform did before = some middle → aside thread middle = some moved →
        ∃ before', aside thread before = some before' ∧ perform did before' = some moved

/-- The machine beside an owner who does whole sections, with the steps aside in between. -/
structure Besides (body : Sect → List (Data → Option Data)) (aside : Thread → Data → Option Data)
    (own : Thread → Sect → Prop) (data : Data) (m : LockMachine Cpu Thread Sect Data)
    (s : Exclusive Thread Sect Data) : Prop where
  sim : Simulates body m s
  own : OwnSections own m
  aside : s.Aside body aside data

theorem Besides.step {data : Data} {event : AsideEvent Cpu Thread Sect}
    (commute : StepsCommute body aside own data) (beside : Besides body aside own data m s)
    (allowed : AsideGuard own m event) (stepped : asideStep body aside m event = some after) :
    ∃ s', Besides body aside own data after s' := by
  cases event with
  | lock event =>
    obtain ⟨s', sim, same | ⟨event', moved⟩⟩ := beside.sim.step allowed.lock stepped
    · exact ⟨s', sim, beside.own.step allowed stepped, same ▸ beside.aside⟩
    · exact ⟨s', sim, beside.own.step allowed stepped, beside.aside.step moved⟩
  | aside cpu =>
    cases place : (m.context cpu).place with
    | locking | inside | releasing => simp [asideStep, place] at stepped
    | outside =>
      simp only [asideStep, place] at stepped
      obtain ⟨moved, taken, rfl⟩ := Option.map_eq_some_iff.mp stepped
      have sim := beside.sim
      refine ⟨{ s with data := moved }, ⟨rfl, sim.held, sim.owned, sim.saved, sim.apart, sim.stays⟩,
        beside.own, ?_⟩
      rw [← sim.data] at taken
      refine beside.aside.ahead taken fun before run owner sect todo did held split done => ?_
      have owned : (m.contexts owner).owned body = some (sect, todo) := by
        rw [← sim.owned, ownedBy_eq_some, held]
      -- the thread that steps aside is outside, so it is not the owner
      have other : owner ≠ m.running cpu := by
        rintro rfl
        rw [LockMachine.context] at place
        simp [Context.owned, place] at owned
      exact commute before run owner _ sect todo did s.data moved other
        (beside.own owner sect (Context.owned_sect owned)) split done taken

/-- Over every interleaving of the lock's instructions, the sections and the steps aside there is a run
    of whole sections and steps aside, of which the holder of the lock has done a part more. -/
theorem aside_serial (commute : StepsCommute body aside own start.data) (initial : LockInitial start)
    (run : Run (asideStep body aside) (AsideGuard own) start m) :
    ∃ before, Run (wholeStep body aside) anyAction start.data before ∧
      (m.lock.lock = false → m.data = before) ∧
      ∀ t sect todo, (m.contexts t).owned body = some (sect, todo) →
        ∃ did, body sect = did ++ todo ∧ perform did before = some m.data := by
  have outside : OwnSections own start := by
    intro t sect has
    rw [Context.sect, initial.outside t] at has
    cases has
  have initially : Besides body aside own start.data start ⟨none, start.data, []⟩ :=
    ⟨initial.simulates, outside, start.data, .refl, rfl⟩
  obtain ⟨s, beside⟩ : ∃ s, Besides body aside own start.data m s := by
    refine run.invariant (fun m => ∃ s, Besides body aside own start.data m s) ⟨_, initially⟩ ?_
    intro before event after held allowed stepped
    obtain ⟨s, beside⟩ := held
    exact beside.step commute allowed stepped
  obtain ⟨before, wholes, part⟩ := beside.aside
  exact ⟨before, wholes, beside.sim.part part⟩

end

end HanOS.Lib
