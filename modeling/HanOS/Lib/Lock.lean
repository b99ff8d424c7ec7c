import HanOS.Foundations.Sections
import Mathlib.Data.Bool.Basic
import Mathlib.Logic.Function.Basic
import Mathlib.Algebra.GroupWithZero.Nat

/-!
# The spinlock (`lib/lock.h`)

`lock_lock` and `lock_release`, instruction by instruction, on any number of CPUs.
A CPU may turn from its thread to another one (an interrupt, the return from one,
a task switch) between any two instructions, where its interrupt flag lets it.

The lock is an exclusive section: the machine simulates `sectionEvent`
(`Simulates.step`).  Mutual exclusion, the interrupt flag of the holder and the
flags that `lock_release` gives back are read off the simulation.
-/

namespace HanOS.Lib

open HanOS.Foundations

/-- RFLAGS: CF, IF and the bits that the two macros only save and load. -/
structure Flags where
  carry : Bool
  interrupt : Bool
  others : BitVec 62
  deriving DecidableEq

/-- `lock_t`; of `lock` the instructions touch bit 0. -/
structure LockT where
  lock : Bool
  rflags : Flags
  deriving DecidableEq

def lockNew : LockT := ⟨false, ⟨false, false, 0⟩⟩

/-- The instructions of `lock_lock`; from `pause` on it is the loop at label 1. -/
inductive LockInstr
  | pushfq | cli | bts | jnc | pause | bt | jc | btsAgain | jcAgain | pop
  deriving DecidableEq

inductive ReleaseInstr
  | push | btr | popfq
  deriving DecidableEq

inductive Place (Sect Data : Type*)
  | outside
  | locking (instr : LockInstr) (sect : Sect)
  | inside (sect : Sect) (todo : List (Data → Option Data))
  | releasing (instr : ReleaseInstr) (sect : Sect)

structure Context (Sect Data : Type*) where
  place : Place Sect Data
  flags : Flags
  /-- What the macros have pushed on the stack of the thread. -/
  stack : List Flags
  /-- The flags with which the thread came to its last `lock_lock`. -/
  called : Flags

structure LockMachine (Cpu Thread Sect Data : Type*) where
  lock : LockT
  data : Data
  contexts : Thread → Context Sect Data
  running : Cpu → Thread

variable {Cpu Thread Sect Data : Type*}

/-! ## The instructions -/

def Context.jump (c : Context Sect Data) (place : Place Sect Data) : Context Sect Data :=
  { c with place := place }

/-- `bts` and `btr`: CF takes the old bit. -/
def Context.test (c : Context Sect Data) (l : LockT) (place : Place Sect Data) : Context Sect Data :=
  { c with flags := { c.flags with carry := l.lock }, place := place }

def Context.execute (body : Sect → List (Data → Option Data)) (l : LockT) (c : Context Sect Data) :
    Option (LockT × Context Sect Data) :=
  match c.place with
  | .locking .pushfq sect => some (l, { c with stack := c.flags :: c.stack, place := .locking .cli sect })
  | .locking .cli sect =>
    some (l, { c with flags := { c.flags with interrupt := false }, place := .locking .bts sect })
  | .locking .bts sect => some ({ l with lock := true }, c.test l (.locking .jnc sect))
  | .locking .jnc sect => some (l, c.jump (.locking (if c.flags.carry then .pause else .pop) sect))
  | .locking .pause sect => some (l, c.jump (.locking .bt sect))
  | .locking .bt sect => some (l, c.test l (.locking .jc sect))
  | .locking .jc sect => some (l, c.jump (.locking (if c.flags.carry then .pause else .btsAgain) sect))
  | .locking .btsAgain sect => some ({ l with lock := true }, c.test l (.locking .jcAgain sect))
  | .locking .jcAgain sect => some (l, c.jump (.locking (if c.flags.carry then .pause else .pop) sect))
  | .locking .pop sect =>
    match c.stack with
    | [] => none
    | word :: stack =>
      some ({ l with rflags := word }, { c with stack := stack, place := .inside sect (body sect) })
  | .releasing .push sect =>
    some (l, { c with stack := l.rflags :: c.stack, place := .releasing .btr sect })
  | .releasing .btr sect => some ({ l with lock := false }, c.test l (.releasing .popfq sect))
  | .releasing .popfq _ =>
    match c.stack with
    | [] => none
    | word :: stack => some (l, { c with flags := word, stack := stack, place := .outside })
  | .outside | .inside _ _ => none

inductive LockEvent (Cpu Thread Sect : Type*)
  /-- The next instruction of one of the macros. -/
  | execute (cpu : Cpu)
  /-- The thread comes to `lock_lock` with a section to do. -/
  | lock (cpu : Cpu) (sect : Sect)
  /-- The next step of the section, which leaves RFLAGS as `flags`. -/
  | work (cpu : Cpu) (flags : Flags)
  /-- The thread comes to `lock_release`. -/
  | release (cpu : Cpu)
  /-- Anything elsewhere, `cli` and `sti` included. -/
  | compute (cpu : Cpu) (flags : Flags)
  /-- The CPU goes on with another thread: an interrupt, the return from one, a task switch. -/
  | switch (cpu : Cpu) (thread : Thread)

section

variable [DecidableEq Cpu] [DecidableEq Thread]

def LockMachine.context (m : LockMachine Cpu Thread Sect Data) (cpu : Cpu) : Context Sect Data :=
  m.contexts (m.running cpu)

def LockMachine.put (m : LockMachine Cpu Thread Sect Data) (cpu : Cpu) (c : Context Sect Data) :
    LockMachine Cpu Thread Sect Data :=
  { m with contexts := Function.update m.contexts (m.running cpu) c }

def lockStep (body : Sect → List (Data → Option Data)) (m : LockMachine Cpu Thread Sect Data) :
    LockEvent Cpu Thread Sect → Option (LockMachine Cpu Thread Sect Data)
  | .execute cpu =>
    ((m.context cpu).execute body m.lock).map fun (l, c) => { m.put cpu c with lock := l }
  | .lock cpu sect =>
    match (m.context cpu).place with
    | .outside =>
      some (m.put cpu
        { m.context cpu with place := .locking .pushfq sect, called := (m.context cpu).flags })
    | _ => none
  | .work cpu flags =>
    match (m.context cpu).place with
    | .inside sect (f :: todo) =>
      (f m.data).map fun data =>
        { m.put cpu { m.context cpu with place := .inside sect todo, flags := flags } with data := data }
    | _ => none
  | .release cpu =>
    match (m.context cpu).place with
    | .inside sect [] => some (m.put cpu ((m.context cpu).jump (.releasing .push sect)))
    | _ => none
  | .compute cpu flags =>
    match (m.context cpu).place with
    | .outside => some (m.put cpu { m.context cpu with flags := flags })
    | _ => none
  | .switch cpu thread =>
    match (m.context cpu).place, (m.context cpu).flags.interrupt with
    | .outside, _ | _, true => some { m with running := Function.update m.running cpu thread }
    | _, _ => none

end

/-- A section does not set IF, and a thread is executed by one CPU at a time. -/
def LockGuard (m : LockMachine Cpu Thread Sect Data) :
    LockEvent Cpu Thread Sect → Prop
  | .work cpu flags => flags.interrupt = (m.context cpu).flags.interrupt
  | .switch _ thread => ∀ other, m.running other ≠ thread
  | _ => True

instance LockGuard.decidable {cpus : Nat} [DecidableEq Thread] (m : LockMachine (Fin cpus) Thread Sect Data)
    (event : LockEvent (Fin cpus) Thread Sect) : Decidable (LockGuard m event) := by
  cases event <;> unfold LockGuard <;> infer_instance

structure LockInitial (m : LockMachine Cpu Thread Sect Data) : Prop where
  free : m.lock.lock = false
  outside : ∀ t, (m.contexts t).place = .outside
  stack : ∀ t, (m.contexts t).stack = []
  apart : Function.Injective m.running

/-! ## The simulation -/

theorem injective_update [DecidableEq Cpu] {f : Cpu → Thread} (apart : Function.Injective f) {cpu : Cpu} {t : Thread}
    (unused : ∀ other, f other ≠ t) : Function.Injective (Function.update f cpu t) := by
  intro left right same
  by_cases ofLeft : left = cpu
  · by_cases ofRight : right = cpu
    · rw [ofLeft, ofRight]
    · rw [ofLeft, Function.update_self, Function.update_of_ne ofRight] at same
      exact absurd same.symm (unused right)
  · by_cases ofRight : right = cpu
    · rw [ofRight, Function.update_self, Function.update_of_ne ofLeft] at same
      exact absurd same (unused left)
    · rw [Function.update_of_ne ofLeft, Function.update_of_ne ofRight] at same
      exact apart same

/-- The section of a thread that has the lock, and what is left of it. -/
def Context.owned (body : Sect → List (Data → Option Data)) (c : Context Sect Data) :
    Option (Sect × List (Data → Option Data)) :=
  match c.place with
  | .locking .jnc sect | .locking .jcAgain sect => if c.flags.carry then none else some (sect, body sect)
  | .locking .pop sect => some (sect, body sect)
  | .inside sect todo => some (sect, todo)
  | .releasing .push sect | .releasing .btr sect => some (sect, [])
  | _ => none

/-- The thread has the lock: from the `bts` that took it to the `btr`. -/
def Context.Holds (body : Sect → List (Data → Option Data)) (c : Context Sect Data) : Prop :=
  (c.owned body).isSome

instance (body : Sect → List (Data → Option Data)) (c : Context Sect Data) : Decidable (c.Holds body) :=
  inferInstanceAs (Decidable (_ = true))

/-- Where the flags of `lock_lock` are, and that IF is clear from `cli` on. -/
def Context.Saved (rflags : Flags) (c : Context Sect Data) : Prop :=
  match c.place with
  | .outside => c.stack = []
  | .locking .pushfq _ => c.stack = [] ∧ c.flags = c.called
  | .locking .cli _ => c.stack = [c.called]
  | .inside _ _ | .releasing .push _ => c.stack = [] ∧ c.flags.interrupt = false ∧ rflags = c.called
  | .locking _ _ | .releasing _ _ => c.stack = [c.called] ∧ c.flags.interrupt = false

def ownedBy [DecidableEq Thread] (s : Exclusive Thread Sect Data) (t : Thread) :
    Option (Sect × List (Data → Option Data)) :=
  match s.owner with
  | none => none
  | some (u, own) => if u = t then some own else none

structure Simulates [DecidableEq Thread] (body : Sect → List (Data → Option Data))
    (m : LockMachine Cpu Thread Sect Data) (s : Exclusive Thread Sect Data) : Prop where
  data : s.data = m.data
  held : m.lock.lock = s.owner.isSome
  owned : ∀ t, ownedBy s t = (m.contexts t).owned body
  saved : ∀ t, (m.contexts t).Saved m.lock.rflags
  apart : Function.Injective m.running
  /-- A thread without interrupts in the macros or between them stays on its CPU. -/
  stays : ∀ t, (m.contexts t).flags.interrupt = false → (m.contexts t).place ≠ .outside →
    ∃ cpu, m.running cpu = t

section

variable [DecidableEq Thread] {body : Sect → List (Data → Option Data)}
  {m after : LockMachine Cpu Thread Sect Data} {s : Exclusive Thread Sect Data}

theorem ownedBy_eq_some {t : Thread} {own : Sect × List (Data → Option Data)} :
    ownedBy s t = some own ↔ s.owner = some (t, own) := by
  unfold ownedBy
  cases owner : s.owner with
  | none => simp
  | some holder =>
    obtain ⟨u, mine⟩ := holder
    by_cases same : u = t <;> simp [same]

theorem Simulates.holds_iff (sim : Simulates body m s) (t : Thread) :
    (m.contexts t).Holds body ↔ ∃ own, s.owner = some (t, own) := by
  rw [Context.Holds, ← sim.owned, Option.isSome_iff_exists]
  exact exists_congr fun own => ownedBy_eq_some

/-- The thread with the lock is executed, with IF clear. -/
theorem Simulates.holder (sim : Simulates body m s) {t : Thread} (holds : (m.contexts t).Holds body) :
    (m.contexts t).flags.interrupt = false ∧ ∃ cpu, m.running cpu = t := by
  have quiet : (m.contexts t).flags.interrupt = false ∧ (m.contexts t).place ≠ .outside := by
    have saved := sim.saved t
    unfold Context.Holds Context.owned at holds
    unfold Context.Saved at saved
    cases place : (m.contexts t).place with
    | outside => simp [place] at holds
    | inside sect todo =>
      simp only [place] at saved
      simp [saved]
    | locking instr sect => cases instr <;> simp_all
    | releasing instr sect => cases instr <;> simp_all
  exact ⟨quiet.1, sim.stays t quiet.1 quiet.2⟩

/-- What the owner has done is what the thread with the lock has done. -/
theorem Simulates.part (sim : Simulates body m s) {before : Data} (part : Partly body before s.data s.owner) :
    (m.lock.lock = false → m.data = before) ∧
      ∀ t sect todo, (m.contexts t).owned body = some (sect, todo) →
        ∃ did, body sect = did ++ todo ∧ perform did before = some m.data := by
  refine ⟨fun free => ?_, fun t sect todo owned => ?_⟩
  · have none_ : s.owner = none := by
      rw [← Option.not_isSome_iff_eq_none, ← sim.held, free]
      simp
    rw [none_] at part
    exact sim.data.symm.trans part
  · rw [← sim.owned, ownedBy_eq_some] at owned
    rw [owned, sim.data] at part
    exact part

/-- What a run of the owners says of the machine beside it. -/
theorem Simulates.serial (sim : Simulates body m s) {data : Data}
    (run : Run (sectionEvent body) anyAction (⟨none, data, []⟩ : Exclusive Thread Sect Data) s) :
    ∃ before, s.completed.foldlM (fun data sect => perform (body sect) data) data = some before ∧
      (m.lock.lock = false → m.data = before) ∧
      ∀ t sect todo, (m.contexts t).owned body = some (sect, todo) →
        ∃ did, body sect = did ++ todo ∧ perform did before = some m.data := by
  obtain ⟨before, completed, part⟩ := Exclusive.serial run
  exact ⟨before, completed, sim.part part⟩

theorem LockInitial.simulates (initial : LockInitial m) : Simulates body m ⟨none, m.data, []⟩ where
  data := rfl
  held := initial.free
  owned t := by simp [ownedBy, Context.owned, initial.outside t]
  saved t := by simp [Context.Saved, initial.outside t, initial.stack t]
  apart := initial.apart
  stays t _ inMacro := absurd (initial.outside t) inMacro

/-- Only a thread with the lock looks at the word in which the flags are saved. -/
theorem Context.Saved.unowned {c : Context Sect Data} {rflags : Flags} (saved : c.Saved rflags)
    (unowned : c.owned body = none) (rflags' : Flags) : c.Saved rflags' := by
  obtain ⟨place, flags, stack, called⟩ := c
  cases place with
  | outside => exact saved
  | inside sect todo => cases unowned
  | locking instr sect => cases instr <;> exact saved
  | releasing instr sect =>
    cases instr with
    | push => cases unowned
    | btr => cases unowned
    | popfq => exact saved

/-- A step of one thread, with what the owner makes of it. -/
theorem Simulates.put (sim : Simulates body m s) (cpu : Cpu) {l : LockT} {c : Context Sect Data}
    {data : Data} {s' : Exclusive Thread Sect Data} (same : s'.data = data)
    (held : l.lock = s'.owner.isSome)
    (self : ownedBy s' (m.running cpu) = c.owned body)
    (others : ∀ t, t ≠ m.running cpu → ownedBy s' t = ownedBy s t) (saved : c.Saved l.rflags)
    (word : l.rflags = m.lock.rflags ∨ (ownedBy s (m.running cpu)).isSome) :
    Simulates body { m.put cpu c with lock := l, data := data } s' where
  data := same
  held := held
  owned t := by
    by_cases here : t = m.running cpu
    · simp [LockMachine.put, here, self]
    · simp [LockMachine.put, Function.update_of_ne here, others t here, sim.owned t]
  saved t := by
    by_cases here : t = m.running cpu
    · simpa [LockMachine.put, here] using saved
    · simp only [LockMachine.put, Function.update_of_ne here]
      cases word with
      | inl same => exact same ▸ sim.saved t
      | inr mine =>
        -- the word has changed, so this thread is the owner and the other is not
        obtain ⟨own, isOwner⟩ := Option.isSome_iff_exists.mp mine
        have owner := ownedBy_eq_some.mp isOwner
        have unowned : ownedBy s t = none := by simp [ownedBy, owner, Ne.symm here]
        exact (sim.saved t).unowned ((sim.owned t).symm.trans unowned) l.rflags
  apart := sim.apart
  stays t quiet inMacro := by
    by_cases here : t = m.running cpu
    · exact ⟨cpu, here.symm⟩
    · simp only [LockMachine.put, Function.update_of_ne here] at quiet inMacro
      exact sim.stays t quiet inMacro

/-- The machine's step is one of the owner's, or none. -/
def Matched (body : Sect → List (Data → Option Data)) (s : Exclusive Thread Sect Data)
    (after : LockMachine Cpu Thread Sect Data) : Prop :=
  ∃ s', Simulates body after s' ∧ (s' = s ∨ ∃ event, sectionEvent body s event = some s')

theorem Simulates.quiet (sim : Simulates body m s) (cpu : Cpu) {c : Context Sect Data}
    (owned : c.owned body = (m.context cpu).owned body) (saved : c.Saved m.lock.rflags) :
    Matched body s (m.put cpu c) :=
  ⟨s, sim.put cpu sim.data sim.held ((sim.owned _).trans owned.symm) (fun _ _ => rfl) saved (.inl rfl),
    .inl rfl⟩

/-- `lock bts`: the thread is the owner from here on, or CF says that it is not. -/
theorem Simulates.take (sim : Simulates body m s) (cpu : Cpu) {instr : LockInstr} {sect : Sect}
    (tested : instr = .jnc ∨ instr = .jcAgain) (unowned : (m.context cpu).owned body = none)
    (saved : (m.context cpu).stack = [(m.context cpu).called] ∧
      (m.context cpu).flags.interrupt = false) :
    Matched body s { m.put cpu ((m.context cpu).test m.lock (.locking instr sect)) with
      lock := { m.lock with lock := true } } := by
  have unowned' := (sim.owned (m.running cpu)).trans unowned
  have saved' : ((m.context cpu).test m.lock (.locking instr sect)).Saved m.lock.rflags := by
    cases tested with
    | inl here => simpa [here, Context.Saved, Context.test] using saved
    | inr here => simpa [here, Context.Saved, Context.test] using saved
  have owned : ((m.context cpu).test m.lock (.locking instr sect)).owned body =
      if m.lock.lock then none else some (sect, body sect) := by
    cases tested with
    | inl here => simp [here, Context.owned, Context.test]
    | inr here => simp [here, Context.owned, Context.test]
  cases taken : m.lock.lock with
  | true =>
    refine ⟨s, sim.put cpu sim.data ?_ ?_ ?_ saved' ?_, .inl rfl⟩
    · rw [← sim.held, taken]
    · rw [unowned', owned, taken, if_pos rfl]
    · exact fun _ _ => rfl
    · exact .inl rfl
  | false =>
    have free : s.owner = none := by
      cases owner : s.owner with
      | none => rfl
      | some holder => simpa [owner, taken] using sim.held
    refine ⟨{ s with owner := some (m.running cpu, sect, body sect) },
      sim.put cpu sim.data ?_ ?_ ?_ saved' ?_,
      .inr ⟨.acquire (m.running cpu) sect, by simp [sectionEvent, free]⟩⟩
    · rfl
    · simp [ownedBy, owned, taken]
    · intro t other
      simp [ownedBy, free, Ne.symm other]
    · exact .inl rfl

/-- `lock btr`: the owner gives the lock back. -/
theorem Simulates.give (sim : Simulates body m s) (cpu : Cpu) {sect : Sect}
    (place : (m.context cpu).place = .releasing .btr sect) :
    Matched body s { m.put cpu ((m.context cpu).test m.lock (.releasing .popfq sect)) with
      lock := { m.lock with lock := false } } := by
  have mine : s.owner = some (m.running cpu, sect, []) := by
    rw [← ownedBy_eq_some, sim.owned, Context.owned]
    rw [LockMachine.context] at place
    simp [place]
  have saved := sim.saved (m.running cpu)
  rw [Context.Saved] at saved
  refine ⟨{ s with owner := none, completed := s.completed ++ [sect] },
    sim.put cpu sim.data ?_ ?_ ?_ ?_ ?_, .inr ⟨.release, by simp [sectionEvent, mine]⟩⟩
  · rfl
  · simp [ownedBy, Context.owned, Context.test]
  · intro t other
    simp [ownedBy, mine, Ne.symm other]
  · rw [LockMachine.context] at place ⊢
    simpa [place, Context.Saved, Context.test] using saved
  · exact .inl rfl

/-- `pop` stores the saved flags; only the owner does it. -/
theorem Simulates.enter (sim : Simulates body m s) (cpu : Cpu) {sect : Sect} {word : Flags}
    {stack : List Flags} (place : (m.context cpu).place = .locking .pop sect)
    (pushed : (m.context cpu).stack = word :: stack) :
    Matched body s { m.put cpu { m.context cpu with stack := stack, place := .inside sect (body sect) }
      with lock := { m.lock with rflags := word } } := by
  have owned := sim.owned (m.running cpu)
  have saved := sim.saved (m.running cpu)
  rw [LockMachine.context] at place pushed
  simp only [Context.owned, place] at owned
  simp only [Context.Saved, place, pushed, List.cons.injEq] at saved
  obtain ⟨⟨called, rfl⟩, quiet⟩ := saved
  refine ⟨s, sim.put cpu sim.data sim.held ?_ (fun _ _ => rfl) ?_ ?_, .inl rfl⟩
  · rw [owned, Context.owned]
  · exact ⟨rfl, quiet, called⟩
  · exact .inr (by simp [owned])

theorem Simulates.execute (sim : Simulates body m s) (cpu : Cpu) {l : LockT} {c : Context Sect Data}
    (moved : (m.context cpu).execute body m.lock = some (l, c)) :
    Matched body s { m.put cpu c with lock := l } := by
  have saved : (m.context cpu).Saved m.lock.rflags := sim.saved (m.running cpu)
  cases place : (m.context cpu).place with
  | outside => simp [Context.execute, place] at moved
  | inside sect todo => simp [Context.execute, place] at moved
  | locking instr sect =>
    cases instr with
    | pushfq | cli =>
      simp only [Context.Saved, place] at saved
      rw [Context.execute, place] at moved
      cases moved
      apply sim.quiet cpu
      · simp [Context.owned, place]
      · simp [Context.Saved, saved]
    | bts =>
      simp only [Context.Saved, place] at saved
      rw [Context.execute, place] at moved
      cases moved
      exact sim.take cpu (.inl rfl) (by simp [Context.owned, place]) saved
    | btsAgain =>
      simp only [Context.Saved, place] at saved
      rw [Context.execute, place] at moved
      cases moved
      exact sim.take cpu (.inr rfl) (by simp [Context.owned, place]) saved
    | pause | bt =>
      simp only [Context.Saved, place] at saved
      rw [Context.execute, place] at moved
      cases moved
      apply sim.quiet cpu
      · simp [Context.owned, Context.jump, Context.test, place]
      · simpa [Context.Saved, Context.jump, Context.test] using saved
    | jnc | jc | jcAgain =>
      -- the jump looks at CF as the owner does
      simp only [Context.Saved, place] at saved
      rw [Context.execute, place] at moved
      cases moved
      apply sim.quiet cpu
      · cases carry : (m.context cpu).flags.carry <;> simp [Context.owned, Context.jump, place, carry]
      · cases carry : (m.context cpu).flags.carry <;> simpa [Context.Saved, Context.jump, carry] using saved
    | pop =>
      rw [Context.execute, place] at moved
      cases pushed : (m.context cpu).stack with
      | nil => simp [pushed] at moved
      | cons word stack =>
        simp only [pushed] at moved
        cases moved
        exact sim.enter cpu place pushed
  | releasing instr sect =>
    simp only [Context.Saved, place] at saved
    rw [Context.execute, place] at moved
    cases instr with
    | push =>
      cases moved
      apply sim.quiet cpu
      · simp [Context.owned, place]
      · simp [Context.Saved, saved]
    | btr =>
      cases moved
      exact sim.give cpu place
    | popfq =>
      simp only [saved.1] at moved
      cases moved
      apply sim.quiet cpu
      · simp [Context.owned, place]
      · simp [Context.Saved]

end

section

variable [DecidableEq Cpu] [DecidableEq Thread] {body : Sect → List (Data → Option Data)}
  {start m after : LockMachine Cpu Thread Sect Data} {s : Exclusive Thread Sect Data}

/-- Every event of the machine is one of the owner's, or changes nothing for it. -/
theorem Simulates.step (sim : Simulates body m s) {event : LockEvent Cpu Thread Sect}
    (allowed : LockGuard m event) (stepped : lockStep body m event = some after) :
    Matched body s after := by
  cases event with
  | execute cpu =>
    obtain ⟨⟨l, c⟩, moved, rfl⟩ := Option.map_eq_some_iff.mp stepped
    exact sim.execute cpu moved
  | lock cpu sect =>
    have saved : (m.context cpu).Saved m.lock.rflags := sim.saved (m.running cpu)
    cases place : (m.context cpu).place with
    | outside =>
      simp only [Context.Saved, place] at saved
      simp only [lockStep, place] at stepped
      cases stepped
      apply sim.quiet cpu
      · simp [Context.owned, place]
      · simp [Context.Saved, saved]
    | locking | inside | releasing => simp [lockStep, place] at stepped
  | work cpu flags =>
    have owned := sim.owned (m.running cpu)
    have saved : (m.context cpu).Saved m.lock.rflags := sim.saved (m.running cpu)
    cases place : (m.context cpu).place with
    | outside | locking | releasing => simp [lockStep, place] at stepped
    | inside sect todo =>
      cases todo with
      | nil => simp [lockStep, place] at stepped
      | cons f todo =>
        simp only [Context.Saved, place] at saved
        simp only [lockStep, place] at stepped
        obtain ⟨data, moved, rfl⟩ := Option.map_eq_some_iff.mp stepped
        rw [LockMachine.context] at place
        simp only [Context.owned, place] at owned
        have mine := ownedBy_eq_some.mp owned
        refine ⟨{ s with owner := some (m.running cpu, sect, todo), data := data },
          sim.put cpu rfl ?_ ?_ ?_ ?_ (.inl rfl), .inr ⟨.work, ?_⟩⟩
        · exact sim.held.trans (by simp [mine])
        · simp [ownedBy, Context.owned]
        · intro t other
          simp [ownedBy, mine, Ne.symm other]
        · exact ⟨saved.1, allowed.trans saved.2.1, saved.2.2⟩
        · simp [sectionEvent, mine, sim.data, moved]
  | release cpu =>
    have saved : (m.context cpu).Saved m.lock.rflags := sim.saved (m.running cpu)
    cases place : (m.context cpu).place with
    | outside | locking | releasing => simp [lockStep, place] at stepped
    | inside sect todo =>
      cases todo with
      | cons f todo => simp [lockStep, place] at stepped
      | nil =>
        simp only [Context.Saved, place] at saved
        simp only [lockStep, place] at stepped
        cases stepped
        apply sim.quiet cpu
        · simp [Context.owned, Context.jump, place]
        · simpa [Context.Saved, Context.jump] using saved
  | compute cpu flags =>
    have saved : (m.context cpu).Saved m.lock.rflags := sim.saved (m.running cpu)
    cases place : (m.context cpu).place with
    | outside =>
      simp only [Context.Saved, place] at saved
      simp only [lockStep, place] at stepped
      cases stepped
      apply sim.quiet cpu
      · simp [Context.owned, place]
      · simpa [Context.Saved, place] using saved
    | locking | inside | releasing => simp [lockStep, place] at stepped
  | switch cpu thread =>
    -- the thread that the CPU leaves is outside, or has IF set
    have leaves : ((m.context cpu).place = .outside ∨ (m.context cpu).flags.interrupt = true) ∧
        after = { m with running := Function.update m.running cpu thread } := by
      cases place : (m.context cpu).place <;>
        cases interrupt : (m.context cpu).flags.interrupt <;>
        simp only [lockStep, place, interrupt, Option.some.injEq, reduceCtorEq] at stepped <;>
        simp [← stepped]
    obtain ⟨leaves, rfl⟩ := leaves
    refine ⟨s, ⟨sim.data, sim.held, sim.owned, sim.saved, ?_, ?_⟩, .inl rfl⟩
    · exact injective_update sim.apart allowed
    · intro t quiet inMacro
      obtain ⟨other, here⟩ := sim.stays t quiet inMacro
      have elsewhere : other ≠ cpu := by
        rintro rfl
        rw [LockMachine.context, here] at leaves
        cases leaves with
        | inl outside => exact inMacro outside
        | inr interrupt => exact absurd (quiet.symm.trans interrupt) (by simp)
      exact ⟨other, (Function.update_of_ne elsewhere ..).trans here⟩

/-! ## Every run -/

theorem LockInitial.run (initial : LockInitial start) (run : Run (lockStep body) LockGuard start m) :
    ∃ s, Simulates body m s ∧ Run (sectionEvent body) anyAction ⟨none, start.data, []⟩ s :=
  run.simulation (Simulates body) initial.simulates
    fun _ _ _ _ sim allowed stepped => sim.step allowed stepped

/-- In every interleaving at most one CPU has the lock, and `lock` says whether one has it.  Its
    thread is not interrupted or switched away: IF is clear and no other CPU executes it.
    `lock_release` gives the flags back that were there before `lock_lock`. -/
theorem lock_excludes (initial : LockInitial start) (run : Run (lockStep body) LockGuard start m) :
    (∀ cpu other, (m.context cpu).Holds body → (m.context other).Holds body → cpu = other) ∧
    (m.lock.lock = true ↔ ∃ t, (m.contexts t).Holds body) ∧
    (∀ t, (m.contexts t).Holds body →
      (m.contexts t).flags.interrupt = false ∧ ∃! cpu, m.running cpu = t) ∧
    ∀ cpu sect after, (m.context cpu).place = .releasing .popfq sect →
      lockStep body m (.execute cpu) = some after →
      (after.context cpu).flags = (m.context cpu).called := by
  obtain ⟨s, sim, _⟩ := initial.run run
  refine ⟨fun cpu other here there => ?_, ?_, fun t holds => ?_, fun cpu sect after place stepped => ?_⟩
  · obtain ⟨_, owner⟩ := (sim.holds_iff _).mp here
    obtain ⟨_, owner'⟩ := (sim.holds_iff _).mp there
    rw [owner] at owner'
    exact sim.apart (congrArg Prod.fst (Option.some.inj owner'))
  · rw [sim.held, Option.isSome_iff_exists]
    constructor
    · rintro ⟨⟨t, own⟩, owner⟩
      exact ⟨t, (sim.holds_iff t).mpr ⟨own, owner⟩⟩
    · rintro ⟨t, holds⟩
      obtain ⟨own, owner⟩ := (sim.holds_iff t).mp holds
      exact ⟨(t, own), owner⟩
  · obtain ⟨quiet, cpu, here⟩ := sim.holder holds
    exact ⟨quiet, cpu, here, fun other there => sim.apart (there.trans here.symm)⟩
  · have saved : (m.context cpu).Saved m.lock.rflags := sim.saved (m.running cpu)
    simp only [Context.Saved, place] at saved
    simp only [lockStep, Context.execute, place, saved.1, Option.map_some, Option.some.injEq] at stepped
    simp [← stepped, LockMachine.context, LockMachine.put]

/-- Two CPUs, three threads and a section of two steps on a number. -/
def twoSpinners : LockMachine (Fin 2) (Fin 3) Unit Nat where
  lock := lockNew
  data := 0
  contexts _ := ⟨.outside, ⟨true, true, 5⟩, [], ⟨false, false, 0⟩⟩
  running cpu := cpu.castSucc

def countTwice : Unit → List (Nat → Option Nat) := fun _ => [fun n => some (n + 1), fun n => some (n + 1)]

theorem twoSpinners_initial : LockInitial twoSpinners where
  free := rfl
  outside _ := rfl
  stack _ := rfl
  apart _ _ same := Fin.castSucc_inj.mp same

local instance spinnersNeZero : NeZero 2 := ⟨by decide⟩

/-- CPU 0 takes the lock, CPU 1 comes behind it and executes its `lock bts` too. -/
def contention : List (LockEvent (Fin 2) (Fin 3) Unit) :=
  [.lock 0 (), .execute 0, .execute 0, .execute 0, .lock 1 (), .execute 1, .execute 1, .execute 1]

theorem lock_excludes_twoSpinners : ∃ m, Run (lockStep countTwice) LockGuard twoSpinners m ∧
    (m.context 0).Holds countTwice ∧ ¬ (m.context 1).Holds countTwice := by
  have run := Run.of_guarded (show contention.foldlM (fun m event =>
    if LockGuard m event then lockStep countTwice m event else none) twoSpinners = some _ from rfl)
  refine ⟨_, run, rfl, fun other => ?_⟩
  exact absurd ((lock_excludes twoSpinners_initial run).1 0 1 rfl other) (by decide)

/-- In every interleaving the data is what the sections completed so far give, each executed whole
    and one after the other; while the lock is held, a part of the holder's section is added. -/
theorem sections_serial (initial : LockInitial start) (run : Run (lockStep body) LockGuard start m) :
    ∃ (completed : List Sect) (before : Data), completed.foldlM (fun data sect => perform (body sect) data) start.data =
        some before ∧
      (m.lock.lock = false → m.data = before) ∧
      ∀ t sect todo, (m.contexts t).owned body = some (sect, todo) →
        ∃ did, body sect = did ++ todo ∧ perform did before = some m.data := by
  obtain ⟨s, sim, serial⟩ := initial.run run
  exact ⟨s.completed, sim.serial serial⟩

/-- CPU 0 takes the lock and does the first step of its section. -/
def halfSection : List (LockEvent (Fin 2) (Fin 3) Unit) :=
  .lock 0 () :: List.replicate 5 (.execute 0) ++ [.work 0 ⟨true, false, 5⟩]

theorem sections_serial_twoSpinners : ∃ m, Run (lockStep countTwice) LockGuard twoSpinners m ∧
    ∃ (completed : List Unit) (before : Nat),
      completed.foldlM (fun n sect => perform (countTwice sect) n) 0 = some before ∧
      ∃ did, countTwice () = did ++ [fun n => some (n + 1)] ∧ perform did before = some m.data := by
  have run := Run.of_guarded (show halfSection.foldlM (fun m event =>
    if LockGuard m event then lockStep countTwice m event else none) twoSpinners = some _ from rfl)
  obtain ⟨completed, before, ran, _, part⟩ := sections_serial twoSpinners_initial run
  exact ⟨_, run, completed, before, ran, part 0 () _ rfl⟩

/-! ## Taking a free lock -/

/-- Instructions of one thread alone. -/
def Context.executes (body : Sect → List (Data → Option Data)) :
    Nat → LockT × Context Sect Data → Option (LockT × Context Sect Data)
  | 0, state => some state
  | n + 1, (l, c) => (c.execute body l).bind (Context.executes body n)

theorem executes_alone (m : LockMachine Cpu Thread Sect Data) (cpu : Cpu) (n : Nat) :
    (List.replicate n (.execute cpu)).foldlM (lockStep body) m =
      (Context.executes body n (m.lock, m.context cpu)).map fun (l, c) => { m.put cpu c with lock := l } := by
  induction n generalizing m with
  | zero => simp [Context.executes, LockMachine.put, LockMachine.context, Function.update_eq_self]
  | succ n inductionHypothesis =>
    rw [List.replicate_succ, List.foldlM_cons, lockStep, Context.executes]
    cases moved : (m.context cpu).execute body m.lock with
    | none => rfl
    | some next =>
      obtain ⟨l, c⟩ := next
      rw [Option.map_some, Option.bind_some]
      refine (inductionHypothesis _).trans ?_
      simp [LockMachine.put, LockMachine.context]

/-- The longest way is from the `jnc` that did not get the lock, once around the loop. -/
theorem Context.taken_alone {c : Context Sect Data} {l : LockT} {instr : LockInstr} {sect : Sect}
    (place : c.place = .locking instr sect) (saved : c.Saved l.rflags)
    (free : l.lock = false ∨ c.Holds body) :
    ∃ n ≤ 7, ∃ l' c', Context.executes body n (l, c) = some (l', c') ∧ c'.place = .inside sect (body sect) := by
  obtain ⟨_, ⟨carry, interrupt, others⟩, stack, called⟩ := c
  obtain ⟨lock, rflags⟩ := l
  subst place
  cases instr with
  | pushfq =>
    obtain rfl : stack = [] := saved.1
    obtain rfl := free.resolve_right (by simp [Context.Holds, Context.owned])
    exact ⟨5, by decide, _, _, rfl, rfl⟩
  | cli =>
    obtain rfl : stack = [called] := saved
    obtain rfl := free.resolve_right (by simp [Context.Holds, Context.owned])
    exact ⟨4, by decide, _, _, rfl, rfl⟩
  | bts =>
    obtain rfl : stack = [called] := saved.1
    obtain rfl := free.resolve_right (by simp [Context.Holds, Context.owned])
    exact ⟨3, by decide, _, _, rfl, rfl⟩
  | jnc | jcAgain =>
    obtain rfl : stack = [called] := saved.1
    cases carry with
    | false => exact ⟨2, by decide, _, _, rfl, rfl⟩
    | true =>
      obtain rfl := free.resolve_right (by simp [Context.Holds, Context.owned])
      exact ⟨7, by decide, _, _, rfl, rfl⟩
  | pause =>
    obtain rfl : stack = [called] := saved.1
    obtain rfl := free.resolve_right (by simp [Context.Holds, Context.owned])
    exact ⟨6, by decide, _, _, rfl, rfl⟩
  | bt =>
    obtain rfl : stack = [called] := saved.1
    obtain rfl := free.resolve_right (by simp [Context.Holds, Context.owned])
    exact ⟨5, by decide, _, _, rfl, rfl⟩
  | jc =>
    obtain rfl : stack = [called] := saved.1
    obtain rfl := free.resolve_right (by simp [Context.Holds, Context.owned])
    cases carry with
    | false => exact ⟨4, by decide, _, _, rfl, rfl⟩
    | true => exact ⟨7, by decide, _, _, rfl, rfl⟩
  | btsAgain =>
    obtain rfl : stack = [called] := saved.1
    obtain rfl := free.resolve_right (by simp [Context.Holds, Context.owned])
    exact ⟨3, by decide, _, _, rfl, rfl⟩
  | pop =>
    obtain rfl : stack = [called] := saved.1
    exact ⟨1, by decide, _, _, rfl, rfl⟩

/-- A CPU that waits for a lock nobody has takes it within 7 instructions of its own, whatever the
    other CPUs have left behind: no release is lost. -/
theorem lock_taken_alone (initial : LockInitial start) (run : Run (lockStep body) LockGuard start m)
    (cpu : Cpu) {instr : LockInstr} {sect : Sect} (place : (m.context cpu).place = .locking instr sect)
    (free : ∀ other, other ≠ cpu → ¬ (m.context other).Holds body) :
    ∃ n ≤ 7, ∃ after, (List.replicate n (.execute cpu)).foldlM (lockStep body) m = some after ∧
      (after.context cpu).place = .inside sect (body sect) := by
  obtain ⟨s, sim, _⟩ := initial.run run
  have open_ : m.lock.lock = false ∨ (m.context cpu).Holds body := by
    cases taken : m.lock.lock with
    | false => exact .inl rfl
    | true =>
      -- the owner is executed on some CPU, and on no other one than this
      obtain ⟨⟨t, own⟩, owner⟩ := Option.isSome_iff_exists.mp (sim.held.symm.trans taken)
      have holds := (sim.holds_iff t).mpr ⟨own, owner⟩
      obtain ⟨_, other, there⟩ := sim.holder holds
      have holds' : (m.context other).Holds body := by rwa [LockMachine.context, there]
      by_cases here : other = cpu
      · exact .inr (here ▸ holds')
      · exact absurd holds' (free other here)
  obtain ⟨n, few, l, c, executed, inside⟩ := Context.taken_alone place (sim.saved _) open_
  refine ⟨n, few, { m.put cpu c with lock := l }, ?_, ?_⟩
  · rw [executes_alone, executed]
    rfl
  · simpa [LockMachine.context, LockMachine.put] using inside

theorem lock_taken_alone_twoSpinners : ∃ m, Run (lockStep countTwice) LockGuard twoSpinners m ∧
    ∃ n ≤ 7, ∃ after, (List.replicate n (.execute 1)).foldlM (lockStep countTwice) m = some after ∧
      (after.context 1).place = .inside () (countTwice ()) := by
  have run := Run.of_guarded (show [LockEvent.lock 1 ()].foldlM (fun m event =>
    if LockGuard m event then lockStep countTwice m event else none) twoSpinners = some _ from rfl)
  refine ⟨_, run, lock_taken_alone twoSpinners_initial run 1 rfl fun other different => ?_⟩
  obtain rfl : other = 0 := by omega
  decide

end

end HanOS.Lib
