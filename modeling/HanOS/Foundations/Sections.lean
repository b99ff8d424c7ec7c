import HanOS.Foundations.Run

/-!
# Exclusive sections

Threads work on shared data in sections.  A section is a list of partial steps on
the data, and one thread at a time owns the data.  In every run the data is what
the completed sections give, executed whole and one after the other, followed by
what the owner has done of its own (`Exclusive.serial`).

A thread that is not the owner may take steps aside.  A step aside that commutes with
what the owner has done is as good as taken before the owner's section, so with such
steps there is a run of whole sections and steps aside beside every run
(`Exclusive.Aside.ahead`).
-/

namespace HanOS.Foundations

variable {Thread Sect Data : Type*}

/-- The steps of a section that are still to be done, on the data. -/
def perform (steps : List (Data → Option Data)) (data : Data) : Option Data :=
  steps.foldlM (fun data f => f data) data

@[simp] theorem perform_nil (data : Data) : perform [] data = some data := rfl

@[simp] theorem perform_append (before after : List (Data → Option Data)) (data : Data) :
    perform (before ++ after) data = (perform before data).bind (perform after) := by
  simp only [perform, List.foldlM_append]
  rfl

@[simp] theorem perform_singleton (f : Data → Option Data) (data : Data) : perform [f] data = f data := by
  simp [perform]

/-- The data, who owns it, in which section and with what steps left, and the sections completed. -/
structure Exclusive (Thread Sect Data : Type*) where
  owner : Option (Thread × Sect × List (Data → Option Data))
  data : Data
  completed : List Sect

inductive SectionEvent (Thread Sect : Type*)
  | acquire (thread : Thread) (sect : Sect)
  | work
  | release

def sectionEvent (body : Sect → List (Data → Option Data)) (s : Exclusive Thread Sect Data) :
    SectionEvent Thread Sect → Option (Exclusive Thread Sect Data)
  | .acquire thread sect =>
    match s.owner with
    | none => some { s with owner := some (thread, sect, body sect) }
    | some _ => none
  | .work =>
    match s.owner with
    | some (thread, sect, f :: todo) =>
      (f s.data).map fun data => { s with owner := some (thread, sect, todo), data := data }
    | _ => none
  | .release =>
    match s.owner with
    | some (_, sect, []) => some { s with owner := none, completed := s.completed ++ [sect] }
    | _ => none

/-- `data` comes out of `before` by the steps the owner has done. -/
def Partly (body : Sect → List (Data → Option Data)) (before data : Data) :
    Option (Thread × Sect × List (Data → Option Data)) → Prop
  | none => data = before
  | some (_, sect, todo) => ∃ did, body sect = did ++ todo ∧ perform did before = some data

/-- The completed sections one after the other, then a part of the owner's. -/
def Exclusive.Serial (body : Sect → List (Data → Option Data)) (start : Data)
    (s : Exclusive Thread Sect Data) : Prop :=
  ∃ before, s.completed.foldlM (fun data sect => perform (body sect) data) start = some before ∧
    Partly body before s.data s.owner

variable {body : Sect → List (Data → Option Data)} {start : Data} {s after : Exclusive Thread Sect Data}

/-- One event does a part of the owner's section, or completes it. -/
theorem Partly.step {before : Data} {event : SectionEvent Thread Sect}
    (part : Partly body before s.data s.owner) (stepped : sectionEvent body s event = some after) :
    (after.completed = s.completed ∧ Partly body before after.data after.owner) ∨
      ∃ sect, after.completed = s.completed ++ [sect] ∧ after.owner = none ∧
        perform (body sect) before = some after.data := by
  obtain ⟨owner, data, sects⟩ := s
  cases event with
  | acquire thread sect =>
    cases owner with
    | none =>
      cases stepped
      exact .inl ⟨rfl, [], rfl, congrArg some part.symm⟩
    | some _ => cases stepped
  | work =>
    match owner with
    | none | some (_, _, []) => cases stepped
    | some (thread, sect, f :: todo) =>
      obtain ⟨did, split, done⟩ := part
      obtain ⟨next, moved, rfl⟩ := Option.map_eq_some_iff.mp stepped
      refine .inl ⟨rfl, did ++ [f], by simp [split], ?_⟩
      rw [perform_append, done]
      simpa using moved
  | release =>
    match owner with
    | none | some (_, _, _ :: _) => cases stepped
    | some (thread, sect, []) =>
      obtain ⟨did, split, done⟩ := part
      cases stepped
      -- the owner has done its whole section
      rw [List.append_nil] at split
      subst split
      exact .inr ⟨sect, rfl, rfl, done⟩

theorem Exclusive.Serial.step {event : SectionEvent Thread Sect} (serial : s.Serial body start)
    (stepped : sectionEvent body s event = some after) : after.Serial body start := by
  obtain ⟨before, completed, part⟩ := serial
  obtain ⟨same, part⟩ | ⟨sect, more, free, done⟩ := part.step stepped
  · exact ⟨before, same ▸ completed, part⟩
  · refine ⟨after.data, ?_, ?_⟩
    · rw [more, List.foldlM_append, completed]
      simpa using done
    · rw [free]
      rfl

/-- Sections that exclude each other are atomic: every run of them is a serial one. -/
theorem Exclusive.serial (run : Run (sectionEvent body) anyAction
    (⟨none, start, []⟩ : Exclusive Thread Sect Data) s) : s.Serial body start := by
  apply run.invariant (Exclusive.Serial body start)
  · exact ⟨start, rfl, rfl⟩
  · intro before event after serial _ stepped
    exact serial.step stepped

/-! ## Steps aside -/

def wholeStep (body : Sect → List (Data → Option Data)) (aside : Thread → Data → Option Data)
    (data : Data) : Sect ⊕ Thread → Option Data
  | .inl sect => perform (body sect) data
  | .inr thread => aside thread data

/-- `f` does what it does before and behind the step aside of a thread. -/
def CommutesAt (aside : Thread → Data → Option Data) (thread : Thread) (data : Data)
    (f : Data → Option Data) : Prop :=
  ∀ next, f data = some next → ∀ moved, aside thread next = some moved →
    ∃ before, aside thread data = some before ∧ f before = some moved

variable {aside : Thread → Data → Option Data} {thread : Thread} {before data moved : Data}
  {did : List (Data → Option Data)}

/-- Steps that commute one by one commute together. -/
theorem perform_commutes {good : Data → Prop} (initially : good before)
    (commutes : ∀ f ∈ did, ∀ data, good data → CommutesAt aside thread data f ∧
      ∀ next, f data = some next → good next)
    (done : perform did before = some data) (taken : aside thread data = some moved) :
    ∃ before', aside thread before = some before' ∧ perform did before' = some moved := by
  induction did generalizing before with
  | nil =>
    rw [perform_nil, Option.some.injEq] at done
    exact ⟨moved, done ▸ taken, rfl⟩
  | cons f did inductionHypothesis =>
    rw [perform, List.foldlM_cons] at done
    obtain ⟨next, first, rest⟩ := Option.bind_eq_some_iff.mp done
    obtain ⟨commutesFirst, stays⟩ := commutes f (List.mem_cons_self ..) before initially
    obtain ⟨middle, aside', rest'⟩ := inductionHypothesis (stays next first)
      (fun g member => commutes g (List.mem_cons_of_mem _ member)) rest
    obtain ⟨before', taken', first'⟩ := commutesFirst next first middle aside'
    refine ⟨before', taken', ?_⟩
    rw [perform, List.foldlM_cons, first']
    exact rest'

/-- A run of whole sections and steps aside, then a part of the owner's section. -/
def Exclusive.Aside (body : Sect → List (Data → Option Data)) (aside : Thread → Data → Option Data)
    (start : Data) (s : Exclusive Thread Sect Data) : Prop :=
  ∃ before, Run (wholeStep body aside) anyAction start before ∧ Partly body before s.data s.owner

theorem Exclusive.Aside.step {event : SectionEvent Thread Sect} (serial : s.Aside body aside start)
    (stepped : sectionEvent body s event = some after) : after.Aside body aside start := by
  obtain ⟨before, run, part⟩ := serial
  obtain ⟨_, part⟩ | ⟨sect, _, free, done⟩ := part.step stepped
  · exact ⟨before, run, part⟩
  · refine ⟨after.data, .tail run trivial (show wholeStep body aside before (.inl sect) = _ from done), ?_⟩
    rw [free]
    rfl

/-- A step aside is put in front of what the owner has done of its section. -/
theorem Exclusive.Aside.ahead (serial : s.Aside body aside start) (taken : aside thread s.data = some moved)
    (commutes : ∀ before, Run (wholeStep body aside) anyAction start before →
      ∀ owner sect todo did, s.owner = some (owner, sect, todo) → body sect = did ++ todo →
        perform did before = some s.data →
          ∃ before', aside thread before = some before' ∧ perform did before' = some moved) :
    ({ s with data := moved } : Exclusive Thread Sect Data).Aside body aside start := by
  obtain ⟨before, run, part⟩ := serial
  cases held : s.owner with
  | none =>
    rw [held] at part
    have same : s.data = before := part
    rw [same] at taken
    exact ⟨moved, .tail run trivial (show wholeStep body aside before (.inr thread) = _ from taken), rfl⟩
  | some own =>
    obtain ⟨owner, sect, todo⟩ := own
    rw [held] at part
    obtain ⟨did, split, done⟩ := part
    obtain ⟨before', taken', done'⟩ := commutes before run owner sect todo did held split done
    exact ⟨before', .tail run trivial (show wholeStep body aside before (.inr thread) = _ from taken'),
      did, split, done'⟩

end HanOS.Foundations
