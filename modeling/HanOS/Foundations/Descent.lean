import Mathlib.Algebra.BigOperators.Group.List.Basic
import Mathlib.Algebra.GroupWithZero.Nat
import Mathlib.Data.Fintype.EquivFin
import Mathlib.Data.List.Nodup
import Mathlib.Order.WellFounded

/-!
# Recursive descents

A node has a place for a child at each of its `indices`.  `gather` goes through the indices in their
order, first into the child and then to the entries of its own; it keeps no record of the nodes it has
been to.  `Leads a route b` is a way down from `a` to `b`.  The descent ends exactly when the ways are
bounded in length (`gather_ends_iff`), for which on finitely many nodes it is enough that none of
them goes round in a circle (`bounded_iff_acyclic`), and it visits a node once for each way that leads
there (`gather_countP`).
-/

namespace HanOS.Foundations

variable {α ι β : Type*}

def gather (child : α → ι → Option α) (own : α → ι → List β) (indices : List ι) :
    Nat → α → List β → Option (List β)
  | 0, _, _ => none
  | fuel + 1, a, found => indices.foldlM (fun found i =>
      let below := match child a i with
        | none => some found
        | some b => gather child own indices fuel b found
      below.map (· ++ own a i)) found

inductive Leads (child : α → ι → Option α) (indices : List ι) : α → List ι → α → Prop
  | here {a : α} : Leads child indices a [] a
  | down {a b c : α} {i : ι} {route : List ι} (index : i ∈ indices) (step : child a i = some b)
      (rest : Leads child indices b route c) : Leads child indices a (i :: route) c

variable {child : α → ι → Option α} {own : α → ι → List β} {indices : List ι}
  {a b c : α} {route : List ι} {fuel : Nat} {found out : List β}

theorem Leads.append {onward : List ι} (first : Leads child indices a route b)
    (second : Leads child indices b onward c) : Leads child indices a (route ++ onward) c := by
  induction first with
  | here => exact second
  | down index step _ inductionHypothesis => exact .down index step (inductionHypothesis second)

/-- A way determines where it leads. -/
theorem Leads.unique (leads : Leads child indices a route b) (other : Leads child indices a route c) :
    b = c := by
  induction leads with
  | here =>
    cases other
    rfl
  | down _ step _ inductionHypothesis =>
    cases other with
    | down _ step' rest' =>
      rw [step] at step'
      obtain rfl := Option.some.inj step'
      exact inductionHypothesis rest'

/-! ## When the descent ends -/

/-- The ways down from `a` have fewer than `fuel` steps. -/
def Bounded (child : α → ι → Option α) (indices : List ι) (fuel : Nat) (a : α) : Prop :=
  ∀ route b, Leads child indices a route b → route.length < fuel

theorem Bounded.mono {more : Nat} (bounded : Bounded child indices fuel a) (le : fuel ≤ more) :
    Bounded child indices more a :=
  fun route b leads => (bounded route b leads).trans_le le

theorem Bounded.below {i : ι} (bounded : Bounded child indices (fuel + 1) a) (index : i ∈ indices)
    (step : child a i = some b) : Bounded child indices fuel b :=
  fun route c leads => Nat.lt_of_succ_lt_succ (bounded (i :: route) c (.down index step leads))

theorem bounded_succ (children : ∀ i ∈ indices, ∀ b, child a i = some b →
    Bounded child indices fuel b) : Bounded child indices (fuel + 1) a := by
  intro route c leads
  cases leads with
  | here => exact Nat.zero_lt_succ fuel
  | down index step rest => exact Nat.succ_lt_succ (children _ index _ step _ c rest)

theorem foldlM_succeeds {σ : Type*} {f : σ → ι → Option σ} {l : List ι} {s : σ}
    (succeeds : ∀ s, ∀ i ∈ l, ∃ s', f s i = some s') : ∃ s', l.foldlM f s = some s' := by
  induction l generalizing s with
  | nil => exact ⟨s, rfl⟩
  | cons i l inductionHypothesis =>
    obtain ⟨s', stepped⟩ := succeeds s i (List.mem_cons_self ..)
    rw [List.foldlM_cons, stepped]
    exact inductionHypothesis fun s j member => succeeds s j (List.mem_cons_of_mem i member)

/-- A fold that succeeds has taken every step from some state. -/
theorem foldlM_stepped {σ : Type*} {f : σ → ι → Option σ} {l : List ι} {s s' : σ} {i : ι}
    (folded : l.foldlM f s = some s') (member : i ∈ l) : ∃ t t', f t i = some t' := by
  induction l generalizing s with
  | nil => cases member
  | cons j l inductionHypothesis =>
    rw [List.foldlM_cons] at folded
    obtain ⟨t, stepped, rest⟩ := Option.bind_eq_some_iff.mp folded
    cases member with
    | head => exact ⟨s, t, stepped⟩
    | tail _ member => exact inductionHypothesis rest member

theorem Bounded.gather_ends (bounded : Bounded child indices fuel a) :
    ∃ out, gather child own indices fuel a found = some out := by
  induction fuel generalizing a found with
  | zero => exact absurd (bounded [] a .here) (Nat.lt_irrefl 0)
  | succ fuel inductionHypothesis =>
    rw [gather]
    apply foldlM_succeeds
    intro found i index
    cases step : child a i with
    | none => exact ⟨found ++ own a i, rfl⟩
    | some b =>
      obtain ⟨below, ended⟩ := @inductionHypothesis b found (bounded.below index step)
      exact ⟨below ++ own a i, by simp only [ended]; rfl⟩

theorem bounded_of_gather (ended : gather child own indices fuel a found = some out) :
    Bounded child indices fuel a := by
  induction fuel generalizing a found out with
  | zero => cases ended
  | succ fuel inductionHypothesis =>
    rw [gather] at ended
    apply bounded_succ
    intro i index b step
    obtain ⟨before, after, turn⟩ := foldlM_stepped ended index
    simp only [step] at turn
    obtain ⟨below, entered, _⟩ := Option.map_eq_some_iff.mp turn
    exact inductionHypothesis entered

theorem gather_ends_iff :
    (∃ out, gather child own indices fuel a found = some out) ↔ Bounded child indices fuel a :=
  ⟨fun ⟨_, ended⟩ => bounded_of_gather ended, Bounded.gather_ends⟩

/-! ## Circles -/

/-- No way from `a` comes back to a node it has been to. -/
def Acyclic (child : α → ι → Option α) (indices : List ι) (a : α) : Prop :=
  ∀ route b circle, Leads child indices a route b → Leads child indices b circle b → circle = []

theorem Leads.repeat {circle : List ι} (round : Leads child indices b circle b) (times : Nat) :
    Leads child indices b (List.replicate times circle).flatten b := by
  induction times with
  | zero => exact .here
  | succ times inductionHypothesis =>
    rw [List.replicate_succ, List.flatten_cons]
    exact round.append inductionHypothesis

theorem Bounded.acyclic (bounded : Bounded child indices fuel a) : Acyclic child indices a := by
  intro route b circle leads round
  cases circle with
  | nil => rfl
  | cons i circle =>
    -- as many rounds as there are steps allowed
    have long := bounded _ b (leads.append (round.repeat fuel))
    rw [List.length_append, List.length_flatten, List.map_replicate, List.sum_replicate_nat,
      List.length_cons, Nat.mul_succ] at long
    omega

/-- One step further down, from a node that `a` leads to. -/
def Below (child : α → ι → Option α) (indices : List ι) (a c b : α) : Prop :=
  (∃ route, Leads child indices a route b) ∧ ∃ i ∈ indices, child b i = some c

theorem leads_of_below (below : Relation.TransGen (Below child indices a) c b) :
    (∃ route, Leads child indices a route b) ∧ ∃ route, route ≠ [] ∧ Leads child indices b route c := by
  induction below with
  | single step =>
    obtain ⟨reached, i, index, step⟩ := step
    exact ⟨reached, [i], List.cons_ne_nil _ _, .down index step .here⟩
  | tail _ step inductionHypothesis =>
    obtain ⟨reached, i, index, step⟩ := step
    obtain ⟨_, route, _, leads⟩ := inductionHypothesis
    exact ⟨reached, i :: route, List.cons_ne_nil _ _, .down index step leads⟩

theorem exists_common_bound {P : ι → Nat → Prop} {l : List ι}
    (mono : ∀ i m n, m ≤ n → P i m → P i n) (each : ∀ i ∈ l, ∃ n, P i n) :
    ∃ n, ∀ i ∈ l, P i n := by
  induction l with
  | nil => exact ⟨0, nofun⟩
  | cons i l inductionHypothesis =>
    obtain ⟨m, first⟩ := each i (List.mem_cons_self ..)
    obtain ⟨n, rest⟩ := inductionHypothesis fun j member => each j (List.mem_cons_of_mem i member)
    refine ⟨max m n, fun j member => ?_⟩
    cases member with
    | head => exact mono i m _ (Nat.le_max_left m n) first
    | tail _ member => exact mono j n _ (Nat.le_max_right m n) (rest j member)

theorem Acyclic.bounded [Finite α] (acyclic : Acyclic child indices a) :
    ∃ fuel, Bounded child indices fuel a := by
  have irrefl : Std.Irrefl (Relation.TransGen (Below child indices a)) := by
    refine ⟨fun b circle => ?_⟩
    obtain ⟨⟨route, leads⟩, round, nonempty, back⟩ := leads_of_below circle
    exact nonempty (acyclic route b round leads back)
  have founded := Finite.wellFounded_of_trans_of_irrefl (Relation.TransGen (Below child indices a))
  suffices every : ∀ b, (∃ route, Leads child indices a route b) →
      ∃ fuel, Bounded child indices fuel b from every a ⟨[], .here⟩
  intro b
  induction b using founded.induction with
  | h b inductionHypothesis =>
    intro reached
    obtain ⟨fuel, bounds⟩ := @exists_common_bound ι
      (fun i fuel => ∀ c, child b i = some c → Bounded child indices fuel c) indices
      (fun i m n le bounded c step => (bounded c step).mono le) (by
        intro i index
        cases step : child b i with
        | none => exact ⟨0, nofun⟩
        | some c =>
          obtain ⟨route, leads⟩ := reached
          obtain ⟨fuel, bounded⟩ := inductionHypothesis c (.single ⟨⟨route, leads⟩, i, index, step⟩)
            ⟨route ++ [i], leads.append (.down index step .here)⟩
          exact ⟨fuel, fun d same => Option.some.inj same ▸ bounded⟩)
    exact ⟨fuel + 1, bounded_succ bounds⟩

theorem bounded_iff_acyclic [Finite α] :
    (∃ fuel, Bounded child indices fuel a) ↔ Acyclic child indices a :=
  ⟨fun ⟨_, bounded⟩ => bounded.acyclic, Acyclic.bounded⟩

/-! ## How often a node is visited -/

/-- The ways of fewer than `fuel` steps, each with the node it leads to. -/
def tour (child : α → ι → Option α) (indices : List ι) : Nat → α → List (List ι × α)
  | 0, _ => []
  | fuel + 1, a => ([], a) :: indices.flatMap fun i =>
      ((child a i).elim [] (tour child indices fuel)).map fun way => (i :: way.1, way.2)

theorem mem_tour : (route, b) ∈ tour child indices fuel a ↔
    Leads child indices a route b ∧ route.length < fuel := by
  induction fuel generalizing a route with
  | zero => exact ⟨nofun, fun short => absurd short.2 (Nat.not_lt_zero _)⟩
  | succ fuel inductionHypothesis =>
    rw [tour, List.mem_cons, List.mem_flatMap]
    constructor
    · rintro (same | ⟨i, index, member⟩)
      · cases same
        exact ⟨.here, Nat.zero_lt_succ fuel⟩
      · obtain ⟨⟨rest, c⟩, way, same⟩ := List.mem_map.mp member
        cases same
        cases step : child a i with
        | none =>
          rw [step] at way
          cases way
        | some d =>
          rw [step] at way
          obtain ⟨leads, short⟩ := inductionHypothesis.mp way
          exact ⟨.down index step leads, Nat.succ_lt_succ short⟩
    · rintro ⟨leads, short⟩
      cases leads with
      | here => exact .inl rfl
      | @down _ d _ i rest index step leads =>
        refine .inr ⟨i, index, List.mem_map.mpr ⟨(rest, b), ?_, rfl⟩⟩
        rw [step]
        exact inductionHypothesis.mpr ⟨leads, Nat.lt_of_succ_lt_succ short⟩

theorem nodup_tour (distinct : indices.Nodup) : (tour child indices fuel a).Nodup := by
  induction fuel generalizing a with
  | zero => exact .nil
  | succ fuel inductionHypothesis =>
    rw [tour, List.nodup_cons]
    refine ⟨fun again => ?_, List.nodup_flatMap.mpr ⟨fun i _ => ?_, ?_⟩⟩
    · obtain ⟨i, _, member⟩ := List.mem_flatMap.mp again
      obtain ⟨_, _, same⟩ := List.mem_map.mp member
      cases same
    · apply List.Nodup.map
      · rintro ⟨first, b⟩ ⟨second, c⟩ same
        cases same
        rfl
      · cases child a i with
        | none => exact .nil
        | some b => exact inductionHypothesis
    · apply List.Pairwise.imp _ distinct
      rintro i j different ⟨route, b⟩ first second
      obtain ⟨_, _, fromI⟩ := List.mem_map.mp first
      obtain ⟨_, _, fromJ⟩ := List.mem_map.mp second
      have heads := (Prod.mk.inj (fromI.trans fromJ.symm)).1
      exact different (List.cons.inj heads).1

/-- The elements that are counted come from one place of the list. -/
theorem countP_flatMap_single [DecidableEq ι] {p : β → Bool} {f : ι → List β} {l : List ι} {i : ι}
    (distinct : l.Nodup) (others : ∀ j ∈ l, j ≠ i → (f j).countP p = 0) :
    (l.flatMap f).countP p = if i ∈ l then (f i).countP p else 0 := by
  induction l with
  | nil => rfl
  | cons j l inductionHypothesis =>
    obtain ⟨fresh, distinct⟩ := List.nodup_cons.mp distinct
    rw [List.flatMap_cons, List.countP_append,
      inductionHypothesis distinct fun j member => others j (List.mem_cons_of_mem _ member)]
    by_cases head : j = i
    · subst head
      rw [if_neg fresh, if_pos (List.mem_cons_self ..), Nat.add_zero]
    · rw [others j (List.mem_cons_self ..) head, Nat.zero_add]
      simp only [List.mem_cons, Ne.symm head, false_or]

def entries (own : α → ι → List β) (indices : List ι) (a : α) : List β := indices.flatMap (own a)

theorem foldlM_measure {σ : Type*} {f : σ → ι → Option σ} {l : List ι} {s s' : σ} {size : σ → Nat}
    {weight : ι → Nat} (steps : ∀ s, ∀ i ∈ l, ∀ s', f s i = some s' → size s' = size s + weight i)
    (folded : l.foldlM f s = some s') : size s' = size s + (l.map weight).sum := by
  induction l generalizing s with
  | nil =>
    cases folded
    rfl
  | cons i l inductionHypothesis =>
    rw [List.foldlM_cons] at folded
    obtain ⟨t, stepped, rest⟩ := Option.bind_eq_some_iff.mp folded
    rw [inductionHypothesis (fun s j member => steps s j (List.mem_cons_of_mem i member)) rest,
      steps s i (List.mem_cons_self ..) t stepped, List.map_cons, List.sum_cons, Nat.add_assoc]

theorem gather_countP_sum {p : β → Bool}
    (ended : gather child own indices fuel a found = some out) :
    out.countP p = found.countP p +
      ((tour child indices fuel a).map fun way => (entries own indices way.2).countP p).sum := by
  induction fuel generalizing a found out with
  | zero => cases ended
  | succ fuel inductionHypothesis =>
    rw [gather] at ended
    have turns := @foldlM_measure ι _ _ indices found out (List.countP p)
      (fun i => (((child a i).elim [] (tour child indices fuel)).map fun way =>
        (entries own indices way.2).countP p).sum + (own a i).countP p) ?_ ended
    · rw [turns, tour, List.map_cons, List.sum_cons, List.map_flatMap, List.flatMap, List.sum_flatten, entries,
        List.countP_flatMap, List.sum_map_add]
      simp only [List.map_map, Function.comp_def]
      omega
    · intro before i _ after turn
      obtain ⟨below, entered, rfl⟩ := Option.map_eq_some_iff.mp turn
      rw [List.countP_append, ← Nat.add_assoc]
      congr 1
      cases step : child a i with
      | none =>
        rw [step] at entered
        obtain rfl := Option.some.inj entered
        rfl
      | some b =>
        rw [step] at entered
        exact inductionHypothesis entered

section Labelled

variable [DecidableEq α] {p : β → Bool}

/-- Entries found at one node only are found once for each way there. -/
theorem gather_countP (ended : gather child own indices fuel a found = some out)
    (at_b : ∀ c i, ∀ x ∈ own c i, p x → c = b) :
    out.countP p = found.countP p +
      (tour child indices fuel a).countP (·.2 = b) * (entries own indices b).countP p := by
  rw [gather_countP_sum ended]
  congr 1
  induction tour child indices fuel a with
  | nil => simp
  | cons way ways inductionHypothesis =>
    rw [List.map_cons, List.sum_cons, inductionHypothesis, List.countP_cons, Nat.add_mul, Nat.add_comm]
    congr 1
    by_cases there : way.2 = b
    · simp [there]
    · have none : (entries own indices way.2).countP p = 0 := by
        rw [List.countP_eq_zero]
        intro x member counted
        obtain ⟨i, _, member⟩ := List.mem_flatMap.mp member
        exact there (at_b way.2 i x member counted)
      simp [there, none]

theorem countP_tour_eq_zero (bounded : Bounded child indices fuel a) :
    (tour child indices fuel a).countP (·.2 = b) = 0 ↔ ∀ route, ¬ Leads child indices a route b := by
  rw [List.countP_eq_zero]
  constructor
  · intro nowhere route leads
    exact nowhere (route, b) (mem_tour.mpr ⟨leads, bounded route b leads⟩) (by simp)
  · rintro never ⟨route, c⟩ member there
    obtain rfl : c = b := by simpa using there
    exact never route (mem_tour.mp member).1

theorem countP_tour_eq_one (distinct : indices.Nodup) (bounded : Bounded child indices fuel a) :
    (tour child indices fuel a).countP (·.2 = b) = 1 ↔ ∃! route, Leads child indices a route b := by
  rw [List.countP_eq_length_filter, List.length_eq_one_iff]
  have inWays : ∀ route, (route, b) ∈ (tour child indices fuel a).filter (·.2 = b) ↔
      Leads child indices a route b := by
    intro route
    rw [List.mem_filter, mem_tour]
    exact ⟨fun found => found.1.1, fun leads => ⟨⟨leads, bounded route b leads⟩, by simp⟩⟩
  constructor
  · rintro ⟨⟨route, c⟩, only⟩
    simp only [only, List.mem_singleton] at inWays
    have there : (route, c) ∈ (tour child indices fuel a).filter (·.2 = b) := by simp [only]
    obtain rfl : c = b := by simpa using (List.mem_filter.mp there).2
    exact ⟨route, (inWays route).mp rfl, fun other leads => (Prod.mk.inj ((inWays other).mpr leads)).1⟩
  · rintro ⟨route, leads, only⟩
    refine ⟨(route, b), List.perm_singleton.mp ((List.perm_ext_iff_of_nodup
      ((nodup_tour distinct).filter _) (List.nodup_singleton _)).mpr ?_)⟩
    rintro ⟨other, c⟩
    rw [List.mem_singleton]
    constructor
    · intro member
      obtain rfl : c = b := by simpa using (List.mem_filter.mp member).2
      rw [only other ((inWays other).mp member)]
    · intro same
      cases same
      exact (inWays route).mpr leads

end Labelled

end HanOS.Foundations
