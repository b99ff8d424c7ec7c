import Mathlib.Data.List.Basic
import Mathlib.Data.List.Induction
import Mathlib.Tactic.TypeStar
import Mathlib.Logic.ExistsUnique

/-!
# Trees of tables

`child x i` is the table that entry `i` of table `x` refers to.  `descend child root path`
follows the entries of a path down from the root.  A tree is a graph in which no two paths
up to some depth end in the same table (`Unique`): then every table but the root is
referred to by exactly one entry.

Changing a single entry, from or to a table without children of its own, changes the end of
a single path (`descend_update`).  So linking a fresh table and unlinking an empty one keep
a tree a tree.
-/

namespace HanOS.Foundations

variable {P I : Type*} {child child' : P → I → Option P} {root x b : P} {p path : List I} {i : I}
variable {depth : Nat}

def descend (child : P → I → Option P) : P → List I → Option P
  | x, [] => some x
  | x, i :: rest => (child x i).bind fun y => descend child y rest

@[simp]
theorem descend_nil : descend child x [] = some x := rfl

theorem descend_singleton : descend child x [i] = child x i := by
  rw [descend]
  cases child x i <;> rfl

theorem descend_append {q : List I} :
    descend child x (p ++ q) = (descend child x p).bind fun y => descend child y q := by
  induction p generalizing x with
  | nil => rfl
  | cons i p inductionHypothesis =>
    rw [List.cons_append, descend, descend, Option.bind_assoc]
    exact Option.bind_congr fun y _ => inductionHypothesis

theorem descend_snoc : descend child x (p ++ [i]) = (descend child x p).bind (child · i) := by
  rw [descend_append]
  exact Option.bind_congr fun y _ => descend_singleton

/-- No two paths of at most this length end in the same table. -/
def Unique (child : P → I → Option P) (root : P) (depth : Nat) : Prop :=
  ∀ p q x, p.length ≤ depth → q.length ≤ depth → descend child root p = some x →
    descend child root q = some x → p = q

/-- Every table but the root has exactly one entry that refers to it. -/
theorem Unique.existsUnique_entry (unique : Unique child root depth) (short : p.length ≤ depth)
    (at_x : descend child root p = some x) (below : p ≠ []) :
    ∃! entry : P × I, (∃ q, q.length < depth ∧ descend child root q = some entry.1) ∧
      child entry.1 entry.2 = some x := by
  obtain ⟨q, i, rfl⟩ := (List.eq_nil_or_concat' p).resolve_left below
  rw [List.length_append, List.length_singleton] at short
  have split := at_x
  rw [descend_snoc] at split
  obtain ⟨y, at_y, entry⟩ := Option.bind_eq_some_iff.mp split
  refine ⟨(y, i), ⟨⟨q, by omega, at_y⟩, entry⟩, ?_⟩
  rintro ⟨z, j⟩ ⟨⟨r, shorter, at_z⟩, other⟩
  have again : descend child root (r ++ [j]) = some x := by rw [descend_snoc, at_z]; exact other
  have same := unique _ _ x (by rw [List.length_append, List.length_singleton]; omega)
    (by rw [List.length_append, List.length_singleton]; omega) again at_x
  obtain ⟨rfl, last⟩ := List.append_inj' same rfl
  obtain rfl := Option.some.inj (at_z.symm.trans at_y)
  rw [List.singleton_inj.mp last]

/-! ## Changes -/

theorem descend_congr
    (same : ∀ p x i, p.length < depth → descend child root p = some x → child' x i = child x i)
    (short : p.length ≤ depth) : descend child' root p = descend child root p := by
  induction p using List.reverseRecOn with
  | nil => rfl
  | append_singleton p i inductionHypothesis =>
    rw [List.length_append, List.length_singleton] at short
    rw [descend_snoc, descend_snoc, inductionHypothesis (by omega)]
    exact Option.bind_congr fun x at_x => same p x i (by omega) at_x

theorem Unique.congr (unique : Unique child root depth)
    (same : ∀ p, p.length ≤ depth → descend child' root p = descend child root p) :
    Unique child' root depth := by
  intro p q x shortP shortQ at_p at_q
  rw [same p shortP] at at_p
  rw [same q shortQ] at at_q
  exact unique p q x shortP shortQ at_p at_q

/-- One entry changed, and no table below it before or after. -/
theorem descend_update [DecidableEq I] (unique : Unique child root depth)
    (at_x : descend child root path = some x) (above : path.length < depth)
    (others : ∀ p y j, p.length < depth → descend child root p = some y → ¬ (y = x ∧ j = i) →
      child' y j = child y j)
    (oldLeaf : ∀ y, child x i = some y → ∀ j, child y j = none)
    (newLeaf : ∀ y, child' x i = some y → ∀ j, child' y j = none) (short : p.length ≤ depth) :
    descend child' root p =
      if p = path ++ [i] then child' x i else descend child root p := by
  induction p using List.reverseRecOn with
  | nil => rw [if_neg (by simp)]; rfl
  | append_singleton p j inductionHypothesis =>
    rw [List.length_append, List.length_singleton] at short
    rw [descend_snoc, inductionHypothesis (by omega)]
    by_cases under : p = path ++ [i]
    · -- below the entry there is nothing
      have deeper : ¬ p ++ [j] = path ++ [i] := fun same => by
        have length := congrArg List.length (under ▸ same)
        simp at length
      rw [if_pos under, if_neg deeper, descend_snoc, under, descend_snoc, at_x, Option.bind_some]
      rw [Option.bind_eq_none_iff.mpr fun y entry => newLeaf y entry j,
        Option.bind_eq_none_iff.mpr fun y entry => oldLeaf y entry j]
    · rw [if_neg under, descend_snoc]
      cases at_y : descend child root p with
      | none =>
        rw [if_neg fun same => ?_]
        · rfl
        · rw [(List.append_inj' same rfl).1, at_x] at at_y
          cases at_y
      | some y =>
        rw [Option.bind_some, Option.bind_some]
        by_cases same : y = x ∧ j = i
        · obtain ⟨rfl, rfl⟩ := same
          rw [unique p path y (by omega) (by omega) at_y at_x, if_pos rfl]
        · rw [others p y j (by omega) at_y same, if_neg fun equal => same ?_]
          obtain ⟨rfl, last⟩ := List.append_inj' equal rfl
          exact ⟨Option.some.inj (at_y.symm.trans at_x), List.singleton_inj.mp last⟩

/-- The tree stays one if the entry refers to a table that was not in it. -/
theorem Unique.update [DecidableEq I] {new : Option P} (unique : Unique child root depth)
    (update : ∀ p, p.length ≤ depth →
      descend child' root p = if p = path then new else descend child root p)
    (fresh : ∀ y, new = some y → ∀ p, p.length ≤ depth → descend child root p ≠ some y) :
    Unique child' root depth := by
  intro p q x shortP shortQ at_p at_q
  rw [update p shortP] at at_p
  rw [update q shortQ] at at_q
  split at at_p <;> split at at_q
  · next first second => rw [first, second]
  · exact absurd at_q (fresh x at_p q shortQ)
  · exact absurd at_p (fresh x at_q p shortP)
  · exact unique p q x shortP shortQ at_p at_q

end HanOS.Foundations
