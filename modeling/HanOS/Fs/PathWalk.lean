import HanOS.Fs.FileBase
import Mathlib.Data.List.Find
import Mathlib.Data.List.TakeWhile

/-!
# What a path resolves to

`walk` is the meaning of a path: from the root, each component in turn names a child
of the node reached so far.  `vfs_path_to_node` runs one loop over the characters
instead, which does not stop at a component that names no child: it goes on with the
next component from the same node, and reports the outcome of the last one only.

The loop is first brought to a recursion over the components (`tokenLoop_tokens`).
`Resumes` then says when going on leads to a node although the walk has ended.
-/

namespace HanOS.Fs

open HanOS.Foundations HanOS.Lib

variable {Ident : Type} {v : Vfs Ident}

def absolutePath : List CString → CString
  | [] => [slash]
  | components => components.flatMap (slash :: ·)

/-- A component: at least one character and no slash. -/
def IsComponent (token : CString) : Prop := token ≠ [] ∧ slash ∉ token

/-- The components make a path that fits. -/
structure IsPath (tokens : List CString) : Prop where
  components : ∀ token ∈ tokens, IsComponent token
  fits : FitsPath (absolutePath tokens)

def walk (v : Vfs Ident) : Addr → List CString → Option Addr
  | node, [] => some node
  | node, token :: tokens =>
    if (v.inodeOf node).traversable then
      match childNamed v node token with
      | some child => walk v child tokens
      | none => none
    else none

/-- A string as it fits the field `name`, with the NUL behind it. -/
def FitsName (name : CString) : Prop := name.length < vfsMaxNameLen ∧ (0 : Byte) ∉ name

def walkNames (v : Vfs Ident) : Addr → List CString → Option Addr
  | node, [] => some node
  | node, token :: tokens =>
    if (v.inodeOf node).traversable then
      match (v.inodeOf node).child.find? fun child => (v.tnodes child).name = token with
      | some child => walkNames v child tokens
      | none => none
    else none

theorem childNamed_eq {node : Addr} {token : CString} (fits : FitsName token)
    (named : ∀ child ∈ (v.inodeOf node).child, FitsName (v.tnodes child).name) :
    childNamed v node token =
      (v.inodeOf node).child.find? fun child => (v.tnodes child).name = token := by
  refine List.find?_congr fun child member => ?_
  obtain ⟨nameFits, nameTerminated⟩ := named child member
  simp only [decide_eq_decide]
  exact strncmp_eq_zero_iff nameFits fits.1 nameTerminated fits.2

/-- Where names and components fit the field, the comparison of the lookup is equality. -/
theorem walk_eq_walkNames {nodes : Set Addr} {node : Addr} {tokens : List CString}
    (below : ∀ node ∈ nodes, ∀ child ∈ (v.inodeOf node).child,
      child ∈ nodes ∧ FitsName (v.tnodes child).name)
    (fits : ∀ token ∈ tokens, FitsName token) (start : node ∈ nodes) :
    walk v node tokens = walkNames v node tokens := by
  induction tokens generalizing node with
  | nil => rfl
  | cons token tokens inductionHypothesis =>
    have found := childNamed_eq (fits token (List.mem_cons_self ..))
      fun child member => (below node start child member).2
    rw [walk, walkNames, ← found]
    cases named : childNamed v node token with
    | none => rfl
    | some child =>
      have member := (below node start child (List.mem_of_find?_eq_some named)).1
      simp only [inductionHypothesis (fun other last => fits other (List.mem_cons_of_mem _ last)) member]

/-! ## The loop as a recursion over components -/

/-- The loop over components: the node it is at and whether the last component was found. -/
def scanComponents (v : Vfs Ident) : Addr → Bool → List CString → Addr × Bool
  | curr, found, [] => (curr, found)
  | curr, _, token :: tokens =>
    if (v.inodeOf curr).traversable then
      match childNamed v curr token with
      | some child => scanComponents v child true tokens
      | none => scanComponents v curr false tokens
    else (curr, false)

/-- What is left of a path when `tokens` are still to be read. -/
def joinTokens : List CString → CString
  | [] => []
  | [token] => token
  | token :: tokens => token ++ slash :: joinTokens tokens

theorem joinTokens_cons_ne_nil (token : CString) {tokens : List CString} (more : tokens ≠ []) :
    joinTokens (token :: tokens) = token ++ slash :: joinTokens tokens := by
  cases tokens with
  | nil => exact absurd rfl more
  | cons next rest => rfl

theorem absolutePath_cons (token : CString) (tokens : List CString) :
    absolutePath (token :: tokens) = slash :: joinTokens (token :: tokens) := by
  induction tokens generalizing token with
  | nil => simp [absolutePath, joinTokens]
  | cons next rest inductionHypothesis =>
    have tail := inductionHypothesis next
    simp only [absolutePath, List.flatMap_cons] at tail ⊢
    rw [List.cons_append, tail, joinTokens_cons_ne_nil token (by simp)]

/-- The next token of the rest of a path is its first component. -/
theorem takeWhile_joinTokens {token : CString} (component : IsComponent token)
    (tokens : List CString) :
    (joinTokens (token :: tokens)).takeWhile (· ≠ slash) = token := by
  have keep : ∀ c ∈ token, decide (c ≠ slash) = true := by
    intro c member
    simp only [ne_eq, decide_not, Bool.not_eq_true', decide_eq_false_iff_not]
    rintro rfl
    exact component.2 member
  cases tokens with
  | nil => exact List.takeWhile_eq_self_iff.mpr keep
  | cons next rest =>
    rw [joinTokens_cons_ne_nil token (by simp), List.takeWhile_append_of_pos keep]
    simp

theorem drop_joinTokens (token : CString) (tokens : List CString) :
    (joinTokens (token :: tokens)).drop (token.length + 1) = joinTokens tokens := by
  cases tokens with
  | nil => simp [joinTokens]
  | cons next rest =>
    rw [joinTokens_cons_ne_nil token (by simp), List.drop_append]
    simp

/-- The tokens the loop takes from the rest of a path; a slash at its end has none behind it. -/
def tokensOf : CString → List CString
  | [] => []
  | c :: path =>
    if c = slash then [] :: tokensOf path
    else
      match tokensOf path with
      | [] => [[c]]
      | token :: tokens => (c :: token) :: tokens

theorem tokensOf_eq_nil_iff {path : CString} : tokensOf path = [] ↔ path = [] := by
  cases path with
  | nil => simp [tokensOf]
  | cons c path =>
    rw [tokensOf]
    split
    · simp
    · cases tokensOf path <;> simp

theorem tokensOf_step {path : CString} (nonempty : path ≠ []) :
    tokensOf path = path.takeWhile (· ≠ slash) ::
      tokensOf (path.drop ((path.takeWhile (· ≠ slash)).length + 1)) := by
  induction path with
  | nil => exact absurd rfl nonempty
  | cons c path inductionHypothesis =>
    rw [tokensOf]
    split
    · next ends => simp [ends]
    · next other =>
      rw [List.takeWhile_cons_of_pos (by simpa using other)]
      by_cases last : path = []
      · subst last
        simp [tokensOf]
      · rw [inductionHypothesis last]
        simp

theorem slash_not_mem_tokensOf {path token : CString} (member : token ∈ tokensOf path) :
    slash ∉ token := by
  induction path generalizing token with
  | nil => cases member
  | cons c path inductionHypothesis =>
    rw [tokensOf] at member
    split at member
    · rcases List.mem_cons.mp member with rfl | behind
      · exact List.not_mem_nil
      · exact inductionHypothesis behind
    · next other =>
      have apart : slash ≠ c := Ne.symm other
      cases tokens : tokensOf path with
      | nil =>
        rw [tokens] at member
        simpa [List.mem_singleton.mp member] using apart
      | cons first rest =>
        rw [tokens] at member inductionHypothesis
        rcases List.mem_cons.mp member with rfl | behind
        · have := inductionHypothesis (List.mem_cons_self ..)
          simp [apart, this]
        · exact inductionHypothesis (List.mem_cons_of_mem _ behind)

/-- Behind the last slash there is a last token that is not empty. -/
theorem getLastD_tokensOf_ne_nil {path : CString} (nonempty : path ≠ [])
    (open_ : path.getLast? ≠ some slash) : (tokensOf path).getLastD [] ≠ [] := by
  induction path with
  | nil => exact absurd rfl nonempty
  | cons c path inductionHypothesis =>
    by_cases last : path = []
    · subst last
      have other : c ≠ slash := fun same => open_ (by rw [same]; rfl)
      simp [tokensOf, other]
    · obtain ⟨next, behind, rfl⟩ := List.exists_cons_of_ne_nil last
      rw [List.getLast?_cons_cons] at open_
      have rest := inductionHypothesis last open_
      rw [tokensOf]
      cases tokens : tokensOf (next :: behind) with
      | nil => exact absurd (tokensOf_eq_nil_iff.mp tokens) last
      | cons first others =>
        rw [tokens] at rest
        split
        · simpa using rest
        · cases others with
          | nil => simp
          | cons second others => simpa using rest

theorem tokensOf_joinTokens {tokens : List CString}
    (components : ∀ token ∈ tokens, IsComponent token) : tokensOf (joinTokens tokens) = tokens := by
  induction tokens with
  | nil => rfl
  | cons token tokens inductionHypothesis =>
    have component := components token (by simp)
    have nonempty : joinTokens (token :: tokens) ≠ [] := by
      intro none_
      have taken := takeWhile_joinTokens component tokens
      rw [none_] at taken
      exact component.1 taken.symm
    rw [tokensOf_step nonempty, takeWhile_joinTokens component, drop_joinTokens,
      inductionHypothesis fun t member => components t (by simp [member])]

/-- The last token ends at the end of the path, or in front of its last slash. -/
theorem length_last_token {path : CString} (nonempty : path ≠ [])
    (ends : path.length ≤ (path.takeWhile (· ≠ slash)).length + 1) :
    (path.takeWhile (· ≠ slash)).length + 1 =
      path.length + if path.getLast? = some slash then 0 else 1 := by
  induction path with
  | nil => exact absurd rfl nonempty
  | cons c path inductionHypothesis =>
    by_cases same : c = slash
    · subst same
      have last : path = [] := by simpa using ends
      simp [last]
    · rw [List.takeWhile_cons_of_pos (by simpa using same)] at ends ⊢
      cases path with
      | nil => simp [same]
      | cons next path =>
        have behind := inductionHypothesis (by simp) (by simpa using ends)
        rw [List.getLast?_cons_cons]
        simp only [List.length_cons] at behind ⊢
        omega

/-- The loop over the characters is the recursion over the tokens.  Where it is not left at a file,
    it ends behind the path, with the last token in its buffer. -/
theorem tokenLoop_tokens (path : CString) (fuel : Nat) (scan : Scan)
    (enough : path.length ≤ scan.currIndex + fuel) :
    ((tokenLoop v path fuel scan).curr, (tokenLoop v path fuel scan).foundnode) =
        scanComponents v scan.curr scan.foundnode (tokensOf (path.drop scan.currIndex)) ∧
      (scan.currIndex < path.length → (tokenLoop v path fuel scan).foundnode = false →
        (v.inodeOf (tokenLoop v path fuel scan).curr).traversable = true →
        (tokenLoop v path fuel scan).currIndex =
            path.length + (if path.getLast? = some slash then 0 else 1) ∧
          (tokenLoop v path fuel scan).tmpbuff =
            (tokensOf (path.drop scan.currIndex)).getLastD []) := by
  induction fuel generalizing scan with
  | zero =>
    rw [List.drop_eq_nil_of_le (by omega)]
    exact ⟨rfl, fun inside => by omega⟩
  | succ fuel inductionHypothesis =>
    by_cases inside : scan.currIndex < path.length
    swap
    · rw [tokenLoop, if_neg inside, List.drop_eq_nil_of_le (by omega)]
      exact ⟨rfl, fun below => absurd below inside⟩
    have nonempty : path.drop scan.currIndex ≠ [] := by simpa using inside
    have step := tokensOf_step nonempty
    have length := length_last_token nonempty
    have last : (path.drop scan.currIndex).getLast? = path.getLast? := by
      rw [List.getLast?_drop, if_neg (by omega)]
    rw [List.drop_drop] at step
    rw [last, List.length_drop] at length
    generalize tmpbuff : (path.drop scan.currIndex).takeWhile (· ≠ slash) = token at step length
    generalize rest : tokensOf (path.drop (scan.currIndex + (token.length + 1))) = tokens at step
    -- what the passes behind this one do
    have behind : ∀ last : Scan, last.currIndex = scan.currIndex + (token.length + 1) →
        last.tmpbuff = token →
        ((tokenLoop v path fuel last).curr, (tokenLoop v path fuel last).foundnode) =
            scanComponents v last.curr last.foundnode tokens ∧
          ((tokenLoop v path fuel last).foundnode = false →
            (v.inodeOf (tokenLoop v path fuel last).curr).traversable = true →
            (tokenLoop v path fuel last).currIndex =
                path.length + (if path.getLast? = some slash then 0 else 1) ∧
              (tokenLoop v path fuel last).tmpbuff = (token :: tokens).getLastD []) := by
      intro last index buffer
      obtain ⟨reached, ended⟩ := inductionHypothesis last (by omega)
      rw [index, rest] at reached ended
      refine ⟨reached, fun missing traversable => ?_⟩
      by_cases more : scan.currIndex + (token.length + 1) < path.length
      · obtain ⟨index', buffer'⟩ := ended more missing traversable
        refine ⟨index', buffer'.trans ?_⟩
        cases tokens with
        | nil =>
          have past := tokensOf_eq_nil_iff.mp rest
          rw [List.drop_eq_nil_iff] at past
          omega
        | cons next others => simp
      · have done : tokens = [] := by
          rw [← rest, tokensOf_eq_nil_iff, List.drop_eq_nil_iff]
          omega
        have still : tokenLoop v path fuel last = last := by
          cases fuel with
          | zero => rfl
          | succ fuel => rw [tokenLoop, if_neg (by omega)]
        have final := length (by omega)
        rw [still, done, index, buffer]
        exact ⟨by omega, rfl⟩
    rw [step, tokenLoop, if_pos inside, scanComponents]
    simp only [tmpbuff]
    cases traversable : (v.inodeOf scan.curr).traversable with
    | false => simp [traversable]
    | true =>
      simp only [Bool.not_true, Bool.false_eq_true, if_false, if_true]
      cases childNamed v scan.curr token with
      | some child =>
        obtain ⟨reached, ended⟩ := behind
          { curr := child, foundnode := true, currIndex := _, tmpbuff := token } rfl rfl
        exact ⟨reached, fun _ => ended⟩
      | none =>
        obtain ⟨reached, ended⟩ := behind
          { curr := scan.curr, foundnode := false, currIndex := _, tmpbuff := token } rfl rfl
        exact ⟨reached, fun _ => ended⟩

/-- `vfs_path_to_node` on any absolute path. -/
theorem vfsPathToNode_eq (heap : Allocator) (mknode : FsInfo → Ident) (path : CString) (mode : Nat)
    (createType : NodeType) :
    vfsPathToNode heap mknode v (slash :: path) mode createType =
      let reached := scanComponents v v.root true (tokensOf path)
      if reached.2 then if mode &&& errOnExist ≠ 0 then (none, v) else (some reached.1, v)
      else if (v.inodeOf reached.1).traversable ∧ mode &&& create ≠ 0 ∧ path.getLast? ≠ some slash then
        let made := createNode heap mknode v
          { curr := reached.1, foundnode := false, currIndex := path.length + 1
            tmpbuff := (tokensOf path).getLastD [] } createType
        (some made.1, made.2)
      else (none, v) := by
  obtain ⟨reached, ended⟩ := tokenLoop_tokens (v := v) path path.length
    { curr := v.root, foundnode := true, currIndex := 0, tmpbuff := [] } (by simp)
  simp only [List.drop_zero] at reached ended
  simp only [vfsPathToNode, List.head?_cons, List.tail_cons, ne_eq, not_true, if_false, ← reached]
  obtain ⟨scan, looped⟩ : ∃ scan, tokenLoop v path path.length
      { curr := v.root, foundnode := true, currIndex := 0, tmpbuff := [] } = scan := ⟨_, rfl⟩
  simp only [looped] at reached ended ⊢
  cases found : scan.foundnode with
  | true => simp
  | false =>
    simp only [Bool.not_false, if_true, Bool.false_eq_true, if_false]
    cases traversable : (v.inodeOf scan.curr).traversable with
    | false => simp
    | true =>
      -- the loop has read the path to its end, and its buffer holds the last token
      have inside : 0 < path.length := by
        rw [List.length_pos_iff]
        rintro rfl
        have empty : scan.foundnode = true := congrArg Prod.snd reached
        exact absurd (empty.symm.trans found) (by decide)
      obtain ⟨index, buffer⟩ := ended inside found traversable
      obtain ⟨curr, foundnode, currIndex, tmpbuff⟩ := scan
      simp only at found traversable index buffer ⊢
      subst found index buffer
      by_cases trailing : path.getLast? = some slash
      · simp [trailing]
      · simp [trailing]

/-- `vfs_path_to_node` without `CREATE`: the node of the last component, if that was found. -/
theorem vfsPathToNode_components (heap : Allocator) (mknode : FsInfo → Ident)
    (tokens : List CString) (components : ∀ token ∈ tokens, IsComponent token)
    (createType : NodeType) :
    vfsPathToNode heap mknode v (absolutePath tokens) noCreate createType =
      (if (scanComponents v v.root true tokens).2 then
        some (scanComponents v v.root true tokens).1 else none, v) := by
  have shape : absolutePath tokens = slash :: joinTokens tokens := by
    cases tokens with
    | nil => rfl
    | cons token tokens => exact absolutePath_cons token tokens
  have create_off : noCreate &&& create = 0 := by decide
  have exist_off : noCreate &&& errOnExist = 0 := by decide
  rw [shape, vfsPathToNode_eq, tokensOf_joinTokens components]
  simp only [create_off, exist_off, ne_eq, not_true, false_and, and_false, if_false]
  split <;> rfl

/-! ## When going on leads somewhere -/

/-- The loop's way along components: it follows one that names a child and passes over one
    that does not, and the last one names the child it ends at. -/
inductive Drift (v : Vfs Ident) : Addr → List CString → Addr → Prop
  | last {node child : Addr} {token : CString} (traversable : (v.inodeOf node).traversable)
      (named : childNamed v node token = some child) : Drift v node [token] child
  | follow {node child final : Addr} {token : CString} {tokens : List CString}
      (traversable : (v.inodeOf node).traversable) (named : childNamed v node token = some child)
      (drift : Drift v child tokens final) : Drift v node (token :: tokens) final
  | pass {node final : Addr} {token : CString} {tokens : List CString}
      (traversable : (v.inodeOf node).traversable) (missing : childNamed v node token = none)
      (drift : Drift v node tokens final) : Drift v node (token :: tokens) final

/-- Some component names no child of the directory reached from `node`, and from that directory
    the loop still finds its way along the components behind it. -/
def Resumes (v : Vfs Ident) (node : Addr) (tokens : List CString) : Prop :=
  ∃ front token rest dir final, tokens = front ++ token :: rest ∧ walk v node front = some dir ∧
    (v.inodeOf dir).traversable ∧ childNamed v dir token = none ∧ Drift v dir rest final

theorem scanComponents_of_drift {node final : Addr} {tokens : List CString}
    (drift : Drift v node tokens final) (found : Bool) :
    scanComponents v node found tokens = (final, true) := by
  induction drift generalizing found with
  | last traversable named => simp [scanComponents, traversable, named]
  | follow traversable named _ inductionHypothesis =>
    simp [scanComponents, traversable, named, inductionHypothesis]
  | pass traversable missing _ inductionHypothesis =>
    simp [scanComponents, traversable, missing, inductionHypothesis]

theorem drift_of_scanComponents {node final : Addr} {found : Bool} {tokens : List CString}
    (nonempty : tokens ≠ []) (scanned : scanComponents v node found tokens = (final, true)) :
    Drift v node tokens final := by
  induction tokens generalizing node found with
  | nil => exact absurd rfl nonempty
  | cons token tokens inductionHypothesis =>
    rw [scanComponents] at scanned
    split at scanned
    next traversable =>
      cases named : childNamed v node token with
      | some child =>
        simp only [named] at scanned
        cases tokens with
        | nil =>
          simp only [scanComponents, Prod.mk.injEq, and_true] at scanned
          exact scanned ▸ .last traversable named
        | cons next rest => exact .follow traversable named (inductionHypothesis (by simp) scanned)
      | none =>
        simp only [named] at scanned
        cases tokens with
        | nil => simp [scanComponents] at scanned
        | cons next rest => exact .pass traversable named (inductionHypothesis (by simp) scanned)
    next => simp at scanned

/-- The loop's way is the walk itself, unless it passed over a component. -/
theorem Drift.walk_or_resumes {node final : Addr} {tokens : List CString}
    (drift : Drift v node tokens final) :
    walk v node tokens = some final ∨ Resumes v node tokens := by
  induction drift with
  | last traversable named => left; simp [walk, traversable, named]
  | @follow node child final token tokens traversable named _ inductionHypothesis =>
    obtain walked | ⟨front, missed, rest, dir, final, rfl, walked, resumed⟩ := inductionHypothesis
    · left; simp [walk, traversable, named, walked]
    · right
      exact ⟨token :: front, missed, rest, dir, final, rfl,
        by simp [walk, traversable, named, walked], resumed⟩
  | @pass node final token tokens traversable missing drift _ =>
    right
    exact ⟨[], token, tokens, node, final, rfl, rfl, traversable, missing, drift⟩

theorem Resumes.drift {node : Addr} {tokens : List CString} (resumes : Resumes v node tokens) :
    ∃ final, Drift v node tokens final := by
  obtain ⟨front, token, rest, dir, final, rfl, walked, traversable, missing, drift⟩ := resumes
  refine ⟨final, ?_⟩
  induction front generalizing node with
  | nil =>
    obtain rfl : node = dir := by simpa [walk] using walked
    exact .pass traversable missing drift
  | cons first front inductionHypothesis =>
    rw [walk] at walked
    split at walked
    next firstTraversable =>
      cases named : childNamed v node first with
      | some child =>
        simp only [named] at walked
        exact .follow firstTraversable named (inductionHypothesis walked)
      | none => simp [named] at walked
    next => cases walked

/-- A walk that ends has passed over nothing. -/
theorem not_resumes_of_walk {node final : Addr} {tokens : List CString}
    (walked : walk v node tokens = some final) : ¬ Resumes v node tokens := by
  rintro ⟨front, token, rest, dir, _, rfl, reached, _, missing, _⟩
  induction front generalizing node with
  | nil =>
    obtain rfl : node = dir := by simpa [walk] using reached
    simp [walk, missing] at walked
  | cons first front inductionHypothesis =>
    rw [List.cons_append, walk] at walked
    rw [walk] at reached
    split at walked
    next traversable =>
      rw [if_pos traversable] at reached
      cases named : childNamed v node first with
      | some child =>
        simp only [named] at walked reached
        exact inductionHypothesis walked reached
      | none => simp [named] at walked
    next => cases walked

theorem walk_drift {node final : Addr} {tokens : List CString} (nonempty : tokens ≠ [])
    (walked : walk v node tokens = some final) : Drift v node tokens final := by
  induction tokens generalizing node with
  | nil => exact absurd rfl nonempty
  | cons token tokens inductionHypothesis =>
    rw [walk] at walked
    split at walked
    next traversable =>
      cases named : childNamed v node token with
      | some child =>
        simp only [named] at walked
        cases tokens with
        | nil =>
          obtain rfl : child = final := by simpa [walk] using walked
          exact .last traversable named
        | cons next rest => exact .follow traversable named (inductionHypothesis (by simp) walked)
      | none => simp [named] at walked
    next => cases walked

/-- What the loop answers: the end of its drift, when it has one. -/
theorem vfsPathToNode_drift (heap : Allocator) (mknode : FsInfo → Ident) {tokens : List CString}
    (components : ∀ token ∈ tokens, IsComponent token) (nonempty : tokens ≠ [])
    (createType : NodeType) (final : Addr) :
    (vfsPathToNode heap mknode v (absolutePath tokens) noCreate createType).1 = some final ↔
      Drift v v.root tokens final := by
  rw [vfsPathToNode_components heap mknode tokens components createType]
  constructor
  · intro answer
    refine @drift_of_scanComponents _ v _ _ true _ nonempty (Prod.ext ?_ ?_) <;> simp_all
  · intro drift
    simp [scanComponents_of_drift drift]

/-- A walk that leads somewhere leads the loop there. -/
theorem vfsPathToNode_of_walk (heap : Allocator) (mknode : FsInfo → Ident) {tokens : List CString}
    (components : ∀ token ∈ tokens, IsComponent token) (createType : NodeType) {final : Addr}
    (walked : walk v v.root tokens = some final) :
    (vfsPathToNode heap mknode v (absolutePath tokens) noCreate createType).1 = some final := by
  by_cases nonempty : tokens = []
  · subst nonempty
    rw [vfsPathToNode_components heap mknode [] components createType]
    exact walked
  · exact (vfsPathToNode_drift heap mknode components nonempty createType final).mpr
      (walk_drift nonempty walked)

/-- `vfs_path_to_node` resolves a path as the walk does if and only if it does not resume the
    walk behind a missing component. -/
theorem vfsPathToNode_walk_iff (heap : Allocator) (mknode : FsInfo → Ident) (v : Vfs Ident)
    (tokens : List CString) (path : IsPath tokens) (createType : NodeType) :
    (vfsPathToNode heap mknode v (absolutePath tokens) noCreate createType).1 =
      walk v v.root tokens ↔ ¬ Resumes v v.root tokens := by
  have components := path.components
  by_cases nonempty : tokens = []
  · subst nonempty
    have answer := vfsPathToNode_components (v := v) heap mknode [] components createType
    simp [answer, scanComponents, walk, @not_resumes_of_walk _ v v.root v.root [] rfl]
  have resolved := vfsPathToNode_drift (v := v) heap mknode components nonempty createType
  constructor
  · intro agree resumes
    obtain ⟨final, drift⟩ := resumes.drift
    rw [(resolved final).mpr drift] at agree
    exact not_resumes_of_walk agree.symm resumes
  · intro settled
    cases walked : walk v v.root tokens with
    | some final => exact vfsPathToNode_of_walk heap mknode components createType walked
    | none =>
      cases answer : (vfsPathToNode heap mknode v (absolutePath tokens) noCreate createType).1 with
      | none => rfl
      | some final =>
        obtain reached | resumes := ((resolved final).mp answer).walk_or_resumes
        · rw [walked] at reached; cases reached
        · exact absurd resumes settled

/-- A root directory, at address 0, with one child "dev". -/
def devTree : Vfs Unit where
  tnodes addr := { name := if addr = 1 then [0x64, 0x65, 0x76] else [], inode := addr,
                   parent := if addr = 1 then some 0 else none }
  inodes addr := { type := .folder, size := 0, perms := 0o777, uid := 0, refcount := 0, tm := .zero,
                   fs := none, ident := none, mountpoint := none,
                   child := if addr = 0 then [1] else [] }
  allocated := [0, 1]
  root := 0
  openfiles := []

/-- The path "/nil/dev", where the root has no child "nil". -/
def nilDev : List CString := [[0x6E, 0x69, 0x6C], [0x64, 0x65, 0x76]]

theorem path_behind_missing_component :
    walk devTree devTree.root nilDev = none ∧
      (vfsPathToNode bumpAllocator (fun _ => ()) devTree (absolutePath nilDev) noCreate .file).1 =
        some 1 := by
  decide

/-- The path "/dev/nil", where "dev" has no child. -/
def devNil : List CString := [[0x64, 0x65, 0x76], [0x6E, 0x69, 0x6C]]

/-- On the same tree "/dev/nil" resolves as the walk does. -/
theorem vfsPathToNode_walk_iff_devNil :
    (vfsPathToNode bumpAllocator (fun _ => ()) devTree (absolutePath devNil) noCreate .file).1 =
        walk devTree devTree.root devNil ↔ ¬ Resumes devTree devTree.root devNil :=
  vfsPathToNode_walk_iff bumpAllocator (fun _ => ()) devTree devNil
    ⟨by simp [devNil, IsComponent, slash], by decide⟩ .file

end HanOS.Fs
