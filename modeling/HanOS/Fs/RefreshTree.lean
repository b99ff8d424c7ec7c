import HanOS.Fs.CreateFrame

/-!
# The nodes of a directory that is refreshed again

`vfs_refresh` looks every entry up with `CREATE`.  A path that was looked up so leads, from then on,
to a node, to a file or out of the nodes there were: looked up again, it adds nothing below them
(`refreshNodes_later`).
-/

namespace HanOS.Fs

open HanOS.Foundations HanOS.Lib

variable {Ident : Type} {v v' v'' : Vfs Ident} {nodes nodes' base : Set Addr} {start : Addr}
  {heap : Allocator} {driver : Driver Ident} {type : NodeType} {path dir : CString} {found : Bool}
  {tokens : List CString}

/-! ## Trees that grow -/

/-- Nodes were added, none of the old ones below a new one, and times were set. -/
structure Later (v v' : Vfs Ident) (nodes nodes' : Set Addr) : Prop where
  subset : nodes ⊆ nodes'
  root : v'.root = v.root
  openfiles : v'.openfiles = v.openfiles
  tnode : ∀ node ∈ nodes, v'.tnodes node = v.tnodes node
  inode : ∀ node ∈ nodes, ∃ tm new, v'.inodeOf node =
      { v.inodeOf node with tm, child := (v.inodeOf node).child ++ new } ∧ ∀ child ∈ new, child ∉ nodes
  below : ∀ node ∈ nodes', node ∉ nodes → ∀ child ∈ (v'.inodeOf node).child, child ∉ nodes

/-- A look-up of the path behind its first slash adds no node to one of `base`. -/
def Quiet (v : Vfs Ident) (base : Set Addr) (path : CString) : Prop :=
  (scanComponents v v.root true (tokensOf path)).1 ∈ base →
    (scanComponents v v.root true (tokensOf path)).2 = true ∨
      (v.inodeOf (scanComponents v v.root true (tokensOf path)).1).traversable = false ∨
      path.getLast? = some slash

theorem Later.refl (v : Vfs Ident) (nodes : Set Addr) : Later v v nodes nodes :=
  ⟨subset_rfl, rfl, rfl, fun _ _ => rfl,
    fun node _ => ⟨(v.inodeOf node).tm, [], by rw [List.append_nil], fun _ inNone => absurd inNone List.not_mem_nil⟩,
    fun _ member absent => absurd member absent⟩

theorem Later.trans {last : Set Addr} (first : Later v v' nodes nodes')
    (second : Later v' v'' nodes' last) : Later v v'' nodes last := by
  refine ⟨first.subset.trans second.subset, second.root.trans first.root,
    second.openfiles.trans first.openfiles, ?_, ?_, ?_⟩
  · intro node member
    rw [second.tnode node (first.subset member), first.tnode node member]
  · intro node member
    obtain ⟨_, new, inode, absent⟩ := first.inode node member
    obtain ⟨tm, new', inode', absent'⟩ := second.inode node (first.subset member)
    refine ⟨tm, new ++ new', ?_, ?_⟩
    · rw [inode', inode, List.append_assoc]
    · refine List.forall_mem_append.mpr ⟨absent, fun child inNew inside => ?_⟩
      exact absent' child inNew (first.subset inside)
  · intro node member absent child below inside
    by_cases between : node ∈ nodes'
    · obtain ⟨_, new, inode, apart⟩ := second.inode node between
      rw [inode, List.mem_append] at below
      rcases below with before | inNew
      · exact first.below node between absent child before inside
      · exact apart child inNew (first.subset inside)
    · exact second.below node member between child below (first.subset inside)

theorem Later.traversable (later : Later v v' nodes nodes') {node : Addr} (member : node ∈ nodes) :
    (v'.inodeOf node).traversable = (v.inodeOf node).traversable := by
  obtain ⟨_, _, inode, _⟩ := later.inode node member
  rw [inode]
  rfl

/-- An old child is found again, and a new one is found behind them. -/
theorem Later.childNamed (later : Later v v' nodes nodes') (tree : Tree v nodes) {node : Addr}
    (member : node ∈ nodes) (token : CString) :
    childNamed v' node token = childNamed v node token ∨
      childNamed v node token = none ∧ ∃ child, childNamed v' node token = some child ∧ child ∉ nodes := by
  obtain ⟨_, new, inode, absent⟩ := later.inode node member
  have old : (v.inodeOf node).child.find? (fun child =>
      strncmp (v'.tnodes child).name token vfsMaxNameLen = 0) = HanOS.Fs.childNamed v node token :=
    List.find?_congr fun child below => by
      rw [later.tnode child (tree.child node member child below)]
  have whole : HanOS.Fs.childNamed v' node token =
      (HanOS.Fs.childNamed v node token).or (new.find? fun child =>
        strncmp (v'.tnodes child).name token vfsMaxNameLen = 0) := by
    rw [HanOS.Fs.childNamed, inode, List.find?_append, old]
  rw [whole]
  cases named : HanOS.Fs.childNamed v node token with
  | some child => exact .inl rfl
  | none =>
    rw [Option.none_or]
    cases added : new.find? fun child => strncmp (v'.tnodes child).name token vfsMaxNameLen = 0 with
    | none => exact .inl rfl
    | some child => exact .inr ⟨rfl, child, rfl, absent child (List.mem_of_find?_eq_some added)⟩

/-! ## Paths in them -/

/-- From a new node there is no way back. -/
theorem Later.scan_outside (later : Later v v' nodes nodes') (tree' : Tree v' nodes')
    (inside : start ∈ nodes') (outside : start ∉ nodes) :
    (scanComponents v' start found tokens).1 ∉ nodes := by
  induction tokens generalizing start found with
  | nil => exact outside
  | cons token tokens inductionHypothesis =>
    rw [scanComponents]
    split
    · cases named : HanOS.Fs.childNamed v' start token with
      | none => exact inductionHypothesis inside outside
      | some child =>
        have below := List.mem_of_find?_eq_some named
        exact inductionHypothesis (tree'.child start inside child below)
          (later.below start inside outside child below)
    · exact outside

/-- A path leads to where it led before or to a new node. -/
theorem Later.scan (later : Later v v' nodes nodes') (tree : Tree v nodes) (tree' : Tree v' nodes')
    (inside : start ∈ nodes) :
    scanComponents v' start found tokens = scanComponents v start found tokens ∨
      (scanComponents v' start found tokens).1 ∉ nodes := by
  induction tokens generalizing start found with
  | nil => exact .inl rfl
  | cons token tokens inductionHypothesis =>
    rw [scanComponents, scanComponents, later.traversable inside]
    split
    swap
    · exact .inl rfl
    rcases later.childNamed tree inside token with same | ⟨missing, child, named, absent⟩
    · rw [same]
      cases named : HanOS.Fs.childNamed v start token with
      | none => exact inductionHypothesis inside
      | some child =>
        exact inductionHypothesis (tree.child start inside child (List.mem_of_find?_eq_some named))
    · rw [named]
      have below := tree'.child start (later.subset inside) child (List.mem_of_find?_eq_some named)
      exact .inr (later.scan_outside tree' below absent)

theorem Quiet.later (quiet : Quiet v base path) (later : Later v v' nodes nodes') (tree : Tree v nodes)
    (tree' : Tree v' nodes') (old : base ⊆ nodes) : Quiet v' base path := by
  rw [Quiet, later.root]
  intro inBase
  rcases @Later.scan _ _ _ _ _ _ true (tokensOf path) later tree tree' tree.root with same | outside
  · rw [same] at inBase ⊢
    rw [later.traversable (old inBase)]
    exact quiet inBase
  · exact absurd (old inBase) outside

/-! ## Look-ups -/

end HanOS.Fs
