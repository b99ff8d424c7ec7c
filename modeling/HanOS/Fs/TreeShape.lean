import HanOS.Fs.PathCreate

/-!
# The shape of the tree

Nodes are added by `vfs_path_to_node` only, where a folder has no child of the name that is looked
for, and `vfs_mount` gives a new inode to folders without children only.  So the children of a
folder have different names, their `parent` is its inode, and a node is found at the path made of
the names above it (`tree_sound`).
-/

namespace HanOS.Fs

open HanOS.Foundations HanOS.Lib

variable {Ident : Type} {v v' : Vfs Ident} {nodes : Set Addr} {node child start : Addr}
  {heap : Allocator} {driver : Driver Ident} {type : NodeType} {scan : Scan} {token : CString}

/-! ## The property -/

/-- A lookup takes the names of the two nodes for the same. -/
def SameName (v : Vfs Ident) (a b : Addr) : Prop :=
  strncmp (v.tnodes a).name (v.tnodes b).name vfsMaxNameLen = 0

inductive Canonical (v : Vfs Ident) : Addr → List CString → Prop
  | root : Canonical v v.root []
  | child {node child : Addr} {names : List CString} (above : Canonical v node names)
      (member : child ∈ (v.inodeOf node).child) :
      Canonical v child (names ++ [(v.tnodes child).name])

structure TreeSound (heap : Allocator) (driver : Driver Ident) (v : Vfs Ident) : Prop where
  distinct : ∀ node, InTree v node → (v.inodeOf node).child.Pairwise fun a b => ¬ SameName v a b
  parent : ∀ node, InTree v node → ∀ child ∈ (v.inodeOf node).child,
    (v.tnodes child).parent = some (v.tnodes node).inode
  canonical : ∀ node, InTree v node → (∃ names, Canonical v node names) ∧
    ∀ names, Canonical v node names → findNode heap driver v (absolutePath names) = some node

/-- A call that works on the tree, and `vfs_path_to_node` by itself. -/
inductive TreeCall
  | pathToNode (path : CString) (mode : Nat) (type : NodeType)
  | vfs (step : VfsStep)

def Vfs.turn (heap : Allocator) (driver : Driver Ident) (v : Vfs Ident) : TreeCall → Option (Vfs Ident)
  | .pathToNode path mode type => some (pathToNode heap driver v path mode type).2
  | .vfs step => v.step heap driver step

/-- The paths of a call fit, those that `vfs_refresh` makes too. -/
def Vfs.Fits (driver : Driver Ident) (v : Vfs Ident) : TreeCall → Prop
  | .pathToNode path _ _ | .vfs (.open_ path _) | .vfs (.create path _) | .vfs (.device path) =>
    FitsPath path
  | .vfs (.mount device path _) => FitsPath device ∧ FitsPath path
  | .vfs (.refresh handle) => ∀ fd dirents, vfsHandleToFd v handle = some fd →
      driver.dirents v fd.inode = some dirents →
        ∀ de ∈ dirents, FitsPath (fd.path ++ slash :: de.name)
  | .vfs (.close _) => True

/-! ## The invariant -/

structure Shaped (v : Vfs Ident) (nodes : Set Addr) : Prop extends Tree v nodes where
  names : ∀ node ∈ nodes, (v.inodeOf node).child.Pairwise fun a b => ¬ SameName v a b
  parents : ∀ node ∈ nodes, ∀ child ∈ (v.inodeOf node).child,
    (v.tnodes child).parent = some (v.tnodes node).inode
  components : ∀ node ∈ nodes, ∀ child ∈ (v.inodeOf node).child, IsComponent (v.tnodes child).name
  folders : ∀ node ∈ nodes, (v.inodeOf node).child ≠ [] → (v.inodeOf node).traversable

theorem strncmp_self (a : CString) (len : Nat) : strncmp a a len = 0 := by
  induction len generalizing a with
  | zero => rfl
  | succ len inductionHypothesis => simp [strncmp, inductionHypothesis]

theorem strncmp_take (a b : CString) (len : Nat) : strncmp a (b.take len) len = strncmp a b len := by
  induction len generalizing a b with
  | zero => rfl
  | succ len inductionHypothesis =>
    cases b with
    | nil => rfl
    | cons c b => simp [strncmp, inductionHypothesis]

theorem childNamed_none (missing : childNamed v node token = none) {child : Addr}
    (member : child ∈ (v.inodeOf node).child) :
    strncmp (v.tnodes child).name token vfsMaxNameLen ≠ 0 := by
  simpa using List.find?_eq_none.mp missing child member

/-- Among different names a child is found by its own. -/
theorem childNamed_own (names : (v.inodeOf node).child.Pairwise fun a b => ¬ SameName v a b)
    (member : child ∈ (v.inodeOf node).child) :
    childNamed v node (v.tnodes child).name = some child := by
  obtain ⟨front, rest, split⟩ := List.append_of_mem member
  rw [childNamed, List.find?_eq_some_iff_append]
  refine ⟨by simpa using strncmp_self _ _, front, rest, split, fun other before => ?_⟩
  rw [split] at names
  simpa [SameName] using (List.pairwise_append.mp names).2.2 other before child (List.mem_cons_self ..)

theorem walk_snoc {tokens : List CString} (walked : walk v start tokens = some node)
    (traversable : (v.inodeOf node).traversable) (named : childNamed v node token = some child) :
    walk v start (tokens ++ [token]) = some child := by
  induction tokens generalizing start with
  | nil =>
    obtain rfl := Option.some.inj walked
    simp [walk, traversable, named]
  | cons first tokens inductionHypothesis =>
    rw [walk] at walked
    rw [List.cons_append, walk]
    split at walked
    swap
    · cases walked
    next open_ =>
    rw [if_pos open_]
    cases next : childNamed v start first with
    | none => simp [next] at walked
    | some below =>
      rw [next] at walked
      exact inductionHypothesis walked

theorem findNode_of_walk {tokens : List CString} (components : ∀ token ∈ tokens, IsComponent token)
    (walked : walk v v.root tokens = some node) :
    findNode heap driver v (absolutePath tokens) = some node :=
  vfsPathToNode_of_walk heap driver.mknode components .file walked

theorem Shaped.canonical_walk {names : List CString} (shaped : Shaped v nodes)
    (canonical : Canonical v node names) :
    node ∈ nodes ∧ walk v v.root names = some node ∧ ∀ name ∈ names, IsComponent name := by
  induction canonical with
  | root => exact ⟨shaped.root, rfl, nofun⟩
  | @child node child names _ member inductionHypothesis =>
    obtain ⟨inside, walked, components⟩ := inductionHypothesis
    have traversable := shaped.folders node inside (List.ne_nil_of_mem member)
    refine ⟨shaped.child node inside child member, ?_, ?_⟩
    · exact walk_snoc walked traversable (childNamed_own (shaped.names node inside) member)
    · intro name below
      rcases List.mem_append.mp below with above | own
      · exact components name above
      · exact List.mem_singleton.mp own ▸ shaped.components node inside child member

theorem InTree.exists_canonical (inTree : InTree v node) : ∃ names, Canonical v node names := by
  induction inTree with
  | root => exact ⟨[], .root⟩
  | child _ member inductionHypothesis =>
    obtain ⟨names, above⟩ := inductionHypothesis
    exact ⟨_, .child above member⟩

theorem Shaped.sound (shaped : Shaped v nodes) : TreeSound heap driver v := by
  refine ⟨fun node inTree => shaped.names node (inTree.mem shaped.toTree),
    fun node inTree => shaped.parents node (inTree.mem shaped.toTree),
    fun node inTree => ⟨inTree.exists_canonical, fun names canonical => ?_⟩⟩
  obtain ⟨_, walked, components⟩ := shaped.canonical_walk canonical
  exact findNode_of_walk components walked

/-! ## A node is added -/

/-- Where the loop ends without its last token, there is a folder that has no such child. -/
theorem scanComponents_missing {tokens : List CString} {found : Bool} (nonempty : tokens ≠ [])
    (missing : (scanComponents v start found tokens).2 = false)
    (traversable : (v.inodeOf (scanComponents v start found tokens).1).traversable) :
    childNamed v (scanComponents v start found tokens).1 (tokens.getLastD []) = none := by
  induction tokens generalizing start found with
  | nil => exact absurd rfl nonempty
  | cons token tokens inductionHypothesis =>
    rw [scanComponents] at missing traversable ⊢
    split at missing
    · next open_ =>
      rw [if_pos open_] at traversable ⊢
      cases tokens with
      | nil =>
        cases named : childNamed v start token with
        | some child => simp [named, scanComponents] at missing
        | none => simpa [scanComponents] using named
      | cons next rest =>
        cases named : childNamed v start token with
        | some child =>
          rw [named] at missing traversable
          simpa using inductionHypothesis (by simp) missing traversable
        | none =>
          rw [named] at missing traversable
          simpa using inductionHypothesis (by simp) missing traversable
    · next shut =>
      rw [if_neg shut] at traversable
      exact absurd traversable shut

theorem scanComponents_inTree {tokens : List CString} {found : Bool} (inTree : InTree v start) :
    InTree v (scanComponents v start found tokens).1 := by
  induction tokens generalizing start found with
  | nil => exact inTree
  | cons token tokens inductionHypothesis =>
    rw [scanComponents]
    split
    · cases named : childNamed v start token with
      | some child => exact inductionHypothesis (.child inTree (List.mem_of_find?_eq_some named))
      | none => exact inductionHypothesis inTree
    · exact inTree

/-- A resolution leaves the tree, or adds a node to a folder that had none of its name. -/
theorem pathToNode_adds (v : Vfs Ident) (path : CString) (mode : Nat) (type : NodeType) :
    (pathToNode heap driver v path mode type).2 = v ∨
      ∃ scan, InTree v scan.curr ∧ (v.inodeOf scan.curr).traversable ∧
        childNamed v scan.curr scan.tmpbuff = none ∧ IsComponent scan.tmpbuff ∧
        pathToNode heap driver v path mode type =
          (some (createNode heap driver.mknode v scan type).1,
            (createNode heap driver.mknode v scan type).2) := by
  rw [pathToNode]
  by_cases absolute : path.head? = some slash
  swap
  · exact .inl (by simp [vfsPathToNode, absolute])
  obtain ⟨rest, rfl⟩ : ∃ rest, path = slash :: rest := by
    cases path with
    | nil => cases absolute
    | cons c rest => exact ⟨rest, by rw [Option.some.inj absolute]⟩
  rw [vfsPathToNode_eq]
  dsimp only
  split
  · split <;> exact .inl rfl
  · next missing =>
    split
    swap
    · exact .inl rfl
    next adds =>
    have missing : (scanComponents v v.root true (tokensOf rest)).2 = false := by simpa using missing
    -- the last token is the name of the new node
    have nonempty : rest ≠ [] := by
      rintro rfl
      cases missing
    have tokens : tokensOf rest ≠ [] := fun none_ => nonempty (tokensOf_eq_nil_iff.mp none_)
    have last : (tokensOf rest).getLastD [] ∈ tokensOf rest := by
      rw [List.getLastD_eq_getLast?, List.getLast?_eq_some_getLast tokens]
      exact List.getLast_mem tokens
    exact .inr ⟨_, scanComponents_inTree .root, adds.1, scanComponents_missing tokens missing adds.1,
      ⟨getLastD_tokensOf_ne_nil nonempty adds.2.2, slash_not_mem_tokensOf last⟩, rfl⟩

/-- The new node stands alone, with its folder for its parent. -/
theorem createNode_new {mknode : FsInfo → Ident} (tree : Tree v nodes) (member : scan.curr ∈ nodes) :
    Tree (createNode heap mknode v scan type).2
        (insert (createNode heap mknode v scan type).1 nodes) ∧
      ((createNode heap mknode v scan type).2.tnodes (createNode heap mknode v scan type).1).parent =
        some (v.tnodes scan.curr).inode ∧
      ((createNode heap mknode v scan type).2.inodeOf
        (createNode heap mknode v scan type).1).child = [] ∧
      ((createNode heap mknode v scan type).2.inodeOf
        (createNode heap mknode v scan type).1).type = type := by
  obtain ⟨⟨inode, tnode, v'⟩, linked⟩ : ∃ parts, linkNode heap v scan type = parts := ⟨_, rfl⟩
  obtain ⟨tree', _⟩ := linkNode_grows tree member linked
  rw [createNode_eq linked]
  have inodeFresh := heap.fresh v.allocated
  have dirOld : (v.tnodes scan.curr).inode ≠ heap.pick v.allocated :=
    fun same => inodeFresh (same ▸ tree.inodeAllocated _ member)
  simp only [linkNode, vfsAllocInode, vfsAllocTnode, Prod.mk.injEq] at linked
  obtain ⟨rfl, rfl, rfl⟩ := linked
  split
  · exact ⟨tree', by simp, by simp [Vfs.inodeOf, dirOld.symm], by simp [Vfs.inodeOf, dirOld.symm]⟩
  · exact ⟨tree'.update rfl, by simp, by simp [Vfs.inodeOf, dirOld.symm],
      by simp [Vfs.inodeOf, dirOld.symm]⟩

theorem Shaped.add {mknode : FsInfo → Ident} (shaped : Shaped v nodes) (member : scan.curr ∈ nodes)
    (traversable : (v.inodeOf scan.curr).traversable)
    (missing : childNamed v scan.curr scan.tmpbuff = none) (component : IsComponent scan.tmpbuff) :
    Shaped (createNode heap mknode v scan type).2
      (insert (createNode heap mknode v scan type).1 nodes) := by
  obtain ⟨adds, _⟩ := @createNode_adds _ v nodes heap type scan mknode shaped.toTree member
  obtain ⟨tree, parent, childless, _⟩ :=
    @createNode_new _ v nodes heap type scan mknode shaped.toTree member
  generalize (createNode heap mknode v scan type).2 = v' at *
  generalize (createNode heap mknode v scan type).1 = new at *
  have folder := adds.folder
  -- old nodes keep their names, and the children of a folder theirs
  have tnode : ∀ dir ∈ nodes, ∀ child ∈ (v.inodeOf dir).child, v'.tnodes child = v.tnodes child :=
    fun dir inside child below => adds.tnode child (shaped.child dir inside child below)
  have same : ∀ dir ∈ nodes, (v.inodeOf dir).child.Pairwise fun a b => ¬ SameName v' a b := by
    intro dir inside
    refine (shaped.names dir inside).imp_of_mem fun first second different => ?_
    rwa [SameName, tnode dir inside _ first, tnode dir inside _ second]
  -- in each part: the new node, its folder, and every other folder
  refine ⟨tree, ?_, ?_, ?_, ?_⟩
  · rintro dir (rfl | inside)
    · rw [childless]
      exact .nil
    · by_cases here : dir = scan.curr
      · subst here
        rw [folder]
        refine List.pairwise_append.mpr ⟨same _ inside, List.pairwise_singleton .., ?_⟩
        intro child below other new_
        obtain rfl := List.mem_singleton.mp new_
        rw [SameName, tnode _ inside child below, adds.name, strncmp_take]
        -- the lookup of the new name found no child
        exact childNamed_none missing below
      · rw [adds.inode dir inside here]
        exact same dir inside
  · rintro dir (rfl | inside) child below
    · rw [childless] at below
      cases below
    · have own : v'.tnodes dir = v.tnodes dir := adds.tnode dir inside
      by_cases here : dir = scan.curr
      · subst here
        rw [folder] at below
        rcases List.mem_append.mp below with old | new_
        · rw [tnode _ inside child old, own]
          exact shaped.parents _ inside child old
        · obtain rfl := List.mem_singleton.mp new_
          rw [parent, own]
      · rw [adds.inode dir inside here] at below
        rw [tnode dir inside child below, own]
        exact shaped.parents dir inside child below
  · rintro dir (rfl | inside) child below
    · rw [childless] at below
      cases below
    · by_cases here : dir = scan.curr
      · subst here
        rw [folder] at below
        rcases List.mem_append.mp below with old | new_
        · rw [tnode _ inside child old]
          exact shaped.components _ inside child old
        · obtain rfl := List.mem_singleton.mp new_
          rw [adds.name]
          refine ⟨fun empty => ?_, fun slash_ => component.2 (List.mem_of_mem_take slash_)⟩
          rcases List.take_eq_nil_iff.mp empty with none_ | none_
          · cases none_
          · exact component.1 none_
      · rw [adds.inode dir inside here] at below
        rw [tnode dir inside child below]
        exact shaped.components dir inside child below
  · rintro dir (rfl | inside) children
    · exact absurd childless children
    · by_cases here : dir = scan.curr
      · subst here
        rw [folder]
        exact traversable
      · rw [adds.inode dir inside here] at children ⊢
        exact shaped.folders dir inside children

/-! ## The calls -/

def HasShape (v : Vfs Ident) : Prop := ∃ nodes, Shaped v nodes

theorem HasShape.pathToNode (shape : HasShape v) (path : CString) (mode : Nat) (type : NodeType) :
    HasShape (pathToNode heap driver v path mode type).2 := by
  obtain ⟨nodes, shaped⟩ := shape
  rcases @pathToNode_adds _ heap driver v path mode type with
    same | ⟨scan, inTree, traversable, missing, component, made⟩
  · rw [same]
    exact ⟨nodes, shaped⟩
  · rw [made]
    exact ⟨_, shaped.add (inTree.mem shaped.toTree) traversable missing component⟩

theorem HasShape.fill {addr : Addr} {inode : Inode Ident} (shape : HasShape v)
    (child : inode.child = (v.inodes addr).child) (type : inode.type = (v.inodes addr).type) :
    HasShape { v with inodes := Function.update v.inodes addr inode } := by
  obtain ⟨nodes, shaped⟩ := shape
  have same : ∀ node, ((Function.update v.inodes addr inode) (v.tnodes node).inode).child =
        (v.inodeOf node).child ∧
      ((Function.update v.inodes addr inode) (v.tnodes node).inode).type = (v.inodeOf node).type := by
    intro node
    rw [Vfs.inodeOf]
    by_cases here : (v.tnodes node).inode = addr
    · rw [here, Function.update_self]
      exact ⟨child, type⟩
    · rw [Function.update_of_ne here]
      exact ⟨rfl, rfl⟩
  refine ⟨nodes, shaped.toTree.update child, ?_, ?_, ?_, ?_⟩
  · intro node inside
    rw [Vfs.inodeOf, (same node).1]
    exact shaped.names node inside
  · intro node inside
    rw [Vfs.inodeOf, (same node).1]
    exact shaped.parents node inside
  · intro node inside
    rw [Vfs.inodeOf, (same node).1]
    exact shaped.components node inside
  · intro node inside
    rw [Vfs.inodeOf, Inode.traversable, (same node).1, (same node).2]
    exact shaped.folders node inside

theorem HasShape.builds (shape : HasShape v) (builds : Builds heap driver v v') : HasShape v' := by
  induction builds with
  | refl => exact shape
  | node path mode type _ inductionHypothesis => exact inductionHypothesis.pathToNode path mode type
  | fill child type _ _ inductionHypothesis => exact inductionHypothesis.fill child type

/-- The descriptors change, and the `refcount` of an inode. -/
theorem HasShape.recount {inode : Addr} {refcount : Nat} {openfiles : List (Option NodeDesc)}
    (shape : HasShape v) :
    HasShape
      { v with
        inodes := Function.update v.inodes inode { v.inodes inode with refcount }
        openfiles } := by
  obtain ⟨nodes, ⟨tree, names, parents, components, folders⟩⟩ :=
    @HasShape.fill _ v inode { v.inodes inode with refcount } shape rfl rfl
  obtain ⟨⟩ := tree
  exact ⟨nodes, ⟨by constructor <;> assumption, names, parents, components, folders⟩⟩

theorem Shaped.replace {ret : Addr} {inode : Inode Ident} {allocated : List Addr}
    (shaped : Shaped v nodes) (fresh : ret ∉ allocated) (childless : inode.child = [])
    (tnodes : ∀ other ∈ nodes, other ∈ allocated)
    (inodes : ∀ other ∈ nodes, other ≠ node → (v.tnodes other).inode ∈ allocated) :
    Shaped
      { v with
        allocated := ret :: allocated
        inodes := Function.update v.inodes ret inode
        tnodes := Function.update v.tnodes node { v.tnodes node with inode := ret } } nodes := by
  have tree := shaped.toTree.replace fresh childless tnodes inodes
  generalize changed : Vfs.mk _ _ _ _ _ = v' at tree ⊢
  -- the names and the parents of all nodes are those of before
  have names : ∀ other, (v'.tnodes other).name = (v.tnodes other).name ∧
      (v'.tnodes other).parent = (v.tnodes other).parent := by
    intro other
    subst changed
    by_cases here : other = node
    · simp [here]
    · simp [here]
  have old : ∀ other ∈ nodes, other ≠ node → v'.inodeOf other = v.inodeOf other ∧
      (v'.tnodes other).inode = (v.tnodes other).inode := by
    intro other inside here
    have apart : (v.tnodes other).inode ≠ ret := fun same => fresh (same ▸ inodes other inside here)
    subst changed
    simp [Vfs.inodeOf, here, apart]
  have new : (v'.inodeOf node).child = [] := by
    subst changed
    simp [Vfs.inodeOf, childless]
  have empty : ∀ child, child ∉ (v'.inodeOf node).child := by simp [new]
  -- the node has no children, and every other one has its own
  refine ⟨tree, ?_, ?_, ?_, ?_⟩
  · intro other inside
    by_cases here : other = node
    · rw [here, new]
      exact .nil
    · rw [(old other inside here).1]
      refine (shaped.names other inside).imp fun {a b} different => ?_
      rwa [SameName, (names a).1, (names b).1]
  · intro other inside child below
    by_cases here : other = node
    · exact absurd (here ▸ below) (empty child)
    · rw [(old other inside here).1] at below
      rw [(names child).2, (old other inside here).2]
      exact shaped.parents other inside child below
  · intro other inside child below
    by_cases here : other = node
    · exact absurd (here ▸ below) (empty child)
    · rw [(old other inside here).1] at below
      rw [(names child).1]
      exact shaped.components other inside child below
  · intro other inside children
    by_cases here : other = node
    · exact absurd (here ▸ new) children
    · rw [(old other inside here).1] at children ⊢
      exact shaped.folders other inside children

theorem HasShape.device {devname : CString} (shape : HasShape v)
    (added : addDevice heap driver v devname = some v') : HasShape v' := by
  obtain ⟨tnode, found, added⟩ := Option.bind_eq_some_iff.mp added
  obtain rfl := Option.some.inj added
  obtain ⟨nodes, shaped⟩ := @HasShape.pathToNode _ v heap driver shape _ _ _
  exact ⟨nodes, shaped.replace (heap.fresh _) rfl shaped.tnodeAllocated
    fun other inside _ => shaped.inodeAllocated other inside⟩

theorem HasShape.open_ {path : CString} {mode : OpenMode} {ok : Bool} (shape : HasShape v)
    (opened : vfsOpen heap driver v path mode = some (ok, v')) : HasShape v' := by
  obtain ⟨⟨req, u⟩, reached, opened⟩ := Option.bind_eq_some_iff.mp opened
  have grown := shape.builds (openNode_builds reached).1
  cases req with
  | none =>
    obtain ⟨_, rfl⟩ := Prod.mk.inj (Option.some.inj opened)
    exact grown
  | some req =>
    obtain ⟨_, rfl⟩ := Prod.mk.inj (Option.some.inj opened)
    exact grown.recount

theorem HasShape.close (shape : HasShape v) (handle : Int) : HasShape (vfsClose v handle).2 := by
  rw [vfsClose]
  cases vfsHandleToFd v handle with
  | none => exact shape
  | some fd => exact shape.recount

/-- The folder is in the tree before, and has no children to lose. -/
theorem HasShape.mountAt {dev at_ : Addr} (shape : HasShape v) (inTree : InTree v at_)
    (mounted : mountAt heap driver v dev at_ = some v') : HasShape v' := by
  obtain ⟨nodes, shaped⟩ := shape
  have member := inTree.mem shaped.toTree
  obtain ⟨ident, _, mounted⟩ := Option.bind_eq_some_iff.mp mounted
  obtain rfl := Option.some.inj mounted
  simp only [Function.update_idem, Function.update_self]
  refine ⟨nodes, ?_⟩
  apply shaped.replace (heap.fresh _) rfl
  · intro other inside
    apply (List.mem_erase_of_ne ?_).mpr (shaped.tnodeAllocated other inside)
    exact (shaped.apart at_ member other inside).symm
  · intro other inside apart
    apply (List.mem_erase_of_ne ?_).mpr (shaped.inodeAllocated other inside)
    exact fun same => apart (shaped.distinct other inside at_ member same)

theorem HasShape.mount {device path fsname : CString} {ok : Bool} (shape : HasShape v)
    (mounted : vfsMount heap driver v device path fsname = some (ok, v')) : HasShape v' := by
  rw [vfsMount] at mounted
  split at mounted
  · next found =>
    split at mounted
    · obtain ⟨_, rfl⟩ := Prod.mk.inj (Option.some.inj mounted)
      exact shape
    · split at mounted
      · obtain ⟨_, rfl⟩ := Prod.mk.inj (Option.some.inj mounted)
        exact shape
      · obtain ⟨u, replaced, same⟩ := Option.map_eq_some_iff.mp mounted
        obtain ⟨_, rfl⟩ := Prod.mk.inj same
        exact shape.mountAt (findNode_inTree found) replaced
  · obtain ⟨_, rfl⟩ := Prod.mk.inj (Option.some.inj mounted)
    exact shape

theorem HasShape.turn {call : TreeCall} (shape : HasShape v)
    (stepped : v.turn heap driver call = some v') : HasShape v' := by
  cases call with
  | pathToNode path mode type =>
    obtain rfl := Option.some.inj stepped
    exact shape.pathToNode path mode type
  | vfs step =>
    cases step with
    | device devname => exact shape.device stepped
    | open_ path mode =>
      obtain ⟨⟨ok, _⟩, opened, rfl⟩ := Option.map_eq_some_iff.mp stepped
      exact shape.open_ opened
    | close handle =>
      obtain rfl := Option.some.inj stepped
      exact shape.close handle
    | create path type =>
      obtain rfl := Option.some.inj stepped
      exact shape.pathToNode path _ type
    | mount device path fsname =>
      obtain ⟨⟨ok, _⟩, mounted, rfl⟩ := Option.map_eq_some_iff.mp stepped
      exact shape.mount mounted
    | refresh handle =>
      obtain ⟨⟨ok, _⟩, refreshed, rfl⟩ := Option.map_eq_some_iff.mp stepped
      exact shape.builds (vfsRefresh_builds refreshed)

/-! ## Every run -/

theorem bareRoot_hasShape (heap : Allocator) (root : Addr) :
    HasShape (bareRoot heap root : Vfs Ident) := by
  have childless : ((bareRoot heap root : Vfs Ident).inodeOf root).child = [] := by
    simp [bareRoot, vfsAllocInode, Vfs.inodeOf]
  refine ⟨{root}, (bareRoot_described heap root).toTree, ?_, ?_, ?_, ?_⟩
  · rintro node rfl
    rw [childless]
    exact .nil
  · rintro node rfl child below
    rw [childless] at below
    cases below
  · rintro node rfl child below
    rw [childless] at below
    cases below
  · rintro node rfl children
    exact absurd childless children

theorem Run.hasShape {root : Addr} {guard : Vfs Ident → TreeCall → Prop}
    (run : Run (Vfs.turn heap driver) guard (vfsInit heap driver root) v) : HasShape v :=
  run.invariant HasShape ((bareRoot_hasShape heap root).builds (vfsInit_builds root))
    fun _ _ _ shape _ stepped => shape.turn stepped

/-- Whatever is created, mounted and refreshed, the children of a folder have different names and
    the inode of the folder for their parent, and every node is found at its own path. -/
theorem tree_sound {root : Addr}
    (run : Run (Vfs.turn heap driver) (Vfs.Fits driver) (vfsInit heap driver root) v) :
    TreeSound heap driver v := by
  obtain ⟨nodes, shaped⟩ := Run.hasShape run
  exact shaped.sound

/-- "/disk/a" is created, and a disk is mounted at `/dev`. -/
theorem tree_sound_mounted :
    ∃ v : Vfs Unit, (v.inodeOf v.root).child.length = 2 ∧ TreeSound bumpAllocator emptyDisk v := by
  have executed : ([.pathToNode (diskPath ++ [0x2F, 0x61]) create .file,
      .vfs (.device (diskPath ++ [0x2F, 0x62])), .vfs (.open_ devPath .read),
      .vfs (.mount (diskPath ++ [0x2F, 0x62]) devPath fat32Name)].foldlM
        (Vfs.turn bumpAllocator emptyDisk) (vfsInit bumpAllocator emptyDisk 0)).map
          (fun v => (v.inodeOf v.root).child.length) = some 2 := by decide +kernel
  obtain ⟨v, finished, children⟩ := Option.map_eq_some_iff.mp executed
  refine ⟨v, children, tree_sound (Run.of_allowed (fun call member state => ?_) finished)⟩
  simp only [List.mem_cons, List.not_mem_nil, or_false] at member
  rcases member with rfl | rfl | rfl | rfl
  · exact show FitsPath (diskPath ++ [0x2F, 0x61]) by decide
  · exact show FitsPath (diskPath ++ [0x2F, 0x62]) by decide
  · exact show FitsPath devPath by decide
  · exact show FitsPath (diskPath ++ [0x2F, 0x62]) ∧ FitsPath devPath by decide

end HanOS.Fs
