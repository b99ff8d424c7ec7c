import HanOS.Foundations.Run
import HanOS.Fs.VfsCalls

/-!
# Descriptors and reference counts

`vfs_open` and `vfs_close` count the descriptors of an inode in its `refcount`.  The other calls
build and change the tree under descriptors that are open.  Most of them only add nodes
(`Grows`); `vfs_mount` frees the inode of the folder it mounts at and does not look at
`refcount` before (`mount_frees_open_inode`).  Where it finds no descriptor on the folder, every
descriptor keeps an inode that is allocated and counted (`descriptors_sound`).
-/

namespace HanOS.Fs

open HanOS.Foundations HanOS.Lib

variable {Ident : Type}

/-! ## The property -/

/-- The nodes that are reached from the root. -/
inductive InTree (v : Vfs Ident) : Addr → Prop
  | root : InTree v v.root
  | child {node child : Addr} : InTree v node → child ∈ (v.inodeOf node).child → InTree v child

def descriptors (v : Vfs Ident) (inode : Addr) : Nat :=
  v.openfiles.countP fun slot => slot.any fun fd => fd.inode = inode

structure DescriptorsSound (v : Vfs Ident) : Prop where
  allocated : ∀ fd, some fd ∈ v.openfiles → fd.inode ∈ v.allocated
  inode : ∀ fd, some fd ∈ v.openfiles → (v.tnodes fd.tnode).inode = fd.inode
  openRefs : ∀ fd, some fd ∈ v.openfiles → (v.inodes fd.inode).refcount = descriptors v fd.inode
  treeRefs : ∀ node, InTree v node →
    (v.inodeOf node).refcount = descriptors v (v.tnodes node).inode

/-! ## The calls -/

inductive VfsStep
  /-- The node that `ata_device_detect` makes for a disk. -/
  | device (devname : CString)
  | open_ (path : CString) (mode : OpenMode)
  | close (handle : Int)
  | create (path : CString) (type : NodeType)
  | mount (device path fsname : CString)
  | refresh (handle : Int)

section Step

variable (heap : Allocator) (driver : Driver Ident)

/-- A block device at `devname`, as `ata_device_detect` sets it up at boot: the node gets a new
    inode. -/
def addDevice (v : Vfs Ident) (devname : CString) : Option (Vfs Ident) := do
  let (tnode, v) := pathToNode heap driver v devname create .blockDevice
  let tnode ← tnode
  let (inode, v) := vfsAllocInode heap v .blockDevice 0o777 0 none (some tnode)
  some { v with tnodes := Function.update v.tnodes tnode { v.tnodes tnode with inode := inode } }

def Vfs.step (v : Vfs Ident) : VfsStep → Option (Vfs Ident)
  | .device devname => addDevice heap driver v devname
  | .open_ path mode => (vfsOpen heap driver v path mode).map Prod.snd
  | .close handle => some (vfsClose v handle).2
  | .create path type => some (vfsCreate heap driver v path type).2
  | .mount device path fsname => (vfsMount heap driver v device path fsname).map Prod.snd
  | .refresh handle => (vfsRefresh heap driver v handle).map Prod.snd

/-- `vfs_mount` comes as far as the `kmfree` of the inode of `at_`. -/
structure Replaces (v : Vfs Ident) (device path fsname : CString) (at_ : Addr) : Prop where
  known : vfsGetFs fsname = some .fat32
  device : ∃ dev, findNode heap driver v device = some dev ∧
    (v.inodeOf dev).type = .blockDevice
  found : findNode heap driver v path = some at_
  empty : (v.inodeOf at_).emptyFolder

/-- No mount replaces an inode that is open, and the slots do not run out.  The disks are found
    at boot, before anything is opened. -/
def Calm (v : Vfs Ident) : VfsStep → Prop
  | .device _ => v.openfiles = []
  | .open_ _ _ => v.openfiles.length + 1 < 2 ^ 32
  | .mount device path fsname =>
    ∀ at_, Replaces heap driver v device path fsname at_ →
      ∀ fd, some fd ∈ v.openfiles → fd.tnode ≠ at_
  | _ => True

end Step

/-! ## The tree -/

/-- `nodes` is closed under children, and its nodes and their inodes are blocks of their own. -/
structure Tree (v : Vfs Ident) (nodes : Set Addr) : Prop where
  root : v.root ∈ nodes
  child : ∀ node ∈ nodes, ∀ child ∈ (v.inodeOf node).child, child ∈ nodes
  tnodeAllocated : ∀ node ∈ nodes, node ∈ v.allocated
  inodeAllocated : ∀ node ∈ nodes, (v.tnodes node).inode ∈ v.allocated
  apart : ∀ node ∈ nodes, ∀ other ∈ nodes, (v.tnodes node).inode ≠ other
  distinct : ∀ node ∈ nodes, ∀ other ∈ nodes,
    (v.tnodes node).inode = (v.tnodes other).inode → node = other

/-- What a call that only adds nodes leaves as it is. -/
structure Extends (v v' : Vfs Ident) (nodes nodes' : Set Addr) : Prop where
  subset : nodes ⊆ nodes'
  inode : ∀ node ∈ nodes, (v'.tnodes node).inode = (v.tnodes node).inode
  refcount : ∀ node ∈ nodes, (v'.inodeOf node).refcount = (v.inodeOf node).refcount
  added : ∀ node ∈ nodes', node ∉ nodes → (v'.inodeOf node).refcount = 0
  openfiles : v'.openfiles = v.openfiles

def Grows (v v' : Vfs Ident) : Prop :=
  ∀ nodes, Tree v nodes → ∃ nodes', Tree v' nodes' ∧ Extends v v' nodes nodes'

variable {v v' v'' : Vfs Ident} {nodes : Set Addr} {node : Addr} {path : CString}

theorem InTree.mem (tree : Tree v nodes) (inTree : InTree v node) : node ∈ nodes := by
  induction inTree with
  | root => exact tree.root
  | child _ member inductionHypothesis => exact tree.child _ inductionHypothesis _ member

theorem Grows.refl (v : Vfs Ident) : Grows v v :=
  fun nodes tree => ⟨nodes, tree, subset_rfl, fun _ _ => rfl, fun _ _ => rfl,
    fun _ member absent => absurd member absent, rfl⟩

theorem Extends.trans {middle last : Set Addr} (first : Extends v v' nodes middle)
    (second : Extends v' v'' middle last) : Extends v v'' nodes last := by
  refine ⟨first.subset.trans second.subset, ?_, ?_, ?_, ?_⟩
  · intro node member
    rw [second.inode node (first.subset member), first.inode node member]
  · intro node member
    rw [second.refcount node (first.subset member), first.refcount node member]
  · intro node member absent
    by_cases between : node ∈ middle
    · rw [second.refcount node between]
      exact first.added node between absent
    · exact second.added node member between
  · rw [second.openfiles, first.openfiles]

theorem Grows.trans (first : Grows v v') (second : Grows v' v'') : Grows v v'' := by
  intro nodes tree
  obtain ⟨middle, tree', extends'⟩ := first nodes tree
  obtain ⟨last, tree'', extends''⟩ := second middle tree'
  exact ⟨last, tree'', extends'.trans extends''⟩

theorem Tree.update {addr : Addr} {inode : Inode Ident} (tree : Tree v nodes)
    (child : inode.child = (v.inodes addr).child) :
    Tree { v with inodes := Function.update v.inodes addr inode } nodes := by
  refine ⟨tree.root, ?_, tree.tnodeAllocated, tree.inodeAllocated, tree.apart, tree.distinct⟩
  intro node member below
  simp only [Vfs.inodeOf]
  by_cases here : (v.tnodes node).inode = addr
  · rw [here, Function.update_self, child, ← here]
    exact tree.child node member below
  · rw [Function.update_of_ne here]
    exact tree.child node member below

theorem Grows.update (v : Vfs Ident) (addr : Addr) (inode : Inode Ident)
    (child : inode.child = (v.inodes addr).child)
    (refcount : inode.refcount = (v.inodes addr).refcount) :
    Grows v { v with inodes := Function.update v.inodes addr inode } := by
  intro nodes tree
  refine ⟨nodes, tree.update child, subset_rfl, fun _ _ => rfl, ?_,
    fun _ member absent => absurd member absent, rfl⟩
  intro node _
  simp only [Vfs.inodeOf]
  by_cases here : (v.tnodes node).inode = addr
  · rw [here, Function.update_self, refcount]
  · rw [Function.update_of_ne here]

theorem InTree.update {addr : Addr} {inode : Inode Ident}
    (child : inode.child = (v.inodes addr).child) (inTree : InTree v node) :
    InTree { v with inodes := Function.update v.inodes addr inode } node := by
  induction inTree with
  | root => exact .root
  | @child above below _ member inductionHypothesis =>
    refine .child inductionHypothesis ?_
    simp only [Vfs.inodeOf]
    by_cases here : (v.tnodes above).inode = addr
    · rw [here, Function.update_self, child, ← here]
      exact member
    · rw [Function.update_of_ne here]
      exact member

/-! ## The calls only add nodes -/

variable {heap : Allocator} {driver : Driver Ident} {mode : Nat} {type : NodeType}

theorem tokenLoop_inTree (fuel : Nat) {scan : Scan} (inTree : InTree v scan.curr) :
    InTree v (tokenLoop v path fuel scan).curr := by
  induction fuel generalizing scan with
  | zero => exact inTree
  | succ fuel inductionHypothesis =>
    simp only [tokenLoop]
    split
    · split
      · exact inTree
      · split
        next found =>
          apply inductionHypothesis
          exact .child inTree (List.mem_of_find?_eq_some found)
        next =>
          apply inductionHypothesis
          exact inTree
    · exact inTree

/-- What a resolution comes to: no node, a node of the tree, or one that it adds. -/
theorem pathToNode_cases (heap : Allocator) (driver : Driver Ident) (v : Vfs Ident) (path : CString)
    (mode : Nat) (type : NodeType) :
    pathToNode heap driver v path mode type = (none, v) ∨
    (∃ node, InTree v node ∧ pathToNode heap driver v path mode type = (some node, v)) ∨
    (mode &&& create ≠ 0 ∧ ∃ scan, InTree v scan.curr ∧
      pathToNode heap driver v path mode type =
        (some (createNode heap driver.mknode v scan type).1,
          (createNode heap driver.mknode v scan type).2)) := by
  simp only [pathToNode, vfsPathToNode]
  have inTree := @tokenLoop_inTree _ v path.tail path.tail.length
    { curr := v.root, foundnode := true, currIndex := 0, tmpbuff := [] } .root
  generalize tokenLoop v path.tail path.tail.length _ = scan at inTree
  by_cases absolute : path.head? = some slash
  swap
  · exact .inl (by simp [absolute])
  cases found : scan.foundnode with
  | true =>
    by_cases exist : mode &&& errOnExist = 0
    · exact .inr (.inl ⟨scan.curr, inTree, by simp [absolute, exist]⟩)
    · exact .inl (by simp [absolute, exist])
  | false =>
    by_cases created : (v.inodeOf scan.curr).traversable = true ∧ mode &&& create ≠ 0 ∧
        scan.currIndex > path.tail.length
    · obtain ⟨traversable, mode_, last⟩ := created
      refine .inr (.inr ⟨mode_, scan, inTree, ?_⟩)
      simp only [absolute, traversable, last]
      simpa using mode_
    · left
      by_cases traversable : (v.inodeOf scan.curr).traversable = true
      · have skipped : ¬ (mode &&& create ≠ 0 ∧ scan.currIndex > path.tail.length) :=
          fun both => created ⟨traversable, both⟩
        simp only [absolute, traversable, skipped]
        simp
      · simp [absolute, traversable]

theorem findNode_inTree (found : findNode heap driver v path = some node) : InTree v node := by
  rw [findNode] at found
  rcases pathToNode_cases heap driver v path noCreate .file with
    missing | ⟨node', inTree, reached⟩ | ⟨created, _⟩
  · rw [missing] at found
    cases found
  · rw [reached] at found
    exact Option.some.inj found ▸ inTree
  · exact absurd rfl created

/-- `createNode` up to `mknode`: the new inode, the new node and the state. -/
def linkNode (heap : Allocator) (v : Vfs Ident) (scan : Scan) (type : NodeType) :
    Addr × Addr × Vfs Ident :=
  let dir := (v.tnodes scan.curr).inode
  let (inode, v) := vfsAllocInode heap v type 0o777 0 (v.inodes dir).fs (v.inodes dir).mountpoint
  let (tnode, v) := vfsAllocTnode heap v scan.tmpbuff inode (some dir)
  let pushed := { v.inodes dir with child := (v.inodes dir).child ++ [tnode] }
  (inode, tnode, { v with inodes := Function.update v.inodes dir pushed })

/-- The new node is behind the others and has an inode of its own. -/
theorem linkNode_grows {scan : Scan} {inode tnode : Addr} (tree : Tree v nodes)
    (member : scan.curr ∈ nodes) (linked : linkNode heap v scan type = (inode, tnode, v')) :
    Tree v' (insert tnode nodes) ∧ Extends v v' nodes (insert tnode nodes) := by
  -- the two addresses are new, and different
  have inodeFresh := heap.fresh v.allocated
  have tnodeFresh := heap.fresh (heap.pick v.allocated :: v.allocated)
  simp only [linkNode, vfsAllocInode, vfsAllocTnode, Prod.mk.injEq] at linked
  obtain ⟨inodeIs, tnodeIs, rfl⟩ := linked
  rw [inodeIs] at inodeFresh tnodeIs tnodeFresh
  rw [tnodeIs] at tnodeFresh
  simp only [inodeIs, tnodeIs]
  simp only [List.mem_cons, not_or] at tnodeFresh
  obtain ⟨tnodeApart, tnodeFresh⟩ := tnodeFresh
  have old : ∀ node ∈ nodes, node ≠ tnode :=
    fun node inside same => tnodeFresh (same ▸ tree.tnodeAllocated node inside)
  have oldInode : ∀ node ∈ nodes, (v.tnodes node).inode ≠ inode :=
    fun node inside same => inodeFresh (same ▸ tree.inodeAllocated node inside)
  have oldApart : ∀ node ∈ nodes, (v.tnodes node).inode ≠ tnode :=
    fun node inside same => tnodeFresh (same ▸ tree.inodeAllocated node inside)
  have dirOld := oldInode scan.curr member
  refine ⟨⟨.inr tree.root, ?_, ?_, ?_, ?_, ?_⟩, Set.subset_insert .., ?_, ?_, ?_, rfl⟩
  · rintro node (rfl | inside) below inTree
    · -- the new node has no children
      simp [Vfs.inodeOf, dirOld.symm] at inTree
    · simp only [Vfs.inodeOf, Function.update_of_ne (old node inside)] at inTree
      -- only the folder has a new child
      by_cases here : (v.tnodes node).inode = (v.tnodes scan.curr).inode
      · simp only [here, Function.update_self, Function.update_of_ne dirOld, List.mem_append,
          List.mem_singleton] at inTree
        rcases inTree with before | rfl
        · exact .inr (tree.child scan.curr member below before)
        · exact .inl rfl
      · simp only [Function.update_of_ne here, Function.update_of_ne (oldInode node inside)] at inTree
        exact .inr (tree.child node inside below inTree)
  · rintro node (rfl | inside)
    · exact List.mem_cons_self ..
    · exact List.mem_cons_of_mem _ (List.mem_cons_of_mem _ (tree.tnodeAllocated node inside))
  · rintro node (rfl | inside)
    · simp
    · simp only [Function.update_of_ne (old node inside)]
      exact List.mem_cons_of_mem _ (List.mem_cons_of_mem _ (tree.inodeAllocated node inside))
  · rintro node (rfl | inside) other (rfl | otherInside)
    · simpa using Ne.symm tnodeApart
    · simp only [Function.update_self]
      rintro rfl
      exact inodeFresh (tree.tnodeAllocated _ otherInside)
    · simp only [Function.update_of_ne (old node inside)]
      exact oldApart node inside
    · simp only [Function.update_of_ne (old node inside)]
      exact tree.apart node inside other otherInside
  · rintro node (rfl | inside) other (rfl | otherInside) same
    · rfl
    · simp only [Function.update_self, Function.update_of_ne (old other otherInside)] at same
      exact absurd same.symm (oldInode other otherInside)
    · simp only [Function.update_self, Function.update_of_ne (old node inside)] at same
      exact absurd same (oldInode node inside)
    · simp only [Function.update_of_ne (old node inside),
        Function.update_of_ne (old other otherInside)] at same
      exact tree.distinct node inside other otherInside same
  · intro node inside
    simp only [Function.update_of_ne (old node inside)]
  · intro node inside
    simp only [Vfs.inodeOf, Function.update_of_ne (old node inside)]
    by_cases here : (v.tnodes node).inode = (v.tnodes scan.curr).inode
    · simp only [here, Function.update_self, Function.update_of_ne dirOld]
    · simp only [Function.update_of_ne here, Function.update_of_ne (oldInode node inside)]
  · rintro node (rfl | inside) absent
    · simp [Vfs.inodeOf, dirOld.symm]
    · exact absurd inside absent

theorem createNode_eq {mknode : FsInfo → Ident} {scan : Scan} {inode tnode : Addr}
    (linked : linkNode heap v scan type = (inode, tnode, v')) :
    createNode heap mknode v scan type =
      match (v'.inodes (v.tnodes scan.curr).inode).fs with
      | none => (tnode, v')
      | some fs =>
        (tnode,
          { v' with
            inodes := Function.update v'.inodes inode
              { v'.inodes inode with ident := some (mknode fs) } }) := by
  simp only [linkNode, Prod.mk.injEq] at linked
  obtain ⟨rfl, rfl, rfl⟩ := linked
  rfl

theorem createNode_grows {mknode : FsInfo → Ident} {scan : Scan} (tree : Tree v nodes)
    (member : scan.curr ∈ nodes) :
    ∃ nodes', Tree (createNode heap mknode v scan type).2 nodes' ∧
      Extends v (createNode heap mknode v scan type).2 nodes nodes' ∧
      (createNode heap mknode v scan type).1 ∈ nodes' := by
  obtain ⟨⟨inode, tnode, v'⟩, linked⟩ : ∃ parts, linkNode heap v scan type = parts := ⟨_, rfl⟩
  obtain ⟨tree', grown⟩ := linkNode_grows tree member linked
  rw [createNode_eq linked]
  split
  · exact ⟨_, tree', grown, Set.mem_insert ..⟩
  · next fs _ =>
    -- `mknode` sets `ident` only
    obtain ⟨nodes', tree'', grown'⟩ :=
      Grows.update v' inode { v'.inodes inode with ident := some (mknode fs) } rfl rfl _ tree'
    exact ⟨nodes', tree'', grown.trans grown', grown'.subset (Set.mem_insert ..)⟩

theorem pathToNode_grows (tree : Tree v nodes) :
    ∃ nodes', Tree (pathToNode heap driver v path mode type).2 nodes' ∧
      Extends v (pathToNode heap driver v path mode type).2 nodes nodes' ∧
      ∀ node, (pathToNode heap driver v path mode type).1 = some node → node ∈ nodes' := by
  obtain ⟨_, sameTree, same⟩ := Grows.refl v nodes tree
  rcases pathToNode_cases heap driver v path mode type with
    missing | ⟨node, inTree, reached⟩ | ⟨_, scan, inTree, created⟩
  · rw [missing]
    exact ⟨_, sameTree, same, fun _ found => nomatch found⟩
  · rw [reached]
    exact ⟨_, sameTree, same, fun _ found => Option.some.inj found ▸ inTree.mem sameTree⟩
  · rw [created]
    obtain ⟨nodes', tree', grown, new⟩ := createNode_grows tree (inTree.mem tree)
    exact ⟨nodes', tree', grown, fun _ found => Option.some.inj found ▸ new⟩

theorem Grows.pathToNode : Grows v (pathToNode heap driver v path mode type).2 := by
  intro nodes tree
  obtain ⟨nodes', tree', grown, _⟩ := @pathToNode_grows _ v nodes path heap driver mode type tree
  exact ⟨nodes', tree', grown⟩

/-- What the driver and the calls do to build the tree: they look for nodes with `CREATE`, and fill
    in inodes. -/
inductive Builds (heap : Allocator) (driver : Driver Ident) (v : Vfs Ident) : Vfs Ident → Prop
  | refl : Builds heap driver v v
  | node {v' : Vfs Ident} (path : CString) (mode : Nat) (type : NodeType)
      (builds : Builds heap driver v v') :
      Builds heap driver v (pathToNode heap driver v' path mode type).2
  | fill {v' : Vfs Ident} {addr : Addr} {inode : Inode Ident}
      (child : inode.child = (v'.inodes addr).child) (type : inode.type = (v'.inodes addr).type)
      (refcount : inode.refcount = (v'.inodes addr).refcount) (builds : Builds heap driver v v') :
      Builds heap driver v { v' with inodes := Function.update v'.inodes addr inode }

theorem Builds.trans (first : Builds heap driver v v') (second : Builds heap driver v' v'') :
    Builds heap driver v v'' := by
  induction second with
  | refl => exact first
  | node path mode type _ inductionHypothesis => exact .node path mode type inductionHypothesis
  | fill child type refcount _ inductionHypothesis => exact .fill child type refcount inductionHypothesis

theorem Builds.grows (builds : Builds heap driver v v') : Grows v v' := by
  induction builds with
  | refl => exact Grows.refl v
  | node path mode type _ inductionHypothesis => exact inductionHypothesis.trans Grows.pathToNode
  | fill child type refcount _ inductionHypothesis =>
    exact inductionHypothesis.trans (Grows.update _ _ _ child refcount)

theorem fat32MakeNode_builds {rootnode : Option Addr} {fe : Fat32Entry}
    (made : fat32MakeNode heap driver v rootnode path fe = some (node, v')) :
    Builds heap driver v v' ∧ InTree v' node := by
  obtain ⟨_, found, made⟩ := Option.bind_eq_some_iff.mp made
  obtain ⟨_, _, made⟩ := Option.bind_eq_some_iff.mp made
  obtain ⟨_, _, made⟩ := Option.bind_eq_some_iff.mp made
  obtain ⟨rfl, rfl⟩ := Prod.mk.inj (Option.some.inj made)
  refine ⟨.fill rfl rfl rfl (.node _ _ _ .refl), ?_⟩
  have inTree := findNode_inTree found
  generalize HanOS.Fs.pathToNode heap driver v path create _ = grown at inTree
  exact inTree.update rfl

theorem fat32OpenTmp_builds {this : Addr} {fuel : Nat} {result : Option Addr × Vfs Ident × CString}
    (opened : fat32OpenTmp heap driver this fuel v path = some result) :
    Builds heap driver v result.2.1 := by
  induction fuel generalizing v path result with
  | zero => cases opened
  | succ fuel inductionHypothesis =>
    rw [fat32OpenTmp] at opened
    obtain ⟨fe, _, opened⟩ := Option.bind_eq_some_iff.mp opened
    split at opened
    · obtain ⟨⟨u, rest⟩, descended, opened⟩ := Option.bind_eq_some_iff.mp opened
      obtain ⟨⟨tnode, w⟩, made, opened⟩ := Option.bind_eq_some_iff.mp opened
      obtain rfl := Option.some.inj opened
      refine Builds.trans ?_ (fat32MakeNode_builds made).1
      -- the loop over the slashes, where every call builds on the state of the one before
      refine foldlM_invariant (fun state : Vfs Ident × CString => Builds heap driver v state.1) .refl
        (fun before i after built turn => ?_) descended
      dsimp only at turn
      split at turn
      · obtain ⟨⟨_, u', front⟩, inner, turn⟩ := Option.bind_eq_some_iff.mp turn
        obtain rfl := Option.some.inj turn
        exact built.trans (inductionHypothesis inner)
      · exact Option.some.inj turn ▸ built
    · exact Option.some.inj opened ▸ .refl

theorem fat32Open_builds {this : Addr} {result : Option Addr × Vfs Ident}
    (opened : fat32Open heap driver v this path = some result) :
    Builds heap driver v result.2 ∧ ∀ node, result.1 = some node → InTree result.2 node := by
  rw [fat32Open] at opened
  obtain ⟨fe, _, opened⟩ := Option.bind_eq_some_iff.mp opened
  split at opened
  · obtain ⟨u, descended, opened⟩ := Option.bind_eq_some_iff.mp opened
    obtain ⟨⟨tnode, w⟩, made, opened⟩ := Option.bind_eq_some_iff.mp opened
    obtain rfl := Option.some.inj opened
    obtain ⟨built, inTree⟩ := fat32MakeNode_builds made
    refine ⟨Builds.trans ?_ built, fun _ same => Option.some.inj same ▸ inTree⟩
    refine foldlM_invariant (fun u : Vfs Ident => Builds heap driver v u) .refl
      (fun before i after built turn => ?_) descended
    split at turn
    · obtain ⟨inner, opened, rfl⟩ := Option.map_eq_some_iff.mp turn
      exact built.trans (fat32OpenTmp_builds opened)
    · exact Option.some.inj turn ▸ built
  · obtain rfl := Option.some.inj opened
    exact ⟨.refl, nofun⟩

theorem openNode_builds {result : Option Addr × Vfs Ident}
    (opened : openNode heap driver v path = some result) :
    Builds heap driver v result.2 ∧ ∀ node, result.1 = some node → InTree result.2 node := by
  rw [openNode] at opened
  split at opened
  · next found =>
    obtain rfl := Option.some.inj opened
    exact ⟨.refl, fun _ same => Option.some.inj same ▸ findNode_inTree found⟩
  · obtain ⟨pn, _, opened⟩ := Option.bind_eq_some_iff.mp opened
    obtain ⟨pn, _, opened⟩ := Option.bind_eq_some_iff.mp opened
    split at opened
    · obtain rfl := Option.some.inj opened
      exact ⟨.refl, nofun⟩
    · exact fat32Open_builds opened

theorem refreshNode_builds {dir : CString} {de : Dirent}
    (refreshed : refreshNode heap driver dir v de = some v') : Builds heap driver v v' := by
  obtain ⟨tn, _, refreshed⟩ := Option.bind_eq_some_iff.mp refreshed
  obtain rfl := Option.some.inj refreshed
  exact .fill rfl rfl rfl (.node _ _ _ .refl)

theorem vfsRefresh_builds {handle : Int} {ok : Bool}
    (refreshed : vfsRefresh heap driver v handle = some (ok, v')) : Builds heap driver v v' := by
  rw [vfsRefresh] at refreshed
  split at refreshed
  · obtain ⟨_, rfl⟩ := Prod.mk.inj (Option.some.inj refreshed)
    exact .refl
  · next fd _ =>
    obtain ⟨_, _, refreshed⟩ := Option.bind_eq_some_iff.mp refreshed
    obtain ⟨dirents, _, refreshed⟩ := Option.bind_eq_some_iff.mp refreshed
    obtain ⟨u, turned, refreshed⟩ := Option.bind_eq_some_iff.mp refreshed
    obtain ⟨_, rfl⟩ := Prod.mk.inj (Option.some.inj refreshed)
    refine foldlM_invariant (fun u : Vfs Ident => Builds heap driver v u) .refl ?_ turned
    exact fun before de after built turn => built.trans (refreshNode_builds turn)

/-! ## Descriptors in the tree -/

/-- Every descriptor is on a node of the tree, and every node knows how many are on it. -/
structure Described (v : Vfs Ident) (nodes : Set Addr) : Prop extends Tree v nodes where
  tnode : ∀ fd, some fd ∈ v.openfiles → fd.tnode ∈ nodes
  inode : ∀ fd, some fd ∈ v.openfiles → (v.tnodes fd.tnode).inode = fd.inode
  refs : ∀ node ∈ nodes, (v.inodeOf node).refcount = descriptors v (v.tnodes node).inode
  few : v.openfiles.length < 2 ^ 32

theorem Described.sound (described : Described v nodes) : DescriptorsSound v := by
  have inode := described.inode
  refine ⟨?_, inode, ?_, ?_⟩
  · intro fd opened
    rw [← inode fd opened]
    exact described.inodeAllocated _ (described.tnode fd opened)
  · intro fd opened
    have counted := described.refs _ (described.tnode fd opened)
    rwa [Vfs.inodeOf, inode fd opened] at counted
  · intro node inTree
    exact described.refs node (inTree.mem described.toTree)

theorem descriptors_eq_zero {inode : Addr} (none_ : ∀ fd, some fd ∈ v.openfiles → fd.inode ≠ inode) :
    descriptors v inode = 0 := by
  rw [descriptors, List.countP_eq_zero]
  intro slot member
  cases slot with
  | none => simp
  | some fd => simpa using none_ fd member

theorem Described.grow {nodes' : Set Addr} (described : Described v nodes) (tree : Tree v' nodes')
    (grown : Extends v v' nodes nodes') : Described v' nodes' := by
  have same : ∀ inode, descriptors v' inode = descriptors v inode := fun inode => by
    rw [descriptors, grown.openfiles, descriptors]
  refine ⟨tree, ?_, ?_, ?_, grown.openfiles ▸ described.few⟩
  · intro fd opened
    rw [grown.openfiles] at opened
    exact grown.subset (described.tnode fd opened)
  · intro fd opened
    rw [grown.openfiles] at opened
    rw [grown.inode _ (described.tnode fd opened)]
    exact described.inode fd opened
  · intro node member
    by_cases old : node ∈ nodes
    · rw [same, grown.refcount node old, grown.inode node old]
      exact described.refs node old
    · rw [grown.added node member old, descriptors_eq_zero]
      intro fd opened onNew
      rw [grown.openfiles] at opened
      have inside := described.tnode fd opened
      rw [← described.inode fd opened, ← grown.inode _ inside] at onNew
      exact old (tree.distinct _ (grown.subset inside) _ member onNew ▸ inside)

theorem Described.of_grows (described : Described v nodes) (grows : Grows v v') :
    ∃ nodes', Described v' nodes' := by
  obtain ⟨nodes', tree, grown⟩ := grows nodes described.toTree
  exact ⟨nodes', described.grow tree grown⟩

/-! ## Descriptors come and go -/

theorem Tree.recount {inode : Addr} {refcount : Nat} {openfiles : List (Option NodeDesc)}
    (tree : Tree v nodes) :
    Tree
      { v with
        inodes := Function.update v.inodes inode { v.inodes inode with refcount }
        openfiles } nodes := by
  obtain ⟨⟩ := @Tree.update _ v nodes inode { v.inodes inode with refcount } tree rfl
  constructor <;> assumption

/-- The slots change for the descriptors of one inode, and its `refcount` with them. -/
theorem Described.recount {inode : Addr} {refcount : Nat} {openfiles : List (Option NodeDesc)}
    (described : Described v nodes)
    (there : ∀ fd, some fd ∈ openfiles → fd.tnode ∈ nodes ∧ (v.tnodes fd.tnode).inode = fd.inode)
    (counted : refcount = descriptors { v with openfiles } inode)
    (others : ∀ other, other ≠ inode →
      descriptors { v with openfiles } other = descriptors v other)
    (few : openfiles.length < 2 ^ 32) :
    Described
      { v with
        inodes := Function.update v.inodes inode { v.inodes inode with refcount }
        openfiles } nodes := by
  refine ⟨described.toTree.recount, fun fd opened => (there fd opened).1,
    fun fd opened => (there fd opened).2, ?_, few⟩
  intro node member
  simp only [Vfs.inodeOf]
  by_cases here : (v.tnodes node).inode = inode
  · rw [here, Function.update_self]
    exact counted
  · rw [Function.update_of_ne here]
    exact (described.refs node member).trans (others _ here).symm

theorem Described.push {mode : OpenMode} (described : Described v nodes) (member : node ∈ nodes)
    (few : v.openfiles.length + 1 < 2 ^ 32) : Described (pushDesc v node path mode) nodes := by
  have refs := described.refs node member
  have bound : descriptors v (v.tnodes node).inode ≤ v.openfiles.length := List.countP_le_length
  refine described.recount ?_ ?_ ?_ ?_
  · intro fd opened
    rcases List.mem_append.mp opened with old | new
    · exact ⟨described.tnode fd old, described.inode fd old⟩
    · obtain rfl := Option.some.inj (List.mem_singleton.mp new)
      exact ⟨member, rfl⟩
  · rw [← Vfs.inodeOf, refs, u32_of_lt (by omega)]
    simp [descriptors]
  · intro other apart
    simp [descriptors, Ne.symm apart]
  · simpa using few

theorem Described.close {handle : Int} (described : Described v nodes) :
    Described (vfsClose v handle).2 nodes := by
  rw [vfsClose]
  cases designated : vfsHandleToFd v handle with
  | none => exact described
  | some fd =>
    rw [vfsHandleToFd] at designated
    split at designated
    · cases designated
    · have slot : v.openfiles[handle.toNat]? = some (some fd) := Option.join_eq_some_iff.mp designated
      obtain ⟨inside, slot⟩ := List.getElem?_eq_some_iff.mp slot
      have opened : some fd ∈ v.openfiles := slot ▸ List.getElem_mem inside
      have refs := described.refs _ (described.tnode fd opened)
      rw [Vfs.inodeOf, described.inode fd opened] at refs
      have positive : 0 < descriptors v fd.inode := by
        apply List.countP_pos_iff.mpr
        exact ⟨some fd, opened, by simp⟩
      refine described.recount ?_ ?_ ?_ ?_
      · intro other member
        rcases List.mem_or_eq_of_mem_set member with old | absent
        · exact ⟨described.tnode other old, described.inode other old⟩
        · cases absent
      · rw [refs, sub32_of_le positive]
        simp [descriptors, List.countP_set inside, slot]
      · intro other apart
        simp [descriptors, List.countP_set inside, slot, Ne.symm apart]
      · rw [List.length_set]
        exact described.few

theorem Described.open_ {mode : OpenMode} {ok : Bool} (described : Described v nodes)
    (few : v.openfiles.length + 1 < 2 ^ 32)
    (opened : vfsOpen heap driver v path mode = some (ok, v')) :
    ∃ nodes', Described v' nodes' := by
  obtain ⟨⟨req, u⟩, reached, opened⟩ := Option.bind_eq_some_iff.mp opened
  obtain ⟨built, inTree⟩ := openNode_builds reached
  obtain ⟨nodes', tree, grown⟩ := built.grows nodes described.toTree
  have described' := described.grow tree grown
  cases req with
  | none =>
    obtain ⟨_, rfl⟩ := Prod.mk.inj (Option.some.inj opened)
    exact ⟨nodes', described'⟩
  | some req =>
    obtain ⟨_, rfl⟩ := Prod.mk.inj (Option.some.inj opened)
    have member := (inTree req rfl).mem tree
    exact ⟨nodes', described'.push member (grown.openfiles ▸ few)⟩

theorem Described.refresh {handle : Int} {ok : Bool} (described : Described v nodes)
    (refreshed : vfsRefresh heap driver v handle = some (ok, v')) :
    ∃ nodes', Described v' nodes' :=
  described.of_grows (vfsRefresh_builds refreshed).grows

/-! ## A new inode for a node -/

theorem Tree.replace {ret : Addr} {inode : Inode Ident} {allocated : List Addr}
    (tree : Tree v nodes) (fresh : ret ∉ allocated) (childless : inode.child = [])
    (tnodes : ∀ other ∈ nodes, other ∈ allocated)
    (inodes : ∀ other ∈ nodes, other ≠ node → (v.tnodes other).inode ∈ allocated) :
    Tree
      { v with
        allocated := ret :: allocated
        inodes := Function.update v.inodes ret inode
        tnodes := Function.update v.tnodes node { v.tnodes node with inode := ret } } nodes := by
  -- the new inode belongs to this node only
  have other_inode : ∀ other ∈ nodes, other ≠ node → (v.tnodes other).inode ≠ ret :=
    fun other inside apart same => fresh (same ▸ inodes other inside apart)
  refine ⟨tree.root, ?_, ?_, ?_, ?_, ?_⟩
  · intro other inside child below
    by_cases here : other = node
    · simp [Vfs.inodeOf, here, childless] at below
    · simp only [Vfs.inodeOf, Function.update_of_ne here,
        Function.update_of_ne (other_inode other inside here)] at below
      exact tree.child other inside child below
  · exact fun other inside => List.mem_cons_of_mem _ (tnodes other inside)
  · intro other inside
    by_cases here : other = node
    · simp [here]
    · simp only [Function.update_of_ne here]
      exact List.mem_cons_of_mem _ (inodes other inside here)
  · intro other inside another anotherInside
    by_cases here : other = node
    · simp only [here, Function.update_self]
      rintro rfl
      exact fresh (tnodes _ anotherInside)
    · simp only [Function.update_of_ne here]
      exact tree.apart other inside another anotherInside
  · intro other inside another anotherInside same
    by_cases here : other = node <;> by_cases there : another = node
    · rw [here, there]
    · simp only [here, Function.update_self, Function.update_of_ne there] at same
      exact absurd same.symm (other_inode another anotherInside there)
    · simp only [there, Function.update_self, Function.update_of_ne here] at same
      exact absurd same (other_inode other inside here)
    · simp only [Function.update_of_ne here, Function.update_of_ne there] at same
      exact tree.distinct other inside another anotherInside same

/-- Where no descriptor is on a node, it may get another inode. -/
theorem Described.replace {ret : Addr} {inode : Inode Ident} {allocated : List Addr}
    (described : Described v nodes)
    (closed : ∀ fd, some fd ∈ v.openfiles → fd.tnode ≠ node)
    (fresh : ret ∉ allocated) (childless : inode.child = []) (uncounted : inode.refcount = 0)
    (tnodes : ∀ other ∈ nodes, other ∈ allocated)
    (inodes : ∀ other ∈ nodes, other ≠ node → (v.tnodes other).inode ∈ allocated) :
    Described
      { v with
        allocated := ret :: allocated
        inodes := Function.update v.inodes ret inode
        tnodes := Function.update v.tnodes node { v.tnodes node with inode := ret } } nodes := by
  have other_inode : ∀ other ∈ nodes, other ≠ node → (v.tnodes other).inode ≠ ret :=
    fun other inside apart same => fresh (same ▸ inodes other inside apart)
  refine ⟨described.toTree.replace fresh childless tnodes inodes, described.tnode, ?_, ?_,
    described.few⟩
  · intro fd opened
    simp only [Function.update_of_ne (closed fd opened)]
    exact described.inode fd opened
  · intro other inside
    by_cases here : other = node
    · -- no descriptor has the address of the new inode
      simp only [Vfs.inodeOf, here, Function.update_self, uncounted]
      refine (descriptors_eq_zero fun fd opened same => ?_).symm
      have apart := other_inode fd.tnode (described.tnode fd opened) (closed fd opened)
      rw [described.inode fd opened] at apart
      exact apart same
    · simp only [Vfs.inodeOf, Function.update_of_ne here,
        Function.update_of_ne (other_inode other inside here)]
      exact described.refs other inside

theorem Described.mountAt {dev at_ : Addr} (described : Described v nodes) (member : at_ ∈ nodes)
    (closed : ∀ fd, some fd ∈ v.openfiles → fd.tnode ≠ at_)
    (mounted : mountAt heap driver v dev at_ = some v') : Described v' nodes := by
  obtain ⟨ident, _, mounted⟩ := Option.bind_eq_some_iff.mp mounted
  obtain rfl := Option.some.inj mounted
  simp only [Function.update_idem, Function.update_self]
  apply described.replace closed (heap.fresh _) rfl rfl
  · intro other inside
    apply (List.mem_erase_of_ne ?_).mpr (described.tnodeAllocated other inside)
    exact (described.apart at_ member other inside).symm
  · intro other inside apart
    apply (List.mem_erase_of_ne ?_).mpr (described.inodeAllocated other inside)
    exact fun same => apart (described.distinct other inside at_ member same)

theorem Described.mount {device fsname : CString} {ok : Bool} (described : Described v nodes)
    (calm : Calm heap driver v (.mount device path fsname))
    (mounted : vfsMount heap driver v device path fsname = some (ok, v')) :
    Described v' nodes := by
  rw [vfsMount] at mounted
  split at mounted
  · next dev at_ known foundDev found =>
    split at mounted
    · obtain ⟨_, rfl⟩ := Prod.mk.inj (Option.some.inj mounted)
      exact described
    · next block =>
      split at mounted
      · obtain ⟨_, rfl⟩ := Prod.mk.inj (Option.some.inj mounted)
        exact described
      · next empty =>
        obtain ⟨u, replaced, same⟩ := Option.map_eq_some_iff.mp mounted
        obtain ⟨_, rfl⟩ := Prod.mk.inj same
        have replaces : Replaces heap driver v device path fsname at_ :=
          ⟨known, ⟨dev, foundDev, not_not.mp block⟩, found, by simpa using empty⟩
        have member := (findNode_inTree found).mem described.toTree
        exact described.mountAt member (calm at_ replaces) replaced
  · obtain ⟨_, rfl⟩ := Prod.mk.inj (Option.some.inj mounted)
    exact described

theorem Described.device {devname : CString} (described : Described v nodes)
    (boot : v.openfiles = []) (added : addDevice heap driver v devname = some v') :
    ∃ nodes', Described v' nodes' := by
  obtain ⟨tnode, found, added⟩ := Option.bind_eq_some_iff.mp added
  obtain rfl := Option.some.inj added
  obtain ⟨nodes', tree, grown, _⟩ := pathToNode_grows described.toTree
  have described' := described.grow tree grown
  refine ⟨nodes', described'.replace ?_ (heap.fresh _) rfl rfl
    tree.tnodeAllocated fun other inside _ => tree.inodeAllocated other inside⟩
  intro fd opened
  rw [grown.openfiles, boot] at opened
  cases opened

theorem Described.step {action : VfsStep} (described : Described v nodes)
    (calm : Calm heap driver v action) (stepped : v.step heap driver action = some v') :
    ∃ nodes', Described v' nodes' := by
  cases action with
  | device devname => exact described.device calm stepped
  | open_ path mode =>
    obtain ⟨⟨ok, _⟩, opened, rfl⟩ := Option.map_eq_some_iff.mp stepped
    exact described.open_ calm opened
  | close handle =>
    obtain rfl := Option.some.inj stepped
    exact ⟨nodes, described.close⟩
  | create path type =>
    obtain rfl := Option.some.inj stepped
    exact described.of_grows Grows.pathToNode
  | mount device path fsname =>
    obtain ⟨⟨ok, _⟩, mounted, rfl⟩ := Option.map_eq_some_iff.mp stepped
    exact ⟨nodes, described.mount calm mounted⟩
  | refresh handle =>
    obtain ⟨⟨ok, _⟩, refreshed, rfl⟩ := Option.map_eq_some_iff.mp stepped
    exact described.refresh refreshed

/-! ## After `vfs_init` -/

/-- `vfs_root` alone, before `/dev` and `/disk` are added. -/
def bareRoot (heap : Allocator) (root : Addr) : Vfs Ident :=
  let v : Vfs Ident :=
    { tnodes := fun _ => ⟨[], 0, none⟩
      inodes := fun _ => ⟨.file, 0, 0, 0, 0, .zero, none, none, none, []⟩
      allocated := [root], root, openfiles := [] }
  let (inode, v) := vfsAllocInode heap v .folder 0o777 0 none none
  { v with tnodes := Function.update v.tnodes root { v.tnodes root with inode := inode } }

theorem vfsInit_builds (root : Addr) :
    Builds heap driver (bareRoot heap root) (vfsInit heap driver root) :=
  .node diskPath create .folder (.node devPath create .folder .refl)

theorem bareRoot_described (heap : Allocator) (root : Addr) :
    Described (bareRoot heap root : Vfs Ident) {root} := by
  have fresh := heap.fresh [root]
  simp only [List.mem_singleton] at fresh
  simp only [bareRoot, vfsAllocInode]
  refine ⟨⟨rfl, ?_, ?_, ?_, ?_, ?_⟩, nofun, nofun, ?_, by simp⟩
  · rintro node rfl child below
    simp [Vfs.inodeOf] at below
  · rintro node rfl
    simp
  · rintro node rfl
    simp
  · rintro node rfl other rfl
    simpa using fresh
  · rintro node rfl other rfl _
    rfl
  · rintro node rfl
    simp [Vfs.inodeOf, descriptors]

theorem vfsInit_described (root : Addr) : ∃ nodes, Described (vfsInit heap driver root) nodes :=
  (bareRoot_described heap root).of_grows (vfsInit_builds root).grows

/-- Where no mount comes under an open descriptor, every descriptor has the inode of its node,
    which is allocated and counts its descriptors. -/
theorem descriptors_sound {root : Addr}
    (run : Run (Vfs.step heap driver) (Calm heap driver) (vfsInit heap driver root) v) :
    DescriptorsSound v := by
  obtain ⟨nodes, described⟩ := run.invariant (fun v => ∃ nodes, Described v nodes)
    (vfsInit_described root) fun _ _ _ ⟨_, described⟩ calm stepped => described.step calm stepped
  exact described.sound

/-! ## A mount under a descriptor -/

def emptyDisk : Driver Unit where
  createIdent := ()
  withEntry _ _ := ()
  parsePath _ _ _ := none
  mountIdent _ _ := some ()
  dirents _ _ := some []

def hdaPath : CString := devPath ++ [0x2F, 0x68, 0x64, 0x61]

/-- A disk is mounted at `/disk` while that is open: the inode of the descriptor is freed. -/
theorem mount_frees_open_inode :
    ∃ v : Vfs Unit,
      Run (Vfs.step bumpAllocator emptyDisk) anyAction (vfsInit bumpAllocator emptyDisk 0) v ∧
        ¬ DescriptorsSound v := by
  have executed : ([.device hdaPath, .open_ diskPath .read,
      .mount hdaPath diskPath fat32Name].foldlM (Vfs.step bumpAllocator emptyDisk)
        (vfsInit bumpAllocator emptyDisk 0)).map
          (fun v => (v.openfiles.map (·.map NodeDesc.inode), v.allocated)) =
      some ([some 4], [9, 8, 7, 6, 5, 3, 2, 1, 0]) := by decide +kernel
  obtain ⟨v, finished, left⟩ := Option.map_eq_some_iff.mp executed
  obtain ⟨inodes, allocated⟩ := Prod.mk.inj left
  refine ⟨v, Run.of_foldlM (fun _ _ => trivial) _ finished, fun sound => ?_⟩
  have slot : some 4 ∈ v.openfiles.map (·.map NodeDesc.inode) := inodes ▸ List.mem_singleton_self _
  obtain ⟨_, member, opened⟩ := List.mem_map.mp slot
  obtain ⟨fd, rfl, inode⟩ := Option.map_eq_some_iff.mp opened
  have there := sound.allocated fd member
  rw [inode, allocated] at there
  exact absurd there (by decide)

theorem descriptors_sound_oneOpen :
    ∃ v : Vfs Unit, descriptors v 4 = 1 ∧ DescriptorsSound v := by
  have executed : ((vfsInit bumpAllocator emptyDisk 0).step bumpAllocator emptyDisk
      (.open_ diskPath .read)).map (descriptors · 4) = some 1 := by decide +kernel
  obtain ⟨v, opened, counted⟩ := Option.map_eq_some_iff.mp executed
  have calm : Calm bumpAllocator emptyDisk (vfsInit bumpAllocator emptyDisk 0)
      (.open_ diskPath .read) := by
    simp only [Calm]
    decide +kernel
  exact ⟨v, counted, descriptors_sound (.tail .refl calm opened)⟩

end HanOS.Fs
