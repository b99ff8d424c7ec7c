import HanOS.Fs.PathWalk
import HanOS.Fs.RefCounts

/-!
# Nodes that a path adds

`vfs_path_to_node` for a path whose last component is looked for in a folder that exists: it finds the
child of that name or, with `CREATE`, adds one.
-/

namespace HanOS.Fs

open HanOS.Foundations HanOS.Lib

variable {Ident : Type} {v v' : Vfs Ident} {nodes : Set Addr} {node child : Addr} {front : List CString}
  {name token : CString} {heap : Allocator} {driver : Driver Ident} {type : NodeType} {scan : Scan}

/-! ## The loop over a path whose folder exists -/

/-- A child was added to a folder; the other nodes are as they were. -/
structure Adds (v v' : Vfs Ident) (nodes : Set Addr) (node child : Addr) (name : CString) : Prop where
  openfiles : v'.openfiles = v.openfiles
  root : v'.root = v.root
  new : child ∉ nodes
  tnode : ∀ other ∈ nodes, v'.tnodes other = v.tnodes other
  inode : ∀ other ∈ nodes, other ≠ node → v'.inodeOf other = v.inodeOf other
  folder : v'.inodeOf node = { v.inodeOf node with child := (v.inodeOf node).child ++ [child] }
  name : (v'.tnodes child).name = name.take vfsMaxNameLen
  size : (v'.inodeOf child).size = 0
  fs : (v'.inodeOf child).fs = (v.inodeOf node).fs

theorem linkNode_adds {inode tnode : Addr} (tree : Tree v nodes) (member : scan.curr ∈ nodes)
    (linked : linkNode heap v scan type = (inode, tnode, v')) :
    Adds v v' nodes scan.curr tnode scan.tmpbuff ∧ (v'.tnodes tnode).inode = inode ∧
      (v'.inodes inode).ident = none ∧ ∀ other ∈ nodes, (v.tnodes other).inode ≠ inode := by
  have inodeFresh := heap.fresh v.allocated
  have tnodeFresh := heap.fresh (heap.pick v.allocated :: v.allocated)
  simp only [linkNode, vfsAllocInode, vfsAllocTnode, Prod.mk.injEq] at linked
  obtain ⟨inodeIs, tnodeIs, rfl⟩ := linked
  rw [inodeIs] at inodeFresh tnodeIs tnodeFresh
  rw [tnodeIs] at tnodeFresh
  simp only [inodeIs, tnodeIs]
  simp only [List.mem_cons, not_or] at tnodeFresh
  have old : ∀ node ∈ nodes, node ≠ tnode :=
    fun node inside same => tnodeFresh.2 (same ▸ tree.tnodeAllocated node inside)
  have oldInode : ∀ node ∈ nodes, (v.tnodes node).inode ≠ inode :=
    fun node inside same => inodeFresh (same ▸ tree.inodeAllocated node inside)
  have dirOld := oldInode scan.curr member
  have distinct : ∀ other ∈ nodes, other ≠ scan.curr →
      (v.tnodes other).inode ≠ (v.tnodes scan.curr).inode :=
    fun other inside different same => different (tree.distinct _ inside _ member same)
  simp only [Function.update_of_ne dirOld]
  refine ⟨⟨rfl, rfl, fun inside => old _ inside rfl, ?_, ?_, ?_, ?_, ?_, ?_⟩, ?_, ?_, oldInode⟩
  · intro other inside
    simp [Function.update_of_ne (old other inside)]
  · intro other inside different
    simp [Vfs.inodeOf, Function.update_of_ne (old other inside),
      Function.update_of_ne (distinct other inside different),
      Function.update_of_ne (oldInode other inside)]
  · simp [Vfs.inodeOf, Function.update_of_ne (old _ member)]
  all_goals simp [Vfs.inodeOf, Function.update_of_ne dirOld.symm]

theorem Adds.setIdent {inode : Addr} (adds : Adds v v' nodes node child name) (member : node ∈ nodes)
    (own : (v'.tnodes child).inode = inode) (apart : ∀ other ∈ nodes, (v.tnodes other).inode ≠ inode)
    (ident : Option Ident) :
    Adds v { v' with inodes := Function.update v'.inodes inode { v'.inodes inode with ident } }
      nodes node child name := by
  have kept : ∀ other ∈ nodes,
      { v' with inodes := Function.update v'.inodes inode { v'.inodes inode with ident } }.inodeOf other =
        v'.inodeOf other := by
    intro other inside
    have different := apart other inside
    rw [← adds.tnode other inside] at different
    simp only [Vfs.inodeOf, Function.update_of_ne different]
  constructor
  · exact adds.openfiles
  · exact adds.root
  · exact adds.new
  · exact adds.tnode
  · intro other inside different
    rw [kept other inside]
    exact adds.inode other inside different
  · rw [kept node member]
    exact adds.folder
  · exact adds.name
  · have size := adds.size
    simp only [Vfs.inodeOf, own, Function.update_self] at size ⊢
    exact size
  · have fs := adds.fs
    simp only [Vfs.inodeOf, own, Function.update_self] at fs ⊢
    exact fs

theorem createNode_adds {mknode : FsInfo → Ident} (tree : Tree v nodes) (member : scan.curr ∈ nodes) :
    Adds v (createNode heap mknode v scan type).2 nodes scan.curr
        (createNode heap mknode v scan type).1 scan.tmpbuff ∧
      ((createNode heap mknode v scan type).2.inodeOf (createNode heap mknode v scan type).1).ident =
        (v.inodeOf scan.curr).fs.map mknode := by
  obtain ⟨⟨inode, tnode, v'⟩, linked⟩ : ∃ parts, linkNode heap v scan type = parts := ⟨_, rfl⟩
  obtain ⟨adds, own, blank, apart⟩ := linkNode_adds tree member linked
  have folder : (v'.inodes (v.tnodes scan.curr).inode).fs = (v.inodeOf scan.curr).fs := by
    have same := congrArg Inode.fs adds.folder
    rwa [Vfs.inodeOf, adds.tnode _ member] at same
  rw [createNode_eq linked, folder]
  cases (v.inodeOf scan.curr).fs with
  | none =>
    refine ⟨adds, ?_⟩
    rw [Vfs.inodeOf, own]
    exact blank
  | some fs =>
    refine ⟨adds.setIdent member own apart _, ?_⟩
    simp only [Vfs.inodeOf, own, Function.update_self]
    rfl

/-! ## Children and walks behind it -/

theorem Adds.childNamed (adds : Adds v v' nodes node child name) (tree : Tree v nodes)
    (member : node ∈ nodes) :
    childNamed v' node token =
      (childNamed v node token).or
        (if strncmp (name.take vfsMaxNameLen) token vfsMaxNameLen = 0 then some child else none) := by
  have same : ∀ other ∈ (v.inodeOf node).child, (v'.tnodes other).name = (v.tnodes other).name :=
    fun other below => by rw [adds.tnode other (tree.child node member other below)]
  simp only [HanOS.Fs.childNamed, adds.folder, List.find?_append]
  congr 1
  · exact List.find?_congr fun other below => by rw [same other below]
  · simp [List.find?_singleton, adds.name]

theorem Adds.walk {start final : Addr} {tokens : List CString}
    (adds : Adds v v' nodes node child name) (tree : Tree v nodes) (member : node ∈ nodes)
    (inside : start ∈ nodes) (walked : walk v start tokens = some final) :
    walk v' start tokens = some final := by
  induction tokens generalizing start with
  | nil => exact walked
  | cons token tokens inductionHypothesis =>
    rw [HanOS.Fs.walk] at walked ⊢
    split at walked
    swap
    · cases walked
    next open_ =>
    cases named : HanOS.Fs.childNamed v start token with
    | none => simp [named] at walked
    | some next =>
      have below : next ∈ nodes :=
        tree.child start inside next (List.mem_of_find?_eq_some named)
      rw [named] at walked
      have kept : HanOS.Fs.childNamed v' start token = some next ∧
          (v'.inodeOf start).traversable = (v.inodeOf start).traversable := by
        by_cases here : start = node
        · subst here
          rw [adds.childNamed tree member, named, adds.folder]
          exact ⟨rfl, rfl⟩
        · have same := adds.inode start inside here
          refine ⟨?_, by rw [same]⟩
          rw [← named]
          simp only [HanOS.Fs.childNamed, same]
          exact List.find?_congr fun other member' => by
            rw [adds.tnode other (tree.child start inside other member')]
      rw [if_pos (by rw [kept.2, open_]), kept.1]
      exact inductionHypothesis below walked

theorem Tree.walk_mem {start final : Addr} {tokens : List CString} (tree : Tree v nodes)
    (inside : start ∈ nodes) (walked : HanOS.Fs.walk v start tokens = some final) : final ∈ nodes := by
  induction tokens generalizing start with
  | nil => exact Option.some.inj walked ▸ inside
  | cons token tokens inductionHypothesis =>
    rw [HanOS.Fs.walk] at walked
    split at walked
    swap
    · cases walked
    cases named : HanOS.Fs.childNamed v start token with
    | none => simp [named] at walked
    | some next =>
      rw [named] at walked
      exact inductionHypothesis
        (tree.child start inside next (List.mem_of_find?_eq_some named)) walked

/-! ## Changes of an inode that keep its children -/

section SetInode

variable {addr : Addr} {inode : Inode Ident}

theorem childNamed_setInode (children : inode.child = (v.inodes addr).child) :
    HanOS.Fs.childNamed { v with inodes := Function.update v.inodes addr inode } node token =
      HanOS.Fs.childNamed v node token := by
  simp only [HanOS.Fs.childNamed, Vfs.inodeOf]
  by_cases here : (v.tnodes node).inode = addr
  · rw [here, Function.update_self, children]
  · rw [Function.update_of_ne here]

theorem walk_setInode {start : Addr} {tokens : List CString}
    (children : inode.child = (v.inodes addr).child) (type : inode.type = (v.inodes addr).type) :
    HanOS.Fs.walk { v with inodes := Function.update v.inodes addr inode } start tokens =
      HanOS.Fs.walk v start tokens := by
  induction tokens generalizing start with
  | nil => rfl
  | cons token tokens inductionHypothesis =>
    have kind : (Vfs.inodeOf { v with inodes := Function.update v.inodes addr inode } start).type =
        (v.inodeOf start).type := by
      simp only [Vfs.inodeOf]
      by_cases here : (v.tnodes start).inode = addr
      · rw [here, Function.update_self, type]
      · rw [Function.update_of_ne here]
    have traversable : (Vfs.inodeOf { v with inodes := Function.update v.inodes addr inode }
        start).traversable = (v.inodeOf start).traversable := by
      simp only [Inode.traversable, kind]
    rw [HanOS.Fs.walk, HanOS.Fs.walk, traversable, childNamed_setInode children]
    split
    · cases HanOS.Fs.childNamed v start token with
      | none => rfl
      | some next => exact inductionHypothesis
    · rfl

end SetInode

end HanOS.Fs
