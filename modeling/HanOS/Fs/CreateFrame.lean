import HanOS.Fs.TreeShape

/-!
# What `vfs_create` adds

The node goes to the folder that the loop of `vfs_path_to_node` is at when it comes to the last
component.  The loop passes over components that name no child, so that is the folder of the path
only if no component was missing, and the name is cut at the 256 bytes of the field
(`create_sound_iff`).
-/

namespace HanOS.Fs

open HanOS.Foundations HanOS.Lib

variable {Ident : Type} {v v' : Vfs Ident} {nodes : Set Addr} {node child start dir : Addr}
  {heap : Allocator} {driver : Driver Ident} {type : NodeType} {path name : CString}
  {front tokens : List CString}

/-! ## The property -/

def pathComponents (path : CString) : List CString := (tokensOf path.tail).filter (· ≠ [])

/-- The loop's way along components in front of the last: it follows one that names a child and
    passes over one that does not. -/
inductive Reaches (v : Vfs Ident) : Addr → List CString → Addr → Prop
  | stop {node : Addr} : Reaches v node [] node
  | follow {node child final : Addr} {token : CString} {tokens : List CString}
      (traversable : (v.inodeOf node).traversable) (named : childNamed v node token = some child)
      (reaches : Reaches v child tokens final) : Reaches v node (token :: tokens) final
  | pass {node final : Addr} {token : CString} {tokens : List CString}
      (traversable : (v.inodeOf node).traversable) (missing : childNamed v node token = none)
      (reaches : Reaches v node tokens final) : Reaches v node (token :: tokens) final

def PassesThrough (v : Vfs Ident) (path : CString) (node : Addr) : Prop :=
  path.head? = some slash ∧
    ∃ front rest, tokensOf path.tail = front ++ rest ∧ Reaches v v.root front node

/-- `child` is the one new node, the last in `parent`. -/
structure Created (heap : Allocator) (driver : Driver Ident) (v v' : Vfs Ident) (parent child : Addr)
    (name : CString) (type : NodeType) : Prop where
  new : ¬ InTree v child
  nodes : ∀ node, InTree v' node ↔ InTree v node ∨ node = child
  tnode : ∀ node, InTree v node → v'.tnodes node = v.tnodes node
  inode : ∀ node, InTree v node → node ≠ parent → v'.inodeOf node = v.inodeOf node
  folder : v'.inodeOf parent =
    { v.inodeOf parent with child := (v.inodeOf parent).child ++ [child] }
  name : (v'.tnodes child).name = name
  type : (v'.inodeOf child).type = type
  resolves : ∀ other, ¬ PassesThrough v' other child →
    findNode heap driver v' other = findNode heap driver v other

/-- What the result of `vfs_create` says is what was done. -/
def CreateSound (heap : Allocator) (driver : Driver Ident) (v : Vfs Ident) (path : CString)
    (type : NodeType) : Prop :=
  match vfsCreate heap driver v path type with
  | (true, v') =>
    ∃ front name parent child, pathComponents path = front ++ [name] ∧
      walk v v.root front = some parent ∧ Created heap driver v v' parent child name type
  | (false, v') => v' = v

/-- Where the loop comes to the last component in a folder that has no such child, that is the
    folder of the path, and the component fits the name of a node. -/
def Placed (v : Vfs Ident) (path : CString) : Prop :=
  ∀ front name dir, tokensOf path.tail = front ++ [name] → path.tail.getLast? ≠ some slash →
    Reaches v v.root front dir → (v.inodeOf dir).traversable → childNamed v dir name = none →
    walk v v.root (front.filter (· ≠ [])) = some dir ∧ name.length ≤ vfsMaxNameLen

/-! ## The loop up to the last component -/

/-- The loop ends without the last component where it comes to a folder that lacks it. -/
theorem scanComponents_lacks_iff {found : Bool} :
    scanComponents v start found (front ++ [name]) = (dir, false) ∧ (v.inodeOf dir).traversable ↔
      Reaches v start front dir ∧ (v.inodeOf dir).traversable ∧ childNamed v dir name = none := by
  induction front generalizing start found with
  | nil =>
    -- the last component
    rw [List.nil_append, scanComponents]
    constructor
    · rintro ⟨scanned, traversable⟩
      split at scanned
      · cases named : childNamed v start name with
        | some child => simp [named, scanComponents] at scanned
        | none =>
          obtain rfl : start = dir := by simpa [named, scanComponents] using scanned
          exact ⟨.stop, traversable, named⟩
      · next shut =>
        obtain rfl : start = dir := by simpa using scanned
        exact absurd traversable shut
    · rintro ⟨reaches, traversable, missing⟩
      cases reaches
      simp [traversable, missing, scanComponents]
  | cons token front inductionHypothesis =>
    -- one in front of it, which is followed or passed over
    rw [List.cons_append, scanComponents]
    constructor
    · rintro ⟨scanned, traversable⟩
      split at scanned
      · next open_ =>
        cases named : childNamed v start token with
        | some child =>
          rw [named] at scanned
          obtain ⟨reaches, rest⟩ := inductionHypothesis.mp ⟨scanned, traversable⟩
          exact ⟨.follow open_ named reaches, rest⟩
        | none =>
          rw [named] at scanned
          obtain ⟨reaches, rest⟩ := inductionHypothesis.mp ⟨scanned, traversable⟩
          exact ⟨.pass open_ named reaches, rest⟩
      · next shut =>
        obtain rfl : start = dir := by simpa using scanned
        exact absurd traversable shut
    · rintro ⟨reaches, rest⟩
      cases reaches with
      | follow open_ named reaches =>
        rw [if_pos open_, named]
        exact inductionHypothesis.mpr ⟨reaches, rest⟩
      | pass open_ missing reaches =>
        rw [if_pos open_, missing]
        exact inductionHypothesis.mpr ⟨reaches, rest⟩

theorem Reaches.lacks (reaches : Reaches v start front dir) (traversable : (v.inodeOf dir).traversable)
    (missing : childNamed v dir name = none) :
    scanComponents v start true (front ++ [name]) = (dir, false) :=
  (scanComponents_lacks_iff.mpr ⟨reaches, traversable, missing⟩).1

theorem findNode_eq (path : CString) :
    findNode heap driver v (slash :: path) =
      if (scanComponents v v.root true (tokensOf path)).2 then
        some (scanComponents v v.root true (tokensOf path)).1 else none := by
  have create_off : noCreate &&& create = 0 := by decide
  have exist_off : noCreate &&& errOnExist = 0 := by decide
  rw [findNode, pathToNode, vfsPathToNode_eq]
  simp only [create_off, exist_off, ne_eq, not_true, false_and, and_false, if_false]
  split <;> rfl

/-- The call adds a node where the loop lacks the last component, and else leaves the tree. -/
theorem vfsCreate_cases (v : Vfs Ident) (path : CString) (type : NodeType) :
    vfsCreate heap driver v (slash :: path) type = (false, v) ∧
        (∀ front name dir, tokensOf path = front ++ [name] → path.getLast? ≠ some slash →
          Reaches v v.root front dir → (v.inodeOf dir).traversable → childNamed v dir name ≠ none) ∨
      ∃ scan front, tokensOf path = front ++ [scan.tmpbuff] ∧ path.getLast? ≠ some slash ∧
        Reaches v v.root front scan.curr ∧ (v.inodeOf scan.curr).traversable ∧
        childNamed v scan.curr scan.tmpbuff = none ∧
        vfsCreate heap driver v (slash :: path) type =
          (true, (createNode heap driver.mknode v scan type).2) := by
  have create_on : (create ||| errOnExist) &&& create ≠ 0 := by decide
  have exist_on : (create ||| errOnExist) &&& errOnExist ≠ 0 := by decide
  rw [vfsCreate, pathToNode, vfsPathToNode_eq]
  simp only [create_on, exist_on, ne_eq, not_false_iff, if_true, true_and]
  obtain ⟨⟨dir, found⟩, scanned⟩ : ∃ reached, scanComponents v v.root true (tokensOf path) = reached :=
    ⟨_, rfl⟩
  simp only [scanned]
  by_cases lacks : found = false ∧ (v.inodeOf dir).traversable ∧ path.getLast? ≠ some slash
  · obtain ⟨rfl, traversable, open_⟩ := lacks
    right
    -- the loop lacks the last component in a folder: there the node is added
    have some_ : tokensOf path ≠ [] := by
      intro none_
      rw [none_] at scanned
      cases scanned
    have split_ := (List.dropLast_append_getLast some_).symm
    rw [split_] at scanned
    obtain ⟨reaches, _, missing⟩ := scanComponents_lacks_iff.mp ⟨scanned, traversable⟩
    refine ⟨{ curr := dir, foundnode := false, currIndex := path.length + 1
              tmpbuff := (tokensOf path).getLast some_ }, _, split_, open_, reaches, traversable,
      missing, ?_⟩
    simp [traversable, open_, List.getLastD_eq_getLast?, List.getLast?_eq_some_getLast some_]
  · left
    constructor
    · cases found with
      | true => simp
      | false =>
        have stays : ¬ ((v.inodeOf dir).traversable ∧ ¬ path.getLast? = some slash) :=
          fun both => lacks ⟨rfl, both⟩
        simp [stays]
    · intro front name other split_ open_ reaches traversable missing
      have scanned' := reaches.lacks traversable missing
      rw [← split_, scanned] at scanned'
      obtain ⟨rfl, rfl⟩ := Prod.mk.inj scanned'
      exact lacks ⟨rfl, traversable, open_⟩

/-! ## What the new node changes -/

theorem Adds.inTree_iff {other : Addr} (adds : Adds v v' nodes node child name) (tree : Tree v nodes)
    (inTree : InTree v node) (childless : (v'.inodeOf child).child = []) :
    InTree v' other ↔ InTree v other ∨ other = child := by
  -- every way to an old node is still there
  have kept : ∀ {below}, InTree v below → InTree v' below := by
    intro below inside
    induction inside with
    | root =>
      rw [← adds.root]
      exact .root
    | @child above below inside member inductionHypothesis =>
      refine .child inductionHypothesis ?_
      by_cases here : above = node
      · subst here
        rw [adds.folder]
        exact List.mem_append_left _ member
      · rwa [adds.inode above (inside.mem tree) here]
  constructor
  · intro inside
    induction inside with
    | root =>
      rw [adds.root]
      exact .inl .root
    | @child above below _ member inductionHypothesis =>
      rcases inductionHypothesis with old | rfl
      · by_cases here : above = node
        · subst here
          rw [adds.folder] at member
          rcases List.mem_append.mp member with before | last
          · exact .inl (.child old before)
          · exact .inr (List.mem_singleton.mp last)
        · rw [adds.inode above (old.mem tree) here] at member
          exact .inl (.child old member)
      · -- from the new node no way leads on
        rw [childless] at member
        cases member
  · rintro (old | rfl)
    · exact kept old
    · refine .child (kept inTree) ?_
      rw [adds.folder]
      exact List.mem_append_right _ (List.mem_singleton_self _)

theorem Adds.childNamed_old {token : CString} (adds : Adds v v' nodes node child name)
    (tree : Tree v nodes) (member : node ∈ nodes) (inside : start ∈ nodes)
    (apart : HanOS.Fs.childNamed v' start token ≠ some child) :
    HanOS.Fs.childNamed v' start token = HanOS.Fs.childNamed v start token := by
  by_cases here : start = node
  · subst here
    rw [adds.childNamed tree member] at apart ⊢
    cases named : HanOS.Fs.childNamed v start token with
    | some below => rfl
    | none =>
      rw [named, Option.none_or] at apart
      rw [Option.none_or]
      split
      · next same => exact absurd (if_pos same) apart
      · rfl
  · have same := adds.inode start inside here
    simp only [HanOS.Fs.childNamed, same]
    exact List.find?_congr fun other below => by
      rw [adds.tnode other (tree.child start inside other below)]

/-- The loop goes the way it went, as long as it does not come to the new node. -/
theorem Adds.scanComponents_eq {found : Bool} (adds : Adds v v' nodes node child name)
    (tree : Tree v nodes) (member : node ∈ nodes) (inside : start ∈ nodes)
    (apart : ∀ front rest, tokens = front ++ rest → ¬ Reaches v' start front child) :
    scanComponents v' start found tokens = scanComponents v start found tokens := by
  induction tokens generalizing start found with
  | nil => rfl
  | cons token tokens inductionHypothesis =>
    have kind : (v'.inodeOf start).traversable = (v.inodeOf start).traversable := by
      by_cases here : start = node
      · subst here
        rw [adds.folder]
        rfl
      · rw [adds.inode start inside here]
    rw [scanComponents, scanComponents, kind]
    split
    swap
    · rfl
    next open_ =>
    have open' := kind.trans open_
    have other : HanOS.Fs.childNamed v' start token ≠ some child := by
      intro new
      exact apart [token] tokens rfl (.follow open' new .stop)
    have same := adds.childNamed_old tree member inside other
    rw [same]
    cases named : HanOS.Fs.childNamed v start token with
    | some below =>
      rw [named] at same
      apply inductionHypothesis (tree.child start inside below (List.mem_of_find?_eq_some named))
      intro front rest split_ reaches
      exact apart (token :: front) rest (by rw [split_]; rfl) (.follow open' same reaches)
    | none =>
      rw [named] at same
      apply inductionHypothesis inside
      intro front rest split_ reaches
      exact apart (token :: front) rest (by rw [split_]; rfl) (.pass open' same reaches)

theorem Adds.findNode_eq {other : CString} (adds : Adds v v' nodes node child name)
    (tree : Tree v nodes) (member : node ∈ nodes) (apart : ¬ PassesThrough v' other child) :
    findNode heap driver v' other = findNode heap driver v other := by
  by_cases absolute : other.head? = some slash
  swap
  · simp [findNode, pathToNode, vfsPathToNode, absolute]
  obtain ⟨rest, rfl⟩ : ∃ rest, other = slash :: rest := by
    cases other with
    | nil => cases absolute
    | cons c rest => exact ⟨rest, by rw [Option.some.inj absolute]⟩
  rw [HanOS.Fs.findNode_eq, HanOS.Fs.findNode_eq, adds.root]
  rw [adds.scanComponents_eq tree member tree.root]
  intro front behind split_ reaches
  rw [← adds.root] at reaches
  exact apart ⟨rfl, front, behind, split_, reaches⟩

theorem Adds.created (adds : Adds v v' nodes node child name) (tree : Tree v nodes)
    (inTree : InTree v node) (childless : (v'.inodeOf child).child = [])
    (kind : (v'.inodeOf child).type = type) (fits : name.length ≤ vfsMaxNameLen) :
    Created heap driver v v' node child name type := by
  refine ⟨fun inside => adds.new (inside.mem tree), fun other => adds.inTree_iff tree inTree childless,
    fun other inside => adds.tnode other (inside.mem tree),
    fun other inside => adds.inode other (inside.mem tree), adds.folder, ?_, kind,
    fun other => adds.findNode_eq tree (inTree.mem tree)⟩
  rw [adds.name, List.take_of_length_le fits]

/-! ## When the call is sound -/

theorem Reaches.inTree (reaches : Reaches v start front dir) (inTree : InTree v start) :
    InTree v dir := by
  induction reaches with
  | stop => exact inTree
  | follow _ named _ inductionHypothesis =>
    exact inductionHypothesis (.child inTree (List.mem_of_find?_eq_some named))
  | pass _ _ _ inductionHypothesis => exact inductionHypothesis inTree

/-- The components in front of a last one that is not empty. -/
theorem pathComponents_snoc (split_ : tokensOf path = front ++ [name]) (nonempty : name ≠ []) :
    pathComponents (slash :: path) = front.filter (· ≠ []) ++ [name] := by
  simp [pathComponents, split_, nonempty]

theorem last_ne_nil (split_ : tokensOf path = front ++ [name]) (open_ : path.getLast? ≠ some slash) :
    name ≠ [] := by
  have some_ : path ≠ [] := by
    rintro rfl
    simp [tokensOf] at split_
  simpa [split_] using getLastD_tokensOf_ne_nil some_ open_

/-- A folder has the new node for a child only where it was added. -/
theorem Created.at_folder {parent new : Addr} {stored : CString}
    (created : Created heap driver v v' parent new name type)
    (adds : Adds v v' nodes dir child stored) (member : parent ∈ nodes) :
    parent = dir ∧ new = child := by
  have folder := congrArg Inode.child created.folder
  by_cases here : parent = dir
  · subst here
    rw [adds.folder] at folder
    simpa [eq_comm] using folder
  · rw [adds.inode parent member here] at folder
    simp at folder

/-- In every tree that can be reached, `vfs_create` does what it says if and only if the loop comes
    to the last component in the folder of the path, and the component fits. -/
theorem create_sound_iff {root : Addr}
    (run : Run (Vfs.turn heap driver) (Vfs.Fits driver) (vfsInit heap driver root) v)
    (path : VfsPath) (type : NodeType) :
    CreateSound heap driver v path.chars type ↔ Placed v path.chars := by
  obtain ⟨path, _⟩ := path
  rw [VfsPath.chars]
  obtain ⟨nodes, shaped⟩ := Run.hasShape run
  have tree := shaped.toTree
  rcases @vfsCreate_cases _ heap driver v path type with
    ⟨stays, lacksNot⟩ | ⟨scan, front, split_, open_, reaches, traversable, missing, made⟩
  · rw [CreateSound, stays]
    refine iff_of_true rfl ?_
    intro front name dir split_ open_ reaches traversable missing
    exact absurd missing (lacksNot front name dir split_ open_ reaches traversable)
  have inTree := reaches.inTree .root
  have member := inTree.mem tree
  obtain ⟨adds, _⟩ := @createNode_adds _ v nodes heap type scan driver.mknode tree member
  obtain ⟨_, _, childless, kind⟩ := @createNode_new _ v nodes heap type scan driver.mknode tree member
  rw [CreateSound, made]
  generalize (createNode heap driver.mknode v scan type).2 = v' at adds childless kind ⊢
  generalize (createNode heap driver.mknode v scan type).1 = child at adds childless kind ⊢
  have nonempty := last_ne_nil split_ open_
  have components := pathComponents_snoc split_ nonempty
  constructor
  · rintro ⟨front', name, parent, new, components', walked, created⟩
    obtain ⟨rfl, rfl⟩ := created.at_folder adds (tree.walk_mem tree.root walked)
    rw [components] at components'
    obtain ⟨rfl, last⟩ := List.append_inj' components' rfl
    obtain rfl := (List.cons.inj last).1
    have cut : scan.tmpbuff.take vfsMaxNameLen = scan.tmpbuff := adds.name.symm.trans created.name
    intro front' name' dir split' _ reaches' traversable' missing'
    -- there is one last component, and the loop comes to it at one folder
    obtain ⟨rfl, last⟩ := List.append_inj' (split_.symm.trans split') rfl
    obtain rfl := (List.cons.inj last).1
    have here := reaches.lacks traversable missing
    have there := reaches'.lacks traversable' missing'
    obtain rfl := (Prod.mk.inj (here.symm.trans there)).1
    have fits := congrArg List.length cut
    rw [List.length_take] at fits
    exact ⟨walked, by omega⟩
  · intro placed
    obtain ⟨walked, fits⟩ := placed front scan.tmpbuff scan.curr split_ open_ reaches traversable missing
    exact ⟨_, _, _, child, components, walked, adds.created tree inTree childless kind fits⟩

/-- "/disk/x" on a tree where "/disk" has a child "a" -/
theorem create_sound_iff_disk :
    ∃ v : Vfs Unit, (findNode bumpAllocator emptyDisk v (diskPath ++ [0x2F, 0x61])).isSome ∧
      (CreateSound bumpAllocator emptyDisk v (slash :: (diskPath.tail ++ [0x2F, 0x78])) .file ↔
        Placed v (slash :: (diskPath.tail ++ [0x2F, 0x78]))) := by
  have fits : Vfs.Fits emptyDisk (vfsInit bumpAllocator emptyDisk 0)
      (.vfs (.create (diskPath ++ [0x2F, 0x61]) .file)) :=
    show FitsPath (diskPath ++ [0x2F, 0x61]) by decide
  have executed : ((vfsInit bumpAllocator emptyDisk 0).turn bumpAllocator emptyDisk
      (.vfs (.create (diskPath ++ [0x2F, 0x61]) .file))).map
        (fun v => (findNode bumpAllocator emptyDisk v (diskPath ++ [0x2F, 0x61])).isSome) =
      some true := by decide +kernel
  obtain ⟨v, created, found⟩ := Option.map_eq_some_iff.mp executed
  exact ⟨v, found, create_sound_iff (.tail .refl fits created)
    ⟨diskPath.tail ++ [0x2F, 0x78], by decide⟩ .file⟩

/-- The path "/nil/x", where the root has no child "nil". -/
def nilX : CString := [0x2F, 0x6E, 0x69, 0x6C, 0x2F, 0x78]

/-- "x" is created in the root, and the call reports success. -/
theorem create_behind_missing_component :
    ∃ v : Vfs Unit, Run (Vfs.turn bumpAllocator emptyDisk) (Vfs.Fits emptyDisk)
        (vfsInit bumpAllocator emptyDisk 0) v ∧
      ¬ CreateSound bumpAllocator emptyDisk v nilX .file := by
  refine ⟨_, .refl, fun sound => ?_⟩
  have created : (vfsCreate bumpAllocator emptyDisk (vfsInit bumpAllocator emptyDisk 0) nilX
      .file).1 = true := by decide +kernel
  have missing : walk (vfsInit bumpAllocator emptyDisk 0 : Vfs Unit)
      (vfsInit bumpAllocator emptyDisk 0).root [[0x6E, 0x69, 0x6C]] = none := by decide +kernel
  have components : pathComponents nilX = [[0x6E, 0x69, 0x6C]] ++ [[0x78]] := by decide
  rw [CreateSound] at sound
  obtain ⟨⟨ok, v'⟩, result⟩ : ∃ result, vfsCreate bumpAllocator emptyDisk
      (vfsInit bumpAllocator emptyDisk 0) nilX .file = result := ⟨_, rfl⟩
  rw [result] at sound created
  obtain rfl : ok = true := created
  obtain ⟨front, name, parent, _, split_, walked, _⟩ := sound
  obtain ⟨rfl, _⟩ := List.append_inj' (components.symm.trans split_) rfl
  rw [missing] at walked
  cases walked

end HanOS.Fs
