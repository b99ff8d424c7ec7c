import HanOS.Fs.Vfs

/-!
# Nodes and paths (`fs/filebase.c`)

`vfs_path_to_node` and the node allocation it uses.  The buffers for a path and for a
component of it, `tmpbuff` among them, have `VFS_MAX_PATH_LEN` bytes, and nothing checks
that they are enough: the calls are modelled for paths that fit (`FitsPath`).  What a file
system's `mknode` leaves in `ident` is a parameter: `fat32_mknode` leaves a zeroed
`fat32_ident_t`.
-/

namespace HanOS.Fs

open HanOS.Foundations HanOS.Lib

variable {Ident : Type}

def slash : Byte := 0x2F

def vfsMaxPathLen : Nat := 4096

/-- The path fits a buffer made for one, with the NUL behind it. -/
def FitsPath (path : CString) : Prop := path.length < vfsMaxPathLen

instance (path : CString) : Decidable (FitsPath path) := inferInstanceAs (Decidable (_ < _))

/-- An absolute path that fits. -/
structure VfsPath where
  rest : CString
  fits : FitsPath (slash :: rest)

def VfsPath.chars (path : VfsPath) : CString := slash :: path.rest

/-! ## Modes and node types -/

def noCreate : Nat := 0b0001
def create : Nat := 0b0010
def errOnExist : Nat := 0b0100

def Inode.traversable (inode : Inode Ident) : Bool :=
  inode.type = .folder ∨ inode.type = .mountpoint

def Vfs.inodeOf (v : Vfs Ident) (node : Addr) : Inode Ident := v.inodes (v.tnodes node).inode

/-! ## Allocation -/

def vfsAllocInode (heap : Allocator) (v : Vfs Ident) (type : NodeType) (perms uid : Nat)
    (fs : Option FsInfo) (mountpoint : Option Addr) : Addr × Vfs Ident :=
  let inode := heap.pick v.allocated
  (inode,
    { v with
      allocated := inode :: v.allocated
      inodes := Function.update v.inodes inode
        { type, perms, uid, fs, mountpoint, size := 0, refcount := 0, tm := .zero, ident := none,
          child := [] } })

/-- The name is a `memcpy` of `sizeof(tnode->name)` bytes. -/
def vfsAllocTnode (heap : Allocator) (v : Vfs Ident) (name : CString) (inode : Addr)
    (parent : Option Addr) : Addr × Vfs Ident :=
  let tnode := heap.pick v.allocated
  (tnode,
    { v with
      allocated := tnode :: v.allocated
      tnodes := Function.update v.tnodes tnode
        { name := name.take vfsMaxNameLen, inode, parent } })

/-! ## `vfs_path_to_node` -/

/-- The search among the children of a node: the first whose name compares equal. -/
def childNamed (v : Vfs Ident) (node : Addr) (token : CString) : Option Addr :=
  (v.inodeOf node).child.find? fun child =>
    strncmp (v.tnodes child).name token vfsMaxNameLen = 0

structure Scan where
  curr : Addr
  foundnode : Bool
  currIndex : Nat
  tmpbuff : CString

/-- The token loop over the path behind its leading slash.  Each pass takes at least one
    character, so `path.length` passes are enough. -/
def tokenLoop (v : Vfs Ident) (path : CString) : Nat → Scan → Scan
  | 0, scan => scan
  | fuel + 1, scan =>
    if scan.currIndex < path.length then
      let tmpbuff := (path.drop scan.currIndex).takeWhile (· ≠ slash)
      let currIndex := scan.currIndex + (tmpbuff.length + 1)
      if !(v.inodeOf scan.curr).traversable then
        { curr := scan.curr, foundnode := false, currIndex, tmpbuff }
      else
        match childNamed v scan.curr tmpbuff with
        | some child => tokenLoop v path fuel { curr := child, foundnode := true, currIndex, tmpbuff }
        -- the loop goes on with the next token and the same node
        | none =>
          tokenLoop v path fuel { curr := scan.curr, foundnode := false, currIndex, tmpbuff }
    else scan

/-- The node that `CREATE` adds under `scan.curr`, with its `mknode` call. -/
def createNode (heap : Allocator) (mknode : FsInfo → Ident) (v : Vfs Ident) (scan : Scan)
    (createType : NodeType) : Addr × Vfs Ident :=
  let dir := (v.tnodes scan.curr).inode
  let (inode, v) := vfsAllocInode heap v createType 0o777 0 (v.inodes dir).fs
    (v.inodes dir).mountpoint
  let (tnode, v) := vfsAllocTnode heap v scan.tmpbuff inode (some dir)
  let pushed := { v.inodes dir with child := (v.inodes dir).child ++ [tnode] }
  let v := { v with inodes := Function.update v.inodes dir pushed }
  match (v.inodes dir).fs with
  | none => (tnode, v)
  | some fs =>
    (tnode,
      { v with
        inodes := Function.update v.inodes inode
          { v.inodes inode with ident := some (mknode fs) } })

def vfsPathToNode (heap : Allocator) (mknode : FsInfo → Ident) (v : Vfs Ident) (path : CString)
    (mode : Nat) (createType : NodeType) : Option Addr × Vfs Ident :=
  if path.head? ≠ some slash then (none, v)
  else
    let path := path.tail
    let scan := tokenLoop v path path.length
      { curr := v.root, foundnode := true, currIndex := 0, tmpbuff := [] }
    if !scan.foundnode then
      if !(v.inodeOf scan.curr).traversable then (none, v)
      else if mode &&& create ≠ 0 ∧ scan.currIndex > path.length then
        let (node, v) := createNode heap mknode v scan createType
        (some node, v)
      else (none, v)
    else if mode &&& errOnExist ≠ 0 then (none, v)
    else (some scan.curr, v)

end HanOS.Fs
