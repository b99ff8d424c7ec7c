import HanOS.Fs.Fat32
import HanOS.Fs.FileBase

/-!
# Opening, closing and mounting (`fs/vfs.c`)

The sections of `vfs_open`, `vfs_close`, `vfs_create`, `vfs_mount` and `vfs_refresh` under
`vfs_lock`, with the tree-building part of `fat32_open`.  What the driver reads from its disk
comes in through `Driver`.  `none` as a result is a pointer that is NULL or outside its string
when it is dereferenced.
-/

namespace HanOS.Fs

open HanOS.Foundations HanOS.Lib

variable {Ident : Type}

structure Dirent where
  type : NodeType
  tm : Tm
  name : CString

/-- What `fat32` finds on its disk and keeps in `ident`. -/
structure Driver (Ident : Type) where
  createIdent : Ident
  /-- `memcpy(&id->entry, &fe, sizeof(fat32_entry_t))` -/
  withEntry : Ident → Fat32Entry → Ident
  /-- `fat32_parse_path`, by the inode it is called on. -/
  parsePath : Vfs Ident → Addr → CString → Option Fat32Entry
  /-- The `ident` that `fat32_mount` sets up for a device. -/
  mountIdent : Vfs Ident → Addr → Option Ident
  /-- What `fat32_getdent` gives one after the other after `fat32_refresh`. -/
  dirents : Vfs Ident → Addr → Option (List Dirent)

def Driver.mknode (driver : Driver Ident) : FsInfo → Ident
  | .fat32 => driver.createIdent

section Calls

variable (heap : Allocator) (driver : Driver Ident)

def pathToNode (v : Vfs Ident) (path : CString) (mode : Nat) (createType : NodeType) :
    Option Addr × Vfs Ident :=
  vfsPathToNode heap driver.mknode v path mode createType

/-- `vfs_path_to_node(path, NO_CREATE, 0)` -/
def findNode (v : Vfs Ident) (path : CString) : Option Addr :=
  (pathToNode heap driver v path noCreate .file).1

/-! ## `vfs_init` -/

def devPath : CString := [0x2F, 0x64, 0x65, 0x76]

def diskPath : CString := [0x2F, 0x64, 0x69, 0x73, 0x6B]

/-- The state after `vfs_init`; `root` is the address of `vfs_root`. -/
def vfsInit (root : Addr) : Vfs Ident :=
  let v : Vfs Ident :=
    { tnodes := fun _ => ⟨[], 0, none⟩
      inodes := fun _ => ⟨.file, 0, 0, 0, 0, .zero, none, none, none, []⟩
      allocated := [root], root, openfiles := [] }
  let (inode, v) := vfsAllocInode heap v .folder 0o777 0 none none
  let v := { v with tnodes := Function.update v.tnodes root { v.tnodes root with inode := inode } }
  let (_, v) := pathToNode heap driver v devPath create .folder
  (pathToNode heap driver v diskPath create .folder).2

/-! ## `fat32_open` -/

def fat32AttrDirectory : Byte := 0x10

/-- The first loop of `fat32_open`: the position of the slash behind the mount point. -/
def rootEnd : CString → Nat → Nat → Nat → Nat
  | [], curIdx, _, _ => curIdx
  | c :: rest, curIdx, lastIdx, dirCount =>
    if c = slash then
      let dirCount := if curIdx - lastIdx > 1 then dirCount + 1 else dirCount
      if dirCount = 2 then curIdx else rootEnd rest (curIdx + 1) curIdx dirCount
    else rootEnd rest (curIdx + 1) lastIdx dirCount

def Fat32Entry.found (fe : Fat32Entry) : Bool := fe.attr ≠ 0 ∧ fe.clusterBegin ≠ 0

/-- The end of `fat32_open`: the node at `path` gets what the entry says. -/
def fat32MakeNode (v : Vfs Ident) (rootnode : Option Addr) (path : CString) (fe : Fat32Entry) :
    Option (Addr × Vfs Ident) := do
  let type := if fe.attr &&& fat32AttrDirectory ≠ 0 then NodeType.folder else .file
  let (_, v) := pathToNode heap driver v path create type
  let tnode ← findNode heap driver v path
  let rootnode ← rootnode
  let ident ← (v.inodeOf rootnode).ident
  let inode := (v.tnodes tnode).inode
  some (tnode,
    { v with
      inodes := Function.update v.inodes inode
        { v.inodes inode with
          fs := some .fat32
          size := fe.fileSizeBytes
          ident := some (driver.withEntry ident fe) } })

/-- `fat32_open` called by itself, on a `path` that is its own static buffer: every slash it
    finds is overwritten by the end of the string of the next call.  The string is returned as
    it is in the end; it gets shorter with every call. -/
def fat32OpenTmp (this : Addr) : Nat → Vfs Ident → CString →
    Option (Option Addr × Vfs Ident × CString)
  | 0, _, _ => none
  | fuel + 1, v, path => do
    let curIdx := rootEnd path 0 0 0
    let rootnode := findNode heap driver v (path.take curIdx)
    let fe ← driver.parsePath v this (path.drop curIdx)
    if fe.found then
      let (v, path) ← (List.range' (curIdx + 1) (path.length - (curIdx + 1))).foldlM
        (fun (v, path) i =>
          if path[i]? = some slash then do
            let path := path.set i 0
            let (_, v, front) ← fat32OpenTmp this fuel v (path.takeWhile (· ≠ 0))
            some (v, front ++ path.drop front.length)
          else some (v, path)) (v, path)
      let (tnode, v) ← fat32MakeNode heap driver v rootnode (path.takeWhile (· ≠ 0)) fe
      some (some tnode, v, path)
    else some (none, v, path)

/-- `fat32_open` as `vfs_open` calls it. -/
def fat32Open (v : Vfs Ident) (this : Addr) (path : CString) : Option (Option Addr × Vfs Ident) := do
  let curIdx := rootEnd path 0 0 0
  let rootnode := findNode heap driver v (path.take curIdx)
  let fe ← driver.parsePath v this (path.drop curIdx)
  if fe.found then
    let v ← (List.range' (curIdx + 1) (path.length - (curIdx + 1))).foldlM (fun v i =>
      if path[i]? = some slash then
        (fat32OpenTmp heap driver this path.length v (path.take i)).map fun (_, v, _) => v
      else some v) v
    let (tnode, v) ← fat32MakeNode heap driver v rootnode path fe
    some (some tnode, v)
  else some (none, v)

/-! ## `vfs_open` and `vfs_close` -/

/-- `vfs_get_parent_dir`; the index of the last character of an empty path wraps. -/
def vfsGetParentDir (path : CString) : Option CString :=
  if path = [] then none
  else
    let idx := path.length - 1
    let idx := if 0 < idx ∧ path[idx]? = some slash then idx - 1 else idx
    match (List.range' 1 idx).reverse.find? fun j => path[j]? = some slash with
    | some j => some (path.take j)
    | none => some path

/-- The loop of `vfs_open` back to a folder that exists: `pn` when it ends. -/
def visitBack (v : Vfs Ident) : Nat → CString → Option (Option Addr)
  | 0, _ => none
  | fuel + 1, curpath => do
    let parent ← vfsGetParentDir curpath
    if curpath = parent then some none
    else
      match findNode heap driver v parent with
      | some pn => some (some pn)
      | none => visitBack v fuel parent

/-- The node `vfs_open` works on; without one it fails. -/
def openNode (v : Vfs Ident) (path : CString) : Option (Option Addr × Vfs Ident) :=
  match findNode heap driver v path with
  | some req => some (some req, v)
  | none => do
    let pn ← visitBack heap driver v (path.length + 1) path
    let pn ← pn
    match (v.inodeOf pn).fs with
    | none => some (none, v)
    | some .fat32 => fat32Open heap driver v (v.tnodes pn).inode path

def pushDesc (v : Vfs Ident) (req : Addr) (path : CString) (mode : OpenMode) : Vfs Ident :=
  let inode := (v.tnodes req).inode
  { v with
    inodes := Function.update v.inodes inode
      { v.inodes inode with refcount := u32 ((v.inodes inode).refcount + 1) }
    openfiles := v.openfiles ++ [some { path, tnode := req, inode, mode, seekPos := 0 }] }

/-- `vfs_open` up to the release of the lock, and whether it goes on to return a handle. -/
def vfsOpen (v : Vfs Ident) (path : CString) (mode : OpenMode) : Option (Bool × Vfs Ident) := do
  let (req, v) ← openNode heap driver v path
  match req with
  | none => some (false, v)
  | some req => some (true, pushDesc v req path mode)

/-- A `size_t` as `vfs_handle_t`, which is `int`. -/
def toHandle (n : Nat) : Int := (BitVec.ofNat 32 n).toInt

/-- `(vfs_handle_t)(vfs_openfiles.len - 1)`, behind the lock. -/
def lastHandle (v : Vfs Ident) : Int := toHandle (sub64 v.openfiles.length 1)

def vfsHandleToFd (v : Vfs Ident) (handle : Int) : Option NodeDesc :=
  if handle < 0 then none else (v.openfiles[handle.toNat]?).join

/-- `kmfree(fd)` is left out: descriptors are held by their value here. -/
def vfsClose (v : Vfs Ident) (handle : Int) : Bool × Vfs Ident :=
  match vfsHandleToFd v handle with
  | none => (false, v)
  | some fd =>
    (true,
      { v with
        inodes := Function.update v.inodes fd.inode
          { v.inodes fd.inode with refcount := sub32 (v.inodes fd.inode).refcount 1 }
        openfiles := v.openfiles.set handle.toNat none })

/-! ## `vfs_create`, `vfs_mount`, `vfs_refresh` -/

def vfsCreate (v : Vfs Ident) (path : CString) (type : NodeType) : Bool × Vfs Ident :=
  let (node, v) := pathToNode heap driver v path (create ||| errOnExist) type
  (node.isSome, v)

def fat32Name : CString := [0x66, 0x61, 0x74, 0x33, 0x32]

/-- `vfs_get_fs`; `fat32` is the file system that is registered. -/
def vfsGetFs (name : CString) : Option FsInfo :=
  if strncmp name fat32Name 16 = 0 then some .fat32 else none

def Inode.emptyFolder (inode : Inode Ident) : Bool := inode.type = .folder ∧ inode.child = []

/-- The end of `vfs_mount`: the inode of the folder is freed and the driver's takes its place. -/
def mountAt (v : Vfs Ident) (dev at_ : Addr) : Option (Vfs Ident) := do
  let v := { v with allocated := v.allocated.erase (v.tnodes at_).inode }
  let (ret, v) := vfsAllocInode heap v .mountpoint 0o777 0 (some .fat32) none
  let ident ← driver.mountIdent v (v.tnodes dev).inode
  some
    { v with
      inodes := Function.update v.inodes ret
        { v.inodes ret with ident := some ident, mountpoint := some at_ }
      tnodes := Function.update v.tnodes at_ { v.tnodes at_ with inode := ret } }

/-- `vfs_mount`; `fat32.istemp` is false. -/
def vfsMount (v : Vfs Ident) (device path fsname : CString) : Option (Bool × Vfs Ident) :=
  match vfsGetFs fsname, findNode heap driver v device, findNode heap driver v path with
  | some .fat32, some dev, some at_ =>
    if (v.inodeOf dev).type ≠ .blockDevice then some (false, v)
    else if !(v.inodeOf at_).emptyFolder then some (false, v)
    else (mountAt heap driver v dev at_).map fun v => (true, v)
  | _, _, _ => some (false, v)

/-- One turn of the loop of `vfs_refresh`. -/
def refreshNode (dir : CString) (v : Vfs Ident) (de : Dirent) : Option (Vfs Ident) := do
  let (tn, v) := pathToNode heap driver v (dir ++ slash :: de.name) create de.type
  let tn ← tn
  let inode := (v.tnodes tn).inode
  some { v with inodes := Function.update v.inodes inode { v.inodes inode with tm := de.tm } }

def vfsRefresh (v : Vfs Ident) (handle : Int) : Option (Bool × Vfs Ident) :=
  match vfsHandleToFd v handle with
  | none => some (false, v)
  | some fd => do
    let .fat32 ← (v.inodes fd.inode).fs
    let dirents ← driver.dirents v fd.inode
    let v ← dirents.foldlM (refreshNode heap driver fd.path) v
    some (true, v)

end Calls

end HanOS.Fs
