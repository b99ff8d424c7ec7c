import HanOS.Lib.CString
import Mathlib.Logic.Function.Basic
import Mathlib.Data.List.MinMax

/-!
# VFS data (`fs/vfs.h`)

Nodes live on the kernel heap and are named by their addresses.  `Allocator` is the
choice `kmalloc` makes: any address that is not in use.  Freed memory keeps its
content, as it does in the kernel until the address is handed out again.
-/

namespace HanOS.Fs

open HanOS.Foundations HanOS.Lib

abbrev Addr := Nat

def vfsMaxNameLen : Nat := 256

/-- The choice of a free address, for any set of addresses in use. -/
structure Allocator where
  pick : List Addr → Addr
  fresh : ∀ used, pick used ∉ used

def bumpAllocator : Allocator where
  pick used := used.foldr max 0 + 1
  fresh used member := by
    exact absurd (List.le_max_of_le' 0 member le_rfl) (Nat.not_succ_le_self _)

inductive NodeType
  | file | folder | blockDevice | charDevice | mountpoint
  deriving DecidableEq, Repr

inductive OpenMode
  | read | write | readwrite
  deriving DecidableEq, Repr

/-- The registered file systems; `vfs_init` registers this one. -/
inductive FsInfo
  | fat32
  deriving DecidableEq, Repr

structure Tm where
  sec : Int
  min : Int
  hour : Int
  mday : Int
  mon : Int
  year : Int
  wday : Int
  yday : Int
  isdst : Int
  deriving DecidableEq, Repr

def Tm.zero : Tm := ⟨0, 0, 0, 0, 0, 0, 0, 0, 0⟩

/-- `vfs_tnode_t`: the 256 bytes of `name` up to a NUL, if there is one. -/
structure Tnode where
  name : CString
  inode : Addr
  parent : Option Addr

/-- `vfs_inode_t`, over the private data `Ident` of the file systems. -/
structure Inode (Ident : Type) where
  type : NodeType
  size : Nat
  perms : Nat
  uid : Nat
  refcount : Nat
  tm : Tm
  fs : Option FsInfo
  ident : Option Ident
  mountpoint : Option Addr
  child : List Addr

structure NodeDesc where
  path : CString
  tnode : Addr
  inode : Addr
  mode : OpenMode
  seekPos : Nat

/-- The globals of `vfs.c` and the heap their pointers lead into. -/
structure Vfs (Ident : Type) where
  tnodes : Addr → Tnode
  inodes : Addr → Inode Ident
  allocated : List Addr
  /-- The address of `vfs_root`. -/
  root : Addr
  openfiles : List (Option NodeDesc)

end HanOS.Fs
