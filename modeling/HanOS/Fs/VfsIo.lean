import HanOS.Fs.Fat32Refresh

/-!
# Files on a mounted volume

The driver `fat32` on a volume, and `vfs_read`, `vfs_write` and `vfs_seek` (`fs/vfs.c`) with it.
-/

namespace HanOS.Fs

open HanOS.Foundations HanOS.Lib HanOS.Core

/-- `fat32_ident_t`.  An `ident` that is mounted has the device, the boot sector and the FAT of the
    volume; in one made by `create_ident` all of it is zero. -/
structure Fat32Ident where
  mounted : Bool
  entry : Fat32Entry

def Fat32Ident.zero : Fat32Ident := ⟨false, .zero⟩

/-- What the driver finds on the stack, on the heap and in `fat32.filelist`, and bounds for the passes
    of its loops. -/
structure Fat32Env where
  stack : ParseScan → Mem
  parseFuel : Nat
  kmalloc : Refreshing → Mem
  tempBuffer : Mem
  refreshFuel : Nat
  filelist : List Fat32IdentItem
  tm : Refreshing → Tm

/-- The driver; the sectors it would read of a device that is NULL are not there. -/
def fat32Driver (vol : Volume) (env : Fat32Env) : Driver Fat32Ident where
  createIdent := .zero
  withEntry ident fe := { ident with entry := fe }
  parsePath v this path := do
    let ident ← (v.inodes this).ident
    if ident.mounted then fat32ParsePath vol env.stack env.parseFuel path else none
  mountIdent _ _ := some { mounted := true, entry := .zero }
  dirents v this := do
    let ident ← (v.inodes this).ident
    if ident.mounted then
      let call := { this, kmalloc := env.kmalloc, tm := env.tm }
      (refreshFilelist vol call env.refreshFuel ident.entry env.tempBuffer env.filelist).map
        (direntsOf this)
    else none

/-! ## `vfs_read`, `vfs_write` and `vfs_seek` -/

/-- `vfs_read` with a descriptor: what it returns and the caller's buffer.  Far behind the end of the
    file the length of the copy wraps, and the copy is not survived. -/
def readFile (vol : Volume) (size : Nat) (fs : Option FsInfo) (ident : Option Fat32Ident)
    (seekPos len : Nat) (block buff : Mem) : Option (Nat × Mem) :=
  let truncate := size < u64 (seekPos + len)
  let len := if truncate then sub64 size seekPos else len
  if truncate ∧ len = 0 then some (0, buff)
  else do
    let .fat32 ← fs
    let ident ← ident
    if !ident.mounted ∨ sectorBytes vol seekPos len < seekPos then none
    else
      let (status, buff) ← fat32Read vol ident.entry seekPos len block buff
      some (if status = -1 then 0 else len, buff)

def vfsRead (v : Vfs Fat32Ident) (vol : Volume) (handle : Int) (len : Nat) (block buff : Mem) :
    Option (Nat × Mem) :=
  match vfsHandleToFd v handle with
  | none => some (0, buff)
  | some fd =>
    let inode := v.inodes fd.inode
    readFile vol inode.size inode.fs inode.ident fd.seekPos len block buff

/-- `vfs_write`: what it returns, the nodes and the volume. -/
def vfsWrite (v : Vfs Fat32Ident) (vol : Volume) (handle : Int) (len : Nat)
    (buff block readBlock : Mem) : Option (Nat × Vfs Fat32Ident × Volume) :=
  match vfsHandleToFd v handle with
  | none => some (0, v, vol)
  | some fd =>
    if fd.mode = .read then some (0, v, vol)
    else
      let inode := v.inodes fd.inode
      let size := if inode.size < u64 (fd.seekPos + len) then u64 (fd.seekPos + len) else inode.size
      do
        let .fat32 ← inode.fs
        let ident ← inode.ident
        if !ident.mounted then none
        else
          let written ← fat32Write vol ident.entry fd.seekPos len buff block readBlock
          let inode := { inode with size, ident := some { ident with entry := written.entry } }
          some (if written.retlen = -1 then 0 else len,
            { v with inodes := Function.update v.inodes fd.inode inode }, written.vol)

/-- `vfs_seek`: whether it returns 0. -/
def vfsSeek (v : Vfs Fat32Ident) (handle : Int) (pos : Nat) : Bool × Vfs Fat32Ident :=
  match vfsHandleToFd v handle with
  | none => (false, v)
  | some fd =>
    if (v.inodes fd.inode).size ≤ pos ∧ fd.mode = .read then (false, v)
    else
      (true,
        { v with openfiles := v.openfiles.set handle.toNat (some { fd with seekPos := pos }) })

end HanOS.Fs
