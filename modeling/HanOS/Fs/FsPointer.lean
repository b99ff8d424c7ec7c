import HanOS.Foundations.Run
import HanOS.Fs.RefCounts
import HanOS.Fs.VfsIo

/-!
# Where the calls use `fs`

`vfs_read`, `vfs_write`, `vfs_chmod` and `vfs_refresh` call the driver through `inode->fs`, and the
folders that `vfs_init` and `vfs_create` make have none.  `CallEnd` follows a call to its first use of
that pointer or to its return, whichever comes first; nothing in the calls asks whether the pointer is
NULL (`null_safe_iff`).
-/

namespace HanOS.Fs

open HanOS.Foundations HanOS.Lib HanOS.Core

variable {Ident : Type}

/-! ## The calls up to the driver -/

/-- A call returns a value and leaves a state, or comes to use `fs` of an inode in a state. -/
inductive CallEnd (Ident : Type)
  | returned (value : Int) (v : Vfs Ident)
  | uses (inode : Addr) (v : Vfs Ident)

def vfsReadEnd (v : Vfs Ident) (handle : Int) (len : Nat) : CallEnd Ident :=
  match vfsHandleToFd v handle with
  | none => .returned 0 v
  | some fd =>
    let inode := v.inodes fd.inode
    if inode.size < u64 (fd.seekPos + len) ∧ sub64 inode.size fd.seekPos = 0 then .returned 0 v
    else .uses fd.inode v

/-- `vfs_write`: a file that grows has its new size when `sync` is called. -/
def vfsWriteEnd (v : Vfs Ident) (handle : Int) (len : Nat) : CallEnd Ident :=
  match vfsHandleToFd v handle with
  | none => .returned 0 v
  | some fd =>
    if fd.mode = .read then .returned 0 v
    else
      let inode := v.inodes fd.inode
      let size := if inode.size < u64 (fd.seekPos + len) then u64 (fd.seekPos + len) else inode.size
      .uses fd.inode { v with inodes := Function.update v.inodes fd.inode { inode with size } }

def vfsChmodEnd (v : Vfs Ident) (handle : Int) (newperms : Nat) : CallEnd Ident :=
  match vfsHandleToFd v handle with
  | none => .returned (-1) v
  | some fd =>
    if fd.mode = .read then .returned (-1) v
    else
      .uses fd.inode
        { v with
          inodes := Function.update v.inodes fd.inode
            { v.inodes fd.inode with perms := newperms } }

def vfsRefreshEnd (v : Vfs Ident) (handle : Int) : CallEnd Ident :=
  match vfsHandleToFd v handle with
  | none => .returned (-1) v
  | some fd => .uses fd.inode v

/-- `vfs_chmod`; `fat32_sync` does nothing. -/
def vfsChmod (v : Vfs Ident) (handle : Int) (newperms : Nat) : Option (Int × Vfs Ident) :=
  match vfsChmodEnd v handle newperms with
  | .returned value v => some (value, v)
  | .uses inode v => do
    let .fat32 ← (v.inodes inode).fs
    some (0, v)

/-! ## The calls as a whole -/

section Whole

variable {v u : Vfs Fat32Ident} {vol : Volume} {handle : Int} {len : Nat} {inode : Addr} {value : Int}
  {block buff readBlock : Mem} {heap : Allocator} {driver : Driver Ident}

theorem vfsRead_returned (ended : vfsReadEnd v handle len = .returned value u) :
    vfsRead v vol handle len block buff = some (0, buff) ∧ value = 0 ∧ u = v := by
  rw [vfsReadEnd] at ended
  rw [vfsRead]
  cases opened : vfsHandleToFd v handle with
  | none =>
    rw [opened] at ended
    cases ended
    exact ⟨rfl, rfl, rfl⟩
  | some fd =>
    simp only [opened] at ended
    split at ended
    · next early =>
      cases ended
      refine ⟨?_, rfl, rfl⟩
      simp only [readFile]
      rw [if_pos early.1, if_pos ⟨early.1, early.2⟩]
    · cases ended

theorem vfsRead_null (ended : vfsReadEnd v handle len = .uses inode u)
    (null : (u.inodes inode).fs = none) : vfsRead v vol handle len block buff = none := by
  rw [vfsReadEnd] at ended
  rw [vfsRead]
  cases opened : vfsHandleToFd v handle with
  | none =>
    rw [opened] at ended
    cases ended
  | some fd =>
    simp only [opened] at ended
    split at ended
    · cases ended
    · next late =>
      cases ended
      simp only [readFile]
      rw [if_neg, null]
      · rfl
      · rintro ⟨grows, nothing⟩
        rw [if_pos grows] at nothing
        exact late ⟨grows, nothing⟩

theorem vfsWrite_returned (ended : vfsWriteEnd v handle len = .returned value u) :
    vfsWrite v vol handle len buff block readBlock = some (0, v, vol) ∧ value = 0 ∧ u = v := by
  rw [vfsWriteEnd] at ended
  rw [vfsWrite]
  cases opened : vfsHandleToFd v handle with
  | none =>
    rw [opened] at ended
    cases ended
    exact ⟨rfl, rfl, rfl⟩
  | some fd =>
    simp only [opened] at ended
    split at ended
    · next readOnly =>
      cases ended
      exact ⟨if_pos readOnly, rfl, rfl⟩
    · cases ended

theorem vfsWrite_null (ended : vfsWriteEnd v handle len = .uses inode u)
    (null : (u.inodes inode).fs = none) : vfsWrite v vol handle len buff block readBlock = none := by
  rw [vfsWriteEnd] at ended
  rw [vfsWrite]
  cases opened : vfsHandleToFd v handle with
  | none =>
    rw [opened] at ended
    cases ended
  | some fd =>
    simp only [opened] at ended
    split at ended
    · cases ended
    · next writable =>
      cases ended
      simp only [Function.update_self] at null
      simp only [if_neg writable, null]
      rfl

theorem vfsRefresh_returned {v u : Vfs Ident} (ended : vfsRefreshEnd v handle = .returned value u) :
    vfsRefresh heap driver v handle = some (false, v) ∧ value = -1 ∧ u = v := by
  rw [vfsRefreshEnd] at ended
  rw [vfsRefresh]
  cases opened : vfsHandleToFd v handle with
  | none =>
    rw [opened] at ended
    cases ended
    exact ⟨rfl, rfl, rfl⟩
  | some fd =>
    rw [opened] at ended
    cases ended

theorem vfsRefresh_null {v u : Vfs Ident} (ended : vfsRefreshEnd v handle = .uses inode u)
    (null : (u.inodes inode).fs = none) : vfsRefresh heap driver v handle = none := by
  rw [vfsRefreshEnd] at ended
  rw [vfsRefresh]
  cases opened : vfsHandleToFd v handle with
  | none =>
    rw [opened] at ended
    cases ended
  | some fd =>
    rw [opened] at ended
    cases ended
    simp only [null]
    rfl

/-! ## NULL is not asked for -/

inductive FsCall
  | read (len : Nat)
  | write (len : Nat)
  | chmod (newperms : Nat)
  | refresh

def FsCall.run (v : Vfs Ident) (handle : Int) : FsCall → CallEnd Ident
  | .read len => vfsReadEnd v handle len
  | .write len => vfsWriteEnd v handle len
  | .chmod newperms => vfsChmodEnd v handle newperms
  | .refresh => vfsRefreshEnd v handle

/-- What the call returns on a mounted volume, if it is survived. -/
def FsCall.whole (heap : Allocator) (driver : Driver Fat32Ident) (vol : Volume)
    (buff block readBlock : Mem) (v : Vfs Fat32Ident) (handle : Int) : FsCall → Option Int
  | .read len => (vfsRead v vol handle len block buff).map fun (size, _) => size
  | .write len => (vfsWrite v vol handle len buff block readBlock).map fun (size, _) => size
  | .chmod newperms => (vfsChmod v handle newperms).map fun (status, _) => status
  | .refresh => (vfsRefresh heap driver v handle).map fun (ok, _) => if ok then 0 else -1

/-- Where the call returns early the whole call returns that, and with a pointer that is NULL where it
    uses it the whole call is not survived. -/
theorem FsCall.whole_run {driver : Driver Fat32Ident} (call : FsCall) :
    match call.run v handle with
    | .returned value _ => call.whole heap driver vol buff block readBlock v handle = some value
    | .uses inode u => (u.inodes inode).fs = none →
        call.whole heap driver vol buff block readBlock v handle = none := by
  cases ended : call.run v handle with
  | returned value u =>
    cases call with
    | read len =>
      obtain ⟨whole, rfl, _⟩ := @vfsRead_returned v u vol handle len value block buff ended
      simp [FsCall.whole, whole]
    | write len =>
      obtain ⟨whole, rfl, _⟩ := @vfsWrite_returned v u vol handle len value block buff readBlock ended
      simp [FsCall.whole, whole]
    | chmod newperms =>
      have early : vfsChmodEnd v handle newperms = .returned value u := ended
      simp [FsCall.whole, vfsChmod, early]
    | refresh =>
      obtain ⟨whole, rfl, _⟩ := @vfsRefresh_returned _ handle value heap driver v u ended
      simp [FsCall.whole, whole]
  | uses inode u =>
    intro null
    cases call with
    | read len => simp [FsCall.whole, @vfsRead_null v u vol handle len inode block buff ended null]
    | write len =>
      simp [FsCall.whole, @vfsWrite_null v u vol handle len inode block buff readBlock ended null]
    | chmod newperms =>
      have late : vfsChmodEnd v handle newperms = .uses inode u := ended
      simp [FsCall.whole, vfsChmod, late, null]
    | refresh => simp [FsCall.whole, @vfsRefresh_null _ handle inode heap driver v u ended null]

end Whole

def FsCall.failure : FsCall → Int
  | .read _ | .write _ => 0
  | .chmod _ | .refresh => -1

/-- The call uses no pointer that is NULL, and on a node without a file system it fails and changes
    nothing. -/
structure NullSafe (v : Vfs Ident) (handle : Int) (call : FsCall) : Prop where
  noNull : ∀ inode u, call.run v handle = .uses inode u → (u.inodes inode).fs ≠ none
  failure : ∀ fd, vfsHandleToFd v handle = some fd → (v.inodes fd.inode).fs = none →
    call.run v handle = .returned call.failure v

/-- What keeps a call away from `fs`: a read at the end of the file that asks for something, or a write
    or a change of permissions through a descriptor for reading. -/
def FsCall.Spared (size : Nat) (fd : NodeDesc) : FsCall → Prop
  | .read len => fd.seekPos = size ∧ size < u64 (size + len)
  | .write _ | .chmod _ => fd.mode = .read
  | .refresh => False

instance {size : Nat} {fd : NodeDesc} : DecidablePred (FsCall.Spared size fd)
  | .read _ => inferInstanceAs (Decidable (_ ∧ _))
  | .write _ | .chmod _ => inferInstanceAs (Decidable (_ = _))
  | .refresh => inferInstanceAs (Decidable False)

variable {v : Vfs Ident} {handle : Int} {fd : NodeDesc} {call : FsCall}

/-- With an open descriptor the call returns early if it is spared, and otherwise uses `fs` of its
    inode. -/
theorem FsCall.run_open (bound : fd.seekPos < 2 ^ 64) (opened : vfsHandleToFd v handle = some fd) :
    if call.Spared (v.inodes fd.inode).size fd then call.run v handle = .returned call.failure v
    else ∃ u, call.run v handle = .uses fd.inode u ∧
      (u.inodes fd.inode).fs = (v.inodes fd.inode).fs := by
  cases call with
  | read len =>
    have ended : sub64 (v.inodes fd.inode).size fd.seekPos = 0 ↔
        fd.seekPos = (v.inodes fd.inode).size := by
      rw [sub64]
      split <;> omega
    simp only [FsCall.run, vfsReadEnd, opened, ended]
    split
    · next early => exact if_pos ⟨by rw [early.1]; exact early.2, early.1⟩
    · next late =>
      refine ⟨v, if_neg ?_, rfl⟩
      rintro ⟨grows, same⟩
      rw [same] at grows
      exact late ⟨same, grows⟩
  | write len =>
    simp only [FsCall.run, vfsWriteEnd, opened]
    split
    · next readOnly => exact if_pos readOnly
    · next writable => exact ⟨_, if_neg writable, by simp⟩
  | chmod newperms =>
    simp only [FsCall.run, vfsChmodEnd, opened]
    split
    · next readOnly => exact if_pos readOnly
    · next writable => exact ⟨_, if_neg writable, by simp⟩
  | refresh =>
    simp only [FsCall.run, vfsRefreshEnd, opened]
    exact ⟨v, rfl, rfl⟩

/-- A call through an open descriptor is safe if and only if its node has a file system or the call does
    not come as far as to use it. -/
theorem null_safe_iff (bound : fd.seekPos < 2 ^ 64) (opened : vfsHandleToFd v handle = some fd) :
    NullSafe v handle call ↔
      (v.inodes fd.inode).fs ≠ none ∨ call.Spared (v.inodes fd.inode).size fd := by
  have ran := @FsCall.run_open _ v handle fd call bound opened
  constructor
  · intro safe
    by_contra neither
    rw [not_or, not_not] at neither
    obtain ⟨null, exposed⟩ := neither
    rw [if_neg exposed] at ran
    obtain ⟨u, uses, _⟩ := ran
    rw [safe.failure fd opened null] at uses
    cases uses
  · intro either
    split at ran
    · refine ⟨fun inode u uses => ?_, fun _ _ _ => ran⟩
      rw [ran] at uses
      cases uses
    · next exposed =>
      have present := either.resolve_right exposed
      obtain ⟨u, uses, kept⟩ := ran
      refine ⟨fun inode u' uses' => ?_, fun other opened' null => ?_⟩
      · rw [uses] at uses'
        cases uses'
        rwa [kept]
      · rw [opened] at opened'
        cases opened'
        exact absurd null present

/-! ## The folder `/dev` -/

/-- `/dev` is opened and refreshed. -/
theorem refresh_uses_null :
    ∃ v : Vfs Unit, Run (Vfs.step bumpAllocator emptyDisk) (Calm bumpAllocator emptyDisk)
      (vfsInit bumpAllocator emptyDisk 0) v ∧ ¬ NullSafe v 0 .refresh := by
  have executed : ((vfsInit bumpAllocator emptyDisk 0).step bumpAllocator emptyDisk
      (.open_ devPath .read)).map (fun v => (vfsHandleToFd v 0).map fun fd => (v.inodes fd.inode).fs) =
        some (some none) := by decide +kernel
  obtain ⟨v, opened, found⟩ := Option.map_eq_some_iff.mp executed
  obtain ⟨fd, at_handle, null⟩ := Option.map_eq_some_iff.mp found
  have calm : Calm bumpAllocator emptyDisk (vfsInit bumpAllocator emptyDisk 0)
      (.open_ devPath .read) := by
    simp only [Calm]
    decide +kernel
  refine ⟨v, .tail .refl calm opened, fun safe => ?_⟩
  have failed := safe.failure fd at_handle null
  rw [FsCall.run, vfsRefreshEnd, at_handle] at failed
  cases failed

theorem null_safe_iff_dev :
    ∃ v : Vfs Unit, (vfsInit bumpAllocator emptyDisk 0).step bumpAllocator emptyDisk
      (.open_ devPath .read) = some v ∧ NullSafe v 0 (.read 5) := by
  have executed : ((vfsInit bumpAllocator emptyDisk 0).step bumpAllocator emptyDisk
      (.open_ devPath .read)).map (fun v => (vfsHandleToFd v 0).map fun fd =>
        (fd.seekPos, (v.inodes fd.inode).size)) = some (some (0, 0)) := by decide +kernel
  obtain ⟨v, opened, found⟩ := Option.map_eq_some_iff.mp executed
  obtain ⟨fd, at_handle, fields⟩ := Option.map_eq_some_iff.mp found
  obtain ⟨seekPos, size⟩ := Prod.mk.inj fields
  have bound : fd.seekPos < 2 ^ 64 := by
    rw [seekPos]
    decide
  refine ⟨v, opened, (null_safe_iff bound at_handle).mpr (.inr ?_)⟩
  rw [size, FsCall.Spared, seekPos]
  decide

end HanOS.Fs
