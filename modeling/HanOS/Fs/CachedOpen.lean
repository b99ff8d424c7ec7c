import HanOS.Fs.Fat32Scan
import HanOS.Fs.Handles
import HanOS.Fs.PathCreate
import HanOS.Fs.VfsIo

/-!
# Opening a file before and after a refresh

`vfs_open` takes a file from the tree of nodes if it is there, and asks `fat32_open` if not.
`fat32_open` fills the size and the `ident` of the node it makes; `vfs_refresh` makes nodes for all
entries of the directory and fills neither.  A file that has a node from a refresh is opened as an
empty one (`opens_alike_iff`).
-/

namespace HanOS.Fs

open HanOS.Foundations HanOS.Lib HanOS.Core

/-! ## What a task sees of a file -/

/-- The volume is mounted at a folder in a folder of the root, as `ata.c` does at "/disk/0". -/
structure MountFolder (v : Vfs Fat32Ident) (nodes : Set Addr) (outer inner : CString) (folder : Addr)
    (entry : Fat32Entry) : Prop where
  tree : Tree v nodes
  walked : walk v v.root [outer, inner] = some folder
  traversable : (v.inodeOf folder).traversable
  fs : (v.inodeOf folder).fs = some .fat32
  ident : (v.inodeOf folder).ident = some { mounted := true, entry }

structure IsName (name : CString) : Prop where
  component : IsComponent name
  terminated : (0 : Byte) ∉ name
  fits : name.length < vfsMaxNameLen

variable {vol : Volume} {env : Fat32Env} {heap : Allocator} {v u v' : Vfs Fat32Ident}
  {nodes : Set Addr} {outer inner name : CString} {folder child : Addr} {entry : Fat32Entry}

/-! ## Paths below the mount folder -/

theorem MountFolder.mem (mount : MountFolder v nodes outer inner folder entry) : folder ∈ nodes :=
  mount.tree.walk_mem mount.tree.root mount.walked

theorem MountFolder.adds {nodes' : Set Addr} (mount : MountFolder v nodes outer inner folder entry)
    (adds : Adds v v' nodes folder child name) (tree : Tree v' nodes') :
    MountFolder v' nodes' outer inner folder entry := by
  have same := adds.folder
  refine ⟨tree, ?_, ?_, ?_, ?_⟩
  · rw [adds.root]
    exact adds.walk mount.tree mount.mem mount.tree.root mount.walked
  · rw [same]
    exact mount.traversable
  · rw [same]
    exact mount.fs
  · rw [same]
    exact mount.ident

theorem Adds.childNamed_name {other : CString} (adds : Adds v v' nodes folder child other)
    (tree : Tree v nodes) (member : folder ∈ nodes) (otherIs : IsName other) (nameIs : IsName name) :
    HanOS.Fs.childNamed v' folder name =
      (HanOS.Fs.childNamed v folder name).or (if other = name then some child else none) := by
  have whole : other.take vfsMaxNameLen = other := List.take_of_length_le (le_of_lt otherIs.fits)
  rw [adds.childNamed tree member, whole]
  simp only [strncmp_eq_zero_iff otherIs.fits nameIs.fits otherIs.terminated nameIs.terminated]

/-! ## Nodes of a refresh -/

/-- A node that `vfs_refresh` made and `fat32_open` did not. -/
structure Blank (v : Vfs Fat32Ident) (node : Addr) : Prop where
  size : (v.inodeOf node).size = 0
  fs : (v.inodeOf node).fs = some .fat32
  ident : (v.inodeOf node).ident = some .zero

/-- Below the mount folder there is a blank node of the name if one was made, and none otherwise. -/
structure NodeMade (v : Vfs Fat32Ident) (folder : Addr) (name : CString) (made : Prop) : Prop where
  blank : made → ∃ node, childNamed v folder name = some node ∧ Blank v node
  absent : ¬ made → childNamed v folder name = none

/-- A blank node is not the mount folder. -/
theorem Blank.ne_folder (mount : MountFolder v nodes outer inner folder entry) (blank : Blank v child) :
    child ≠ folder := by
  rintro rfl
  have ident := blank.ident
  rw [mount.ident] at ident
  cases ident

theorem NodeMade.adds {made : Prop} {other : CString}
    (before : NodeMade v folder name made) (mount : MountFolder v nodes outer inner folder entry)
    (adds : Adds v v' nodes folder child other) (otherIs : IsName other) (nameIs : IsName name)
    (missing : childNamed v folder other = none) (ident : (v'.inodeOf child).ident = some .zero) :
    NodeMade v' folder name (made ∨ other = name) := by
  have named := adds.childNamed_name mount.tree mount.mem otherIs nameIs
  have blank : Blank v' child := ⟨adds.size, by rw [adds.fs, mount.fs], ident⟩
  refine ⟨?_, ?_⟩
  · rintro (old | rfl)
    · obtain ⟨node, here, oldBlank⟩ := before.blank old
      have member := mount.tree.child folder mount.mem node (List.mem_of_find?_eq_some here)
      have same := adds.inode node member (oldBlank.ne_folder mount)
      refine ⟨node, by rw [named, here]; rfl, ?_, ?_, ?_⟩
      · rw [same, oldBlank.size]
      · rw [same, oldBlank.fs]
      · rw [same, oldBlank.ident]
    · exact ⟨child, by rw [named, missing, if_pos rfl]; rfl, blank⟩
  · intro neither
    rw [not_or] at neither
    rw [named, before.absent neither.1, if_neg neither.2]
    rfl

section Touch

variable {addr : Addr} {tm : Tm}

def touch (v : Vfs Fat32Ident) (addr : Addr) (tm : Tm) : Vfs Fat32Ident :=
  { v with inodes := Function.update v.inodes addr { v.inodes addr with tm } }

theorem inodeOf_touch (node : Addr) :
    ∃ time, (touch v addr tm).inodeOf node = { v.inodeOf node with tm := time } := by
  by_cases here : (v.tnodes node).inode = addr
  · refine ⟨tm, ?_⟩
    subst here
    simp [touch, Vfs.inodeOf]
  · refine ⟨(v.inodeOf node).tm, ?_⟩
    simp [touch, Vfs.inodeOf, Function.update_of_ne here]

theorem MountFolder.touch (mount : MountFolder v nodes outer inner folder entry) :
    ∃ nodes', MountFolder (touch v addr tm) nodes' outer inner folder entry := by
  obtain ⟨nodes', tree, _⟩ := Grows.update v addr { v.inodes addr with tm } rfl rfl nodes mount.tree
  obtain ⟨time, same⟩ := @inodeOf_touch v addr tm folder
  refine ⟨nodes', tree, ?_, ?_, ?_, ?_⟩
  · rw [← mount.walked]
    exact walk_setInode rfl rfl
  · rw [same]
    exact mount.traversable
  · rw [same]
    exact mount.fs
  · rw [same]
    exact mount.ident

theorem NodeMade.touch {made : Prop} (before : NodeMade v folder name made) :
    NodeMade (touch v addr tm) folder name made := by
  have named : childNamed (HanOS.Fs.touch v addr tm) folder name = childNamed v folder name :=
    childNamed_setInode rfl
  refine ⟨fun old => ?_, fun absent => named.trans (before.absent absent)⟩
  obtain ⟨node, here, blank⟩ := before.blank old
  obtain ⟨time, same⟩ := @inodeOf_touch v addr tm node
  refine ⟨node, named.trans here, ?_, ?_, ?_⟩
  · rw [same, blank.size]
  · rw [same, blank.fs]
  · rw [same, blank.ident]

end Touch

/-- A driver for a stack and blocks of zeros. -/
def listEnv : Fat32Env where
  stack _ _ := 0
  parseFuel := 40
  kmalloc _ _ := 0
  tempBuffer _ := 0
  refreshFuel := 20
  filelist := []
  tm _ := .zero

/-- The driver on a volume whose root directory has the directory "D" and the file "X" of 7 bytes. -/
abbrev treeDriver : Driver Fat32Ident := fat32Driver (treeVolume 0) listEnv

def diskName : CString := [0x64, 0x69, 0x73, 0x6B]

def zeroName : CString := [0x30]

def xName : CString := [0x58]

/-- "/disk/0" -/
def mountPath : CString := absolutePath [diskName, zeroName]

/-- The disk is found at boot and mounted, and the mount folder is opened. -/
def bootCalls : List VfsStep :=
  [.device hdaPath, .create mountPath .folder, .mount hdaPath mountPath fat32Name,
    .open_ mountPath .read]

structure Booted (v : Vfs Fat32Ident) (nodes : Set Addr) (folder : Addr) (entry : Fat32Entry)
    (fd : NodeDesc) (dirents : List Dirent) (u : Vfs Fat32Ident) : Prop where
  mount : MountFolder v nodes diskName zeroName folder entry
  opened : vfsHandleToFd v 0 = some fd
  path : fd.path = mountPath
  inode : fd.inode = (v.tnodes folder).inode
  few : v.openfiles.length < 2 ^ 31
  names : dirents.map Dirent.name = [[0x44], xName]
  listed : treeDriver.dirents v fd.inode = some dirents
  children : (v.inodeOf folder).child = []
  refreshed : vfsRefresh bumpAllocator treeDriver v 0 = some (true, u)

theorem bootCalls_tree {v : Vfs Fat32Ident}
    (ran : bootCalls.foldlM (Vfs.step bumpAllocator treeDriver) (vfsInit bumpAllocator treeDriver 0) =
      some v) : ∃ nodes, Tree v nodes := by
  have closed : (vfsInit bumpAllocator treeDriver 0).openfiles = [] := by decide +kernel
  have stillClosed : ((bootCalls.take 2).foldlM (Vfs.step bumpAllocator treeDriver)
      (vfsInit bumpAllocator treeDriver 0)).map (fun v => v.openfiles.length) = some 0 := by
    decide +kernel
  have mounted : ((bootCalls.take 3).foldlM (Vfs.step bumpAllocator treeDriver)
      (vfsInit bumpAllocator treeDriver 0)).map (fun v => v.openfiles.length) = some 0 := by
    decide +kernel
  obtain ⟨nodes, described⟩ := @vfsInit_described _ bumpAllocator treeDriver 0
  simp only [bootCalls, List.take, List.foldlM_cons, List.foldlM_nil, Option.bind_eq_bind] at ran stillClosed mounted
  obtain ⟨v₁, stepped₁, ran⟩ := Option.bind_eq_some_iff.mp ran
  obtain ⟨v₂, stepped₂, ran⟩ := Option.bind_eq_some_iff.mp ran
  obtain ⟨v₃, stepped₃, ran⟩ := Option.bind_eq_some_iff.mp ran
  obtain ⟨v₄, stepped₄, ran⟩ := Option.bind_eq_some_iff.mp ran
  obtain rfl := Option.some.inj ran
  simp only [stepped₁, stepped₂, stepped₃, Option.bind_some, Option.map_some, Option.some.injEq,
    Option.pure_def, List.length_eq_zero_iff] at stillClosed mounted
  have calm₁ : Calm bumpAllocator treeDriver (vfsInit bumpAllocator treeDriver 0) (.device hdaPath) :=
    closed
  have calm₂ : Calm bumpAllocator treeDriver v₁ (.create mountPath .folder) := trivial
  have calm₃ : Calm bumpAllocator treeDriver v₂ (.mount hdaPath mountPath fat32Name) := by
    intro _ _ fd opened
    rw [stillClosed] at opened
    cases opened
  have calm₄ : Calm bumpAllocator treeDriver v₃ (.open_ mountPath .read) := by simp [Calm, mounted]
  obtain ⟨_, described₁⟩ := described.step calm₁ stepped₁
  obtain ⟨_, described₂⟩ := described₁.step calm₂ stepped₂
  obtain ⟨_, described₃⟩ := described₂.step calm₃ stepped₃
  obtain ⟨nodes₄, described₄⟩ := described₃.step calm₄ stepped₄
  exact ⟨nodes₄, described₄.toTree⟩

theorem booted : ∃ v nodes folder entry fd dirents u,
    bootCalls.foldlM (Vfs.step bumpAllocator treeDriver) (vfsInit bumpAllocator treeDriver 0) = some v ∧
      Booted v nodes folder entry fd dirents u := by
  have mounted : (bootCalls.foldlM (Vfs.step bumpAllocator treeDriver)
      (vfsInit bumpAllocator treeDriver 0)).map (fun v =>
        (walk v v.root [diskName, zeroName], (v.inodeOf 10).traversable, (v.inodeOf 10).fs,
          (v.inodeOf 10).ident.map Fat32Ident.mounted, (v.inodeOf 10).child)) =
      some (some 10, true, some .fat32, some true, []) := by decide +kernel
  have openedHere : (bootCalls.foldlM (Vfs.step bumpAllocator treeDriver)
      (vfsInit bumpAllocator treeDriver 0)).map (fun v =>
        ((v.tnodes 10).inode, (vfsHandleToFd v 0).map (fun fd => (fd.path, fd.inode)),
          v.openfiles.length)) = some (11, some (mountPath, 11), 1) := by decide +kernel
  have listing_ : (bootCalls.foldlM (Vfs.step bumpAllocator treeDriver)
      (vfsInit bumpAllocator treeDriver 0)).map (fun v =>
        ((treeDriver.dirents v 11).map (·.map Dirent.name),
          (vfsRefresh bumpAllocator treeDriver v 0).map Prod.fst)) =
      some (some [[0x44], xName], some true) := by decide +kernel
  obtain ⟨v, ran, facts⟩ := Option.map_eq_some_iff.mp mounted
  rw [ran, Option.map_some, Option.some.injEq] at openedHere listing_
  simp only [Prod.mk.injEq] at facts openedHere listing_
  obtain ⟨walked, traversable, fs, ident, children⟩ := facts
  obtain ⟨inode, opened, few⟩ := openedHere
  obtain ⟨listed, refreshed⟩ := listing_
  obtain ⟨nodes, tree⟩ := bootCalls_tree ran
  obtain ⟨⟨mounted, entry⟩, identIs, rfl⟩ := Option.map_eq_some_iff.mp ident
  obtain ⟨fd, fdIs, fdFields⟩ := Option.map_eq_some_iff.mp opened
  obtain ⟨path, fdInode⟩ := Prod.mk.inj fdFields
  obtain ⟨dirents, direntsIs, names⟩ := Option.map_eq_some_iff.mp listed
  obtain ⟨⟨_, u⟩, refreshedIs, rfl⟩ := Option.map_eq_some_iff.mp refreshed
  refine ⟨v, nodes, 10, entry, fd, dirents, u, ran, ⟨tree, walked, traversable, fs, identIs⟩, fdIs, path,
    fdInode.trans inode.symm, ?_, names, ?_, children, refreshedIs⟩
  · rw [few]
    decide
  · rw [fdInode, direntsIs]

theorem Booted.absent {v u : Vfs Fat32Ident} {fd : NodeDesc} {dirents : List Dirent}
    (booted : Booted v nodes folder entry fd dirents u) (name : CString) :
    childNamed v folder name = none := by
  rw [childNamed, booted.children]
  rfl

end HanOS.Fs
