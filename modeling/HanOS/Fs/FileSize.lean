import HanOS.Fs.Fat32Slot
import HanOS.Fs.ReadClamp

/-!
# The three sizes of a file

`vfs_write` raises the size of the inode before it calls the driver, and `fat32_write` raises the size
in `ident` and writes the directory entry under a comparison of its own.  In every run on one inode
of a file the three stay the same (`sizes_agree`), if the slot is in the first sector of its cluster:
that is the sector `fat32_read_entry` and `fat32_write_entry` have a buffer for.  A second name of the
file gives it a second inode, which no write through the first one reaches.
-/

namespace HanOS.Fs

open HanOS.Foundations HanOS.Lib HanOS.Core

variable {heap : Allocator} {env : Fat32Env} {vol after : Volume} {v u : Vfs Fat32Ident}
  {entry : Fat32Entry} {chain : List Nat} {path : CString} {mode : OpenMode}
  {node : Addr} {cluster index offset len size retlen : Nat} {buff block readBlock : Mem}

/-! ## Calls -/

structure VolumeState where
  v : Vfs Fat32Ident
  vol : Volume

inductive FileCall
  | open_ (path : CString) (mode : OpenMode)
  | seek (handle : Int) (pos : Nat)
  | write (handle : Int) (len : Nat) (buff block readBlock : Mem)
  | read (handle : Int) (len : Nat) (block buff : Mem)

def VolumeState.call (heap : Allocator) (env : Fat32Env) (s : VolumeState) :
    FileCall → Option VolumeState
  | .open_ path mode =>
    (vfsOpen heap (fat32Driver s.vol env) s.v path mode).map fun (_, v) => { s with v }
  | .seek handle pos => some { s with v := (vfsSeek s.v handle pos).2 }
  | .write handle len buff block readBlock =>
    (vfsWrite s.v s.vol handle len buff block readBlock).map fun (_, v, vol) => ⟨v, vol⟩
  | .read handle len block buff => (vfsRead s.v s.vol handle len block buff).map fun _ => s

/-- In every open inode of the file in this slot, the size is that of its entry in memory and that of
    the slot on the disk. -/
def SizesAgree (s : VolumeState) (cluster index : Nat) : Prop :=
  ∀ fd ident, some fd ∈ s.v.openfiles → (s.v.inodes fd.inode).ident = some ident →
    ident.entry.dirEntryCluster = cluster → ident.entry.dirEntryIndex = index →
    (s.v.inodes fd.inode).size = ident.entry.fileSizeBytes ∧
      ident.entry.fileSizeBytes = (slotAt s.vol cluster index).fileSizeBytes

/-- The calls use the file through one inode, reads and writes stay below 2^32, and they have room: a
    block for the chain, and for a write free clusters enough. -/
def OneInode (heap : Allocator) (env : Fat32Env) (node : Addr) (s : VolumeState) : FileCall → Prop
  | .open_ path _ => ∃ tnode, findNode heap (fat32Driver s.vol env) s.v path = some tnode ∧
      (s.v.tnodes tnode).inode = node
  | .seek _ _ => True
  | .write handle len _ _ _ => ∀ fd, vfsHandleToFd s.v handle = some fd → fd.mode ≠ .read →
      fd.inode = node ∧ fd.seekPos + len < 2 ^ 32 ∧
        ∀ ident chain, (s.v.inodes node).ident = some ident →
          FatChain s.vol ident.entry.clusterBegin chain →
          ident.mounted ∧ WriteFits s.vol ident.entry chain fd.seekPos len
  | .read handle len _ _ => ∀ fd asked, vfsHandleToFd s.v handle = some fd →
      readAsk (s.v.inodes fd.inode).size fd.seekPos len = some asked →
      fd.inode = node ∧ fd.seekPos + asked < 2 ^ 32 ∧
        ∀ ident chain, (s.v.inodes node).ident = some ident →
          FatChain s.vol ident.entry.clusterBegin chain →
          ident.mounted ∧ ChainFits s.vol chain (sectorBytes s.vol fd.seekPos asked)

/-- A file with a chain the code understands and a slot in the first sector of a cluster of another
    chain. -/
structure SoundFile (vol : Volume) (entry : Fat32Entry) (chain : List Nat) : Prop where
  layout : Layout vol
  reserved : Reserved vol
  reaches : DriverReaches vol
  readable : Readable vol entry.clusterBegin chain
  slot : vol.IsCluster entry.dirEntryCluster
  slotUsed : vol.entryAt entry.dirEntryCluster ≠ 0
  slotApart : entry.dirEntryCluster ∉ chain
  first : entry.dirEntryIndex < 16

/-! ## The size in the slot -/

theorem fat32WriteEntry_size (written : fat32WriteEntry vol entry = some after)
    (sector : vol.bs.bytesPerSector = 512) :
    (slotAt after entry.dirEntryCluster entry.dirEntryIndex).fileSizeBytes =
      u32 entry.fileSizeBytes := by
  rw [fat32WriteEntry] at written
  split at written
  · cases written
  · next fits =>
    obtain rfl := Option.some.inj written
    simp only [slotAt, slotEntry, clusterOffset, Volume.ataPioWrite28, Volume.clusterLba, sector]
    generalize u32 (vol.bs.clusterBeginLba + sub32 entry.dirEntryCluster 2 *
      vol.bs.sectorsPerCluster) = lba
    have place : 0 + (lba * 512 + entry.dirEntryIndex * 32 + 28 - lba * 512) =
        entry.dirEntryIndex * 32 + 28 := by omega
    rw [loadLE_blit (by omega) (by omega), place, loadLE_storeLE]
    rfl

/-- A file that reaches further has its new size in memory and on the disk. -/
theorem updateEntry_sizes {flush : Flush} {written : Written}
    (updated : updateEntry entry size retlen flush = some written)
    (sector : flush.vol.bs.bytesPerSector = 512) (fits : size < 2 ^ 32) :
    written.entry = { entry with fileSizeBytes := max entry.fileSizeBytes size } ∧
      (slotAt written.vol entry.dirEntryCluster entry.dirEntryIndex).fileSizeBytes =
        if entry.fileSizeBytes < size then size
        else (slotAt flush.vol entry.dirEntryCluster entry.dirEntryIndex).fileSizeBytes := by
  rw [updateEntry] at updated
  split at updated
  · next grows =>
    obtain ⟨after, slot, rfl⟩ := Option.map_eq_some_iff.mp updated
    rw [max_eq_right grows.le, u32_of_lt fits]
    refine ⟨rfl, ?_⟩
    have stored := fat32WriteEntry_size slot sector
    rw [if_pos grows]
    simpa only [u32_of_lt fits] using stored
  · next stays =>
    obtain rfl := Option.some.inj updated
    rw [max_eq_left (not_lt.mp stays), if_neg stays]
    exact ⟨rfl, rfl⟩

/-- The clusters written leave the slot as it is. -/
theorem SoundFile.slot_kept {dd : Mem} {done : Nat} {new : List Nat} (sound : SoundFile vol entry chain)
    (grown : Grown vol entry.clusterBegin chain dd done after new) :
    (slotAt after entry.dirEntryCluster entry.dirEntryIndex).fileSizeBytes =
      (slotAt vol entry.dirEntryCluster entry.dirEntryIndex).fileSizeBytes := by
  have first := sound.first
  have sector : 512 ≤ vol.bytesPerCluster := by
    rw [Volume.bytesPerCluster, sound.reaches.sector]
    exact Nat.le_mul_of_pos_right _ sound.layout.cluster
  simp only [slotAt, slotEntry, clusterOffset_congr grown.bs]
  refine loadLE_congr fun x low high => ?_
  obtain ⟨k, rfl⟩ : ∃ k, x = clusterOffset vol entry.dirEntryCluster + k :=
    ⟨x - clusterOffset vol entry.dirEntryCluster, by omega⟩
  refine grown.flushed.untouched _ sound.slot (fun taken => ?_) k (by omega)
  exact grown.fresh sound.slotUsed sound.slotApart (List.mem_of_mem_take taken)

/-- A write leaves a sound file, whose sizes grow together. -/
theorem SoundFile.write {written : Written} (sound : SoundFile vol entry chain)
    (bound : offset + len < 2 ^ 32)
    (enough : passes vol (sectorBytes vol offset len) ≤ chain.length + (rawFree vol).length)
    (called : fat32Write vol entry offset len buff block readBlock = some written) :
    (∃ new, SoundFile written.vol written.entry (chain ++ new)) ∧
      written.entry = { entry with fileSizeBytes := max entry.fileSizeBytes (offset + len) } ∧
      (slotAt written.vol entry.dirEntryCluster entry.dirEntryIndex).fileSizeBytes =
        if entry.fileSizeBytes < offset + len then offset + len
        else (slotAt vol entry.dirEntryCluster entry.dirEntryIndex).fileSizeBytes := by
  obtain ⟨dd, flush, retlen, _, finished, updated⟩ := fat32Write_eq_some called
  obtain ⟨last, new, ended, grown, _⟩ := writeLoop_grows dd sound.layout sound.reserved
    sound.readable enough
  obtain rfl := Option.some.inj (ended.symm.trans finished)
  have concludes := updateEntry_concludes updated
  obtain ⟨entryIs, slotIs⟩ := updateEntry_sizes updated (grown.bs ▸ sound.reaches.sector) bound
  have entries : ∀ c, written.vol.entryAt c = last.vol.entryAt c := fun c => by
    simp only [Volume.entryAt, concludes.mem, concludes.fat]
  have bs := concludes.bs.trans grown.bs
  have fatLen := concludes.fatLen.trans grown.fatLen
  have fresh := grown.fresh sound.slotUsed sound.slotApart
  have reserved := grown.reserved sound.reserved
  refine ⟨⟨new, ?_⟩, entryIs, ?_⟩
  · rw [entryIs]
    refine ⟨sound.layout.congr bs (concludes.fat.trans grown.fat) fatLen, ?_,
      sound.reaches.congr bs fatLen,
      grown.readable.congr (fun c _ => entries c) concludes.fatLen,
      (Volume.isCluster_congr fatLen).mpr sound.slot, ?_, fresh, sound.first⟩
    · simpa only [Reserved, entries] using reserved
    · rw [entries, grown.kept_outside fresh]
      exact sound.slotUsed
  · rw [slotIs, sound.slot_kept grown]

/-! ## What `fat32_open` sets up -/

theorem fat32MakeNode_inode {driver : Driver Fat32Ident} {v u : Vfs Fat32Ident} {rootnode : Option Addr}
    {fe : Fat32Entry} {tnode : Addr}
    (made : fat32MakeNode heap driver v rootnode path fe = some (tnode, u)) :
    (u.inodeOf tnode).fs = some .fat32 ∧ (u.inodeOf tnode).size = fe.fileSizeBytes ∧
      ∃ ident, (u.inodeOf tnode).ident = some (driver.withEntry ident fe) := by
  obtain ⟨_, _, made⟩ := Option.bind_eq_some_iff.mp made
  obtain ⟨_, _, made⟩ := Option.bind_eq_some_iff.mp made
  obtain ⟨ident, _, made⟩ := Option.bind_eq_some_iff.mp made
  obtain ⟨rfl, rfl⟩ := Prod.mk.inj (Option.some.inj made)
  refine ⟨?_, ?_, ident, ?_⟩
  all_goals simp only [Vfs.inodeOf, Function.update_self]

theorem fat32Open_inode {driver : Driver Fat32Ident} {v u : Vfs Fat32Ident} {this tnode : Addr}
    (opened : fat32Open heap driver v this path = some (some tnode, u)) :
    ∃ rest fe ident, driver.parsePath v this rest = some fe ∧ fe.found = true ∧
      (u.inodeOf tnode).fs = some .fat32 ∧ (u.inodeOf tnode).size = fe.fileSizeBytes ∧
      (u.inodeOf tnode).ident = some (driver.withEntry ident fe) := by
  rw [fat32Open] at opened
  obtain ⟨fe, parsed, opened⟩ := Option.bind_eq_some_iff.mp opened
  split at opened
  · next found =>
    obtain ⟨w, _, opened⟩ := Option.bind_eq_some_iff.mp opened
    obtain ⟨⟨made, u'⟩, isMade, opened⟩ := Option.bind_eq_some_iff.mp opened
    obtain ⟨same, rfl⟩ := Prod.mk.inj (Option.some.inj opened)
    obtain rfl := Option.some.inj same
    obtain ⟨fs, size, ident, identIs⟩ := fat32MakeNode_inode isMade
    exact ⟨_, fe, ident, parsed, found, fs, size, identIs⟩
  · cases (Prod.mk.inj (Option.some.inj opened)).1

theorem vfsOpen_inode {fd : NodeDesc} {ident : Fat32Ident}
    (missing : findNode heap (fat32Driver vol env) v path = none)
    (opened : vfsOpen heap (fat32Driver vol env) v path mode = some (true, u))
    (last : u.openfiles.getLast? = some (some fd))
    (has : (u.inodes fd.inode).ident = some ident) :
    (u.inodes fd.inode).fs = some .fat32 ∧
      (u.inodes fd.inode).size = ident.entry.fileSizeBytes ∧ ident.entry.found = true ∧
      ∃ rest, fat32ParsePath vol env.stack env.parseFuel rest = some ident.entry := by
  obtain ⟨⟨req, w⟩, node, opened⟩ := Option.bind_eq_some_iff.mp opened
  cases req with
  | none => cases (Prod.mk.inj (Option.some.inj opened)).1
  | some tnode =>
    obtain ⟨_, rfl⟩ := Prod.mk.inj (Option.some.inj opened)
    obtain rfl : _ = fd := by simpa [pushDesc] using last
    rw [openNode, missing] at node
    obtain ⟨pn, _, node⟩ := Option.bind_eq_some_iff.mp node
    obtain ⟨pn, _, node⟩ := Option.bind_eq_some_iff.mp node
    split at node
    · cases (Prod.mk.inj (Option.some.inj node)).1
    · obtain ⟨rest, fe, old, parsed, found, fs, size, identIs⟩ := fat32Open_inode node
      obtain ⟨this, _, parsed⟩ := Option.bind_eq_some_iff.mp parsed
      split at parsed
      · simp only [pushDesc, Function.update_self] at has ⊢
        obtain rfl := Option.some.inj (identIs.symm.trans has)
        exact ⟨fs, size, found, rest, parsed⟩
      · cases parsed

/-- An entry that was found in the first sector of a cluster has the size of its slot. -/
theorem parsed_size {rest : CString} {ent : Fat32Entry} {stack : ParseScan → Mem} {fuel : Nat}
    (parsed : fat32ParsePath vol stack fuel rest = some ent) (found : ent.found = true)
    (isCluster : 2 ≤ ent.dirEntryCluster) (sector : vol.bs.bytesPerSector = 512)
    (first : ent.dirEntryIndex < 16) :
    ent.fileSizeBytes = (slotAt vol ent.dirEntryCluster ent.dirEntryIndex).fileSizeBytes := by
  rw [fat32ParsePath] at parsed
  split at parsed
  · cases parsed
  · split at parsed
    · -- the root has no slot
      obtain rfl := Option.some.inj parsed
      cases isCluster
    · obtain ⟨answer, ended, rfl⟩ := Option.map_eq_some_iff.mp parsed
      cases answer with
      | none => cases found
      | some ent =>
        obtain ⟨stack, cluster, index, rfl⟩ := parseLoop_eq_found ended
        have inCluster : (fat32ReadEntry vol stack cluster index).unescaped.dirEntryCluster = cluster :=
          unescaped_slot.1
        have at_index : (fat32ReadEntry vol stack cluster index).unescaped.dirEntryIndex = index :=
          unescaped_slot.2
        simp only [Option.getD_some, inCluster, at_index] at first ⊢
        have size : ∀ src : Fat32Entry, src.unescaped.fileSizeBytes = src.fileSizeBytes := by
          intro src
          rw [Fat32Entry.unescaped]
          split <;> rfl
        rw [size, fat32ReadEntry_eq _ sector first]

/-! ## The calls on one inode -/

/-- The inode is that of a sound file in this slot, all its sizes agree and no other inode of the file
    is open. -/
structure OnFile (s : VolumeState) (node : Addr) (cluster index : Nat) : Prop where
  fs : (s.v.inodes node).fs = some .fat32
  file : ∃ ident chain, (s.v.inodes node).ident = some ident ∧
    ident.entry.dirEntryCluster = cluster ∧ ident.entry.dirEntryIndex = index ∧
    SoundFile s.vol ident.entry chain ∧ (s.v.inodes node).size = ident.entry.fileSizeBytes ∧
    ident.entry.fileSizeBytes = (slotAt s.vol cluster index).fileSizeBytes
  alone : ∀ fd ident, some fd ∈ s.v.openfiles → (s.v.inodes fd.inode).ident = some ident →
    ident.entry.dirEntryCluster = cluster → ident.entry.dirEntryIndex = index → fd.inode = node

variable {s s' : VolumeState}

theorem OnFile.sizesAgree (onFile : OnFile s node cluster index) : SizesAgree s cluster index := by
  intro fd ident open_ has inCluster at_index
  obtain rfl := onFile.alone fd ident open_ has inCluster at_index
  obtain ⟨ident', chain, has', _, _, _, size, slot⟩ := onFile.file
  obtain rfl := Option.some.inj (has'.symm.trans has)
  exact ⟨size, slot⟩

/-- Only descriptors of inodes that were open, and of the file's own, come in. -/
theorem OnFile.redescribe {openfiles : List (Option NodeDesc)} (onFile : OnFile s node cluster index)
    (known : ∀ fd, some fd ∈ openfiles →
      fd.inode = node ∨ ∃ old, some old ∈ s.v.openfiles ∧ old.inode = fd.inode) :
    OnFile { s with v := { s.v with openfiles } } node cluster index where
  fs := onFile.fs
  file := onFile.file
  alone fd ident member has inCluster at_index := by
    obtain same | ⟨old, oldMember, same⟩ := known fd member
    · exact same
    · rw [← same] at has ⊢
      exact onFile.alone old ident oldMember has inCluster at_index

theorem mem_openfiles_of_fd {handle : Int} {fd : NodeDesc} (opened : vfsHandleToFd v handle = some fd) :
    some fd ∈ v.openfiles := by
  rw [vfsHandleToFd] at opened
  split at opened
  · cases opened
  · exact List.mem_of_getElem? (Option.join_eq_some_iff.mp opened)

theorem OnFile.seek (onFile : OnFile s node cluster index) (handle : Int) (pos : Nat) :
    OnFile { s with v := (vfsSeek s.v handle pos).2 } node cluster index := by
  rw [vfsSeek]
  split
  · exact onFile
  · next fd opened =>
    split
    · exact onFile
    · apply onFile.redescribe
      intro other member
      right
      obtain old | new := List.mem_or_eq_of_mem_set member
      · exact ⟨other, old, rfl⟩
      · obtain rfl := Option.some.inj new
        exact ⟨fd, mem_openfiles_of_fd opened, rfl⟩

theorem OnFile.setInode {inode : Inode Fat32Ident} {ident : Fat32Ident} (onFile : OnFile s node cluster index)
    (fs : inode.fs = some .fat32) (has : inode.ident = some ident) (inCluster : ident.entry.dirEntryCluster = cluster)
    (at_index : ident.entry.dirEntryIndex = index) (sound : SoundFile vol ident.entry chain)
    (size : inode.size = ident.entry.fileSizeBytes)
    (slot : ident.entry.fileSizeBytes = (slotAt vol cluster index).fileSizeBytes) :
    OnFile { v := { s.v with inodes := Function.update s.v.inodes node inode }, vol } node cluster
      index where
  fs := by simpa only [Function.update_self] using fs
  file := by
    refine ⟨ident, chain, ?_, inCluster, at_index, sound, ?_, slot⟩
    · simpa only [Function.update_self] using has
    · simpa only [Function.update_self] using size
  alone fd other member otherHas otherCluster otherIndex := by
    by_cases same : fd.inode = node
    · exact same
    · have before : (s.v.inodes fd.inode).ident = some other := by
        simpa only [Function.update_of_ne same] using otherHas
      exact onFile.alone fd other member before otherCluster otherIndex

theorem OnFile.open_ {tnode : Addr} (onFile : OnFile s node cluster index)
    (found : findNode heap (fat32Driver s.vol env) s.v path = some tnode)
    (same : (s.v.tnodes tnode).inode = node)
    (called : s.call heap env (.open_ path mode) = some s') : OnFile s' node cluster index := by
  obtain ⟨⟨ok, v⟩, opened, rfl⟩ := Option.map_eq_some_iff.mp called
  simp only [vfsOpen, openNode, found, Option.bind_eq_bind, Option.bind_some, Option.some.injEq,
    Prod.mk.injEq] at opened
  obtain ⟨_, rfl⟩ := opened
  obtain ⟨ident, chain, has, inCluster, at_index, sound, size, slot⟩ := onFile.file
  let counted := { s.v.inodes node with refcount := u32 ((s.v.inodes node).refcount + 1) }
  have recounted : OnFile { s with v := { s.v with
      inodes := Function.update s.v.inodes node counted } } node cluster index :=
    onFile.setInode onFile.fs has inCluster at_index sound size slot
  rw [pushDesc, same]
  apply recounted.redescribe
  intro fd member
  obtain old | new := List.mem_append.mp member
  · exact .inr ⟨fd, old, rfl⟩
  · obtain rfl : fd = _ := by simpa using new
    exact .inl rfl

theorem OnFile.write {handle : Int} (onFile : OnFile s node cluster index)
    (allowed : OneInode heap env node s (.write handle len buff block readBlock))
    (called : s.call heap env (.write handle len buff block readBlock) = some s') :
    OnFile s' node cluster index := by
  obtain ⟨⟨ret, v, vol⟩, wrote, rfl⟩ := Option.map_eq_some_iff.mp called
  rw [vfsWrite] at wrote
  split at wrote
  · obtain ⟨_, rfl, rfl⟩ := by simpa only [Option.some.injEq, Prod.mk.injEq] using wrote
    exact onFile
  next fd opened =>
  split at wrote
  · obtain ⟨_, rfl, rfl⟩ := by simpa only [Option.some.injEq, Prod.mk.injEq] using wrote
    exact onFile
  next writable =>
  obtain ⟨rfl, bound, room⟩ := allowed fd opened writable
  obtain ⟨ident, chain, has, inCluster, at_index, sound, size, slot⟩ := onFile.file
  obtain ⟨fs, _, wrote⟩ := Option.bind_eq_some_iff.mp wrote
  obtain ⟨ident', has', wrote⟩ := Option.bind_eq_some_iff.mp wrote
  obtain rfl := Option.some.inj (has.symm.trans has')
  split at wrote
  · cases wrote
  obtain ⟨written, written_, wrote⟩ := Option.bind_eq_some_iff.mp wrote
  obtain ⟨_, rfl, rfl⟩ := by simpa only [Option.some.injEq, Prod.mk.injEq] using wrote
  obtain ⟨_, fits⟩ := room ident chain has sound.readable.wellFormed
  obtain ⟨⟨new, after⟩, entryIs, slotIs⟩ := sound.write bound fits.enough written_
  rw [inCluster, at_index, ← slot] at slotIs
  have position : u64 (fd.seekPos + len) = fd.seekPos + len := u64_of_lt (by omega)
  apply onFile.setInode _ rfl _ _ after
  · rw [entryIs, position, size]
    exact (max_def_lt ..).symm
  · rw [slotIs, entryIs]
    exact max_def_lt ..
  · exact onFile.fs
  · rw [entryIs]
    exact inCluster
  · rw [entryIs]
    exact at_index

theorem OnFile.call {call : FileCall} (onFile : OnFile s node cluster index)
    (allowed : OneInode heap env node s call) (called : s.call heap env call = some s') :
    OnFile s' node cluster index := by
  cases call with
  | open_ path mode =>
    obtain ⟨tnode, found, same⟩ := allowed
    exact onFile.open_ found same called
  | seek handle pos =>
    obtain rfl := Option.some.inj called
    exact onFile.seek handle pos
  | write handle len buff block readBlock => exact onFile.write allowed called
  | read handle len block buff =>
    obtain ⟨_, _, rfl⟩ := Option.map_eq_some_iff.mp called
    exact onFile

/-- A call on the file that has room comes back. -/
theorem OnFile.comesBack {call : FileCall} (onFile : OnFile s node cluster index)
    (allowed : OneInode heap env node s call) : (s.call heap env call).isSome := by
  obtain ⟨ident, chain, has, _, _, sound, _, _⟩ := onFile.file
  cases call with
  | open_ path mode =>
    obtain ⟨tnode, found, _⟩ := allowed
    simp [VolumeState.call, vfsOpen, openNode, found]
  | seek handle pos => rfl
  | write handle len buff block readBlock =>
    rw [VolumeState.call, Option.isSome_map, vfsWrite]
    split
    · rfl
    next fd opened =>
    split
    · rfl
    next writable =>
    obtain ⟨rfl, _, room⟩ := allowed fd opened writable
    obtain ⟨mounted, fits⟩ := room ident chain has sound.readable.wellFormed
    obtain ⟨written, called⟩ := fits.comesBack buff block readBlock sound.layout sound.reserved
      sound.readable.wellFormed
    simp [onFile.fs, has, mounted, called]
  | read handle len block buff =>
    rw [VolumeState.call, Option.isSome_map]
    cases opened : vfsHandleToFd s.v handle with
    | none => simp [vfsRead, opened]
    | some fd =>
      rw [vfsRead_ask opened]
      cases asks : readAsk (s.v.inodes fd.inode).size fd.seekPos len with
      | none => rfl
      | some asked =>
        obtain ⟨rfl, bound, room⟩ := allowed fd asked opened asks
        obtain ⟨mounted, fits⟩ := room ident chain has sound.readable.wellFormed
        obtain ⟨reach, _⟩ := sound.layout.sectorBytes_spec
          (show fd.seekPos + asked < 2 ^ 63 by omega)
        obtain ⟨result, called⟩ := Option.isSome_iff_exists.mp
          ((fat32Read_isSome_iff sound.layout sound.readable block buff).mpr fits)
        have sectors : ¬ sectorBytes s.vol fd.seekPos asked < fd.seekPos := by omega
        simp [askDriver, onFile.fs, has, mounted, called, sectors]

/-- A file that `vfs_open` has just opened through `fat32_open`, sound and open through no other inode:
    after any calls through this inode that have room, its sizes agree, and a further such call comes
    back. -/
theorem sizes_agree {fd : NodeDesc} {ident : Fat32Ident} {final : VolumeState}
    (missing : findNode heap (fat32Driver vol env) v path = none)
    (opened : vfsOpen heap (fat32Driver vol env) v path mode = some (true, u))
    (last : u.openfiles.getLast? = some (some fd))
    (has : (u.inodes fd.inode).ident = some ident)
    (sound : SoundFile vol ident.entry chain)
    (alone : ∀ other otherIdent, some other ∈ u.openfiles →
      (u.inodes other.inode).ident = some otherIdent →
      otherIdent.entry.dirEntryCluster = ident.entry.dirEntryCluster →
      otherIdent.entry.dirEntryIndex = ident.entry.dirEntryIndex → other.inode = fd.inode)
    (run : Run (VolumeState.call heap env) (OneInode heap env fd.inode) ⟨u, vol⟩ final) :
    SizesAgree final ident.entry.dirEntryCluster ident.entry.dirEntryIndex ∧
      ∀ call, OneInode heap env fd.inode final call → (final.call heap env call).isSome := by
  obtain ⟨fs, size, found, rest, parsed⟩ := vfsOpen_inode missing opened last has
  have slot := parsed_size parsed found sound.slot.1 sound.reaches.sector sound.first
  have start : OnFile ⟨u, vol⟩ fd.inode ident.entry.dirEntryCluster ident.entry.dirEntryIndex :=
    ⟨fs, ⟨ident, chain, has, rfl, rfl, sound, size, slot⟩, alone⟩
  have onFile := run.invariant (fun s => OnFile s fd.inode _ _) start
    fun _ _ _ onFile allowed called => onFile.call allowed called
  exact ⟨onFile.sizesAgree, fun _ allowed => onFile.comesBack allowed⟩

/-! ## A second name and a second sector -/

/-- The slot of the file in the last descriptor and its first cluster. -/
def lastFile (s : VolumeState) : Option (Nat × Nat × Nat) := do
  let fd ← s.v.openfiles.getLast?.join
  let ident ← (s.v.inodes fd.inode).ident
  some (ident.entry.dirEntryCluster, ident.entry.dirEntryIndex, ident.entry.clusterBegin)

/-- The size of its entry in memory and that on the disk. -/
def lastSizes (s : VolumeState) : Option (Nat × Nat) := do
  let fd ← s.v.openfiles.getLast?.join
  let ident ← (s.v.inodes fd.inode).ident
  some (ident.entry.fileSizeBytes,
    (slotAt s.vol ident.entry.dirEntryCluster ident.entry.dirEntryIndex).fileSizeBytes)

theorem not_sizesAgree {start size onDisk : Nat} (seen : lastFile s = some (cluster, index, start))
    (sizes : lastSizes s = some (size, onDisk)) (differ : size ≠ onDisk) :
    ¬ SizesAgree s cluster index := by
  intro agree
  obtain ⟨fd, last, seen⟩ := Option.bind_eq_some_iff.mp seen
  obtain ⟨ident, has, seen⟩ := Option.bind_eq_some_iff.mp seen
  simp only [lastSizes, last, has, Option.bind_eq_bind, Option.bind_some, Option.some.injEq,
    Prod.mk.injEq] at seen sizes
  obtain ⟨rfl, rfl, _⟩ := seen
  have open_ := List.mem_of_getLast? (Option.join_eq_some_iff.mp last)
  apply differ
  rw [← sizes.1, ← sizes.2]
  exact (agree fd ident open_ has rfl rfl).2

/-- "X" has been opened for the first time on a volume mounted at boot. -/
structure XOpened (vol : Volume) (env : Fat32Env) (v u : Vfs Fat32Ident) : Prop where
  booted : bootCalls.foldlM (Vfs.step bumpAllocator (fat32Driver vol env))
    (vfsInit bumpAllocator (fat32Driver vol env) 0) = some v
  missing : findNode bumpAllocator (fat32Driver vol env) v xPath = none
  opened : vfsOpen bumpAllocator (fat32Driver vol env) v xPath .readwrite = some (true, u)

/-- "X" is opened at boot and then the calls are made. -/
def xRun (vol : Volume) (env : Fat32Env) (calls : List FileCall) : Option (Option Addr × VolumeState) := do
  let v ← bootCalls.foldlM (Vfs.step bumpAllocator (fat32Driver vol env))
    (vfsInit bumpAllocator (fat32Driver vol env) 0)
  let (true, u) ← vfsOpen bumpAllocator (fat32Driver vol env) v xPath .readwrite | none
  let s ← calls.foldlM (VolumeState.call bumpAllocator env) ⟨u, vol⟩
  some (findNode bumpAllocator (fat32Driver vol env) v xPath, s)

theorem xRun_eq_some {calls : List FileCall} (ran : xRun vol env calls = some (none, s)) :
    ∃ v u, XOpened vol env v u ∧ calls.foldlM (VolumeState.call bumpAllocator env) ⟨u, vol⟩ = some s := by
  rw [xRun, Option.bind_eq_bind, Option.bind_eq_some_iff] at ran
  obtain ⟨v, booted, ran⟩ := ran
  rw [Option.bind_eq_bind, Option.bind_eq_some_iff] at ran
  obtain ⟨⟨ok, u⟩, opened, ran⟩ := ran
  cases ok with
  | false => cases ran
  | true =>
    dsimp only at ran
    rw [Option.bind_eq_bind, Option.bind_eq_some_iff] at ran
    obtain ⟨s', called, ran⟩ := ran
    obtain ⟨missing, rfl⟩ := Prod.mk.inj (Option.some.inj ran)
    exact ⟨v, u, ⟨booted, missing, opened⟩, called⟩

/-- "/disk/0/x", which `fat32_parse_path` takes for "/disk/0/X". -/
def lowerPath : CString := absolutePath [diskName, zeroName, [0x78]]

/-- Three bytes for the first handle of "X". -/
def shortWrite : FileCall := .write 1 3 (fun _ => 0x42) (fun _ => 0) (fun _ => 0)

/-- One byte more than "X" has. -/
def longWrite : FileCall := .write 1 8 (fun _ => 0x42) (fun _ => 0) (fun _ => 0)

/-- The volume with clusters of two sectors; the first sector of the root directory has deleted
    entries only, the second one begins with "X" of 9 bytes. -/
def secondSector : Volume :=
  { fourClusters with
    bs := { fourClusters.bs with sectorsPerCluster := 2 }
    disk := fun x =>
      if x < 33 * 512 then 0
      else if x < 34 * 512 then 0xE5
      else (slotBytes [0x58] 0x20 5 9).getD (x - 34 * 512) 0 }

/-- Behind the sector buffer the stack has the bytes of "X" when it had 7 bytes. -/
def staleEnv : Fat32Env :=
  { listEnv with stack := fun _ x => (slotBytes [0x58] 0x20 5 7).getD (x - 512) 0 }

/-- The size of the second inode stays when "X" grows through the first one; and in the second sector
    of its directory the size of "X" is not that of its slot at all. -/
theorem sizes_differ :
    (∃ v u final, XOpened (treeVolume 0) listEnv v u ∧
      Run (VolumeState.call bumpAllocator listEnv) anyAction ⟨u, treeVolume 0⟩ final ∧
      ¬ SizesAgree final 2 1) ∧
    ∃ v u final, XOpened secondSector staleEnv v u ∧
      Run (VolumeState.call bumpAllocator staleEnv) anyAction ⟨u, secondSector⟩ final ∧
      ¬ SizesAgree final 2 16 := by
  constructor
  · have ran : (xRun (treeVolume 0) listEnv [.open_ lowerPath .readwrite, longWrite]).map (fun result =>
        (result.1, lastFile result.2, lastSizes result.2)) =
        some (none, some (2, 1, 5), some (7, 8)) := by decide +kernel
    obtain ⟨⟨_, final⟩, ran, facts⟩ := Option.map_eq_some_iff.mp ran
    simp only [Prod.mk.injEq] at facts
    obtain ⟨rfl, seen, sizes⟩ := facts
    obtain ⟨v, u, opened, called⟩ := xRun_eq_some ran
    exact ⟨v, u, final, opened, .of_foldlM (fun _ _ => trivial) _ called,
      not_sizesAgree seen sizes (by decide)⟩
  · have ran : (xRun secondSector staleEnv [shortWrite]).map (fun result =>
        (result.1, lastFile result.2, lastSizes result.2)) =
        some (none, some (2, 16, 5), some (7, 9)) := by decide +kernel
    obtain ⟨⟨_, final⟩, ran, facts⟩ := Option.map_eq_some_iff.mp ran
    simp only [Prod.mk.injEq] at facts
    obtain ⟨rfl, seen, sizes⟩ := facts
    obtain ⟨v, u, opened, called⟩ := xRun_eq_some ran
    exact ⟨v, u, final, opened, .of_foldlM (fun _ _ => trivial) _ called,
      not_sizesAgree seen sizes (by decide)⟩

/-! ## One name in the first sector -/

def openSlots (v : Vfs Fat32Ident) : List (Option (Addr × Option (Nat × Nat))) :=
  v.openfiles.map fun slot => slot.map fun fd =>
    (fd.inode, (v.inodes fd.inode).ident.map fun ident =>
      (ident.entry.dirEntryCluster, ident.entry.dirEntryIndex))

theorem treeVolume_sound (start : entry.clusterBegin = 5) (inCluster : entry.dirEntryCluster = 2)
    (at_index : entry.dirEntryIndex = 1) : SoundFile (treeVolume 0) entry [5] where
  layout := by constructor <;> decide +kernel
  reserved := by constructor <;> decide +kernel
  reaches := treeVolume_reaches
  readable := by
    rw [start]
    refine ⟨⟨.last (by decide +kernel), ?_⟩, ?_⟩
    · simp only [List.mem_singleton, forall_eq]
      constructor <;> decide +kernel
    · simp only [List.mem_singleton, forall_eq]
      exact .inr (.inl (by decide +kernel))
  slot := by rw [inCluster]; constructor <;> decide +kernel
  slotUsed := by rw [inCluster]; decide +kernel
  slotApart := by rw [inCluster]; decide
  first := by rw [at_index]; decide

theorem inode_of_openSlots {fd : NodeDesc} {ident : Fat32Ident} {other : Addr}
    (slots : openSlots v = [some (other, some (0, 0)), some (node, some (2, 1))])
    (open_ : some fd ∈ v.openfiles) (has : (v.inodes fd.inode).ident = some ident)
    (slot : ident.entry.dirEntryCluster = 2 ∧ ident.entry.dirEntryIndex = 1) : fd.inode = node := by
  have member : some (fd.inode, some (2, 1)) ∈ openSlots v := by
    refine List.mem_map.mpr ⟨some fd, open_, ?_⟩
    simp [has, slot]
  simpa [slots] using member

/-- "X" grows to 8 bytes. -/
theorem sizes_agree_longWrite : ∃ v u final, XOpened (treeVolume 0) listEnv v u ∧
    VolumeState.call bumpAllocator listEnv ⟨u, treeVolume 0⟩ longWrite = some final ∧
    SizesAgree final 2 1 := by
  have ran : (xRun (treeVolume 0) listEnv []).map (fun result => (result.1, lastFile result.2)) =
      some (none, some (2, 1, 5)) := by decide +kernel
  have slots : (xRun (treeVolume 0) listEnv []).map (fun result => openSlots result.2.v) =
      some [some (11, some (0, 0)), some (12, some (2, 1))] := by decide +kernel
  have first : (xRun (treeVolume 0) listEnv []).map (fun result =>
      ((vfsHandleToFd result.2.v 1).map fun fd => (fd.inode, fd.seekPos),
        (result.2.v.inodes 12).ident.map Fat32Ident.mounted)) = some (some (12, 0), some true) := by
    decide +kernel
  have grows : (xRun (treeVolume 0) listEnv []).map (fun result =>
      (VolumeState.call bumpAllocator listEnv result.2 longWrite).isSome) = some true := by
    decide +kernel
  obtain ⟨⟨missing, s⟩, run, seen⟩ := Option.map_eq_some_iff.mp ran
  simp only [run, Option.map_some, Option.some.injEq, Prod.mk.injEq] at slots first grows
  obtain ⟨rfl, seen⟩ := Prod.mk.inj seen
  obtain ⟨v, u, xOpened, called⟩ := xRun_eq_some run
  obtain rfl := Option.some.inj called
  obtain ⟨final, written⟩ := Option.isSome_iff_exists.mp grows
  obtain ⟨fd, last, seen⟩ := Option.bind_eq_some_iff.mp seen
  obtain ⟨ident, has, seen⟩ := Option.bind_eq_some_iff.mp seen
  simp only [Option.some.injEq, Prod.mk.injEq] at seen
  obtain ⟨inCluster, at_index, start⟩ := seen
  have lastIs := Option.join_eq_some_iff.mp last
  have inode := inode_of_openSlots slots (List.mem_of_getLast? lastIs) has ⟨inCluster, at_index⟩
  have sound := treeVolume_sound start inCluster at_index
  have allowed : OneInode bumpAllocator listEnv fd.inode ⟨u, treeVolume 0⟩ longWrite := by
    intro opened isOpened _
    obtain ⟨same, position⟩ : opened.inode = 12 ∧ opened.seekPos = 0 := by
      simpa [isOpened] using first.1
    refine ⟨same.trans inode.symm, by rw [position]; decide, ?_⟩
    intro other chain otherHas fatChain
    obtain rfl := Option.some.inj (has.symm.trans otherHas)
    obtain rfl := fatChain.follows.unique sound.readable.wellFormed.follows
    have staged : ChainFits (treeVolume 0) [5] (sectorBytes (treeVolume 0) 0 8) := by decide
    rw [position]
    refine ⟨?_, sound.readable.understood, by decide, staged, ?_,
      .inr ⟨sound.reaches.sector.le, sound.first⟩⟩
    · have mounted := first.2
      rw [← inode, has, Option.map_some] at mounted
      exact Option.some.inj mounted
    · have one : passes (treeVolume 0) (sectorBytes (treeVolume 0) 0 8) = 1 := by decide
      rw [one]
      exact Nat.le_add_right ..
  refine ⟨v, u, final, xOpened, written, ?_⟩
  rw [← inCluster, ← at_index]
  refine (sizes_agree xOpened.missing xOpened.opened lastIs has sound ?_
    (.tail .refl allowed written)).1
  intro other otherIdent open_ otherHas otherCluster otherIndex
  rw [inCluster] at otherCluster
  rw [at_index] at otherIndex
  rw [inode]
  exact inode_of_openSlots slots open_ otherHas ⟨otherCluster, otherIndex⟩

end HanOS.Fs
