import HanOS.Foundations.ByteMem
import HanOS.Core.Page

/-!
# FAT32 volumes (`fs/fat32.h`, `fs/fat32.c`)

A mounted volume is what every `fat32_ident_t` of it shares: the boot-sector values,
the FAT array in kernel memory and the disk.  Byte `i` of sector `lba` is byte
`lba * bytesPerSector + i` of `disk`, and a transfer moves exactly the sectors asked
for; the ATA driver does so where `DriverReaches` holds.  A file is the `entry` of its
`fat32_ident_t`.

Blocks from `kmalloc` start with arbitrary content and have memory of others behind
their pages.  A read from there gives arbitrary bytes; a write to there is not
survived, and the operation has no result (`none`).  The log messages are left out.
-/

namespace HanOS.Fs

open HanOS.Foundations HanOS.Lib HanOS.Core

structure Fat32BsInfo where
  bytesPerSector : Nat
  sectorsPerCluster : Nat
  reservedSectorCount : Nat
  numFats : Nat
  sectorsPerFat : Nat
  rootDirFirstCluster : Nat
  fatBeginLba : Nat
  clusterBeginLba : Nat
  totalSectors : Nat
  deriving DecidableEq, Repr

instance nameNeZero : NeZero 11 := ⟨by decide⟩

structure Fat32Entry where
  name : Fin 11 → Byte
  attr : Byte
  clusterBegin : Nat
  fileSizeBytes : Nat
  dirEntryCluster : Nat
  dirEntryIndex : Nat

structure Volume where
  bs : Fat32BsInfo
  /-- The address of the FAT array. -/
  fat : Nat
  /-- Its length in bytes. -/
  fatLen : Nat
  mem : Mem
  disk : Mem

namespace Volume

def bytesPerCluster (vol : Volume) : Nat := vol.bs.bytesPerSector * vol.bs.sectorsPerCluster

def clusterLba (vol : Volume) (cluster : Nat) : Nat :=
  u32 (vol.bs.clusterBeginLba + sub32 cluster 2 * vol.bs.sectorsPerCluster)

/-! ## Sector transfers -/

/-- A transfer as the driver makes it on a volume that it reaches (`DriverReaches`); its registers and
    its loops are those of `Device.ataPioRead28`, which does this (`transfers_refine`). -/
def ataPioRead28 (vol : Volume) (lba sectorCount : Nat) (target : Mem) (position : Nat) : Mem :=
  blit target position vol.disk (lba * vol.bs.bytesPerSector) (sectorCount * vol.bs.bytesPerSector)

def ataPioWrite28 (vol : Volume) (lba sectorCount : Nat) (source : Mem) (position : Nat) : Volume :=
  { vol with
    disk := blit vol.disk (lba * vol.bs.bytesPerSector) source position
      (sectorCount * vol.bs.bytesPerSector) }

/-! ## The FAT array -/

/-- `fat[cluster]`; an index past the array reads the memory behind it. -/
def entryAt (vol : Volume) (cluster : Nat) : Nat := loadLE vol.mem (vol.fat + 4 * cluster) 4

def setEntry (vol : Volume) (cluster value : Nat) : Volume :=
  { vol with mem := storeLE vol.mem (vol.fat + 4 * cluster) 4 value }

end Volume

def fat32GetNextCluster (vol : Volume) (cluster : Nat) : Nat :=
  if vol.fatLen / 4 ≤ cluster then 0
  else if 0xFFFFFFF8 ≤ vol.entryAt cluster then 0
  else if vol.entryAt cluster = 0x0FFFFFFF then 0
  else vol.entryAt cluster

/-- The bound of the search is the length in bytes. -/
def fat32GetFreeCluster (vol : Volume) : Nat :=
  ((List.range vol.fatLen).find? fun i => vol.entryAt i = 0).getD 0

/-! ## Directory slots -/

/-- `fat32_write_entry`, through a sector buffer of 512 bytes on the stack. -/
def fat32WriteEntry (vol : Volume) (src : Fat32Entry) : Option Volume :=
  let lba := vol.clusterLba src.dirEntryCluster
  let de := src.dirEntryIndex * 32
  if 512 < vol.bs.bytesPerSector ∨ 512 < de + 32 then none
  else
    let dd := vol.ataPioRead28 lba 1 (fun _ => 0) 0
    let dd := blit dd de (fun i => if inside : i < 11 then src.name ⟨i, inside⟩ else 0) 0 11
    let dd := storeLE dd (de + 11) 1 src.attr.toNat
    let dd := storeLE dd (de + 20) 2 (src.clusterBegin / 2 ^ 16)
    let dd := storeLE dd (de + 26) 2 src.clusterBegin
    let dd := storeLE dd (de + 28) 4 src.fileSizeBytes
    some (vol.ataPioWrite28 lba 1 dd 0)

/-! ## Reading -/

structure Staged where
  dd : Mem
  visited : List Nat

/-- The loop of `fat32_read`.  `readlen` is `temp_readlen`. -/
def readLoop (vol : Volume) : Nat → Nat → Nat → Mem → Option Staged
  | 0, _, _, _ => none
  | fuel + 1, cluster, readlen, dd =>
    let dd := vol.ataPioRead28 (vol.clusterLba cluster) vol.bs.sectorsPerCluster dd readlen
    let next := fat32GetNextCluster vol cluster
    if next = 0 then some { dd, visited := [cluster] }
    else
      (readLoop vol fuel next (readlen + vol.bytesPerCluster) dd).map fun staged =>
        { staged with visited := cluster :: staged.visited }

/-- A walk longer than this meets a cluster twice and does not end. -/
def walkFuel (vol : Volume) : Nat := vol.fatLen / 4 + 1

def sectorBytes (vol : Volume) (offset len : Nat) : Nat :=
  divRoundup64 (offset + len) vol.bs.bytesPerSector * vol.bs.bytesPerSector

/-- `fat32_read`: the length it returns and the caller's buffer.  `block` is what `kmalloc` gives;
    the loop reads the whole chain into it, however long the block is. -/
def fat32Read (vol : Volume) (entry : Fat32Entry) (offset len : Nat) (block buff : Mem) :
    Option (Int × Mem) :=
  let total := sectorBytes vol offset len
  match readLoop vol (walkFuel vol) entry.clusterBegin 0 block with
  | none => none
  | some staged =>
    if pageAlignUp total < staged.visited.length * vol.bytesPerCluster then none
    else
      let retlen := min (total - offset) len
      some ((retlen : Int), blit buff 0 staged.dd offset retlen)

/-! ## Writing -/

/-- The position of the loop of `fat32_write` and the clusters it has written, in order. -/
structure Flush where
  vol : Volume
  cluster : Nat
  visited : List Nat

/-- The number of the FAT sector for a cluster, counted from one. -/
def fatSectorNo (vol : Volume) (cluster : Nat) : Nat :=
  divRoundup32 (cluster * 4) vol.bs.bytesPerSector

/-- Sector `no - 1` of the array, written to the same sector of the first FAT. -/
def writeFatSector (vol : Volume) (no : Nat) : Volume :=
  let sector := sub64 no 1
  vol.ataPioWrite28 (u32 (vol.bs.fatBeginLba + sector)) 1 vol.mem
    (u64 (vol.fat + sector * vol.bs.bytesPerSector))

/-- Puts `next` behind `cluster` as the new end of the chain. -/
def linkCluster (vol : Volume) (cluster next : Nat) : Volume :=
  let vol := (vol.setEntry cluster next).setEntry next 0x0FFFFFFF
  let no := fatSectorNo vol cluster
  let nextNo := fatSectorNo vol next
  let vol := writeFatSector vol no
  if nextNo ≠ no then writeFatSector vol nextNo else vol

def Flush.write (flush : Flush) (dd : Mem) (writelen : Nat) : Flush :=
  { flush with
    vol := flush.vol.ataPioWrite28 (flush.vol.clusterLba flush.cluster)
      flush.vol.bs.sectorsPerCluster dd writelen
    visited := flush.visited ++ [flush.cluster] }

def Flush.advance (flush : Flush) : Flush :=
  let next := fat32GetNextCluster flush.vol flush.cluster
  if next = 0 then
    let next := fat32GetFreeCluster flush.vol
    { flush with vol := linkCluster flush.vol flush.cluster next, cluster := next }
  else { flush with cluster := next }

/-- The loop of `fat32_write`.  `writelen` is `temp_writelen`. -/
def writeLoop (dd : Mem) (total : Nat) : Nat → Nat → Flush → Option Flush
  | 0, _, _ => none
  | fuel + 1, writelen, flush =>
    let flush := flush.write dd writelen
    let writelen := writelen + flush.vol.bytesPerCluster
    if total ≤ writelen then some flush
    else writeLoop dd total fuel writelen flush.advance

structure Written where
  retlen : Int
  vol : Volume
  entry : Fat32Entry
  visited : List Nat

/-- The end of `fat32_write`: a file that reaches further gets its slot updated. -/
def updateEntry (entry : Fat32Entry) (size retlen : Nat) (flush : Flush) : Option Written :=
  if entry.fileSizeBytes < size then
    let entry := { entry with fileSizeBytes := u32 size }
    (fat32WriteEntry flush.vol entry).map fun vol =>
      { retlen, vol, entry, visited := flush.visited }
  else some { retlen, vol := flush.vol, entry, visited := flush.visited }

/-- `fat32_write`, with the blocks that `kmalloc` gives it and the `fat32_read` it calls. -/
def fat32Write (vol : Volume) (entry : Fat32Entry) (offset len : Nat) (buff block readBlock : Mem) :
    Option Written :=
  let total := sectorBytes vol offset len
  match fat32Read vol entry 0 total readBlock block with
  | none => none
  | some (_, dd) =>
    if pageAlignUp total < offset + len then none
    else
      let dd := blit dd offset buff 0 len
      match writeLoop dd total (total + 1) 0 { vol, cluster := entry.clusterBegin, visited := [] } with
      | none => none
      | some flush =>
        let retlen := min (total - offset) len
        updateEntry entry (offset + len) retlen flush

/-! ## Refreshing a directory -/

/-- The loop of `fat32_refresh` over the clusters of a directory.  `pass` is what it does with the
    entries in `temp_buffer`; it uses `temp_cluster` and does not assign it. -/
def refreshLoop {Items : Type} (vol : Volume) (pass : Mem → Nat → Items → Mem × Items) :
    Nat → Nat → Mem → Items → Option (List Nat × Items)
  | 0, _, _, _ => none
  | fuel + 1, cluster, tempBuffer, items =>
    let tempBuffer :=
      vol.ataPioRead28 (vol.clusterLba cluster) vol.bs.sectorsPerCluster tempBuffer 0
    let next := fat32GetNextCluster vol cluster
    let (tempBuffer, items) := pass tempBuffer next items
    if next = 0 ∨ 0xFFFFFFF8 ≤ next then some ([cluster], items)
    else
      (refreshLoop vol pass fuel next tempBuffer items).map fun (visited, items) =>
        (cluster :: visited, items)

/-- `fat32_refresh`: the clusters it visits and the items it has then. -/
def fat32Refresh {Items : Type} (vol : Volume) (pass : Mem → Nat → Items → Mem × Items)
    (entry : Fat32Entry) (tempBuffer : Mem) (items : Items) : Option (List Nat × Items) :=
  refreshLoop vol pass (walkFuel vol)
    (if entry.clusterBegin < 2 then 2 else entry.clusterBegin) tempBuffer items

end HanOS.Fs
