import HanOS.Fs.Fat32Flush

/-!
# The layout of a volume

Where the FAT and the clusters of a volume lie on the disk and in memory, and what
linking one cluster to another does to the entries, to the free clusters and to the
sectors of the first FAT.
-/

namespace HanOS.Fs

open HanOS.Foundations HanOS.Lib HanOS.Core

variable {vol vol' : Volume} {cluster next no : Nat}

/-! ## Geometry -/

/-- What the boot sector of a FAT32 volume gives and `fat32_mount` sets up: sectors and clusters
    are not empty, the first FAT fills `sectorsPerFat` sectors in front of the clusters, cluster
    numbers stay below the marks and sector numbers in 32 bits. -/
structure Layout (vol : Volume) : Prop where
  sector : 0 < vol.bs.bytesPerSector
  sectorBound : vol.bs.bytesPerSector < 2 ^ 16
  words : 4 ∣ vol.bs.bytesPerSector
  cluster : 0 < vol.bs.sectorsPerCluster
  array : vol.fatLen = vol.bs.sectorsPerFat * vol.bs.bytesPerSector
  arrayAddress : vol.fat + vol.fatLen ≤ 2 ^ 64
  marks : vol.entries ≤ 0x0FFFFFF7
  regions : vol.bs.fatBeginLba + vol.bs.sectorsPerFat ≤ vol.bs.clusterBeginLba
  addressable : vol.bs.clusterBeginLba + vol.entries * vol.bs.sectorsPerCluster ≤ 2 ^ 32

/-- The volume is one for the ATA driver, whose sectors have 512 bytes and whose sector numbers 28 bits;
    it reads and writes at most 255 sectors at a time. -/
structure DriverReaches (vol : Volume) : Prop where
  sector : vol.bs.bytesPerSector = 512
  count : vol.bs.sectorsPerCluster < 2 ^ 8
  numbers : vol.bs.clusterBeginLba + vol.entries * vol.bs.sectorsPerCluster ≤ 2 ^ 28

theorem DriverReaches.congr (reaches : DriverReaches vol) (bs : vol'.bs = vol.bs)
    (fatLen : vol'.fatLen = vol.fatLen) : DriverReaches vol' := by
  obtain ⟨⟩ := reaches
  constructor <;> simp_all [Volume.entries]

def clusterOffset (vol : Volume) (cluster : Nat) : Nat :=
  vol.clusterLba cluster * vol.bs.bytesPerSector

def fatOffset (vol : Volume) : Nat := vol.bs.fatBeginLba * vol.bs.bytesPerSector

theorem Layout.congr (layout : Layout vol) (bs : vol'.bs = vol.bs) (fat : vol'.fat = vol.fat)
    (fatLen : vol'.fatLen = vol.fatLen) : Layout vol' := by
  obtain ⟨⟩ := layout
  constructor <;> simp_all [Volume.entries]

theorem Layout.positive (layout : Layout vol) : 0 < vol.bytesPerCluster :=
  Nat.mul_pos layout.sector layout.cluster

theorem Layout.fatLen_eq (layout : Layout vol) : vol.fatLen = 4 * vol.entries := by
  have divides : 4 ∣ vol.fatLen := layout.array ▸ Dvd.dvd.mul_left layout.words _
  rw [Volume.entries, Nat.mul_div_cancel' divides]

theorem Volume.isCluster_congr (fatLen : vol'.fatLen = vol.fatLen) :
    vol'.IsCluster cluster ↔ vol.IsCluster cluster := by
  simp only [Volume.IsCluster, Volume.entries, fatLen]

theorem clusterOffset_congr (bs : vol'.bs = vol.bs) :
    clusterOffset vol' cluster = clusterOffset vol cluster := by
  simp only [clusterOffset, Volume.clusterLba, bs]

theorem Flush.write_disk (flush : Flush) (dd : Mem) (position : Nat) :
    (flush.write dd position).vol.disk =
      blit flush.vol.disk (clusterOffset flush.vol flush.cluster) dd position
        flush.vol.bytesPerCluster := by
  simp only [Flush.write, Volume.ataPioWrite28, clusterOffset, Volume.bytesPerCluster,
    mul_comm flush.vol.bs.sectorsPerCluster]

/-- Clusters lie one behind the other. -/
theorem Layout.clusterOffset_eq (layout : Layout vol) (isCluster : vol.IsCluster cluster) :
    clusterOffset vol cluster =
      vol.bs.clusterBeginLba * vol.bs.bytesPerSector + (cluster - 2) * vol.bytesPerCluster := by
  have inside : (cluster - 2) * vol.bs.sectorsPerCluster <
      vol.entries * vol.bs.sectorsPerCluster :=
    Nat.mul_lt_mul_of_pos_right (by have := isCluster.2; omega) layout.cluster
  have addressable := layout.addressable
  rw [clusterOffset, Volume.clusterLba, sub32_of_le isCluster.1, u32_of_lt (by omega),
    Volume.bytesPerCluster]
  ring

theorem Layout.clusters_apart (layout : Layout vol) {other : Nat}
    (isCluster : vol.IsCluster cluster) (otherIsCluster : vol.IsCluster other)
    (different : cluster ≠ other) :
    clusterOffset vol cluster + vol.bytesPerCluster ≤ clusterOffset vol other ∨
      clusterOffset vol other + vol.bytesPerCluster ≤ clusterOffset vol cluster := by
  rw [layout.clusterOffset_eq isCluster, layout.clusterOffset_eq otherIsCluster]
  have twoLe := isCluster.1
  have otherTwoLe := otherIsCluster.1
  rcases Nat.lt_or_gt_of_ne different with below | above
  · have step := Nat.mul_le_mul_right vol.bytesPerCluster (show cluster - 2 + 1 ≤ other - 2 by omega)
    rw [Nat.add_mul, Nat.one_mul] at step
    omega
  · have step := Nat.mul_le_mul_right vol.bytesPerCluster (show other - 2 + 1 ≤ cluster - 2 by omega)
    rw [Nat.add_mul, Nat.one_mul] at step
    omega

/-- The first FAT ends in front of every cluster. -/
theorem Layout.fat_before (layout : Layout vol) (isCluster : vol.IsCluster cluster) :
    fatOffset vol + vol.fatLen ≤ clusterOffset vol cluster := by
  have regions := Nat.mul_le_mul_right vol.bs.bytesPerSector layout.regions
  rw [Nat.add_mul] at regions
  rw [layout.clusterOffset_eq isCluster, fatOffset, layout.array]
  omega

/-! ## Entries and free clusters -/

/-- The clusters of the array whose entry is zero, lowest first. -/
def rawFree (vol : Volume) : List Nat :=
  (List.range vol.entries).filter fun cluster => vol.entryAt cluster = 0

/-- The first two entries do not stand for clusters and are not zero. -/
def Reserved (vol : Volume) : Prop := vol.entryAt 0 ≠ 0 ∧ vol.entryAt 1 ≠ 0

theorem mem_rawFree : cluster ∈ rawFree vol ↔ cluster < vol.entries ∧ vol.entryAt cluster = 0 := by
  simp [rawFree]

theorem rawFree_nodup (vol : Volume) : (rawFree vol).Nodup := List.nodup_range.filter _

theorem isCluster_of_mem_rawFree (reserved : Reserved vol) (free : cluster ∈ rawFree vol) :
    vol.IsCluster cluster := by
  obtain ⟨inside, zero⟩ := mem_rawFree.mp free
  refine ⟨?_, inside⟩
  by_contra below
  obtain rfl | rfl : cluster = 0 ∨ cluster = 1 := by omega
  · exact reserved.1 zero
  · exact reserved.2 zero

/-- The search finds the lowest free cluster of the array, if there is one. -/
theorem fat32GetFreeCluster_of_cons {rest : List Nat} (free : rawFree vol = cluster :: rest) :
    fat32GetFreeCluster vol = cluster := by
  have found : (List.range vol.entries).find? (fun c => vol.entryAt c = 0) = some cluster := by
    rw [← List.head?_filter]
    exact congrArg List.head? free
  have longer : vol.fatLen = vol.entries + (vol.fatLen - vol.entries) := by
    rw [Volume.entries]; omega
  rw [fat32GetFreeCluster, longer, List.range_add, List.find?_append, found]
  rfl

theorem entryAt_setEntry {value other : Nat} (small : value < 2 ^ 32) :
    (vol.setEntry cluster value).entryAt other =
      if other = cluster then value else vol.entryAt other := by
  simp only [Volume.entryAt, Volume.setEntry]
  split
  · next same => rw [same, loadLE_storeLE_of_lt (by simpa using small)]
  · next different => rw [loadLE_storeLE_disjoint (by omega)]

theorem entryAt_linkCluster {other : Nat} (small : next < 2 ^ 32) :
    (linkCluster vol cluster next).entryAt other =
      if other = next then 0x0FFFFFFF else if other = cluster then next else vol.entryAt other := by
  have entry : (linkCluster vol cluster next).entryAt other =
      ((vol.setEntry cluster next).setEntry next 0x0FFFFFFF).entryAt other := by
    simp only [Volume.entryAt, linkCluster_mem, linkCluster_fat, setEntry_fat]
  rw [entry, entryAt_setEntry (by omega), entryAt_setEntry small]

/-- Linking a free cluster takes it from the free ones. -/
theorem rawFree_linkCluster {rest : List Nat} (free : rawFree vol = next :: rest)
    (used : vol.entryAt cluster ≠ 0) (nonzero : next ≠ 0) (small : next < 2 ^ 32) :
    rawFree (linkCluster vol cluster next) = rest := by
  have nodup := free ▸ rawFree_nodup vol
  have filtered : rawFree (linkCluster vol cluster next) = (rawFree vol).filter (· ≠ next) := by
    rw [rawFree, rawFree, List.filter_filter, Volume.entries, linkCluster_fatLen, ← Volume.entries]
    refine List.filter_congr fun other _ => ?_
    rw [entryAt_linkCluster small]
    grind
  rw [filtered, free, List.filter_cons_of_neg (by simp)]
  refine List.filter_eq_self.mpr fun other member => ?_
  have different : other ≠ next := by
    rintro rfl
    exact (List.nodup_cons.mp nodup).1 member
  simpa using different

/-! ## Sectors of the FAT -/

theorem Layout.fatSectorNo_mem (layout : Layout vol) (present : 0 < cluster)
    (inside : cluster < vol.entries) :
    fatSectorNo vol cluster = (4 * cluster + (vol.bs.bytesPerSector - 1)) / vol.bs.bytesPerSector ∧
      1 ≤ fatSectorNo vol cluster ∧ fatSectorNo vol cluster ≤ vol.bs.sectorsPerFat := by
  have marks := layout.marks
  have bound := layout.sectorBound
  have positive := layout.sector
  have value : fatSectorNo vol cluster =
      (4 * cluster + (vol.bs.bytesPerSector - 1)) / vol.bs.bytesPerSector := by
    rw [fatSectorNo, divRoundup32, u32_of_lt (n := cluster * 4) (by omega), u32_of_lt (by omega),
      mul_comm cluster]
  refine ⟨value, ?_, ?_⟩
  · rw [value, Nat.one_le_div_iff positive]
    omega
  · have array := layout.array.symm.trans layout.fatLen_eq
    rw [value, Nat.div_le_iff_le_mul_add_pred positive, mul_comm vol.bs.bytesPerSector, array]
    omega

theorem Layout.sector_inside (layout : Layout vol) (first : 1 ≤ no)
    (last : no ≤ vol.bs.sectorsPerFat) :
    (no - 1) * vol.bs.bytesPerSector + vol.bs.bytesPerSector ≤ vol.fatLen := by
  have step := Nat.mul_le_mul_right vol.bs.bytesPerSector
    (show no - 1 + 1 ≤ vol.bs.sectorsPerFat by omega)
  rwa [Nat.add_mul, Nat.one_mul, ← layout.array] at step

/-- A FAT sector is written from the array to its place in the first FAT. -/
theorem Layout.writeFatSector_disk (layout : Layout vol) (first : 1 ≤ no)
    (last : no ≤ vol.bs.sectorsPerFat) :
    (writeFatSector vol no).disk =
      blit vol.disk (fatOffset vol + (no - 1) * vol.bs.bytesPerSector) vol.mem
        (vol.fat + (no - 1) * vol.bs.bytesPerSector) vol.bs.bytesPerSector := by
  have addressable := layout.addressable
  have regions := layout.regions
  have sector := layout.sector_inside first last
  have address := layout.arrayAddress
  have positive := layout.sector
  rw [writeFatSector, sub64_of_le first, u32_of_lt (by omega), u64_of_lt (by omega),
    Volume.ataPioWrite28, fatOffset, Nat.add_mul, Nat.one_mul]

theorem Layout.writeFatSector_outside (layout : Layout vol) (first : 1 ≤ no)
    (last : no ≤ vol.bs.sectorsPerFat) {x : Nat}
    (outside : x < fatOffset vol ∨ fatOffset vol + vol.fatLen ≤ x) :
    (writeFatSector vol no).disk x = vol.disk x := by
  have sector := layout.sector_inside first last
  rw [layout.writeFatSector_disk first last, blit_outside (by omega)]

/-- Linking two clusters writes nothing on the disk outside the first FAT. -/
theorem Layout.linkCluster_outside (layout : Layout vol) (present : 0 < cluster)
    (inside : cluster < vol.entries) (nextPresent : 0 < next) (nextInside : next < vol.entries)
    {x : Nat} (outside : x < fatOffset vol ∨ fatOffset vol + vol.fatLen ≤ x) :
    (linkCluster vol cluster next).disk x = vol.disk x := by
  let linked := (vol.setEntry cluster next).setEntry next 0x0FFFFFFF
  have linkedLayout : Layout linked := layout.congr rfl rfl rfl
  have no := linkedLayout.fatSectorNo_mem present inside
  have nextNo := linkedLayout.fatSectorNo_mem nextPresent nextInside
  have firstWrite := linkedLayout.writeFatSector_outside no.2.1 no.2.2 outside
  simp only [linkCluster]
  split
  · have secondLayout : Layout (writeFatSector linked (fatSectorNo linked cluster)) :=
      linkedLayout.congr (by simp) (by simp) (by simp)
    exact (secondLayout.writeFatSector_outside nextNo.2.1 nextNo.2.2 outside).trans firstWrite
  · exact firstWrite

end HanOS.Fs
