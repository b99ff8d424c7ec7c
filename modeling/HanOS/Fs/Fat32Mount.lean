import HanOS.Fs.Fat32
import Mathlib.Data.List.Find

/-!
# Mounting a FAT32 partition (`fs/fat32.c`, `device/storage/ata.c`)

`fat32_mount` reads the whole FAT in one transfer.  The boot record has its length in 32 bits, but
`ata_pio_read28` takes the number of sectors in 8 and asks for the low part of it.  What is in memory
is the FAT of the partition exactly for up to 255 sectors of 512 bytes that the 28 bits of a sector
number reach (`fat32Mount_fat_iff`).
-/

namespace HanOS.Fs

open HanOS.Foundations HanOS.Lib HanOS.Core

/-! ## Reading sectors -/

/-- A drive; its sectors have 512 bytes. -/
structure Drive where
  sectors : Nat
  data : Mem

namespace Drive

/-- `ata_pio_read28` to `position`.  The command has 28 bits for the sector; the drive reports a
    sector it does not have, or behind the last one the command can name, as an error, and
    `ata_poll` panics. -/
def ataPioRead28 (drive : Drive) (lba sectorCount : Nat) (target : Mem) (position : Nat) :
    Option Mem :=
  let first := lba % 2 ^ 28
  let sectorCount := sectorCount % 2 ^ 8
  if sectorCount = 0 then some target
  else if min drive.sectors (2 ^ 28) < first + sectorCount then none
  else some (blit target position drive.data (first * 512) (sectorCount * 512))

end Drive

/-! ## `fat32_mount` -/

def fat32Partition (mbr : Mem) : Option Nat :=
  (List.range 4).find? fun i =>
    mbr (450 + 16 * i) = 0x0B ∨ mbr (450 + 16 * i) = 0x0C ∨ mbr (450 + 16 * i) = 0x1C

def lbaStart (mbr : Mem) (i : Nat) : Nat := loadLE mbr (454 + 16 * i) 4

def bsInfo (dd : Mem) (lbaStart : Nat) : Fat32BsInfo :=
  let reservedSectorCount := loadLE dd 14 2
  let numFats := loadLE dd 16 1
  let sectorsPerFat := loadLE dd 36 4
  let fatBeginLba := u32 (lbaStart + reservedSectorCount)
  { bytesPerSector := loadLE dd 11 2
    sectorsPerCluster := loadLE dd 13 1
    reservedSectorCount
    numFats
    sectorsPerFat
    rootDirFirstCluster := loadLE dd 44 4
    fatBeginLba
    clusterBeginLba := u32 (fatBeginLba + numFats * sectorsPerFat)
    totalSectors := loadLE dd 32 4 }

/-- What `fat32_mount` leaves in the `ident`, and the memory then. -/
structure MountedIdent where
  bs : Fat32BsInfo
  fat : Nat
  fatLen : Nat
  mem : Mem

def MountedIdent.volume (mounted : MountedIdent) (drive : Drive) : Volume :=
  { mounted with disk := drive.data }

/-- `fat32_mount`; `block` is the address `kmalloc` gives it.  `none` is a panic or a write behind
    the block. -/
def fat32Mount (drive : Drive) (mem : Mem) (block : Nat) : Option MountedIdent := do
  let unmounted : MountedIdent := ⟨⟨0, 0, 0, 0, 0, 0, 0, 0, 0⟩, 0, 0, mem⟩
  let mbr ← drive.ataPioRead28 0 1 (fun _ => 0) 0
  if ¬ (mbr 510 = 0x55 ∧ mbr 511 = 0xAA) then some unmounted
  else
    match fat32Partition mbr with
    | none => some unmounted
    | some i =>
      let dd ← drive.ataPioRead28 (lbaStart mbr i) 1 (fun _ => 0) 0
      if loadLE dd 22 2 ≠ 0 ∨ loadLE dd 19 2 ≠ 0 then none
      else
        let bs := bsInfo dd (lbaStart mbr i)
        let fatLen := u32 (bs.sectorsPerFat * bs.bytesPerSector)
        let mem ← drive.ataPioRead28 bs.fatBeginLba bs.sectorsPerFat mem block
        if pageAlignUp fatLen < bs.sectorsPerFat % 2 ^ 8 * 512 then none
        else some { bs, fat := block, fatLen, mem }

/-! ## FAT32 partitions -/

/-- A FAT32 partition at sector `lba` that `fat32_mount` chooses. -/
structure IsFat32 (drive : Drive) (lba : Nat) (bs : Fat32BsInfo) : Prop where
  signature : drive.data 510 = 0x55 ∧ drive.data 511 = 0xAA
  chosen : (fat32Partition drive.data).map (lbaStart drive.data) = some lba
  boot : bsInfo (fun x => drive.data (512 * lba + x)) lba = bs
  noFat16 : loadLE drive.data (512 * lba + 22) 2 = 0 ∧ loadLE drive.data (512 * lba + 19) 2 = 0
  bytesPerSector : 512 ∣ bs.bytesPerSector ∧ 0 < bs.bytesPerSector
  reserved : 1 ≤ bs.reservedSectorCount
  sectorsPerFat : 1 ≤ bs.sectorsPerFat
  inside : 512 * lba + (bs.reservedSectorCount + bs.sectorsPerFat) * bs.bytesPerSector ≤
    512 * drive.sectors

def fatArea (lba : Nat) (bs : Fat32BsInfo) : Nat :=
  512 * lba + bs.reservedSectorCount * bs.bytesPerSector

def Drive.withFat (drive : Drive) (lba : Nat) (bs : Fat32BsInfo) (fat : Mem) : Drive :=
  { drive with
    data := blit drive.data (fatArea lba bs) fat 0 (bs.sectorsPerFat * bs.bytesPerSector) }

def MountedIdent.HasFat (mounted : MountedIdent) (drive : Drive) (lba : Nat) (bs : Fat32BsInfo) : Prop :=
  mounted.fatLen = bs.sectorsPerFat * bs.bytesPerSector ∧
    ∀ c < mounted.fatLen / 4, (mounted.volume drive).entryAt c =
      loadLE drive.data (fatArea lba bs + 4 * c) 4

variable {drive drive' : Drive} {lba block count position x : Nat} {bs : Fat32BsInfo}
variable {fat mem mem' target : Mem} {mounted : MountedIdent}

/-! ## What a mount reads -/

theorem ataPioRead28_congr (sectors : drive.sectors = drive'.sectors)
    (same : ∀ x < 2 ^ 28 * 512, drive.data x = drive'.data x) :
    drive.ataPioRead28 lba count target position =
      drive'.ataPioRead28 lba count target position := by
  rw [Drive.ataPioRead28, Drive.ataPioRead28, sectors]
  by_cases none_ : count % 2 ^ 8 = 0
  · rw [if_pos none_, if_pos none_]
  · rw [if_neg none_, if_neg none_]
    by_cases beyond : min drive'.sectors (2 ^ 28) < lba % 2 ^ 28 + count % 2 ^ 8
    · rw [if_pos beyond, if_pos beyond]
    · rw [if_neg beyond, if_neg beyond]
      congr 1
      funext x
      rw [blit, blit]
      split
      · exact same _ (by omega)
      · rfl

/-- No sector behind the first 2²⁸ is read. -/
theorem fat32Mount_congr (sectors : drive.sectors = drive'.sectors)
    (same : ∀ x < 2 ^ 28 * 512, drive.data x = drive'.data x) :
    fat32Mount drive mem block = fat32Mount drive' mem block := by
  simp only [fat32Mount, ataPioRead28_congr sectors same]

theorem ataPioRead28_one (inside : lba < 2 ^ 28) (there : lba < drive.sectors) :
    drive.ataPioRead28 lba 1 (fun _ => 0) 0 =
      some (blit (fun _ => 0) 0 drive.data (512 * lba) 512) := by
  rw [Drive.ataPioRead28]
  rw [if_neg (by decide), Nat.mod_eq_of_lt inside, if_neg (by omega), Nat.mul_comm lba]
  rfl

theorem ataPioRead28_outside (ran : drive.ataPioRead28 lba count target position = some mem)
    (outside : x < position ∨ position + count % 2 ^ 8 * 512 ≤ x) : mem x = target x := by
  rw [Drive.ataPioRead28] at ran
  by_cases none_ : count % 2 ^ 8 = 0
  · rw [if_pos none_] at ran
    rw [← Option.some.inj ran]
  · rw [if_neg none_] at ran
    by_cases beyond : min drive.sectors (2 ^ 28) < lba % 2 ^ 28 + count % 2 ^ 8
    · rw [if_pos beyond] at ran
      cases ran
    · rw [if_neg beyond] at ran
      rw [← Option.some.inj ran, blit_outside outside]

theorem bsInfo_congr (same : ∀ x < 512, mem x = mem' x) : bsInfo mem lba = bsInfo mem' lba := by
  have word : ∀ a width, a + width ≤ 512 → loadLE mem a width = loadLE mem' a width :=
    fun a width inside => loadLE_congr fun x _ below => same x (by omega)
  simp only [bsInfo]
  rw [word 14 2 (by decide), word 16 1 (by decide), word 36 4 (by decide), word 11 2 (by decide),
    word 13 1 (by decide), word 44 4 (by decide), word 32 4 (by decide)]

theorem fat32Partition_congr (same : ∀ x < 512, mem x = mem' x) :
    (fat32Partition mem).map (lbaStart mem) = (fat32Partition mem').map (lbaStart mem') := by
  have type_ : fat32Partition mem = fat32Partition mem' := by
    rw [fat32Partition, fat32Partition]
    refine List.find?_congr fun i member => ?_
    rw [same _ (by have := List.mem_range.mp member; omega)]
  rw [type_]
  cases found : fat32Partition mem' with
  | none => rfl
  | some i =>
    have below : i < 4 := List.mem_range.mp (List.mem_of_find?_eq_some found)
    rw [Option.map_some, Option.map_some, lbaStart, lbaStart,
      loadLE_congr fun x _ inside => same x (by omega)]

theorem fatArea_le (part : IsFat32 drive lba bs) : 512 * lba + 512 ≤ fatArea lba bs := by
  have whole := Nat.le_of_dvd part.bytesPerSector.2 part.bytesPerSector.1
  have first := Nat.le_mul_of_pos_left bs.bytesPerSector part.reserved
  rw [fatArea]
  omega

theorem withFat_before (before : x < fatArea lba bs) :
    (drive.withFat lba bs fat).data x = drive.data x :=
  blit_outside (.inl before)

/-- What is in the FAT has no part in where it is. -/
theorem IsFat32.withFat (part : IsFat32 drive lba bs) : IsFat32 (drive.withFat lba bs fat) lba bs := by
  have area := fatArea_le part
  have low : ∀ x < 512 * lba + 512, (drive.withFat lba bs fat).data x = drive.data x :=
    fun x below => withFat_before (by omega)
  have word : ∀ a, a + 2 ≤ 512 → loadLE (drive.withFat lba bs fat).data (512 * lba + a) 2 =
      loadLE drive.data (512 * lba + a) 2 :=
    fun a inside => loadLE_congr fun x _ below => low x (by omega)
  refine ⟨?_, ?_, ?_, ?_, part.bytesPerSector, part.reserved, part.sectorsPerFat, part.inside⟩
  · rw [low 510 (by omega), low 511 (by omega)]
    exact part.signature
  · rw [fat32Partition_congr fun x below => low x (by omega)]
    exact part.chosen
  · rw [bsInfo_congr fun x below => low _ (by omega)]
    exact part.boot
  · rw [word 22 (by decide), word 19 (by decide)]
    exact part.noFat16

/-- The boot sector is the one of the partition when 28 bits reach it. -/
theorem IsFat32.mount (part : IsFat32 drive lba bs) (low : lba < 2 ^ 28) :
    fat32Mount drive mem block =
      (drive.ataPioRead28 bs.fatBeginLba bs.sectorsPerFat mem block).bind fun mem =>
        if pageAlignUp (u32 (bs.sectorsPerFat * bs.bytesPerSector)) <
          bs.sectorsPerFat % 2 ^ 8 * 512 then none
        else some ⟨bs, block, u32 (bs.sectorsPerFat * bs.bytesPerSector), mem⟩ := by
  have there : lba < drive.sectors := by
    have area := fatArea_le part
    have inside := part.inside
    rw [Nat.add_mul] at inside
    rw [fatArea] at area
    omega
  have mbr : ∀ x < 512, blit (fun _ => 0) 0 drive.data (512 * 0) 512 x = drive.data x := by
    intro x below
    rw [blit_inside (by omega) (by omega), Nat.mul_zero, Nat.sub_zero, Nat.zero_add]
  have boot : ∀ x < 512, blit (fun _ => 0) 0 drive.data (512 * lba) 512 x =
      drive.data (512 * lba + x) := by
    intro x below
    rw [blit_inside (by omega) (by omega), Nat.sub_zero]
  obtain ⟨i, found, start⟩ := Option.map_eq_some_iff.mp
    ((fat32Partition_congr mbr).trans part.chosen)
  have word : ∀ a, a + 2 ≤ 512 → loadLE (blit (fun _ => 0) 0 drive.data (512 * lba) 512) a 2 =
      loadLE drive.data (512 * lba + a) 2 :=
    fun a inside => loadLE_shift fun j below => by rw [boot _ (by omega), Nat.add_assoc]
  rw [fat32Mount, ataPioRead28_one (by decide) (by omega)]
  dsimp only [Option.bind_eq_bind, Option.bind_some]
  rw [if_neg (by rw [mbr 510 (by decide), mbr 511 (by decide)]; exact not_not.mpr part.signature),
    found]
  dsimp only
  rw [start, ataPioRead28_one low there]
  dsimp only [Option.bind_some]
  rw [if_neg (by rw [word 22 (by decide), word 19 (by decide), part.noFat16.1, part.noFat16.2]; simp),
    bsInfo_congr boot, part.boot]

/-! ## The FAT in memory -/

/-- Whatever the FAT is and the block had before, the FAT is in memory after the mount. -/
def MountsFat (drive : Drive) (lba : Nat) (bs : Fat32BsInfo) (block : Nat) : Prop :=
  ∀ fat mem, ∃ mounted, fat32Mount (drive.withFat lba bs fat) mem block = some mounted ∧
    mounted.HasFat (drive.withFat lba bs fat) lba bs

theorem loadLE_withFat {c : Nat} (below : 4 * c + 4 ≤ bs.sectorsPerFat * bs.bytesPerSector) :
    loadLE (drive.withFat lba bs fat).data (fatArea lba bs + 4 * c) 4 = loadLE fat (4 * c) 4 := by
  rw [Drive.withFat, loadLE_blit (by omega) (by omega), Nat.add_sub_cancel_left, Nat.zero_add]

theorem IsFat32.fatBegin (part : IsFat32 drive lba bs) :
    bs.fatBeginLba = u32 (lba + bs.reservedSectorCount) := by
  rw [← part.boot]
  rfl

theorem IsFat32.fatLen_ge (part : IsFat32 drive lba bs) :
    512 ≤ bs.sectorsPerFat * bs.bytesPerSector :=
  (Nat.le_of_dvd part.bytesPerSector.2 part.bytesPerSector.1).trans
    (Nat.le_mul_of_pos_left _ part.sectorsPerFat)

/-- A FAT behind the sectors of the command is not what is read. -/
theorem MountsFat.reached (part : IsFat32 drive lba bs) (mounts : MountsFat drive lba bs block) :
    lba + bs.reservedSectorCount < 2 ^ 28 := by
  by_contra far
  have whole := Nat.le_of_dvd part.bytesPerSector.2 part.bytesPerSector.1
  have area : 2 ^ 28 * 512 ≤ fatArea lba bs :=
    calc 2 ^ 28 * 512 ≤ (lba + bs.reservedSectorCount) * 512 :=
          Nat.mul_le_mul_right _ (not_lt.mp far)
      _ = 512 * lba + bs.reservedSectorCount * 512 := by rw [Nat.add_mul, Nat.mul_comm lba]
      _ ≤ fatArea lba bs := Nat.add_le_add_left (Nat.mul_le_mul_left _ whole) _
  have length := part.fatLen_ge
  have same : fat32Mount (drive.withFat lba bs fun _ => 0) (fun _ => 0) block =
      fat32Mount (drive.withFat lba bs fun _ => 1) (fun _ => 0) block :=
    fat32Mount_congr rfl fun x below => by
      have before : x < fatArea lba bs := by omega
      rw [withFat_before before, withFat_before before]
  obtain ⟨mounted, ran, whole₀, words₀⟩ := mounts (fun _ => 0) fun _ => 0
  obtain ⟨mounted', ran', whole₁, words₁⟩ := mounts (fun _ => 1) fun _ => 0
  rw [same, ran'] at ran
  obtain rfl := Option.some.inj ran
  have zero := words₀ 0 (by omega)
  have one := words₁ 0 (by omega)
  rw [loadLE_withFat (by omega)] at zero one
  have equal : loadLE (fun _ => 0) (4 * 0) 4 = loadLE (fun _ => 1) (4 * 0) 4 := zero.symm.trans one
  exact absurd equal (by decide)

/-- A FAT of which a word is not transferred. -/
theorem MountsFat.transferred (part : IsFat32 drive lba bs) (mounts : MountsFat drive lba bs block) :
    bs.sectorsPerFat * bs.bytesPerSector < bs.sectorsPerFat % 2 ^ 8 * 512 + 4 := by
  by_contra long
  have reached := mounts.reached part
  obtain ⟨mounted, ran, length, words⟩ := mounts (fun _ => 0) fun _ => 1
  rw [part.withFat.mount (by omega)] at ran
  obtain ⟨mem, read, ran⟩ := Option.bind_eq_some_iff.mp ran
  split at ran
  · cases ran
  · obtain rfl := Option.some.inj ran
    obtain ⟨n, sectors⟩ := part.bytesPerSector.1
    have words4 : bs.sectorsPerFat * bs.bytesPerSector = 4 * (bs.sectorsPerFat * (128 * n)) := by
      rw [sectors]
      ring
    have last := words (bs.sectorsPerFat * (128 * n) - 1) (by omega)
    rw [loadLE_withFat (by omega)] at last
    have kept : loadLE mem (block + 4 * (bs.sectorsPerFat * (128 * n) - 1)) 4 =
        loadLE (fun _ => 1) (block + 4 * (bs.sectorsPerFat * (128 * n) - 1)) 4 :=
      loadLE_congr fun x low _ => ataPioRead28_outside read (.inr (by omega))
    have equal : loadLE (fun _ => 0) (4 * (bs.sectorsPerFat * (128 * n) - 1)) 4 =
        loadLE (fun _ => 1) (block + 4 * (bs.sectorsPerFat * (128 * n) - 1)) 4 :=
      last.symm.trans kept
    simp [loadLE] at equal

/-- The FAT is in memory exactly when its sectors have 512 bytes, their number fits in the 8 bits of
    the sector count and the 28 bits of the command reach all of them. -/
theorem fat32Mount_fat_iff (part : IsFat32 drive lba bs) : MountsFat drive lba bs block ↔
    bs.bytesPerSector = 512 ∧ bs.sectorsPerFat ≤ 255 ∧
      lba + bs.reservedSectorCount + bs.sectorsPerFat ≤ 2 ^ 28 := by
  have sectors := part.sectorsPerFat
  constructor
  · intro mounts
    -- what a mount of every FAT tells: a sector has 512 bytes, 255 of them are the most
    have reached := mounts.reached part
    have transferred := mounts.transferred part
    obtain ⟨n, bytes⟩ := part.bytesPerSector.1
    have one : n = 1 := by
      have positive := part.bytesPerSector.2
      by_contra other
      have double := Nat.mul_le_mul_left bs.sectorsPerFat (show 1024 ≤ bs.bytesPerSector by omega)
      omega
    rw [one, Nat.mul_one] at bytes
    rw [bytes] at transferred
    have count : bs.sectorsPerFat ≤ 255 := by omega
    refine ⟨bytes, count, ?_⟩
    obtain ⟨mounted, ran, _⟩ := mounts (fun _ => 0) fun _ => 0
    rw [part.withFat.mount (by omega)] at ran
    obtain ⟨mem, read, _⟩ := Option.bind_eq_some_iff.mp ran
    by_contra far
    rw [Drive.ataPioRead28, if_neg (by omega), part.fatBegin, u32, if_pos (by omega)] at read
    cases read
  · rintro ⟨bytes, count, near⟩ fat mem
    -- the whole FAT is read with one command
    have inside := (@IsFat32.withFat _ _ _ fat part).inside
    rw [bytes] at inside
    have begin_ : bs.fatBeginLba = lba + bs.reservedSectorCount := by
      rw [part.fatBegin, u32, Nat.mod_eq_of_lt (by omega)]
    have whole : u32 (bs.sectorsPerFat * 512) = bs.sectorsPerFat * 512 :=
      Nat.mod_eq_of_lt (by omega)
    have space := le_pageAlignUp (bs.sectorsPerFat * 512) (by rw [pageSize]; omega)
    have mounted : fat32Mount (drive.withFat lba bs fat) mem block =
        some ⟨bs, block, bs.sectorsPerFat * 512, blit mem block (drive.withFat lba bs fat).data
          ((lba + bs.reservedSectorCount) * 512) (bs.sectorsPerFat * 512)⟩ := by
      rw [part.withFat.mount (by omega), Drive.ataPioRead28, if_neg (by omega), begin_,
        Nat.mod_eq_of_lt (a := lba + bs.reservedSectorCount) (by omega),
        Nat.mod_eq_of_lt (a := bs.sectorsPerFat) (by omega),
        if_neg (by omega), Option.bind_some, bytes, whole,
        if_neg (by omega)]
    refine ⟨_, mounted, by rw [bytes], fun c below => ?_⟩
    dsimp only at below
    rw [Volume.entryAt]
    dsimp only [MountedIdent.volume]
    rw [loadLE_blit (by omega) (by omega), Nat.add_sub_cancel_left, fatArea, bytes, Nat.add_mul,
      Nat.mul_comm lba]

/-- One entry of a partition table and a boot sector with `count` sectors for each FAT. -/
def smallDrive (count : Nat) : Drive where
  sectors := 131072
  data := fun x =>
    if x = 450 then 0x0C else if x = 454 then 1 else if x = 510 then 0x55 else if x = 511 then 0xAA
    else if x = 524 then 2 else if x = 525 then 1 else if x = 526 then 32 else if x = 528 then 2
    else if x = 548 then BitVec.ofNat 8 count else if x = 549 then BitVec.ofNat 8 (count / 256)
    else if x = 556 then 2 else 0

def smallBs (count : Nat) : Fat32BsInfo :=
  { bytesPerSector := 512, sectorsPerCluster := 1, reservedSectorCount := 32, numFats := 2,
    sectorsPerFat := count, rootDirFirstCluster := 2, fatBeginLba := 33,
    clusterBeginLba := 33 + 2 * count, totalSectors := 0 }

theorem smallDrive_isFat32 : IsFat32 (smallDrive 1) 1 (smallBs 1) ∧
    IsFat32 (smallDrive 512) 1 (smallBs 512) := by
  constructor <;>
    exact ⟨by decide, by decide, by decide, by decide, by decide, by decide, by decide, by decide⟩

theorem fat32Mount_fat_iff_oneSector : MountsFat (smallDrive 1) 1 (smallBs 1) 0x1000 :=
  (fat32Mount_fat_iff smallDrive_isFat32.1).mpr (by decide)

/-- Of a FAT of 512 sectors, all zero here, nothing is read. -/
theorem fat_not_mounted : IsFat32 (smallDrive 512) 1 (smallBs 512) ∧
    ∃ mounted, fat32Mount (smallDrive 512) (fun _ => 1) 0x1000 = some mounted ∧
      ¬ mounted.HasFat (smallDrive 512) 1 (smallBs 512) := by
  refine ⟨smallDrive_isFat32.2, ⟨smallBs 512, 0x1000, 262144, fun _ => 1⟩, ?_, fun has => ?_⟩
  · rw [smallDrive_isFat32.2.mount (by decide), Drive.ataPioRead28, if_pos (by decide),
      Option.bind_some, if_neg (by decide)]
    rfl
  · have first := has.2 0 (by decide)
    exact absurd first (by decide)

end HanOS.Fs
