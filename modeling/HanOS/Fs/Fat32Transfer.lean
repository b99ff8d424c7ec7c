import HanOS.Device.AtaTransfer
import HanOS.Fs.Fat32

/-!
# The disk of a volume (`fs/fat32.c`, `device/storage/ata.c`)

A volume reads and writes the sectors of its `disk` at once.  Behind it the driver moves them through
the registers of a channel, with two drives and two volumes.  The driver does for the volumes what
their disks say (`transfers_refine`), as long as every transfer is of at least one sector; after
one of none the drive still waits for words, and the channel is lost (`transfers_none`).
-/

namespace HanOS.Fs

open HanOS.Foundations HanOS.Device

inductive Transfer
  | read (slave : Bool) (sector : UInt32) (sectorCount : UInt8) (target : Nat)
  | write (slave : Bool) (sector : UInt32) (sectorCount : UInt8) (source : Nat)

namespace Transfer

/-- By the driver, with the memory of its buffers. -/
def execute (fuel : Nat) (state : Mem × AtaChannel) : Transfer → Except AtaStop (Mem × AtaChannel)
  | .read slave sector sectorCount target =>
    Device.ataPioRead28 fuel slave sector sectorCount state.1 target state.2
  | .write slave sector sectorCount source => do
    let c ← Device.ataPioWrite28 fuel slave sector sectorCount state.1 source state.2
    return (state.1, c)

/-- On the disks of the volumes. -/
def apply (state : Mem × (Bool → Volume)) : Transfer → Mem × (Bool → Volume)
  | .read slave sector sectorCount target =>
    ((state.2 slave).ataPioRead28 sector.toNat sectorCount.toNat state.1 target, state.2)
  | .write slave sector sectorCount source =>
    (state.1, Function.update state.2 slave
      ((state.2 slave).ataPioWrite28 sector.toNat sectorCount.toNat state.1 source))

/-- The drive has the sectors, and can read and write them. -/
def Within (media : AtaMedia) (sector : UInt32) (sectorCount : UInt8) : Prop :=
  sectorCount ≠ 0 ∧ sector.toNat + sectorCount.toNat ≤ min media.sectors (2 ^ 28) ∧
    ∀ k < sectorCount.toNat, media.bad (sector.toNat + k) = false

def Valid (media : Bool → AtaMedia) : Transfer → Prop
  | .read slave sector sectorCount _ => Within (media slave) sector sectorCount
  | .write slave sector sectorCount _ => Within (media slave) sector sectorCount

end Transfer

/-! ## Faults -/

section

variable {media : AtaMedia} {lba n : Nat}

theorem firstFault_none (present : lba + n ≤ min media.sectors (2 ^ 28))
    (good : ∀ k < n, media.bad (lba + k) = false) : media.firstFault lba n = none := by
  induction n generalizing lba with
  | zero => rfl
  | succ n inductionHypothesis =>
    have here : media.readFault lba = none := by
      have now := good 0 (Nat.succ_pos n)
      rw [Nat.add_zero] at now
      rw [AtaMedia.readFault, AtaMedia.absent, if_neg (by simp; omega), now]
      rfl
    rw [AtaMedia.firstFault, here, Option.none_or]
    refine inductionHypothesis (by omega) fun k below => ?_
    rw [Nat.add_assoc, Nat.add_comm 1 k]
    exact good (k + 1) (by omega)

theorem firstWriteFault_none (present : lba + n ≤ min media.sectors (2 ^ 28))
    (good : ∀ k < n, media.bad (lba + k) = false) : media.firstWriteFault lba n = none := by
  induction n generalizing lba with
  | zero => rfl
  | succ n inductionHypothesis =>
    have now := good 0 (Nat.succ_pos n)
    rw [Nat.add_zero] at now
    rw [AtaMedia.firstWriteFault, AtaMedia.absent, if_neg (by simp; omega), now, if_neg (by simp),
      inductionHypothesis (by omega), Option.map_none]
    intro k below
    rw [Nat.add_assoc, Nat.add_comm 1 k]
    exact good (k + 1) (by omega)

end

/-! ## The refinement -/

def holding (media : AtaMedia) (disk : Mem) : AtaMedia := { media with data := disk }

/-- The channel keeps the disks of the volumes on its drives. -/
structure Keeps (c : AtaChannel) (media : Bool → AtaMedia) (vols : Bool → Volume) : Prop where
  ready : c.Ready
  data : c.media = fun slave => holding (media slave) (vols slave).disk
  sectorSize : ∀ slave, (vols slave).bs.bytesPerSector = 512

variable {c : AtaChannel} {media : Bool → AtaMedia} {vols : Bool → Volume} {mem : Mem}

theorem Keeps.step (keeps : Keeps c media vols) {transfer : Transfer} (valid : transfer.Valid media) :
    ∃ after, Keeps after media (transfer.apply (mem, vols)).2 ∧
      Ends (fun fuel => transfer.execute fuel (mem, c)) (.ok ((transfer.apply (mem, vols)).1, after)) := by
  cases transfer with
  | read slave sector sectorCount target =>
    obtain ⟨some_, present, good⟩ := valid
    have small : sector.toNat % 2 ^ 28 = sector.toNat := Nat.mod_eq_of_lt (by
      have := Nat.pos_of_ne_zero fun zero => some_ (UInt8.toNat_inj.mp zero)
      omega)
    -- every sector is there and good, so the drive has no fault to report
    have fault : (c.media slave).firstFault (sector.toNat % 2 ^ 28) sectorCount.toNat = none := by
      rw [small, keeps.data]
      exact firstFault_none present good
    obtain ⟨after, same, ready, ends⟩ :=
      @ataPioRead28_good c mem target keeps.ready slave sector _ some_ fault
    rw [small] at ends
    refine ⟨after, ⟨ready, same.trans keeps.data, keeps.sectorSize⟩, ?_⟩
    have disk : (c.media slave).data = (vols slave).disk := by rw [keeps.data]; rfl
    rw [disk] at ends
    rw [Transfer.apply, Volume.ataPioRead28, keeps.sectorSize]
    exact ends
  | write slave sector sectorCount source =>
    obtain ⟨some_, present, good⟩ := valid
    have positive := Nat.pos_of_ne_zero fun zero => some_ (UInt8.toNat_inj.mp zero)
    have small : sector.toNat % 2 ^ 28 = sector.toNat := Nat.mod_eq_of_lt (by omega)
    have fault : (c.media slave).firstWriteFault (sector.toNat % 2 ^ 28) sectorCount.toNat = none := by
      rw [small, keeps.data]
      exact firstWriteFault_none present good
    -- the last sector is stored too, though nobody looks at its error
    have last : (c.media slave).bad (sector.toNat + (sectorCount.toNat - 1)) = false := by
      rw [keeps.data]
      exact good _ (by omega)
    obtain ⟨after, ready, data, ends⟩ :=
      @ataPioWrite28_good c mem source keeps.ready slave sector _ some_ fault
    rw [small, last] at data
    refine ⟨after, ⟨ready, ?_, fun other => ?_⟩, .bind ends (.const rfl)⟩
    · rw [data, if_neg (by decide), keeps.data, written]
      funext other
      simp only [Transfer.apply]
      by_cases same : other = slave
      · subst same
        rw [Function.update_self, Function.update_self, Volume.ataPioWrite28, keeps.sectorSize]
        rfl
      · rw [Function.update_of_ne same, Function.update_of_ne same]
    · by_cases same : other = slave
      · subst same
        simp only [Transfer.apply, Function.update_self]
        exact keeps.sectorSize other
      · simpa only [Transfer.apply, Function.update_of_ne same] using keeps.sectorSize other

/-- Any sequence of transfers, of both drives, ends with what it makes of the disks of the volumes,
    however long the drives are busy. -/
theorem transfers_refine (keeps : Keeps c media vols) {transfers : List Transfer}
    (valid : ∀ transfer ∈ transfers, transfer.Valid media) :
    ∃ after, Keeps after media (transfers.foldl Transfer.apply (mem, vols)).2 ∧
      Ends (fun fuel => transfers.foldlM (Transfer.execute fuel) (mem, c))
        (.ok ((transfers.foldl Transfer.apply (mem, vols)).1, after)) := by
  induction transfers generalizing c mem vols with
  | nil => exact ⟨c, keeps, .const rfl⟩
  | cons transfer transfers inductionHypothesis =>
    obtain ⟨next, keeps', first⟩ := @Keeps.step c media vols mem keeps transfer
      (valid transfer (List.mem_cons_self ..))
    obtain ⟨after, keeps'', rest⟩ := @inductionHypothesis next _ _ keeps' fun other member =>
      valid other (List.mem_cons_of_mem _ member)
    refine ⟨after, keeps'', ?_⟩
    simp only [List.foldlM_cons]
    exact .bind first rest

/-- Two volumes on the drives of a channel. -/
def twoVolumes (slave : Bool) : Volume where
  bs := ⟨512, 1, 32, 2, 1, 2, 32, 34, 8⟩
  fat := 0
  fatLen := 0
  mem _ := 0
  disk x := BitVec.ofNat 8 (if slave then x / 512 else 255)

def twoVolumesMedia (slave : Bool) : AtaMedia where
  sectors := 8
  bad lba := decide (lba = 7)
  data := (twoVolumes slave).disk

/-- A sector of the slave is copied to the master and read back. -/
theorem transfers_refine_copy :
    ∃ after, Ends (fun fuel => [Transfer.read true 3 1 0, .write false 5 1 0, .read false 5 1 512].foldlM
        (Transfer.execute fuel) ((fun _ => 0), { twoDrives with media := twoVolumesMedia }))
      (.ok (([Transfer.read true 3 1 0, .write false 5 1 0, .read false 5 1 512].foldl
        Transfer.apply ((fun _ => 0), twoVolumes)).1, after)) := by
  have keeps : Keeps { twoDrives with media := twoVolumesMedia } twoVolumesMedia twoVolumes :=
    ⟨⟨⟨none, rfl⟩, Nat.zero_le _⟩, rfl, fun _ => rfl⟩
  obtain ⟨after, _, ends⟩ := @transfers_refine _ _ _ (fun _ => 0) keeps
    [.read true 3 1 0, .write false 5 1 0, .read false 5 1 512] (by
      simp only [List.mem_cons, List.not_mem_nil, or_false, forall_eq_or_imp, forall_eq]
      exact ⟨⟨by decide, by decide, by decide⟩, ⟨by decide, by decide, by decide⟩,
        by decide, by decide, by decide⟩)
  exact ⟨after, ends⟩

/-! ## No sectors -/

/-- `ata_pio_read28` of no sectors returns, but the drive has 256 of them to give, and every transfer
    after it finds the drive asking for words; `ata_pio_write28` of none does not come to its end. -/
theorem transfers_none (ready : c.Ready) {slave : Bool} {sector : UInt32}
    (present : sector.toNat % 2 ^ 28 < (c.media slave).sectors)
    (good : (c.media slave).bad (sector.toNat % 2 ^ 28) = false) (addr : Nat) :
    (∃ after, Ends (fun fuel => (Transfer.read slave sector 0 addr).execute fuel (mem, c))
        (.ok (mem, after)) ∧
      ∀ fuel (transfer : Transfer) mem', transfer.execute fuel (mem', after) = .error .undefined) ∧
    Ends (fun fuel => (Transfer.write slave sector 0 addr).execute fuel (mem, c)) (.error .undefined) := by
  obtain ⟨set, setup, now, idle, media, rfl, lba, count⟩ := ataSetup_ready ready slave sector 0
  have there : set.medium.absent (sector.toNat % 2 ^ 28) = false := by
    have bound := Nat.mod_lt sector.toNat (Nat.two_pow_pos 28)
    rw [AtaChannel.medium, media, AtaMedia.absent]
    simp
    omega
  -- a count of 0 stands for 256 sectors
  have whole : set.count = 256 := by rw [AtaChannel.count, count, if_pos rfl]
  constructor
  · -- no sector is read, and the drive has the first of them to give
    have commanded := outb_read now idle
    rw [lba, whole] at commanded
    have polled := ataPoll_plain (@AtaChannel.pending_start set (.fetch (sector.toNat % 2 ^ 28) 256))
    let asking := (set.start (.fetch (sector.toNat % 2 ^ 28) 256)).settled.resume
      (.fetch (sector.toNat % 2 ^ 28) 256)
    have few : asking.settle ≤ 4 := by simp [asking]
    have asks : asking.phase.status = 0x48 := by
      have readable : set.medium.readFault (sector.toNat % 2 ^ 28) = none := by
        rw [AtaMedia.readFault, there, if_neg (by decide), AtaChannel.medium, media, good]
        rfl
      have phase : asking.phase = .dataIn (sector.toNat % 2 ^ 28) 256 0 :=
        congrArg (Option.elim · _ _) readable
      rw [phase]
      rfl
    refine ⟨asking, .bind (.const setup) (.bind (.const commanded) (.bind (.const rfl)
      (.bind polled (.const rfl)))), fun fuel transfer mem' => ?_⟩
    cases transfer with
    | read =>
      rw [Transfer.execute, Device.ataPioRead28, ataSetup_asks few asks]
      rfl
    | write =>
      rw [Transfer.execute, Device.ataPioWrite28, ataSetup_asks few asks]
      rfl
  · -- the flush finds the drive asking for the first of 256 sectors
    have commanded := outb_write now idle
    rw [lba, whole] at commanded
    let started := (set.start (.accept (sector.toNat % 2 ^ 28) 256)).settled
    have pending : started.Pending set.media set.selected (.accept (sector.toNat % 2 ^ 28) 256) :=
      ⟨rfl, rfl, ⟨_, rfl⟩, Nat.zero_le _⟩
    have resumed := Asking.accept.resume pending
    have medium : (set.media set.selected).absent (sector.toNat % 2 ^ 28) = false := there
    rw [if_neg (by decide), medium] at resumed
    have polled := ataPoll_plain pending
    rw [resumed] at polled
    exact .stop (.bind (.const setup) (.bind (.const commanded) (.bind (.const (ataIoWait_settled le_rfl))
      (.bind (.const rfl) (.bind polled (.stop (.const rfl)))))))

theorem transfers_none_twoDrives :
    (∃ after, Ends (fun fuel => (Transfer.read true 3 0 0).execute fuel ((fun _ => 0), twoDrives))
        (.ok ((fun _ => 0), after)) ∧
      ∀ fuel (transfer : Transfer) mem', transfer.execute fuel (mem', after) = .error .undefined) ∧
    Ends (fun fuel => (Transfer.write true 3 0 0).execute fuel ((fun _ => 0), twoDrives))
      (.error .undefined) :=
  @transfers_none twoDrives (fun _ => 0) twoDrives_ready true 3 (by decide) (by decide) 0

end HanOS.Fs
