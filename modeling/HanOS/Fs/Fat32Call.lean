import HanOS.Fs.Fat32Grow

/-!
# A call of `fat32_write`, part by part

What the staging block holds after the old chain was read into it, when the slot of
the file can be written, and how a call of `fat32_write` is put together from these
and from its loop.
-/

namespace HanOS.Fs

open HanOS.Foundations HanOS.Lib HanOS.Core

variable {vol : Volume} {entry : Fat32Entry} {start cluster offset len total : Nat}
  {chain : List Nat} {buff block readBlock dd : Mem}

/-! ## Request sizes -/

theorem Layout.sectorBytes_eq (layout : Layout vol) (bound : offset + len < 2 ^ 63) :
    sectorBytes vol offset len =
      (offset + len + (vol.bs.bytesPerSector - 1)) / vol.bs.bytesPerSector *
        vol.bs.bytesPerSector := by
  have sectorBound := layout.sectorBound
  rw [sectorBytes, divRoundup64, u64_of_lt (n := offset + len) (by omega), u64_of_lt (by omega)]

theorem Layout.sectorBytes_spec (layout : Layout vol) (bound : offset + len < 2 ^ 63) :
    offset + len ≤ sectorBytes vol offset len ∧
      sectorBytes vol offset len < offset + len + vol.bs.bytesPerSector ∧
      vol.bs.bytesPerSector ∣ sectorBytes vol offset len := by
  have positive := layout.sector
  rw [layout.sectorBytes_eq bound]
  have divided := Nat.div_add_mod (offset + len + (vol.bs.bytesPerSector - 1)) vol.bs.bytesPerSector
  have remainder := Nat.mod_lt (offset + len + (vol.bs.bytesPerSector - 1)) positive
  rw [mul_comm] at divided
  exact ⟨by omega, by omega, Dvd.intro_left _ rfl⟩

theorem Layout.le_pageAlignUp_sectorBytes (layout : Layout vol) (bound : offset + len < 2 ^ 63) :
    sectorBytes vol offset len ≤ pageAlignUp (sectorBytes vol offset len) := by
  obtain ⟨_, below, _⟩ := layout.sectorBytes_spec bound
  have sectorBound := layout.sectorBound
  exact le_pageAlignUp _ (by rw [show pageSize = 4096 from rfl]; omega)

theorem Layout.sectorBytes_again (layout : Layout vol) (bound : offset + len < 2 ^ 63) :
    sectorBytes vol 0 (sectorBytes vol offset len) = sectorBytes vol offset len := by
  obtain ⟨_, below, divides⟩ := layout.sectorBytes_spec bound
  have sectorBound := layout.sectorBound
  have positive := layout.sector
  obtain ⟨count, total⟩ := divides
  rw [total] at below ⊢
  rw [sectorBytes, divRoundup64, zero_add, u64_of_lt (n := vol.bs.bytesPerSector * count) (by omega),
    u64_of_lt (by omega), Nat.mul_add_div positive, Nat.div_eq_of_lt (by omega), add_zero, mul_comm]

/-! ## The staging block -/

def chainByte (vol : Volume) (chain : List Nat) (x : Nat) : Byte :=
  vol.disk (clusterOffset vol (chain.getD (x / vol.bytesPerCluster) 0) + x % vol.bytesPerCluster)

theorem readCluster_inside {position k : Nat} (bound : k < vol.bytesPerCluster) :
    vol.ataPioRead28 (vol.clusterLba cluster) vol.bs.sectorsPerCluster dd position (position + k) =
      vol.disk (clusterOffset vol cluster + k) := by
  rw [Volume.bytesPerCluster, mul_comm] at bound
  rw [Volume.ataPioRead28, blit_inside (by omega) (by omega), Nat.add_sub_cancel_left, clusterOffset]

theorem readCluster_outside {position x : Nat}
    (outside : x < position ∨ position + vol.bytesPerCluster ≤ x) :
    vol.ataPioRead28 (vol.clusterLba cluster) vol.bs.sectorsPerCluster dd position x = dd x := by
  rw [Volume.bytesPerCluster, mul_comm] at outside
  rw [Volume.ataPioRead28, blit_outside outside]

/-- The loop of `fat32_read` stages the clusters of the chain one behind the other. -/
theorem readLoop_staged (dd : Mem) (readlen : Nat) (walk : Chain (nextCluster vol) start chain)
    {fuel : Nat}
    (enough : chain.length ≤ fuel) :
    ∃ staged, readLoop vol fuel start readlen dd = some staged ∧ staged.visited = chain ∧
      (∀ i c, chain[i]? = some c → ∀ k < vol.bytesPerCluster,
        staged.dd (readlen + (i * vol.bytesPerCluster + k)) =
          vol.disk (clusterOffset vol c + k)) ∧
      ∀ x, x < readlen ∨ readlen + chain.length * vol.bytesPerCluster ≤ x → staged.dd x = dd x := by
  induction walk generalizing fuel readlen dd with
  | @last a ends =>
    obtain ⟨fuel, rfl⟩ : ∃ n, fuel = n + 1 := ⟨fuel - 1, by simp at enough; omega⟩
    have stop := nextCluster_eq_none_iff.mp ends
    refine ⟨_, by rw [readLoop, if_pos stop], rfl, ?_, ?_⟩
    · intro i c at_i k bound
      cases i with
      | succ i => simp at at_i
      | zero =>
        obtain rfl : a = c := by simpa using at_i
        rw [Nat.zero_mul, Nat.zero_add]
        exact readCluster_inside bound
    · intro x outside
      exact readCluster_outside (by simpa using outside)
  | @link a b rest next chain inductionHypothesis =>
    obtain ⟨fuel, rfl⟩ : ∃ n, fuel = n + 1 := ⟨fuel - 1, by simp at enough; omega⟩
    obtain ⟨goes, present⟩ := nextCluster_eq_some_iff.mp next
    obtain ⟨staged, finished, visited, inside, outside⟩ := inductionHypothesis
      (vol.ataPioRead28 (vol.clusterLba a) vol.bs.sectorsPerCluster dd readlen)
      (readlen + vol.bytesPerCluster) (by simpa using enough)
    refine ⟨{ staged with visited := a :: staged.visited }, ?_, by simp [visited], ?_, ?_⟩
    · rw [readLoop, goes, if_neg present, finished]
      rfl
    · intro i c at_i k bound
      cases i with
      | zero =>
        obtain rfl : a = c := by simpa using at_i
        rw [Nat.zero_mul, Nat.zero_add]
        -- the later clusters are staged behind it
        exact (outside _ (.inl (by omega))).trans (readCluster_inside bound)
      | succ i =>
        have position : readlen + ((i + 1) * vol.bytesPerCluster + k) =
            readlen + vol.bytesPerCluster + (i * vol.bytesPerCluster + k) := by ring
        rw [position]
        exact inside i c (by simpa using at_i) k bound
    · intro x apart
      rw [List.length_cons, Nat.succ_mul] at apart
      exact (outside x (by omega)).trans (readCluster_outside (by omega))

theorem readLoop_holds (positive : 0 < vol.bytesPerCluster) (block : Mem)
    (walk : Chain (nextCluster vol) start chain) (enough : chain.length ≤ walkFuel vol) :
    ∃ staged, readLoop vol (walkFuel vol) start 0 block = some staged ∧ staged.visited = chain ∧
      ∀ x, staged.dd x =
        if x < chain.length * vol.bytesPerCluster then chainByte vol chain x else block x := by
  obtain ⟨staged, finished, visited, inside, outside⟩ := readLoop_staged block 0 walk enough
  refine ⟨staged, finished, visited, fun x => ?_⟩
  split
  · next below =>
    have index : x / vol.bytesPerCluster < chain.length :=
      Nat.div_lt_of_lt_mul (by rwa [mul_comm])
    have position := Nat.div_add_mod x vol.bytesPerCluster
    have here := inside _ _ (List.getElem?_eq_getElem index) (x % vol.bytesPerCluster)
      (Nat.mod_lt _ positive)
    rw [zero_add, mul_comm, position] at here
    rw [here, chainByte, List.getD_eq_getElem?_getD, List.getElem?_eq_getElem index,
      Option.getD_some]
  · next behind => exact outside x (.inr (by omega))

/-! ## The slot -/

/-- The slot of the file lies in the sector buffer of `fat32_write_entry`. -/
def SlotFits (vol : Volume) (entry : Fat32Entry) : Prop :=
  vol.bs.bytesPerSector ≤ 512 ∧ entry.dirEntryIndex < 16

theorem fat32WriteEntry_isSome_iff :
    (fat32WriteEntry vol entry).isSome ↔ SlotFits vol entry := by
  simp only [fat32WriteEntry, SlotFits]
  split
  · next tooFar => exact ⟨fun impossible => (by cases impossible), fun fits => by omega⟩
  · next fits => exact ⟨fun _ => by omega, fun _ => rfl⟩

/-- Writing the slot changes one sector of the disk. -/
theorem fat32WriteEntry_frame {after : Volume} (written : fat32WriteEntry vol entry = some after) :
    after.bs = vol.bs ∧ after.fat = vol.fat ∧ after.fatLen = vol.fatLen ∧ after.mem = vol.mem ∧
      ∀ x, x < clusterOffset vol entry.dirEntryCluster ∨
        clusterOffset vol entry.dirEntryCluster + vol.bs.bytesPerSector ≤ x →
        after.disk x = vol.disk x := by
  rw [fat32WriteEntry] at written
  split at written
  · cases written
  · obtain rfl := Option.some.inj written
    refine ⟨rfl, rfl, rfl, rfl, fun x outside => ?_⟩
    rw [clusterOffset] at outside
    exact blit_outside (by omega)

/-- A file on a volume: its chain is readable and holds its bytes, and the cluster of its slot is
    in use by another chain. -/
structure IsFile (vol : Volume) (entry : Fat32Entry) (chain : List Nat) : Prop where
  readable : Readable vol entry.clusterBegin chain
  size : entry.fileSizeBytes ≤ chain.length * vol.bytesPerCluster
  slot : vol.IsCluster entry.dirEntryCluster
  slotUsed : vol.entryAt entry.dirEntryCluster ≠ 0
  slotApart : entry.dirEntryCluster ∉ chain

/-! ## The call -/

/-- Whether a request fits the staging block together with the whole old chain. -/
def ChainFits (vol : Volume) (chain : List Nat) (total : Nat) : Prop :=
  chain.length * vol.bytesPerCluster ≤ pageAlignUp total

/-- What the block holds when the loop of `fat32_write` starts. -/
structure Prepared (vol : Volume) (chain : List Nat) (offset len total : Nat) (buff block dd : Mem) :
    Prop where
  /-- The request. -/
  request : ∀ x, offset ≤ x → x < offset + len → dd x = buff (x - offset)
  /-- The old content, as far as the read asked for it. -/
  old : ∀ x, x < offset ∨ offset + len ≤ x → x < total →
    x < chain.length * vol.bytesPerCluster → dd x = chainByte vol chain x
  /-- What `kmalloc` left there, behind the sectors asked for. -/
  rest : ∀ x, total ≤ x → dd x = block x

instance : Decidable (ChainFits vol chain total) := inferInstanceAs (Decidable (_ ≤ _))

/-- A call that comes back has been through its loop and the update of the slot. -/
theorem fat32Write_eq_some {written : Written}
    (called : fat32Write vol entry offset len buff block readBlock = some written) :
    ∃ dd flush, ∃ retlen : Nat, retlen = min (sectorBytes vol offset len - offset) len ∧
      writeLoop dd (sectorBytes vol offset len) (sectorBytes vol offset len + 1) 0
        { vol, cluster := entry.clusterBegin, visited := [] } = some flush ∧
      updateEntry entry (offset + len) retlen flush = some written := by
  simp only [fat32Write] at called
  split at called
  · cases called
  · split at called
    · cases called
    · split at called
      · cases called
      · next flush finished => exact ⟨_, flush, _, rfl, finished, called⟩

/-- The `fat32_read` in `fat32_write` comes back exactly when the chain fits its block. -/
theorem fat32Read_whole (block readBlock : Mem) (layout : Layout vol)
    (readable : Readable vol entry.clusterBegin chain)
    (bound : offset + len < 2 ^ 63) :
    ∃ staged : Mem,
      (∀ x < chain.length * vol.bytesPerCluster, staged x = chainByte vol chain x) ∧
      fat32Read vol entry 0 (sectorBytes vol offset len) readBlock block =
        if ChainFits vol chain (sectorBytes vol offset len) then
          some ((sectorBytes vol offset len : Int),
            blit block 0 staged 0 (sectorBytes vol offset len))
        else none := by
  obtain ⟨staged, finished, visited, holds⟩ := readLoop_holds layout.positive readBlock
    readable.walk readable.wellFormed.length_le
  refine ⟨staged.dd, ?_, ?_⟩
  · intro x below
    rw [holds, if_pos below]
  · have again := layout.sectorBytes_again bound
    rw [fat32Read]
    simp only [again, finished, visited, ChainFits, Nat.sub_zero, min_self, ← not_lt, ite_not]

/-- `fat32_read` of a chain comes back exactly when the chain fits its block. -/
theorem fat32Read_isSome_iff (layout : Layout vol)
    (readable : Readable vol entry.clusterBegin chain) (block buff : Mem) :
    (fat32Read vol entry offset len block buff).isSome ↔
      ChainFits vol chain (sectorBytes vol offset len) := by
  obtain ⟨staged, finished, visited, _⟩ := readLoop_holds layout.positive block readable.walk
    readable.wellFormed.length_le
  simp only [fat32Read, finished, visited, ChainFits]
  split
  · next overrun => simp [not_le.mpr overrun]
  · next fits => simp [not_lt.mp fits]

/-- A chain longer than the block: the call is not survived. -/
theorem fat32Write_eq_none (layout : Layout vol) (readable : Readable vol entry.clusterBegin chain)
    (bound : offset + len < 2 ^ 63) (tooLong : ¬ ChainFits vol chain (sectorBytes vol offset len)) :
    fat32Write vol entry offset len buff block readBlock = none := by
  obtain ⟨_, _, read⟩ := fat32Read_whole block readBlock layout readable
    bound
  simp only [fat32Write, read, if_neg tooLong]

/-- Otherwise the loop runs on the prepared block. -/
theorem fat32Write_eq (buff block readBlock : Mem) (layout : Layout vol)
    (readable : Readable vol entry.clusterBegin chain)
    (bound : offset + len < 2 ^ 63) (fits : ChainFits vol chain (sectorBytes vol offset len)) :
    ∃ dd, Prepared vol chain offset len (sectorBytes vol offset len) buff block dd ∧
      fat32Write vol entry offset len buff block readBlock =
        (writeLoop dd (sectorBytes vol offset len) (sectorBytes vol offset len + 1) 0
          { vol, cluster := entry.clusterBegin, visited := [] }).bind
          (updateEntry entry (offset + len) len) := by
  obtain ⟨atLeast, _, _⟩ := layout.sectorBytes_spec bound
  obtain ⟨staged, inside, read⟩ := fat32Read_whole block readBlock layout
    readable bound
  rw [if_pos fits] at read
  refine ⟨blit (blit block 0 staged 0 (sectorBytes vol offset len)) offset buff 0 len,
    ⟨?_, ?_, ?_⟩, ?_⟩
  · intro x low high
    rw [blit_inside low high, Nat.zero_add]
  · intro x apart below inChain
    rw [blit_outside apart, blit_inside (Nat.zero_le _) (by omega), Nat.sub_zero, Nat.zero_add,
      inside x inChain]
  · intro x past
    rw [blit_outside (by omega), blit_outside (by omega)]
  · have inside : offset + len ≤ pageAlignUp (sectorBytes vol offset len) :=
      atLeast.trans (layout.le_pageAlignUp_sectorBytes bound)
    simp only [fat32Write, read, if_neg (not_lt.mpr inside)]
    rw [min_eq_right (show len ≤ sectorBytes vol offset len - offset by omega)]
    split <;> simp_all

/-! ## The end of the call -/

/-- The chain of a finished call is that of its loop, and the update of the slot leaves it alone. -/
structure Concludes (flush : Flush) (entry : Fat32Entry) (size retlen : Nat) (written : Written) :
    Prop where
  retlen : written.retlen = retlen
  bs : written.vol.bs = flush.vol.bs
  fat : written.vol.fat = flush.vol.fat
  fatLen : written.vol.fatLen = flush.vol.fatLen
  mem : written.vol.mem = flush.vol.mem
  kept : written.entry.clusterBegin = entry.clusterBegin ∧
    written.entry.dirEntryCluster = entry.dirEntryCluster ∧
    written.entry.fileSizeBytes = if entry.fileSizeBytes < size then u32 size else entry.fileSizeBytes
  frame : ∀ x, x < clusterOffset flush.vol entry.dirEntryCluster ∨
    clusterOffset flush.vol entry.dirEntryCluster + flush.vol.bs.bytesPerSector ≤ x →
    written.vol.disk x = flush.vol.disk x

theorem updateEntry_isSome_iff {flush : Flush} {size retlen : Nat} :
    (updateEntry entry size retlen flush).isSome ↔
      size ≤ entry.fileSizeBytes ∨ SlotFits flush.vol entry := by
  rw [updateEntry]
  split
  · next grows =>
    rw [Option.isSome_map, fat32WriteEntry_isSome_iff]
    simp only [SlotFits, not_le.mpr grows, false_or]
  · next stays => simp [not_lt.mp stays]

theorem updateEntry_concludes {flush : Flush} {size retlen : Nat} {written : Written}
    (updated : updateEntry entry size retlen flush = some written) :
    Concludes flush entry size retlen written := by
  rw [updateEntry] at updated
  split at updated
  · next grows =>
    obtain ⟨after, slot, rfl⟩ := Option.map_eq_some_iff.mp updated
    obtain ⟨bs, fat, fatLen, mem, frame⟩ := fat32WriteEntry_frame slot
    exact ⟨rfl, bs, fat, fatLen, mem, ⟨rfl, rfl, by rw [if_pos grows]⟩, frame⟩
  · next stays =>
    obtain rfl := Option.some.inj updated
    exact ⟨rfl, rfl, rfl, rfl, rfl, ⟨rfl, rfl, by rw [if_neg stays]⟩, fun _ _ => rfl⟩

/-- A call with free clusters enough, up to the update of the slot. -/
theorem fat32Write_grows (buff block readBlock : Mem) (layout : Layout vol) (reserved : Reserved vol)
    (readable : Readable vol entry.clusterBegin chain) (bound : offset + len < 2 ^ 63)
    (fits : ChainFits vol chain (sectorBytes vol offset len))
    (enough : passes vol (sectorBytes vol offset len) ≤ chain.length + (rawFree vol).length) :
    ∃ dd last new, Prepared vol chain offset len (sectorBytes vol offset len) buff block dd ∧
      Grown vol entry.clusterBegin chain dd (passes vol (sectorBytes vol offset len)) last.vol
        new ∧
      chain.length + new.length =
        max chain.length (passes vol (sectorBytes vol offset len)) ∧
      fat32Write vol entry offset len buff block readBlock =
        updateEntry entry (offset + len) len last := by
  obtain ⟨dd, prepared, written⟩ := fat32Write_eq buff block readBlock
    layout readable bound fits
  obtain ⟨last, new, finished, grown, length⟩ := writeLoop_grows dd layout reserved
    readable enough
  exact ⟨dd, last, new, prepared, grown, length, by rw [written, finished]; rfl⟩

/-- What a call needs to come back: the code understands the chain, the request does not wrap, the
    block holds the chain, there are free clusters enough, and a slot that is written is in the sector
    that `fat32_write_entry` has a buffer for. -/
structure WriteFits (vol : Volume) (entry : Fat32Entry) (chain : List Nat) (offset len : Nat) :
    Prop where
  understood : ∀ c ∈ chain, Understood (vol.entryAt c)
  bound : offset + len < 2 ^ 63
  staged : ChainFits vol chain (sectorBytes vol offset len)
  enough : passes vol (sectorBytes vol offset len) ≤ chain.length + (rawFree vol).length
  slot : offset + len ≤ entry.fileSizeBytes ∨ SlotFits vol entry

theorem WriteFits.comesBack (buff block readBlock : Mem) (fits : WriteFits vol entry chain offset len)
    (layout : Layout vol) (reserved : Reserved vol)
    (wellFormed : FatChain vol entry.clusterBegin chain) :
    ∃ written, fat32Write vol entry offset len buff block readBlock = some written := by
  obtain ⟨dd, last, new, _, grown, _, called⟩ := fat32Write_grows buff block readBlock layout reserved
    ⟨wellFormed, fits.understood⟩ fits.bound fits.staged fits.enough
  have slot : offset + len ≤ entry.fileSizeBytes ∨ SlotFits last.vol entry := by
    rw [SlotFits, grown.bs]
    exact fits.slot
  rw [called]
  exact Option.isSome_iff_exists.mp (updateEntry_isSome_iff.mpr slot)

/-! ## A volume with one file -/

theorem markedVolume_layout : Layout (markedVolume 0x0FFFFFFF) := by
  constructor <;> decide +kernel

theorem markedVolume_reaches : DriverReaches (markedVolume 0x0FFFFFFF) := by
  constructor <;> decide +kernel

theorem markedVolume_reserved : Reserved (markedVolume 0x0FFFFFFF) := by
  constructor <;> decide +kernel

theorem markedVolume_isFile : IsFile (markedVolume 0x0FFFFFFF) (sampleFile 10) [3] where
  readable := ⟨fatChain_markedVolume, by
    simp only [List.mem_singleton, forall_eq]
    exact .inr (.inl (by decide +kernel))⟩
  size := by decide +kernel
  slot := ⟨by decide +kernel, by decide +kernel⟩
  slotUsed := by decide +kernel
  slotApart := by decide +kernel

end HanOS.Fs
