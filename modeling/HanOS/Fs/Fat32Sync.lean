import HanOS.Foundations.Run
import HanOS.Fs.Fat32Call

/-!
# The FAT on the disk

A write that grows a file changes two entries for each new cluster and writes one or
two sectors of the first FAT, chosen by rounding the position of the entry up.  For
an entry at the start of a sector that is the sector in front of it.  Over any
sequence of writes whose linked clusters have their entries elsewhere the FAT on the
disk stays the one in memory (`synced_of_settled`).
-/

namespace HanOS.Fs

open HanOS.Foundations HanOS.Lib HanOS.Core

variable {vol : Volume} {entry : Fat32Entry} {start cluster next total done : Nat}
  {chain new : List Nat} {dd : Mem}

/-- The first FAT on the disk is the array in memory, byte for byte. -/
def Synced (vol : Volume) : Prop :=
  ∀ k < vol.fatLen, vol.disk (fatOffset vol + k) = vol.mem (vol.fat + k)

def StartsSector (vol : Volume) (cluster : Nat) : Prop := vol.bs.bytesPerSector ∣ 4 * cluster

instance : Decidable (StartsSector vol cluster) := inferInstanceAs (Decidable (_ ∣ _))

def InSector (bytesPerSector no k : Nat) : Prop :=
  (no - 1) * bytesPerSector ≤ k ∧ k < (no - 1) * bytesPerSector + bytesPerSector

/-! ## Linking two clusters -/

/-- Elsewhere in a sector the sector written is the one the entry is in. -/
theorem Layout.entry_in_sector (layout : Layout vol) (present : 0 < cluster)
    (inside : cluster < vol.entries) (elsewhere : ¬ StartsSector vol cluster) {k : Nat}
    (at_entry : 4 * cluster ≤ k ∧ k < 4 * cluster + 4) :
    InSector vol.bs.bytesPerSector (fatSectorNo vol cluster) k := by
  have positive := layout.sector
  have remainder : 4 * cluster % vol.bs.bytesPerSector ≠ 0 := fun zero =>
    elsewhere (Nat.dvd_of_mod_eq_zero zero)
  have divided := Nat.div_add_mod' (4 * cluster) vol.bs.bytesPerSector
  have below := Nat.mod_lt (4 * cluster) positive
  have words : 4 ∣ 4 * cluster / vol.bs.bytesPerSector * vol.bs.bytesPerSector +
      vol.bs.bytesPerSector := Nat.dvd_add (Dvd.dvd.mul_left layout.words _) layout.words
  have rounded : (4 * cluster + (vol.bs.bytesPerSector - 1)) / vol.bs.bytesPerSector =
      4 * cluster / vol.bs.bytesPerSector + 1 := by
    rw [Nat.div_eq_iff positive, Nat.add_mul, Nat.one_mul]
    omega
  rw [(layout.fatSectorNo_mem present inside).1, rounded, InSector, Nat.add_sub_cancel]
  omega

/-- The FAT on the disk is the one in memory but for the bytes marked. -/
def SyncedExcept (vol : Volume) (dirty : Nat → Prop) : Prop :=
  ∀ k < vol.fatLen, ¬ dirty k → vol.disk (fatOffset vol + k) = vol.mem (vol.fat + k)

theorem SyncedExcept.setEntry {dirty : Nat → Prop} (synced : SyncedExcept vol dirty)
    (cluster value : Nat) :
    SyncedExcept (vol.setEntry cluster value)
      fun k => dirty k ∨ 4 * cluster ≤ k ∧ k < 4 * cluster + 4 := by
  intro k below clean
  rw [not_or] at clean
  have same : (vol.setEntry cluster value).mem (vol.fat + k) = vol.mem (vol.fat + k) :=
    storeLE_outside (by omega)
  exact (synced k below clean.1).trans same.symm

theorem SyncedExcept.writeFatSector (layout : Layout vol) {dirty : Nat → Prop} {no : Nat}
    (synced : SyncedExcept vol dirty) (first : 1 ≤ no) (last : no ≤ vol.bs.sectorsPerFat) :
    SyncedExcept (writeFatSector vol no) fun k => dirty k ∧ ¬ InSector vol.bs.bytesPerSector no k := by
  intro k below clean
  rw [writeFatSector_mem, writeFatSector_fat, layout.writeFatSector_disk first last]
  simp only [fatOffset, writeFatSector_bs, InSector] at clean ⊢
  by_cases written : InSector vol.bs.bytesPerSector no k
  · rw [InSector] at written
    rw [blit_inside (by omega) (by omega)]
    congr 1
    omega
  · rw [InSector] at written
    rw [blit_outside (by omega)]
    exact synced k below fun dirty => clean ⟨dirty, written⟩

theorem Synced.link (layout : Layout vol) (synced : Synced vol) (isCluster : vol.IsCluster cluster)
    (nextIsCluster : vol.IsCluster next) (elsewhere : ¬ StartsSector vol cluster)
    (nextElsewhere : ¬ StartsSector vol next) : Synced (linkCluster vol cluster next) := by
  have present : 0 < cluster := by have := isCluster.1; omega
  have nextPresent : 0 < next := by have := nextIsCluster.1; omega
  have no := layout.fatSectorNo_mem present isCluster.2
  have nextNo := layout.fatSectorNo_mem nextPresent nextIsCluster.2
  have clean : SyncedExcept vol fun _ => False := fun k below _ => synced k below
  have linked := (clean.setEntry cluster next).setEntry next 0x0FFFFFFF
  have linkedLayout : Layout ((vol.setEntry cluster next).setEntry next 0x0FFFFFFF) :=
    layout.congr rfl rfl rfl
  have once := linked.writeFatSector linkedLayout no.2.1 no.2.2
  have onceLayout : Layout (writeFatSector ((vol.setEntry cluster next).setEntry next 0x0FFFFFFF)
      (fatSectorNo vol cluster)) := linkedLayout.congr (by simp) (by simp) (by simp)
  have sameNo : ∀ c, fatSectorNo ((vol.setEntry cluster next).setEntry next 0x0FFFFFFF) c =
      fatSectorNo vol c := fun _ => rfl
  intro k below
  rw [linkCluster_fatLen] at below
  simp only [linkCluster, sameNo]
  split
  · -- two sectors are written
    refine once.writeFatSector onceLayout nextNo.2.1 nextNo.2.2 k below ?_
    rw [writeFatSector_bs, setEntry_bs, setEntry_bs]
    rintro ⟨⟨(impossible | dirty) | dirty, outside⟩, nextOutside⟩
    · exact impossible
    · exact outside (layout.entry_in_sector present isCluster.2 elsewhere dirty)
    · exact nextOutside (layout.entry_in_sector nextPresent nextIsCluster.2 nextElsewhere dirty)
  · next sameSector =>
    rw [not_not] at sameSector
    refine once k below ?_
    rw [setEntry_bs, setEntry_bs]
    rintro ⟨(impossible | dirty) | dirty, outside⟩
    · exact impossible
    · exact outside (layout.entry_in_sector present isCluster.2 elsewhere dirty)
    · exact outside (sameSector ▸
        layout.entry_in_sector nextPresent nextIsCluster.2 nextElsewhere dirty)

/-- A cluster written to the disk is not part of the FAT. -/
theorem Synced.write {flush : Flush} (dd : Mem) (layout : Layout flush.vol) (synced : Synced flush.vol)
    (isCluster : flush.vol.IsCluster flush.cluster) (position : Nat) :
    Synced (flush.write dd position).vol := by
  intro k below
  have before := layout.fat_before isCluster
  have offset : fatOffset (flush.write dd position).vol = fatOffset flush.vol := rfl
  rw [Flush.write_fatLen] at below
  rw [Flush.write_disk, offset, blit_outside (by omega)]
  exact synced k below

/-! ## The loop -/

/-- The clusters whose entries a write of `needed` clusters changes: the end of the chain and the
    lowest free ones. -/
def touchedClusters (vol : Volume) (chain : List Nat) (needed : Nat) : List Nat :=
  if needed ≤ chain.length then []
  else chain.getLast?.toList ++ (rawFree vol).take (needed - chain.length)

/-- The clusters linked so far, and the one they are linked to, are among the touched ones. -/
theorem Progress.linked_mem {flush : Flush} {needed : Nat}
    (progress : Progress vol start chain dd done flush new) (before : done < needed)
    (linked : new ≠ []) :
    (∀ c ∈ new, c ∈ touchedClusters vol chain needed) ∧
      ∀ c ∈ chain.getLast?, c ∈ touchedClusters vol chain needed := by
  have length := progress.length
  have nonempty := List.length_pos_iff.mpr linked
  have taken : new <+: (rawFree vol).take (needed - chain.length) := by
    rw [progress.grown.split, List.prefix_take_iff]
    exact ⟨List.prefix_append .., by omega⟩
  rw [touchedClusters, if_neg (by omega)]
  exact ⟨fun c member => List.mem_append_right _ (taken.subset member),
    fun c member => List.mem_append_left _ (Option.mem_toList.mpr member)⟩

/-- The loop keeps the FAT on the disk in step if no touched entry starts a sector. -/
theorem writeLoop_synced (layout : Layout vol) (reserved : Reserved vol)
    (readable : Readable vol start chain)
    (enough : passes vol total ≤ chain.length + (rawFree vol).length) (synced : Synced vol)
    (elsewhere : ∀ c ∈ touchedClusters vol chain (passes vol total), ¬ StartsSector vol c)
    {flush : Flush}
    (finished : writeLoop dd total (total + 1) 0 { vol, cluster := start, visited := [] } =
      some flush) : Synced flush.vol := by
  obtain ⟨last, ⟨new, progress, lastSynced⟩, ended⟩ := writeLoop_rule dd total
    layout.positive
    (fun done flush => ∃ new, Progress vol start chain dd done flush new ∧ Synced flush.vol)
    ⟨[], .initially readable, synced⟩ (fun _ _ ⟨_, progress, _⟩ => progress.grown.bs) (by
      rintro done flush more ⟨new, progress, inStep⟩
      obtain ⟨new', after, moves⟩ := progress.turn layout reserved (by omega)
      have flushLayout : Layout flush.vol :=
        layout.congr progress.grown.bs progress.grown.fat progress.grown.fatLen
      have here := progress.grown.readable.wellFormed.inside _ (List.mem_of_getElem? progress.here)
      have written := inStep.write dd flushLayout here (done * vol.bytesPerCluster)
      refine ⟨new', after, ?_⟩
      cases moves with
      | follow same => exact same ▸ written
      | @extend next ends linked =>
        obtain ⟨newMem, lastMem⟩ := after.linked_mem more (by simp)
        -- neither of the two linked clusters has its entry at the start of a sector
        have clean : ∀ c ∈ touchedClusters vol chain (passes vol total),
            ¬ StartsSector (flush.write dd (done * vol.bytesPerCluster)).vol c := by
          intro c member
          rw [StartsSector, Flush.write_bs, progress.grown.bs]
          exact elsewhere c member
        have nextInside := after.grown.readable.wellFormed.inside next (by simp)
        rw [@Volume.isCluster_congr vol _ _ after.grown.fatLen,
          ← Volume.isCluster_congr progress.grown.fatLen] at nextInside
        rw [linked]
        refine written.link (flushLayout.congr rfl rfl rfl) here nextInside (clean _ ?_)
          (clean _ (newMem next (by simp)))
        by_cases empty : new = []
        · rw [empty, List.append_nil] at ends
          exact lastMem _ ends
        · rw [List.getLast?_append_of_ne_nil _ empty] at ends
          exact newMem _ (List.mem_append_left _ (List.mem_of_getLast? ends)))
  obtain rfl := Option.some.inj (ended.symm.trans finished)
  have here := progress.grown.readable.wellFormed.inside _ (List.mem_of_getElem? progress.here)
  exact lastSynced.write dd
    (layout.congr progress.grown.bs progress.grown.fat progress.grown.fatLen) here _

/-! ## Runs -/

structure Mounted where
  vol : Volume
  files : List Fat32Entry

structure WriteCall where
  file : Nat
  offset : Nat
  len : Nat
  buff : Mem
  block : Mem
  readBlock : Mem

def Mounted.write (mounted : Mounted) (call : WriteCall) : Option Mounted :=
  match mounted.files[call.file]? with
  | none => none
  | some entry =>
    (fat32Write mounted.vol entry call.offset call.len call.buff call.block call.readBlock).map
      fun written => { vol := written.vol, files := mounted.files.set call.file written.entry }

/-- Every file has a well-formed chain and a slot in a cluster, no two files share a cluster, and the
    driver reaches all of them. -/
structure WellFormed (mounted : Mounted) : Prop where
  layout : Layout mounted.vol
  reaches : DriverReaches mounted.vol
  reserved : Reserved mounted.vol
  chains : ∀ (i : Nat) (entry : Fat32Entry), mounted.files[i]? = some entry →
    (∃ chain, FatChain mounted.vol entry.clusterBegin chain) ∧
      mounted.vol.IsCluster entry.dirEntryCluster
  apart : ∀ (i j : Nat) (entry other : Fat32Entry) chain otherChain, i ≠ j → mounted.files[i]? = some entry →
    mounted.files[j]? = some other → FatChain mounted.vol entry.clusterBegin chain →
    FatChain mounted.vol other.clusterBegin otherChain → List.Disjoint chain otherChain

/-- A call for one of the files that comes back, with none of the entries it changes at the start of
    a FAT sector. -/
structure Settled (mounted : Mounted) (call : WriteCall) : Prop where
  file : call.file < mounted.files.length
  comesBack : ∀ (entry : Fat32Entry) chain, mounted.files[call.file]? = some entry →
    FatChain mounted.vol entry.clusterBegin chain →
    WriteFits mounted.vol entry chain call.offset call.len
  elsewhere : ∀ (entry : Fat32Entry) chain, mounted.files[call.file]? = some entry →
    FatChain mounted.vol entry.clusterBegin chain →
    ∀ c ∈ touchedClusters mounted.vol chain
      (passes mounted.vol (sectorBytes mounted.vol call.offset call.len)),
      ¬ StartsSector mounted.vol c

theorem Synced.concludes {flush : Flush} {written : Written} {size retlen : Nat}
    (layout : Layout flush.vol) (synced : Synced flush.vol)
    (slot : flush.vol.IsCluster entry.dirEntryCluster)
    (concludes : Concludes flush entry size retlen written) : Synced written.vol := by
  intro k below
  rw [concludes.fatLen] at below
  have before := layout.fat_before slot
  have offset : fatOffset written.vol = fatOffset flush.vol := by
    simp only [fatOffset, concludes.bs]
  rw [concludes.mem, concludes.fat, offset, concludes.frame _ (.inl (by omega))]
  exact synced k below

/-- A call on file `i` that went through, with what it did to the volume. -/
structure Wrote (mounted after : Mounted) (i : Nat) (entry : Fat32Entry) (chain new : List Nat) :
    Prop where
  here : mounted.files[i]? = some entry
  layout : Layout after.vol
  bs : after.vol.bs = mounted.vol.bs
  fatLen : after.vol.fatLen = mounted.vol.fatLen
  grew : FatChain after.vol entry.clusterBegin (chain ++ new)
  fresh : ∀ c ∈ new, mounted.vol.IsCluster c
  kept : ∀ c, c ∉ new → chain.getLast? ≠ some c →
    after.vol.entryAt c = mounted.vol.entryAt c
  others : ∀ start other, FatChain mounted.vol start other → List.Disjoint chain other →
    FatChain after.vol start other ∧ List.Disjoint (chain ++ new) other
  files : ∀ (j : Nat) (entry' : Fat32Entry), after.files[j]? = some entry' →
    ∃ old : Fat32Entry, mounted.files[j]? = some old ∧ entry'.clusterBegin = old.clusterBegin ∧
      entry'.dirEntryCluster = old.dirEntryCluster
  synced : Synced mounted.vol → Synced after.vol

/-- A settled call comes back. -/
theorem Settled.isSome {mounted : Mounted} {call : WriteCall} (wellFormed : WellFormed mounted)
    (settled : Settled mounted call) : (mounted.write call).isSome := by
  have here := List.getElem?_eq_getElem settled.file
  obtain ⟨⟨chain, fatChain⟩, _⟩ := wellFormed.chains _ _ here
  have fits := settled.comesBack _ chain here fatChain
  obtain ⟨written, called⟩ := fits.comesBack call.buff call.block call.readBlock wellFormed.layout
    wellFormed.reserved fatChain
  rw [Mounted.write, here]
  simp only [called, Option.map_some, Option.isSome_some]

theorem Mounted.write_wrote {mounted after : Mounted} {call : WriteCall}
    (wellFormed : WellFormed mounted) (settled : Settled mounted call)
    (stepped : mounted.write call = some after) :
    ∃ entry chain new, FatChain mounted.vol entry.clusterBegin chain ∧
      Wrote mounted after call.file entry chain new := by
  rw [Mounted.write] at stepped
  split at stepped
  · cases stepped
  next entry here =>
  obtain ⟨written, called, rfl⟩ := Option.map_eq_some_iff.mp stepped
  obtain ⟨⟨chain, fatChain⟩, slot⟩ := wellFormed.chains _ _ here
  obtain ⟨understood, _, _, enough, _⟩ := settled.comesBack entry chain here fatChain
  have elsewhere := settled.elsewhere entry chain here fatChain
  obtain ⟨dd, flush, retlen, _, finished, updated⟩ := fat32Write_eq_some called
  have readable : Readable mounted.vol entry.clusterBegin chain := ⟨fatChain, understood⟩
  obtain ⟨last, new, ended, grown, _⟩ := writeLoop_grows dd wellFormed.layout
    wellFormed.reserved readable enough
  obtain rfl := Option.some.inj (ended.symm.trans finished)
  -- the update of the slot leaves the FAT and the clusters alone
  have concludes := updateEntry_concludes updated
  have flushLayout : Layout last.vol :=
    wellFormed.layout.congr grown.bs grown.fat grown.fatLen
  have entries : ∀ c, written.vol.entryAt c = last.vol.entryAt c := fun c => by
    simp only [Volume.entryAt, concludes.mem, concludes.fat]
  refine ⟨entry, chain, new, fatChain, here,
    flushLayout.congr concludes.bs concludes.fat concludes.fatLen, concludes.bs.trans grown.bs,
    concludes.fatLen.trans grown.fatLen,
    grown.readable.wellFormed.congr (fun c _ => entries c) concludes.fatLen,
    fun c member => grown.inside c (List.mem_append_right _ member),
    fun c new_ tail => (entries c).trans (grown.kept c new_ tail), ?_, ?_, ?_⟩
  · intro start other otherChain apart
    obtain ⟨same, stillApart⟩ := grown.others otherChain apart
    exact ⟨same.congr (fun c _ => entries c) concludes.fatLen, stillApart⟩
  · intro j entry' at_j
    by_cases same : call.file = j
    · subst same
      rw [List.getElem?_set_self (List.getElem?_eq_some_iff.mp here).1] at at_j
      obtain rfl := Option.some.inj at_j
      exact ⟨entry, here, concludes.kept.1, concludes.kept.2.1⟩
    · rw [List.getElem?_set_ne same] at at_j
      exact ⟨entry', at_j, rfl, rfl⟩
  · intro synced
    have inStep := writeLoop_synced wellFormed.layout wellFormed.reserved readable enough synced
      elsewhere finished
    exact inStep.concludes flushLayout ((Volume.isCluster_congr grown.fatLen).mpr slot) concludes

theorem Wrote.wellFormed {mounted after : Mounted} {i : Nat} {entry : Fat32Entry}
    {chain new : List Nat} (wellFormed : WellFormed mounted)
    (fatChain : FatChain mounted.vol entry.clusterBegin chain)
    (wrote : Wrote mounted after i entry chain new) : WellFormed after := by
  have untouched : ∀ c < 2, after.vol.entryAt c = mounted.vol.entryAt c := by
    intro c reserved
    refine wrote.kept c (fun member => ?_) (fun tail => ?_)
    · exact absurd (wrote.fresh c member).1 (by omega)
    · exact absurd (fatChain.inside c (List.mem_of_getLast? tail)).1 (by omega)
  -- the chain of file `j` after the call
  have chainOf : ∀ (j : Nat) (old : Fat32Entry) other, mounted.files[j]? = some old →
      FatChain mounted.vol old.clusterBegin other → j ≠ i →
      FatChain after.vol old.clusterBegin other ∧ List.Disjoint (chain ++ new) other :=
    fun j old other at_j otherChain different =>
      wrote.others _ _ otherChain
        (wellFormed.apart i j entry old chain other different.symm wrote.here at_j fatChain otherChain)
  refine ⟨wrote.layout, wellFormed.reaches.congr wrote.bs wrote.fatLen, ⟨?_, ?_⟩, ?_, ?_⟩
  · rw [untouched 0 (by omega)]
    exact wellFormed.reserved.1
  · rw [untouched 1 (by omega)]
    exact wellFormed.reserved.2
  · intro j entry' at_j
    obtain ⟨old, oldAt, begin_, slot⟩ := wrote.files j entry' at_j
    obtain ⟨⟨other, otherChain⟩, oldSlot⟩ := wellFormed.chains j old oldAt
    rw [begin_, slot, Volume.isCluster_congr wrote.fatLen]
    refine ⟨?_, oldSlot⟩
    by_cases same : j = i
    · subst same
      obtain rfl := Option.some.inj (wrote.here.symm.trans oldAt)
      exact ⟨_, wrote.grew⟩
    · exact ⟨other, (chainOf j old other oldAt otherChain same).1⟩
  · intro j k entry' other' chain' otherChain' different at_j at_k first second
    obtain ⟨old, oldAt, begin_, _⟩ := wrote.files j entry' at_j
    obtain ⟨other, otherAt, otherBegin, _⟩ := wrote.files k other' at_k
    rw [begin_] at first
    rw [otherBegin] at second
    obtain ⟨⟨oldChain, oldFat⟩, _⟩ := wellFormed.chains j old oldAt
    obtain ⟨⟨otherChain, otherFat⟩, _⟩ := wellFormed.chains k other otherAt
    by_cases atFirst : j = i
    · subst atFirst
      obtain rfl := Option.some.inj (wrote.here.symm.trans oldAt)
      obtain ⟨kept, apart⟩ := chainOf k other otherChain otherAt otherFat different.symm
      rw [first.follows.unique wrote.grew.follows, second.follows.unique kept.follows]
      exact apart
    · have firstKept := chainOf j old oldChain oldAt oldFat atFirst
      rw [first.follows.unique firstKept.1.follows]
      by_cases atSecond : k = i
      · subst atSecond
        obtain rfl := Option.some.inj (wrote.here.symm.trans otherAt)
        rw [second.follows.unique wrote.grew.follows]
        exact fun c member again => firstKept.2 again member
      · obtain ⟨kept, _⟩ := chainOf k other otherChain otherAt otherFat atSecond
        rw [second.follows.unique kept.follows]
        exact wellFormed.apart j k old other oldChain otherChain different oldAt otherAt oldFat
          otherFat

/-- From a well-formed volume with both FATs equal, over every sequence of settled writes, the
    first FAT on the disk equals the one in memory, and a further settled write comes back. -/
theorem synced_of_settled {start final : Mounted} (wellFormed : WellFormed start)
    (synced : Synced start.vol) (run : Run Mounted.write Settled start final) :
    Synced final.vol ∧ ∀ call, Settled final call → (final.write call).isSome := by
  have kept := run.invariant (fun mounted => WellFormed mounted ∧ Synced mounted.vol)
    ⟨wellFormed, synced⟩ (by
      rintro before call after ⟨beforeWellFormed, inStep⟩ settled stepped
      obtain ⟨entry, chain, new, fatChain, wrote⟩ :=
        Mounted.write_wrote beforeWellFormed settled stepped
      exact ⟨wrote.wellFormed beforeWellFormed fatChain, wrote.synced inStep⟩)
  exact ⟨kept.2, fun _ settled => settled.isSome kept.1⟩

/-- Two FAT sectors; cluster 3 is a chain of its own and 128, whose entry starts the second sector,
    is the first free cluster. -/
def twoSectorVolume : Volume :=
  let vol := sampleVolume (0x0FFFFFF8 :: List.replicate 127 0x0FFFFFFF)
  { vol with
    bs := { vol.bs with sectorsPerFat := 2, clusterBeginLba := 34 }
    fatLen := 1024
    disk := fun x => if 32 * 512 ≤ x then vol.mem (x - 32 * 512) else 0 }

/-- A second cluster for the file: the entry of cluster 128 does not reach the disk. -/
theorem first_entry_of_sector_not_written :
    Synced twoSectorVolume ∧
      (fat32Write twoSectorVolume (sampleFile 10) 0 600 (fun _ => 0x42) (fun _ => 0)
          (fun _ => 0)).map
          (fun written => (written.vol.entryAt 128,
            loadLE written.vol.disk (fatOffset written.vol + 4 * 128) 4)) =
        some (0x0FFFFFFF, 0) := by
  constructor
  · intro k _
    simp [twoSectorVolume, fatOffset, sampleVolume]
  · decide +kernel

def syncedVolume : Mounted where
  vol :=
    { markedVolume 0x0FFFFFFF with
      disk := fun x => if 32 * 512 ≤ x then (markedVolume 0x0FFFFFFF).mem (x - 32 * 512) else 0 }
  files := [sampleFile 10]

def secondCluster : WriteCall where
  file := 0
  offset := 0
  len := 600
  buff := fun _ => 0x42
  block := fun _ => 0
  readBlock := fun _ => 0

theorem syncedVolume_wellFormed : WellFormed syncedVolume where
  layout := markedVolume_layout.congr rfl rfl rfl
  reaches := markedVolume_reaches.congr rfl rfl
  reserved := markedVolume_reserved
  chains i entry at_i := by
    obtain ⟨rfl, rfl⟩ : i = 0 ∧ sampleFile 10 = entry := by
      simpa [syncedVolume, List.getElem?_singleton] using at_i
    exact ⟨⟨[3], markedVolume_isFile.readable.wellFormed.congr (fun _ _ => rfl) rfl⟩,
      markedVolume_isFile.slot⟩
  apart i j entry other _ _ different at_i at_j := by
    have first := (List.getElem?_eq_some_iff.mp at_i).1
    have second := (List.getElem?_eq_some_iff.mp at_j).1
    simp only [syncedVolume, List.length_singleton] at first second
    omega

theorem syncedVolume_settled : Settled syncedVolume secondCluster := by
  have chainOf : ∀ (entry : Fat32Entry) chain, syncedVolume.files[secondCluster.file]? = some entry →
      FatChain syncedVolume.vol entry.clusterBegin chain →
      sampleFile 10 = entry ∧ [3] = chain ∧ ∀ c ∈ chain, Understood (syncedVolume.vol.entryAt c) := by
    intro entry chain at_i fatChain
    obtain rfl : sampleFile 10 = entry := by
      simpa [syncedVolume, secondCluster] using at_i
    have readable : Readable syncedVolume.vol 3 [3] :=
      markedVolume_isFile.readable.congr (fun _ _ => rfl) rfl
    obtain rfl := fatChain.follows.unique readable.wellFormed.follows
    exact ⟨rfl, rfl, readable.understood⟩
  refine ⟨by decide, fun entry chain at_i fatChain => ?_, fun entry chain at_i fatChain => ?_⟩
  · obtain ⟨rfl, rfl, understood⟩ := chainOf entry chain at_i fatChain
    exact ⟨understood, by decide, by decide +kernel, by decide +kernel, .inr ⟨by decide, by decide⟩⟩
  · obtain ⟨rfl, rfl, _⟩ := chainOf entry chain at_i fatChain
    decide +kernel

/-- One write that adds cluster 4, whose entry is inside the first sector. -/
theorem synced_of_settled_secondCluster :
    ∃ final, syncedVolume.write secondCluster = some final ∧ Synced final.vol := by
  obtain ⟨final, stepped⟩ := Option.isSome_iff_exists.mp
    (syncedVolume_settled.isSome syncedVolume_wellFormed)
  refine ⟨final, stepped, (synced_of_settled syncedVolume_wellFormed ?_
    (.tail .refl syncedVolume_settled stepped)).1⟩
  intro k _
  simp [syncedVolume, fatOffset, markedVolume, sampleVolume]

end HanOS.Fs
