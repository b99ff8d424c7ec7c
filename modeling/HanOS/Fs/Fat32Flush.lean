import HanOS.Fs.Fat32Chain

/-!
# The loop of `fat32_write`

A request of `total` bytes takes `passes` turns of the loop, one for each cluster it
writes.  `writeLoop_rule` turns what one turn preserves into what the loop preserves.
-/

namespace HanOS.Fs

open HanOS.Foundations HanOS.Lib HanOS.Core

variable {vol : Volume} {start cluster next total : Nat} {chain : List Nat} {dd : Mem}

/-! ## What the steps leave alone -/

section Frame

variable (vol : Volume) (flush : Flush) (dd : Mem) (lba count position no value : Nat)

@[simp] theorem ataPioWrite28_bs : (vol.ataPioWrite28 lba count dd position).bs = vol.bs := rfl
@[simp] theorem ataPioWrite28_fat : (vol.ataPioWrite28 lba count dd position).fat = vol.fat := rfl
@[simp] theorem ataPioWrite28_fatLen :
    (vol.ataPioWrite28 lba count dd position).fatLen = vol.fatLen := rfl
@[simp] theorem ataPioWrite28_mem : (vol.ataPioWrite28 lba count dd position).mem = vol.mem := rfl

@[simp] theorem setEntry_bs : (vol.setEntry cluster value).bs = vol.bs := rfl
@[simp] theorem setEntry_fat : (vol.setEntry cluster value).fat = vol.fat := rfl
@[simp] theorem setEntry_fatLen : (vol.setEntry cluster value).fatLen = vol.fatLen := rfl
@[simp] theorem setEntry_disk : (vol.setEntry cluster value).disk = vol.disk := rfl

@[simp] theorem writeFatSector_bs : (writeFatSector vol no).bs = vol.bs := by
  simp only [writeFatSector, ataPioWrite28_bs]
@[simp] theorem writeFatSector_fat : (writeFatSector vol no).fat = vol.fat := by
  simp only [writeFatSector, ataPioWrite28_fat]
@[simp] theorem writeFatSector_fatLen : (writeFatSector vol no).fatLen = vol.fatLen := by
  simp only [writeFatSector, ataPioWrite28_fatLen]
@[simp] theorem writeFatSector_mem : (writeFatSector vol no).mem = vol.mem := by
  simp only [writeFatSector, ataPioWrite28_mem]

@[simp] theorem linkCluster_bs : (linkCluster vol cluster next).bs = vol.bs := by
  simp only [linkCluster]; split <;> simp only [writeFatSector_bs, setEntry_bs]
@[simp] theorem linkCluster_fat : (linkCluster vol cluster next).fat = vol.fat := by
  simp only [linkCluster]; split <;> simp only [writeFatSector_fat, setEntry_fat]
@[simp] theorem linkCluster_fatLen : (linkCluster vol cluster next).fatLen = vol.fatLen := by
  simp only [linkCluster]; split <;> simp only [writeFatSector_fatLen, setEntry_fatLen]
theorem linkCluster_mem : (linkCluster vol cluster next).mem =
    ((vol.setEntry cluster next).setEntry next 0x0FFFFFFF).mem := by
  simp only [linkCluster]; split <;> simp only [writeFatSector_mem]

@[simp] theorem Flush.write_cluster : (flush.write dd position).cluster = flush.cluster := rfl
@[simp] theorem Flush.write_visited :
    (flush.write dd position).visited = flush.visited ++ [flush.cluster] := rfl
@[simp] theorem Flush.write_bs : (flush.write dd position).vol.bs = flush.vol.bs := rfl
@[simp] theorem Flush.write_fat : (flush.write dd position).vol.fat = flush.vol.fat := rfl
@[simp] theorem Flush.write_fatLen : (flush.write dd position).vol.fatLen = flush.vol.fatLen := rfl
@[simp] theorem Flush.write_mem : (flush.write dd position).vol.mem = flush.vol.mem := rfl
@[simp] theorem Flush.write_entryAt :
    (flush.write dd position).vol.entryAt cluster = flush.vol.entryAt cluster := rfl
@[simp] theorem Flush.write_nextCluster :
    nextCluster (flush.write dd position).vol cluster = nextCluster flush.vol cluster := rfl

@[simp] theorem Flush.advance_visited : flush.advance.visited = flush.visited := by
  unfold Flush.advance; dsimp only; split <;> rfl

end Frame

/-! ## The two ways to go on -/

theorem Flush.advance_of_some {flush : Flush}
    (follows : nextCluster flush.vol flush.cluster = some next) :
    flush.advance = { flush with cluster := next } := by
  obtain ⟨rfl, present⟩ := nextCluster_eq_some_iff.mp follows
  rw [Flush.advance, if_neg present]

theorem Flush.advance_of_none {flush : Flush} (ends : nextCluster flush.vol flush.cluster = none) :
    flush.advance =
      { flush with
        vol := linkCluster flush.vol flush.cluster (fat32GetFreeCluster flush.vol)
        cluster := fat32GetFreeCluster flush.vol } := by
  rw [Flush.advance, if_pos (nextCluster_eq_none_iff.mp ends)]

@[simp] theorem Flush.advance_bs (flush : Flush) : flush.advance.vol.bs = flush.vol.bs := by
  cases follows : nextCluster flush.vol flush.cluster with
  | some next => rw [Flush.advance_of_some follows]
  | none => rw [Flush.advance_of_none follows]; simp

/-! ## The loop rule -/

/-- The number of clusters a request of `total` bytes writes. -/
def passes (vol : Volume) (total : Nat) : Nat :=
  max 1 ((total + (vol.bytesPerCluster - 1)) / vol.bytesPerCluster)

theorem one_le_passes (vol : Volume) (total : Nat) : 1 ≤ passes vol total := le_max_left ..

theorem passes_le_iff (positive : 0 < vol.bytesPerCluster) {count : Nat} (some_ : 1 ≤ count) :
    passes vol total ≤ count ↔ total ≤ count * vol.bytesPerCluster := by
  rw [passes, max_le_iff, Nat.div_le_iff_le_mul_add_pred positive, mul_comm]
  omega

theorem bytesPerCluster_congr {vol' : Volume} (same : vol'.bs = vol.bs) :
    vol'.bytesPerCluster = vol.bytesPerCluster := by
  simp only [Volume.bytesPerCluster, same]

/-- Turn `done` of the loop writes the cluster it is at and, before another turn, goes on. -/
theorem writeLoop_rule (dd : Mem) (total : Nat) (positive : 0 < vol.bytesPerCluster) (holds : Nat → Flush → Prop)
    {flush : Flush} (initially : holds 0 flush)
    (same : ∀ done flush, holds done flush → flush.vol.bs = vol.bs)
    (turn : ∀ done flush, done + 1 < passes vol total → holds done flush →
      holds (done + 1) (flush.write dd (done * vol.bytesPerCluster)).advance) :
    ∃ last, holds (passes vol total - 1) last ∧
      writeLoop dd total (total + 1) 0 flush =
        some (last.write dd ((passes vol total - 1) * vol.bytesPerCluster)) := by
  suffices step : ∀ fuel done flush, done < passes vol total →
      total + 1 ≤ done * vol.bytesPerCluster + fuel → holds done flush →
      ∃ last, holds (passes vol total - 1) last ∧
        writeLoop dd total fuel (done * vol.bytesPerCluster) flush =
          some (last.write dd ((passes vol total - 1) * vol.bytesPerCluster)) by
    simpa using step (total + 1) 0 flush (one_le_passes ..) (by omega) initially
  intro fuel
  induction fuel with
  | zero =>
    intro done flush before enough _
    -- there was fuel for every turn
    have more := @passes_le_iff vol total positive done
    cases done with
    | zero => omega
    | succ done =>
      have := (more (by omega)).mpr (by omega)
      omega
  | succ fuel inductionHypothesis =>
    intro done flush before enough held
    have size : (flush.write dd (done * vol.bytesPerCluster)).vol.bytesPerCluster =
        vol.bytesPerCluster :=
      bytesPerCluster_congr (same done flush held)
    have last := @passes_le_iff vol total positive (done + 1) (by omega)
    rw [writeLoop]
    simp only [size, ← Nat.succ_mul]
    by_cases finished : total ≤ (done + 1) * vol.bytesPerCluster
    · -- the last turn
      have count := last.mpr finished
      obtain rfl : done = passes vol total - 1 := by omega
      exact ⟨flush, held, by rw [Nat.succ_eq_add_one, if_pos finished]⟩
    · have more : done + 1 < passes vol total := by
        by_contra enoughPasses
        exact finished (last.mp (by omega))
      rw [Nat.succ_eq_add_one, if_neg finished]
      refine inductionHypothesis (done + 1) _ more ?_ (turn done flush more held)
      rw [Nat.succ_mul]
      omega

/-! ## The chain a write follows -/

/-- The position in the chain after `done` turns; once past the end nothing of it is left. -/
structure Following (vol : Volume) (chain : List Nat) (done : Nat) (flush : Flush) : Prop where
  bs : flush.vol.bs = vol.bs
  visited : flush.visited.take chain.length = chain.take done
  length : flush.visited.length = done
  position : done < chain.length → flush.vol.mem = vol.mem ∧ flush.vol.fat = vol.fat ∧
    flush.vol.fatLen = vol.fatLen ∧ chain[done]? = some flush.cluster

theorem nextCluster_congr {vol' : Volume} (entry : vol'.entryAt cluster = vol.entryAt cluster)
    (fatLen : vol'.fatLen = vol.fatLen) : nextCluster vol' cluster = nextCluster vol cluster := by
  rw [nextCluster, nextCluster, fat32GetNextCluster, fat32GetNextCluster, entry, fatLen]

theorem Following.write {done : Nat} {flush : Flush} (following : Following vol chain done flush)
    (dd : Mem) (position : Nat) :
    ((flush.write dd position).visited.take chain.length = chain.take (done + 1)) ∧
      (flush.write dd position).visited.length = done + 1 := by
  refine ⟨?_, by simp [following.length]⟩
  rw [Flush.write_visited, List.take_append, following.visited, following.length]
  by_cases before : done < chain.length
  · obtain ⟨_, _, _, here⟩ := following.position before
    have single : [flush.cluster].take (chain.length - done) = [flush.cluster] :=
      List.take_of_length_le (by rw [List.length_singleton]; omega)
    rw [List.take_add_one, here, single]
    rfl
  · rw [List.take_of_length_le (i := done) (by omega), List.take_of_length_le (i := done + 1) (by omega),
      show chain.length - done = 0 by omega]
    simp

theorem Following.turn {done : Nat} {flush : Flush} (walk : Chain (nextCluster vol) start chain)
    (following : Following vol chain done flush) (position : Nat) :
    Following vol chain (done + 1) (flush.write dd position).advance := by
  have written := following.write dd position
  refine ⟨by simpa using following.bs, by simpa using written.1, by simpa using written.2, ?_⟩
  intro before
  obtain ⟨mem, fat, fatLen, here⟩ := following.position (by omega)
  have next : nextCluster flush.vol flush.cluster = chain[done + 1]? := by
    rw [nextCluster_congr (by simp only [Volume.entryAt, mem, fat]) fatLen, walk.succ_getElem? here]
  rw [List.getElem?_eq_getElem before] at next
  rw [@Flush.advance_of_some _ (flush.write dd position) next]
  exact ⟨mem, fat, fatLen, by simp⟩

/-- The clusters a write visits are the FAT32 chain, as far as it reaches. -/
theorem writeLoop_visits (positive : 0 < vol.bytesPerCluster)
    (wellFormed : FatChain vol start chain)
    (understood : ∀ cluster ∈ chain, Understood (vol.entryAt cluster)) (dd : Mem) (total : Nat) :
    ∃ flush, writeLoop dd total (total + 1) 0 { vol, cluster := start, visited := [] } =
        some flush ∧ flush.visited.take chain.length = chain.take flush.visited.length := by
  have walk := wellFormed.nextCluster_iff.mpr understood
  have initially : Following vol chain 0 { vol, cluster := start, visited := [] } :=
    ⟨rfl, by simp, rfl, fun _ => ⟨rfl, rfl, rfl, by rw [← List.head?_eq_getElem?, walk.head?_eq]⟩⟩
  obtain ⟨last, following, finished⟩ := writeLoop_rule dd total positive
    (Following vol chain) initially (fun _ _ held => held.bs)
    (fun done flush _ held => held.turn walk (done * vol.bytesPerCluster))
  have written := following.write dd ((passes vol total - 1) * vol.bytesPerCluster)
  exact ⟨_, finished, by rw [written.1, written.2]⟩

/-- The loops of `fat32_read`, `fat32_refresh` and `fat32_write` visit the FAT32 chain exactly when
    the code understands every entry of it. -/
theorem chainLoops_visit_iff {entry : Fat32Entry} (positive : 0 < vol.bytesPerCluster)
    (wellFormed : FatChain vol entry.clusterBegin chain) :
    ((∀ dd, (readLoop vol (walkFuel vol) entry.clusterBegin 0 dd).map Staged.visited =
        some chain) ∧
      (∀ (Items : Type) (pass : Mem → Nat → Items → Mem × Items) (tempBuffer : Mem) (items : Items),
        (fat32Refresh vol pass entry tempBuffer items).map Prod.fst = some chain) ∧
      ∀ dd total, ∃ flush,
        writeLoop dd total (total + 1) 0 { vol, cluster := entry.clusterBegin, visited := [] } =
          some flush ∧ flush.visited.take chain.length = chain.take flush.visited.length) ↔
      ∀ cluster ∈ chain, Understood (vol.entryAt cluster) := by
  constructor
  · rintro ⟨reads, _, _⟩
    exact (readLoop_visits_iff wellFormed fun _ => 0).mp (reads _)
  · intro understood
    exact ⟨fun dd => (readLoop_visits_iff wellFormed dd).mpr understood,
      fun Items pass tempBuffer items =>
        (fat32Refresh_visits_iff pass wellFormed tempBuffer items).mpr understood,
      writeLoop_visits positive wellFormed understood⟩

/-! ## A chain that ends in another mark -/

def fatArray (entries : List Nat) : Mem := fun a =>
  BitVec.ofNat 8 (entries.getD (a / 4) 0 / 256 ^ (a % 4))

/-- A volume of one FAT sector with the given entries first and an empty disk. -/
def sampleVolume (entries : List Nat) : Volume where
  bs := { bytesPerSector := 512, sectorsPerCluster := 1, reservedSectorCount := 32, numFats := 1,
          sectorsPerFat := 1, rootDirFirstCluster := 2, fatBeginLba := 32, clusterBeginLba := 33,
          totalSectors := 160 }
  fat := 0
  fatLen := 512
  mem := fatArray entries
  disk := fun _ => 0

/-- A file of `size` bytes that starts at cluster 3; its slot is the first of the root directory. -/
def sampleFile (size : Nat) : Fat32Entry where
  name := fun _ => 0x41
  attr := 0x20
  clusterBegin := 3
  fileSizeBytes := size
  dirEntryCluster := 2
  dirEntryIndex := 0

/-- Cluster 3 is a chain of its own, with the given end mark. -/
def markedVolume (mark : Nat) : Volume :=
  sampleVolume [0x0FFFFFF8, 0x0FFFFFFF, 0x0FFFFFFF, mark]

/-- The loop goes on with the end mark 0x0FFFFFF8 as a cluster. -/
theorem read_past_end_mark :
    fatSucc (markedVolume 0x0FFFFFF8) 3 = none ∧
      (readLoop (markedVolume 0x0FFFFFF8) (walkFuel (markedVolume 0x0FFFFFF8)) 3 0
        (fun _ => 0)).map Staged.visited = some [3, 0x0FFFFFF8] := by
  decide +kernel

theorem fatChain_markedVolume : FatChain (markedVolume 0x0FFFFFFF) 3 [3] :=
  ⟨.last (by decide +kernel), by
    simp only [List.mem_singleton, forall_eq, Volume.IsCluster]
    decide +kernel⟩

/-- Cluster 4 is the second and last one of the file that starts at cluster 3. -/
def linkedVolume : Volume := sampleVolume [0x0FFFFFF8, 0x0FFFFFFF, 0x0FFFFFFF, 4, 0x0FFFFFFF]

theorem linkedVolume_chain : FatChain linkedVolume 3 [3, 4] := by
  refine ⟨.link (b := 4) (by decide +kernel) (.last (by decide +kernel)), ?_⟩
  simp only [List.forall_mem_cons, Volume.IsCluster]
  decide +kernel

/-- With the mark 0x0FFFFFFF the loops keep to the chain. -/
theorem chainLoops_visit_iff_linked :
    ((∀ dd, (readLoop linkedVolume (walkFuel linkedVolume) 3 0 dd).map Staged.visited = some [3, 4]) ∧
      (∀ (Items : Type) (pass : Mem → Nat → Items → Mem × Items) (tempBuffer : Mem) (items : Items),
        (fat32Refresh linkedVolume pass (sampleFile 600) tempBuffer items).map Prod.fst = some [3, 4]) ∧
      ∀ dd total, ∃ flush,
        writeLoop dd total (total + 1) 0 { vol := linkedVolume, cluster := 3, visited := [] } =
            some flush ∧
          flush.visited.take [3, 4].length = [3, 4].take flush.visited.length) ↔
      ∀ cluster ∈ [3, 4], Understood (linkedVolume.entryAt cluster) :=
  @chainLoops_visit_iff linkedVolume [3, 4] (sampleFile 600) (by decide +kernel) linkedVolume_chain

end HanOS.Fs
