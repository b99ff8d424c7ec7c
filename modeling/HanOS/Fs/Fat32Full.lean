import HanOS.Fs.Fat32Call

/-!
# Growing a file on a nearly full volume

A write that needs more clusters than the chain has takes free ones.  The search for
them looks at raw entries, goes on behind the FAT array, and answers 0 when it finds
none; the loop links what it gets.  `Touched` bounds the entries a write can change
whatever the search answers, and with it the condition under which a growing write
does what it should (`fat32Write_extends_iff`).
-/

namespace HanOS.Fs

open HanOS.Foundations HanOS.Lib HanOS.Core

variable {vol : Volume} {entry : Fat32Entry} {start cluster offset len total : Nat}
  {chain : List Nat} {buff block readBlock dd : Mem}

/-- The free clusters of FAT32: those whose low 28 bits are zero. -/
def freeClusters (vol : Volume) : List Nat :=
  (List.range vol.entries).filter fun cluster =>
    2 ≤ cluster ∧ vol.entryAt cluster % 2 ^ 28 = 0

/-- The file was extended: new clusters, free before, stand behind its chain, no other entry
    changed, and chains of other files are as they were and share no cluster with it. -/
structure Extended (vol : Volume) (entry : Fat32Entry) (chain : List Nat) (needed : Nat)
    (written : Written) (new : List Nat) : Prop where
  extended : FatChain written.vol entry.clusterBegin (chain ++ new)
  reach : needed ≤ (chain ++ new).length
  wereFree : ∀ cluster ∈ new, vol.IsCluster cluster ∧ vol.entryAt cluster % 2 ^ 28 = 0
  kept : ∀ cluster < vol.entries, cluster ∉ new → chain.getLast? ≠ some cluster →
    written.vol.entryAt cluster = vol.entryAt cluster
  acyclic : (chain ++ new).Nodup
  others : ∀ start other, FatChain vol start other → List.Disjoint chain other →
    FatChain written.vol start other ∧ List.Disjoint (chain ++ new) other

structure Refused (vol : Volume) (entry : Fat32Entry) (len : Nat) (written : Written) : Prop where
  reported : written.retlen ≠ len
  entries : ∀ cluster < vol.entries, written.vol.entryAt cluster = vol.entryAt cluster
  size : written.entry.fileSizeBytes = entry.fileSizeBytes
  data : ∀ cluster, vol.IsCluster cluster → ∀ k < vol.bytesPerCluster,
    written.vol.disk (clusterOffset vol cluster + k) = vol.disk (clusterOffset vol cluster + k)

/-- What a growing write should do: extend the file if there are free clusters enough for it, and
    refuse to if not. -/
def ExtendsOrRefuses (vol : Volume) (entry : Fat32Entry) (chain : List Nat) (offset len : Nat)
    (buff : Mem) : Prop :=
  ∀ block readBlock, ∃ written, fat32Write vol entry offset len buff block readBlock = some written ∧
    if passes vol (sectorBytes vol offset len) ≤ chain.length + (freeClusters vol).length then
      ∃ new, Extended vol entry chain (passes vol (sectorBytes vol offset len)) written new
    else Refused vol entry len written

/-! ## The entries a write can change -/

/-- Cluster 0, what lies behind the array, what was zero, and the end of a chain the code
    understands. -/
def Changeable (vol : Volume) (chain : List Nat) (cluster : Nat) : Prop :=
  cluster = 0 ∨ vol.entries ≤ cluster ∨ vol.entryAt cluster = 0 ∨
    chain.getLast? = some cluster ∧ ∀ c ∈ chain, Understood (vol.entryAt c)

/-- The loop is still in the old chain, which it has understood so far. -/
def InChain (vol : Volume) (chain : List Nat) (flush : Flush) : Prop :=
  ∃ i, chain[i]? = some flush.cluster ∧
    (∀ (j c : Nat), j < i → chain[j]? = some c → Understood (vol.entryAt c)) ∧
    ∀ c, flush.vol.entryAt c = vol.entryAt c

/-- At any turn of the loop, whatever is in the FAT. -/
structure Touched (vol : Volume) (chain : List Nat) (flush : Flush) : Prop where
  bs : flush.vol.bs = vol.bs
  fatLen : flush.vol.fatLen = vol.fatLen
  changed : ∀ c, flush.vol.entryAt c ≠ vol.entryAt c → Changeable vol chain c
  phase : InChain vol chain flush ∨
    nextCluster flush.vol flush.cluster = none ∧ Changeable vol chain flush.cluster

theorem fat32GetFreeCluster_spec (vol : Volume) :
    fat32GetFreeCluster vol = 0 ∨
      fat32GetFreeCluster vol < vol.fatLen ∧ vol.entryAt (fat32GetFreeCluster vol) = 0 := by
  rw [fat32GetFreeCluster]
  cases found : (List.range vol.fatLen).find? fun i => vol.entryAt i = 0 with
  | none => exact .inl rfl
  | some cluster =>
    have zero := List.find?_some found
    have below := List.mem_range.mp (List.mem_of_find?_eq_some found)
    exact .inr ⟨below, by simpa using zero⟩

theorem nextCluster_behind (behind : vol.entries ≤ cluster) : nextCluster vol cluster = none :=
  nextCluster_eq_none_iff.mpr (if_pos behind)

/-- An entry the code does not understand leads it out of the array. -/
theorem nextCluster_not_understood (marks : vol.entries ≤ 0x0FFFFFF7)
    (inside : cluster < vol.entries) (unclear : ¬ Understood (vol.entryAt cluster)) :
    nextCluster vol cluster = some (vol.entryAt cluster) ∧ vol.entries ≤ vol.entryAt cluster := by
  simp only [Understood, not_or] at unclear
  refine ⟨nextCluster_eq_some_iff.mpr ⟨?_, by omega⟩, by omega⟩
  rw [fat32GetNextCluster_of_lt inside, if_neg (by omega)]

/-- Linking at a cluster that ends, and that may be changed, keeps to what may be changed. -/
theorem Touched.link {flush : Flush} (layout : Layout vol) (touched : Touched vol chain flush)
    (ends : nextCluster flush.vol flush.cluster = none)
    (changeable : Changeable vol chain flush.cluster) : Touched vol chain flush.advance := by
  rw [Flush.advance_of_none ends]
  have search := fat32GetFreeCluster_spec flush.vol
  generalize fat32GetFreeCluster flush.vol = next at *
  have fatLen := layout.fatLen_eq
  have marks := layout.marks
  have small : next < 2 ^ 32 := by
    rw [touched.fatLen] at search
    omega
  have entryOf : ∀ c, (linkCluster flush.vol flush.cluster next).entryAt c =
      if c = next then 0x0FFFFFFF else if c = flush.cluster then next else flush.vol.entryAt c :=
    fun c => entryAt_linkCluster small
  have nextChangeable : Changeable vol chain next := by
    rcases search with zero | ⟨_, zero⟩
    · exact .inl zero
    · by_cases same : flush.vol.entryAt next = vol.entryAt next
      · exact .inr (.inr (.inl (same ▸ zero)))
      · exact touched.changed next same
  refine ⟨by simp [touched.bs], by simp [touched.fatLen], ?_, .inr ⟨?_, nextChangeable⟩⟩
  · intro c different
    dsimp only at different
    rw [entryOf] at different
    split at different
    · next same => exact same ▸ nextChangeable
    · split at different
      · next same => exact same ▸ changeable
      · exact touched.changed c different
  · rw [nextCluster_eq_none_iff]
    dsimp only
    rw [fat32GetNextCluster, entryOf, if_pos rfl]
    simp

theorem Touched.turn {flush : Flush} (layout : Layout vol) (wellFormed : FatChain vol start chain)
    (touched : Touched vol chain flush) : Touched vol chain flush.advance := by
  rcases touched.phase with ⟨i, here, before, same⟩ | ⟨ends, changeable⟩
  · have member := List.mem_of_getElem? here
    have inside := (wellFormed.inside _ member).2
    have read := nextCluster_congr (same flush.cluster) touched.fatLen
    by_cases clear : Understood (vol.entryAt flush.cluster)
    · have linked : fatSucc vol flush.cluster ≠ some 0 := fun zero =>
        absurd (wellFormed.inside 0 (wellFormed.follows.succ_mem member zero)).1 (by omega)
      have step := read.trans ((nextCluster_eq_fatSucc_iff inside linked).mpr clear)
      rw [wellFormed.follows.succ_getElem? here] at step
      have understood : ∀ (j c : Nat), j < i + 1 → chain[j]? = some c → Understood (vol.entryAt c) := by
        intro j c below at_j
        rcases Nat.lt_succ_iff_lt_or_eq.mp below with earlier | rfl
        · exact before j c earlier at_j
        · obtain rfl := Option.some.inj (here.symm.trans at_j)
          exact clear
      cases next : chain[i + 1]? with
      | some cluster =>
        rw [next] at step
        rw [Flush.advance_of_some step]
        exact ⟨touched.bs, touched.fatLen, touched.changed, .inl ⟨i + 1, next, understood, same⟩⟩
      | none =>
        -- the end of a chain that was understood from its start
        have length := List.getElem?_eq_none_iff.mp next
        have position := (List.getElem?_eq_some_iff.mp here).1
        refine touched.link layout (step.trans next) (.inr (.inr (.inr ⟨?_, fun c member => ?_⟩)))
        · rw [List.getLast?_eq_getElem?, show chain.length - 1 = i by omega, here]
        · obtain ⟨j, at_j⟩ := List.mem_iff_getElem?.mp member
          have := (List.getElem?_eq_some_iff.mp at_j).1
          exact understood j c (by omega) at_j
    · obtain ⟨step, behind⟩ := nextCluster_not_understood layout.marks inside clear
      rw [Flush.advance_of_some (read.trans step)]
      refine ⟨touched.bs, touched.fatLen, touched.changed, .inr ⟨?_, .inr (.inl behind)⟩⟩
      exact nextCluster_behind (by rwa [Volume.entries, touched.fatLen])
  · exact touched.link layout ends changeable

/-- Every call that comes back has touched only what may be changed. -/
theorem fat32Write_touched (layout : Layout vol) (wellFormed : FatChain vol entry.clusterBegin chain)
    {written : Written} (called : fat32Write vol entry offset len buff block readBlock = some written) :
    ∃ flush, Touched vol chain flush ∧ ∃ retlen : Nat,
      retlen = min (sectorBytes vol offset len - offset) len ∧
      updateEntry entry (offset + len) retlen flush = some written := by
  obtain ⟨dd, flush, retlen, length, finished, updated⟩ := fat32Write_eq_some called
  have initially : Touched vol chain { vol, cluster := entry.clusterBegin, visited := [] } :=
    ⟨rfl, rfl, fun _ different => absurd rfl different, .inl ⟨0, by
      rw [← List.head?_eq_getElem?, wellFormed.follows.head?_eq], fun _ _ impossible =>
      absurd impossible (Nat.not_lt_zero _), fun _ => rfl⟩⟩
  have write : ∀ flush : Flush, ∀ position, Touched vol chain flush →
      Touched vol chain (flush.write dd position) := fun _ _ touched =>
    ⟨touched.bs, touched.fatLen, touched.changed, touched.phase⟩
  obtain ⟨last, touched, ended⟩ := writeLoop_rule dd (sectorBytes vol offset len)
    layout.positive (fun _ flush => Touched vol chain flush) initially (fun _ _ touched => touched.bs)
    (fun done flush _ touched => (write flush _ touched).turn layout wellFormed)
  obtain rfl := Option.some.inj (ended.symm.trans finished)
  exact ⟨_, write last _ touched, retlen, length, updated⟩

/-! ## A request that reaches behind the chain -/

/-- Such a request is longer than the chain, so its block takes the chain and the file grows. -/
theorem reaches_behind (layout : Layout vol) (bound : offset + len < 2 ^ 32)
    (behind : chain.length * vol.bytesPerCluster < sectorBytes vol offset len) :
    chain.length * vol.bytesPerCluster < offset + len ∧
      ChainFits vol chain (sectorBytes vol offset len) ∧
      chain.length < passes vol (sectorBytes vol offset len) := by
  obtain ⟨reach, short, count, total⟩ := layout.sectorBytes_spec (bound.trans (by decide))
  have sectorBound := layout.sectorBound
  refine ⟨?_, ?_, ?_⟩
  · have sectors : chain.length * vol.bytesPerCluster =
        vol.bs.bytesPerSector * (chain.length * vol.bs.sectorsPerCluster) := by
      rw [Volume.bytesPerCluster]; ring
    rw [total, sectors] at behind
    have more := Nat.mul_le_mul_left vol.bs.bytesPerSector
      (Nat.succ_le_of_lt (Nat.lt_of_mul_lt_mul_left behind))
    rw [← total, Nat.succ_eq_add_one, Nat.mul_add, ← sectors] at more
    omega
  · exact behind.le.trans (layout.le_pageAlignUp_sectorBytes (bound.trans (by decide)))
  · by_contra few
    by_cases empty : chain.length = 0
    · have := one_le_passes vol (sectorBytes vol offset len)
      omega
    · have all := (@passes_le_iff vol (sectorBytes vol offset len) layout.positive
        chain.length (by omega)).mp (by omega)
      omega

theorem rawFree_length_le (reserved : Reserved vol) :
    (rawFree vol).length ≤ (freeClusters vol).length := by
  refine (List.subperm_of_subset (rawFree_nodup vol) fun cluster free => ?_).length_le
  have isCluster := isCluster_of_mem_rawFree reserved free
  have zero := (mem_rawFree.mp free).2
  exact List.mem_filter.mpr ⟨List.mem_range.mpr isCluster.2, by simp [isCluster.1, zero]⟩

/-- With raw free clusters enough the file is extended. -/
theorem extends_of_enough (layout : Layout vol) (reserved : Reserved vol)
    (readable : Readable vol entry.clusterBegin chain) (bound : offset + len < 2 ^ 32)
    (behind : chain.length * vol.bytesPerCluster < sectorBytes vol offset len)
    (enough : passes vol (sectorBytes vol offset len) ≤ chain.length + (rawFree vol).length)
    (slot : SlotFits vol entry) : ExtendsOrRefuses vol entry chain offset len buff := by
  intro block readBlock
  have fits := (reaches_behind layout bound behind).2.1
  obtain ⟨dd, last, new, _, grown, length, called⟩ := fat32Write_grows buff block
    readBlock layout reserved readable (bound.trans (by decide)) fits enough
  obtain ⟨written, updated⟩ := Option.isSome_iff_exists.mp
    ((@updateEntry_isSome_iff entry last (offset + len) len).mpr (.inr (by rwa [SlotFits, grown.bs])))
  have concludes := updateEntry_concludes updated
  have entries : ∀ c, written.vol.entryAt c = last.vol.entryAt c := fun c => by
    simp only [Volume.entryAt, concludes.mem, concludes.fat]
  have more := rawFree_length_le reserved
  refine ⟨written, called.trans updated, ?_⟩
  rw [if_pos (by omega)]
  refine ⟨new, grown.readable.wellFormed.congr (fun c _ => entries c) concludes.fatLen, ?_, ?_, ?_,
    grown.readable.nodup, ?_⟩
  · rw [List.length_append, length]
    exact le_max_right ..
  · intro c fresh
    have free : c ∈ rawFree vol := grown.split ▸ List.mem_append_left _ fresh
    exact ⟨isCluster_of_mem_rawFree reserved free, by rw [(mem_rawFree.mp free).2]; rfl⟩
  · exact fun c _ old tail => (entries c).trans (grown.kept c old tail)
  · intro start other wellFormed apart
    obtain ⟨same, stillApart⟩ := grown.others wellFormed apart
    exact ⟨same.congr (fun c _ => entries c) concludes.fatLen, stillApart⟩

/-- What a write that extends or refuses tells about the FAT. -/
theorem enough_of_extends (layout : Layout vol) (wellFormed : FatChain vol entry.clusterBegin chain)
    (size : entry.fileSizeBytes ≤ chain.length * vol.bytesPerCluster)
    (bound : offset + len < 2 ^ 32)
    (behind : chain.length * vol.bytesPerCluster < sectorBytes vol offset len)
    (does : ExtendsOrRefuses vol entry chain offset len buff) :
    (∀ cluster ∈ chain, Understood (vol.entryAt cluster)) ∧
      passes vol (sectorBytes vol offset len) ≤ chain.length + (rawFree vol).length ∧
      SlotFits vol entry := by
  obtain ⟨grows, _, longer⟩ := reaches_behind layout bound behind
  obtain ⟨written, called, outcome⟩ := does (fun _ => 0) (fun _ => 0)
  obtain ⟨flush, touched, retlen, length, updated⟩ := fat32Write_touched layout wellFormed called
  have concludes := updateEntry_concludes updated
  have slot := updateEntry_isSome_iff.mp (Option.isSome_iff_exists.mpr ⟨written, updated⟩)
  rw [SlotFits, touched.bs] at slot
  split at outcome
  · obtain ⟨new, extended⟩ := outcome
    -- what the call has changed, it may change
    have changed : ∀ c, written.vol.entryAt c ≠ vol.entryAt c → Changeable vol chain c := by
      intro c different
      refine touched.changed c fun same => different (Eq.trans ?_ same)
      simp only [Volume.entryAt, concludes.mem, concludes.fat]
    have reach := extended.reach
    rw [List.length_append] at reach
    obtain ⟨first, rest, rfl⟩ := List.exists_cons_of_ne_nil
      (show new ≠ [] from List.ne_nil_of_length_pos (by omega))
    refine ⟨?_, ?_, slot.resolve_left (by omega)⟩
    · -- the end of the old chain now has a link
      have nonempty := wellFormed.follows.ne_nil
      have positive := List.length_pos_iff.mpr nonempty
      have position : chain[chain.length - 1]? = some (chain.getLast nonempty) := by
        rw [← List.getLast?_eq_getElem?, List.getLast?_eq_some_getLast nonempty]
      have ended := wellFormed.follows.succ_getElem? position
      have linked := extended.extended.follows.succ_getElem?
        ((List.getElem?_append_left (by omega)).trans position)
      rw [Nat.sub_add_cancel (by omega)] at ended linked
      rw [List.getElem?_append_right le_rfl, Nat.sub_self] at linked
      rw [List.getElem?_eq_none le_rfl] at ended
      have last := changed (chain.getLast nonempty) fun same => by
        have agree : fatSucc written.vol (chain.getLast nonempty) =
            fatSucc vol (chain.getLast nonempty) := by simp only [fatSucc, same]
        rw [linked, ended] at agree
        cases agree
      have isCluster := wellFormed.inside _ (List.getLast_mem nonempty)
      have used := wellFormed.entry_ne_zero (List.getLast_mem nonempty)
      rcases last with zero | behindArray | free | ⟨_, understood⟩
      · exact absurd isCluster.1 (by omega)
      · exact absurd isCluster.2 (by omega)
      · exact absurd free fun zero => used (by rw [zero]; rfl)
      · exact understood
    · -- the new clusters were zero
      have nodup := (List.nodup_append.mp extended.acyclic)
      have subset : first :: rest ⊆ rawFree vol := by
        intro c fresh
        obtain ⟨isCluster, wasFree⟩ := extended.wereFree c fresh
        have used := extended.extended.entry_ne_zero (List.mem_append_right _ fresh)
        rcases changed c fun same => used (same ▸ wasFree) with zero | behindArray | free | ⟨last, _⟩
        · exact absurd isCluster.1 (by omega)
        · exact absurd isCluster.2 (by omega)
        · exact mem_rawFree.mpr ⟨isCluster.2, free⟩
        · exact absurd rfl (nodup.2.2 c (List.mem_of_getLast? last) c fresh)
      have count := (List.subperm_of_subset nodup.2.1 subset).length_le
      omega
  · obtain ⟨reach, _, _⟩ := layout.sectorBytes_spec (bound.trans (by decide))
    refine absurd ?_ outcome.reported
    rw [concludes.retlen, length, min_eq_right (by omega)]

/-- A write that reaches behind its chain does what it should exactly when the code understands
    the chain, there are enough zero entries, and the slot can be updated. -/
theorem fat32Write_extends_iff (layout : Layout vol) (reserved : Reserved vol)
    (wellFormed : FatChain vol entry.clusterBegin chain)
    (size : entry.fileSizeBytes ≤ chain.length * vol.bytesPerCluster)
    (bound : offset + len < 2 ^ 32)
    (behind : chain.length * vol.bytesPerCluster < sectorBytes vol offset len) :
    ExtendsOrRefuses vol entry chain offset len buff ↔
      (∀ cluster ∈ chain, Understood (vol.entryAt cluster)) ∧
        passes vol (sectorBytes vol offset len) ≤ chain.length + (rawFree vol).length ∧
        SlotFits vol entry :=
  ⟨enough_of_extends layout wellFormed size bound behind,
    fun ⟨understood, enough, slot⟩ =>
      extends_of_enough layout reserved ⟨wellFormed, understood⟩ bound behind enough slot⟩

def fullVolume : Volume := sampleVolume (List.replicate 128 0x0FFFFFFF)

/-- 600 bytes for a file of one cluster of 512: the search ends behind the array, its answer is
    linked, and the call reports success. -/
theorem full_volume_links_outside :
    freeClusters fullVolume = [] ∧
      (fat32Write fullVolume (sampleFile 10) 0 600 (fun _ => 0x42) (fun _ => 0) (fun _ => 0)).map
          (fun written => (written.retlen, written.vol.entryAt 3, written.vol.entries)) =
        some (600, 128, 128) := by
  decide +kernel

/-- The same request with free clusters left. -/
theorem fat32Write_extends_iff_marked :
    [3].length * (markedVolume 0x0FFFFFFF).bytesPerCluster <
        sectorBytes (markedVolume 0x0FFFFFFF) 0 600 ∧
      (ExtendsOrRefuses (markedVolume 0x0FFFFFFF) (sampleFile 10) [3] 0 600 (fun _ => 0x42) ↔
        (∀ cluster ∈ [3], Understood ((markedVolume 0x0FFFFFFF).entryAt cluster)) ∧
          passes (markedVolume 0x0FFFFFFF) (sectorBytes (markedVolume 0x0FFFFFFF) 0 600) ≤
            [3].length + (rawFree (markedVolume 0x0FFFFFFF)).length ∧
          SlotFits (markedVolume 0x0FFFFFFF) (sampleFile 10)) :=
  have behind : [3].length * (markedVolume 0x0FFFFFFF).bytesPerCluster <
      sectorBytes (markedVolume 0x0FFFFFFF) 0 600 := by decide +kernel
  ⟨behind, fat32Write_extends_iff markedVolume_layout markedVolume_reserved
    markedVolume_isFile.readable.wellFormed markedVolume_isFile.size (by decide) behind⟩

end HanOS.Fs
