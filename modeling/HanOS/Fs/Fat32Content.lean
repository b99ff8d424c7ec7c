import HanOS.Fs.Fat32Call

/-!
# Write, then read

What a file holds after a write into it: the request where it was asked for, the old
content elsewhere.  The write stages the whole old chain in a block sized for the
request, and flushes that block in whole clusters.  `StagingHolds` is the condition
under which neither of the two goes wrong.
-/

namespace HanOS.Fs

open HanOS.Foundations HanOS.Lib HanOS.Core

variable {vol : Volume} {entry : Fat32Entry} {cluster offset len : Nat} {chain new : List Nat}
  {buff block dd : Mem}

/-- After the write the chain of the file holds the request in its place and the old content of
    the file around it, whatever the staging blocks held before. -/
def WritesThrough (vol : Volume) (entry : Fat32Entry) (chain : List Nat) (offset len : Nat)
    (buff : Mem) : Prop :=
  ∀ block readBlock, ∃ written chain',
    fat32Write vol entry offset len buff block readBlock = some written ∧
    FatChain written.vol entry.clusterBegin chain' ∧
    max entry.fileSizeBytes (offset + len) ≤ chain'.length * vol.bytesPerCluster ∧
    (∀ x, offset ≤ x → x < offset + len → chainByte written.vol chain' x = buff (x - offset)) ∧
    ∀ x < entry.fileSizeBytes, x < offset ∨ offset + len ≤ x →
      chainByte written.vol chain' x = chainByte vol chain x

/-- The block for `total` bytes takes the whole old chain, and its last cluster is full or lies
    behind the old content. -/
def StagingHolds (vol : Volume) (entry : Fat32Entry) (chain : List Nat) (total : Nat) : Prop :=
  ChainFits vol chain total ∧ (entry.fileSizeBytes ≤ total ∨ vol.bytesPerCluster ∣ total)

/-! ## From the loop to the content -/

/-- The slot of the file is none of its clusters. -/
theorem slot_apart {after : Volume} {done : Nat} (isFile : IsFile vol entry chain)
    (grown : Grown vol entry.clusterBegin chain dd done after new) (member : cluster ∈ chain ++ new) :
    cluster ≠ entry.dirEntryCluster := by
  rintro rfl
  exact grown.fresh isFile.slotUsed isFile.slotApart member

theorem Concludes.chainByte_eq {last : Flush} {written : Written} {done size retlen x : Nat}
    (layout : Layout vol) (isFile : IsFile vol entry chain)
    (grown : Grown vol entry.clusterBegin chain dd done last.vol new)
    (concludes : Concludes last entry size retlen written)
    (inside : x < (chain ++ new).length * vol.bytesPerCluster) :
    chainByte written.vol (chain ++ new) x =
      last.vol.disk (clusterOffset vol ((chain ++ new).getD (x / vol.bytesPerCluster) 0) +
        x % vol.bytesPerCluster) := by
  have bs := concludes.bs.trans grown.bs
  have index : x / vol.bytesPerCluster < (chain ++ new).length :=
    Nat.div_lt_of_lt_mul (by rwa [mul_comm])
  have member := List.getElem_mem index
  have apart := layout.clusters_apart (grown.inside _ member) isFile.slot
    (slot_apart isFile grown member)
  have remainder := Nat.mod_lt x layout.positive
  have sectors : vol.bs.bytesPerSector ≤ vol.bytesPerCluster := Nat.le_mul_of_pos_right _ layout.cluster
  rw [chainByte, bytesPerCluster_congr bs, clusterOffset_congr bs, List.getD_eq_getElem?_getD,
    List.getElem?_eq_getElem index, Option.getD_some]
  refine concludes.frame _ ?_
  rw [clusterOffset_congr grown.bs, grown.bs]
  omega

/-- Byte `x` of the file when the loop is over: from the block if its cluster was written. -/
theorem Grown.content {after : Volume} {done x : Nat} (layout : Layout vol)
    (grown : Grown vol entry.clusterBegin chain dd done after new)
    (inside : x < (chain ++ new).length * vol.bytesPerCluster) :
    after.disk (clusterOffset vol ((chain ++ new).getD (x / vol.bytesPerCluster) 0) +
        x % vol.bytesPerCluster) =
      if x / vol.bytesPerCluster < done then dd x else chainByte vol (chain ++ new) x := by
  have index : x / vol.bytesPerCluster < (chain ++ new).length :=
    Nat.div_lt_of_lt_mul (by rwa [mul_comm])
  have here := List.getElem?_eq_getElem index
  have remainder := Nat.mod_lt x layout.positive
  have position := Nat.div_add_mod' x vol.bytesPerCluster
  rw [chainByte, List.getD_eq_getElem?_getD, here, Option.getD_some]
  split
  · next before =>
    rw [grown.flushed.written _ _ here before _ remainder, position]
  · next behind =>
    refine grown.flushed.untouched _ (grown.inside _ (List.getElem_mem index)) ?_ _ remainder
    intro member
    obtain ⟨i, at_i⟩ := List.mem_iff_getElem?.mp member
    rw [List.getElem?_take] at at_i
    split at at_i
    · next before =>
      have same := (List.getElem?_inj (List.getElem?_eq_some_iff.mp at_i).1
        grown.readable.nodup).mp (at_i.trans here.symm)
      omega
    · cases at_i

theorem chainByte_append {x : Nat} (inside : x < chain.length * vol.bytesPerCluster) :
    chainByte vol (chain ++ new) x = chainByte vol chain x := by
  have index : x / vol.bytesPerCluster < chain.length :=
    Nat.div_lt_of_lt_mul (by rwa [mul_comm])
  simp only [chainByte, List.getD_eq_getElem?_getD, List.getElem?_append_left index]

/-- A byte lies in a cluster the loop writes exactly when it lies before the last whole cluster of
    the request ends. -/
theorem div_lt_passes_iff (layout : Layout vol) {total x : Nat} (positive : 0 < total) :
    x / vol.bytesPerCluster < passes vol total ↔ x / vol.bytesPerCluster * vol.bytesPerCluster < total := by
  by_cases first : x / vol.bytesPerCluster = 0
  · have one := one_le_passes vol total
    rw [first]
    omega
  · have count := @passes_le_iff vol total layout.positive
      (x / vol.bytesPerCluster) (Nat.one_le_iff_ne_zero.mpr first)
    rw [← not_le, count, not_le]

/-- The content after a call whose block holds what it must. -/
theorem writesThrough_of_holds (layout : Layout vol) (reserved : Reserved vol)
    (isFile : IsFile vol entry chain) (bound : offset + len < 2 ^ 32)
    (enough : passes vol (sectorBytes vol offset len) ≤ chain.length + (rawFree vol).length)
    (holds : StagingHolds vol entry chain (sectorBytes vol offset len))
    (slot : offset + len ≤ entry.fileSizeBytes ∨ SlotFits vol entry) :
    WritesThrough vol entry chain offset len buff := by
  intro block readBlock
  obtain ⟨dd, last, new, prepared, grown, length, called⟩ := fat32Write_grows buff block
    readBlock layout reserved isFile.readable (bound.trans (by decide)) holds.1 enough
  obtain ⟨reach, _, _⟩ := layout.sectorBytes_spec (bound.trans (by decide))
  have clusters := (@passes_le_iff vol (sectorBytes vol offset len) layout.positive _
    (one_le_passes ..)).mp le_rfl
  generalize sectorBytes vol offset len = total at *
  have updated : (updateEntry entry (offset + len) len last).isSome := by
    rw [updateEntry_isSome_iff, SlotFits, grown.bs]
    exact slot
  obtain ⟨written, updated⟩ := Option.isSome_iff_exists.mp updated
  have concludes := updateEntry_concludes updated
  -- the chain reaches over the old content and over the request
  have size : max entry.fileSizeBytes total ≤ (chain ++ new).length * vol.bytesPerCluster := by
    rw [List.length_append, length, max_mul]
    exact max_le_max isFile.size clusters
  have content : ∀ x < max entry.fileSizeBytes total, chainByte written.vol (chain ++ new) x =
      if x / vol.bytesPerCluster < passes vol total then dd x
      else chainByte vol (chain ++ new) x := fun x below =>
    (concludes.chainByte_eq layout isFile grown (by omega)).trans
      (grown.content layout (by omega))
  have positive : 0 < total := by
    have fits := holds.1
    have first := Nat.mul_le_mul_right vol.bytesPerCluster
      (List.length_pos_iff.mpr isFile.readable.wellFormed.follows.ne_nil)
    have nonempty := layout.positive
    by_contra zero
    obtain rfl : total = 0 := by omega
    rw [ChainFits, show pageAlignUp 0 = 0 from rfl] at fits
    omega
  refine ⟨written, chain ++ new, called.trans updated, ?_, by omega, ?_, ?_⟩
  · exact grown.readable.wellFormed.congr (fun c _ => by
      simp only [Volume.entryAt, concludes.mem, concludes.fat]) concludes.fatLen
  · intro x low high
    have floor := Nat.div_mul_le_self x vol.bytesPerCluster
    rw [content x (by omega), if_pos ((div_lt_passes_iff layout positive).mpr (by omega))]
    exact prepared.request x low high
  · intro x inFile outside
    have inChain : x < chain.length * vol.bytesPerCluster := by have := isFile.size; omega
    rw [content x (by omega)]
    split
    · next flushed =>
      refine prepared.old x outside ?_ inChain
      -- behind the request, the clusters written end with the block
      by_contra past
      have short := (div_lt_passes_iff layout positive).mp flushed
      obtain ⟨count, rfl⟩ := holds.2.resolve_left (by omega)
      have whole := Nat.div_le_div_right (c := vol.bytesPerCluster) (not_lt.mp past)
      rw [Nat.mul_div_cancel_left _ layout.positive] at whole
      have step := Nat.mul_le_mul_right vol.bytesPerCluster whole
      rw [mul_comm] at short
      rw [mul_comm, mul_comm (_ / _)] at step
      omega
    · exact chainByte_append inChain

/-- What a call that writes through tells about the request. -/
theorem holds_of_writesThrough (layout : Layout vol) (reserved : Reserved vol)
    (isFile : IsFile vol entry chain) (bound : offset + len < 2 ^ 32)
    (enough : passes vol (sectorBytes vol offset len) ≤ chain.length + (rawFree vol).length)
    (writes : WritesThrough vol entry chain offset len buff) :
    StagingHolds vol entry chain (sectorBytes vol offset len) ∧
      (offset + len ≤ entry.fileSizeBytes ∨ SlotFits vol entry) := by
  have fits : ChainFits vol chain (sectorBytes vol offset len) := by
    by_contra tooLong
    obtain ⟨written, _, called, _⟩ := writes (fun _ => 0) (fun _ => 0)
    rw [fat32Write_eq_none layout isFile.readable (bound.trans (by decide)) tooLong] at called
    cases called
  obtain ⟨reach, _, _⟩ := layout.sectorBytes_spec (bound.trans (by decide))
  -- a block that differs from the old content everywhere
  obtain ⟨written, chain', called, wellFormed, _, _, kept⟩ :=
    writes (fun x => chainByte vol chain x + 1) (fun _ => 0)
  obtain ⟨dd, last, new, prepared, grown, length, loop⟩ := fat32Write_grows buff
    (fun x => chainByte vol chain x + 1) (fun _ => 0) layout reserved
    isFile.readable (bound.trans (by decide)) fits enough
  generalize sectorBytes vol offset len = total at *
  rw [loop] at called
  have concludes := updateEntry_concludes called
  have slot := updateEntry_isSome_iff.mp (Option.isSome_iff_exists.mpr ⟨written, called⟩)
  rw [SlotFits, grown.bs] at slot
  refine ⟨⟨fits, ?_⟩, slot⟩
  by_contra bad
  rw [not_or, not_le] at bad
  have same : chain' = chain ++ new := by
    refine wellFormed.follows.unique (grown.readable.wellFormed.congr (fun c _ => ?_)
      concludes.fatLen).follows
    simp only [Volume.entryAt, concludes.mem, concludes.fat]
  subst same
  have inChain : total < chain.length * vol.bytesPerCluster := bad.1.trans_le isFile.size
  have longer : total < (chain ++ new).length * vol.bytesPerCluster := by
    rw [List.length_append, Nat.add_mul]
    omega
  have content := kept total bad.1 (.inr reach)
  have positive : 0 < total := by
    by_contra zero
    exact bad.2 (by rw [show total = 0 by omega]; exact dvd_zero _)
  have partly : total / vol.bytesPerCluster * vol.bytesPerCluster < total :=
    lt_of_le_of_ne (Nat.div_mul_le_self ..) fun whole => bad.2 (Dvd.intro_left _ whole)
  rw [concludes.chainByte_eq layout isFile grown longer, grown.content layout longer,
    if_pos ((div_lt_passes_iff layout positive).mpr partly), prepared.rest total le_rfl] at content
  simp at content

/-- With free clusters enough, a write into a file goes through exactly when its staging block
    holds the chain and the tail of its last cluster, and the slot can be updated. -/
theorem fat32Write_writesThrough_iff (layout : Layout vol) (reserved : Reserved vol)
    (isFile : IsFile vol entry chain) (bound : offset + len < 2 ^ 32)
    (enough : passes vol (sectorBytes vol offset len) ≤ chain.length + (rawFree vol).length) :
    WritesThrough vol entry chain offset len buff ↔
      StagingHolds vol entry chain (sectorBytes vol offset len) ∧
        (offset + len ≤ entry.fileSizeBytes ∨ SlotFits vol entry) :=
  ⟨holds_of_writesThrough layout reserved isFile bound enough,
    fun ⟨holds, slot⟩ => writesThrough_of_holds layout reserved isFile bound enough holds slot⟩

/-- Clusters of eight sectors on a disk full of letters; cluster 3 is a chain of its own. -/
def letterVolume : Volume :=
  { markedVolume 0x0FFFFFFF with
    bs := { (markedVolume 0x0FFFFFFF).bs with sectorsPerCluster := 8 }
    disk := fun _ => 0x41 }

/-- Ten bytes written at the start of a file of one cluster: byte 600 is lost. -/
theorem short_write_loses_rest_of_cluster :
    chainByte letterVolume [3] 600 = 0x41 ∧
      (fat32Write letterVolume (sampleFile 4096) 0 10 (fun _ => 0x42) (fun _ => 0)
        (fun _ => 0)).map (fun written => chainByte written.vol [3] 600) = some 0 := by
  decide +kernel

/-- Ten bytes over the ten bytes of a small file. -/
theorem fat32Write_writesThrough_iff_marked :
    passes (markedVolume 0x0FFFFFFF) (sectorBytes (markedVolume 0x0FFFFFFF) 0 10) ≤
        [3].length + (rawFree (markedVolume 0x0FFFFFFF)).length ∧
      (WritesThrough (markedVolume 0x0FFFFFFF) (sampleFile 10) [3] 0 10 (fun _ => 0x42) ↔
        StagingHolds (markedVolume 0x0FFFFFFF) (sampleFile 10) [3]
            (sectorBytes (markedVolume 0x0FFFFFFF) 0 10) ∧
          (0 + 10 ≤ (sampleFile 10).fileSizeBytes ∨
            SlotFits (markedVolume 0x0FFFFFFF) (sampleFile 10))) :=
  have enough : passes (markedVolume 0x0FFFFFFF) (sectorBytes (markedVolume 0x0FFFFFFF) 0 10) ≤
      [3].length + (rawFree (markedVolume 0x0FFFFFFF)).length := by decide +kernel
  ⟨enough, fat32Write_writesThrough_iff markedVolume_layout markedVolume_reserved
    markedVolume_isFile (by decide) enough⟩

end HanOS.Fs
