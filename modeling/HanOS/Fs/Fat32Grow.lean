import HanOS.Fs.Fat32Layout

/-!
# What a write does to a chain with enough free clusters

The loop of `fat32_write` goes along the chain and, at its end, puts the lowest free
clusters behind it.  `Grown` describes the volume at any point of the loop: the
chain so far, the entries kept, the free clusters left, the clusters written and
those left alone.  `writeLoop_grows` is the run of the whole loop.
-/

namespace HanOS.Fs

open HanOS.Foundations HanOS.Lib HanOS.Core

variable {vol : Volume} {start cluster total done : Nat} {chain new clusters : List Nat} {dd : Mem}

/-! ## The clusters on the disk -/

/-- The first `done` clusters hold the block `dd`, the other ones what they held before. -/
structure Flushed (vol : Volume) (clusters : List Nat) (dd : Mem) (done : Nat) (disk : Mem) :
    Prop where
  written : ∀ i cluster, clusters[i]? = some cluster → i < done → ∀ k < vol.bytesPerCluster,
    disk (clusterOffset vol cluster + k) = dd (i * vol.bytesPerCluster + k)
  untouched : ∀ cluster, vol.IsCluster cluster → cluster ∉ clusters.take done →
    ∀ k < vol.bytesPerCluster,
      disk (clusterOffset vol cluster + k) = vol.disk (clusterOffset vol cluster + k)

theorem Flushed.initially : Flushed vol clusters dd 0 vol.disk :=
  ⟨fun _ _ _ impossible => absurd impossible (Nat.not_lt_zero _), fun _ _ _ _ _ => rfl⟩

theorem Flushed.write {disk : Mem} (layout : Layout vol)
    (flushed : Flushed vol clusters dd done disk) (nodup : clusters.Nodup)
    (inside : ∀ c ∈ clusters, vol.IsCluster c) (here : clusters[done]? = some cluster) :
    Flushed vol clusters dd (done + 1)
      (blit disk (clusterOffset vol cluster) dd (done * vol.bytesPerCluster)
        vol.bytesPerCluster) := by
  have isCluster := inside cluster (List.mem_of_getElem? here)
  have taken : clusters.take (done + 1) = clusters.take done ++ [cluster] := by
    rw [List.take_add_one, here]
    rfl
  constructor
  · intro i other at_i before k bound
    by_cases same : i = done
    · subst same
      obtain rfl := Option.some.inj (here.symm.trans at_i)
      rw [blit_inside (by omega) (by omega), Nat.add_sub_cancel_left]
    · have different : cluster ≠ other := by
        rintro rfl
        exact same (((List.getElem?_inj (List.getElem?_eq_some_iff.mp here).1 nodup).mp
          (here.trans at_i.symm)).symm)
      have apart := layout.clusters_apart isCluster (inside other (List.mem_of_getElem? at_i))
        different
      rw [blit_outside (by omega)]
      exact flushed.written i other at_i (by omega) k bound
  · intro other otherIsCluster fresh k bound
    rw [taken, List.mem_append, List.mem_singleton, not_or] at fresh
    have apart := layout.clusters_apart isCluster otherIsCluster (Ne.symm fresh.2)
    rw [blit_outside (by omega)]
    exact flushed.untouched other otherIsCluster fresh.1 k bound

/-- Nothing changes when only bytes outside the clusters are written. -/
theorem Flushed.congr {disk disk' : Mem} (flushed : Flushed vol clusters dd done disk)
    (inside : ∀ c ∈ clusters, vol.IsCluster c)
    (same : ∀ c, vol.IsCluster c → ∀ k < vol.bytesPerCluster,
      disk' (clusterOffset vol c + k) = disk (clusterOffset vol c + k)) :
    Flushed vol clusters dd done disk' :=
  ⟨fun i c at_i before k bound =>
      (same c (inside c (List.mem_of_getElem? at_i)) k bound).trans
        (flushed.written i c at_i before k bound),
    fun c isCluster fresh k bound =>
      (same c isCluster k bound).trans (flushed.untouched c isCluster fresh k bound)⟩

theorem Flushed.append {disk : Mem} (flushed : Flushed vol clusters dd done disk)
    (before : done ≤ clusters.length) (more : List Nat) :
    Flushed vol (clusters ++ more) dd done disk := by
  constructor
  · intro i c at_i bound
    rw [List.getElem?_append_left (by omega)] at at_i
    exact flushed.written i c at_i bound
  · intro c isCluster fresh
    rw [List.take_append_of_le_length before] at fresh
    exact flushed.untouched c isCluster fresh

/-! ## The chain and the FAT -/

/-- A well-formed chain whose entries the code reads as FAT32 has them. -/
structure Readable (vol : Volume) (start : Nat) (chain : List Nat) : Prop where
  wellFormed : FatChain vol start chain
  understood : ∀ cluster ∈ chain, Understood (vol.entryAt cluster)

theorem Readable.walk (readable : Readable vol start chain) :
    Chain (nextCluster vol) start chain :=
  readable.wellFormed.nextCluster_iff.mpr readable.understood

theorem Readable.nodup (readable : Readable vol start chain) : chain.Nodup :=
  readable.wellFormed.follows.nodup

/-- A chain depends on the entries of its clusters only. -/
theorem FatChain.congr {vol' : Volume} (wellFormed : FatChain vol start chain)
    (entries : ∀ c ∈ chain, vol'.entryAt c = vol.entryAt c) (fatLen : vol'.fatLen = vol.fatLen) :
    FatChain vol' start chain :=
  ⟨wellFormed.follows.congr fun c member => by simp only [fatSucc, entries c member],
    fun c member => (Volume.isCluster_congr fatLen).mpr (wellFormed.inside c member)⟩

theorem Readable.congr {vol' : Volume} (readable : Readable vol start chain)
    (entries : ∀ c ∈ chain, vol'.entryAt c = vol.entryAt c) (fatLen : vol'.fatLen = vol.fatLen) :
    Readable vol' start chain :=
  ⟨readable.wellFormed.congr entries fatLen,
    fun c member => (entries c member).symm ▸ readable.understood c member⟩

/-- The entry of a cluster of a chain is not zero. -/
theorem FatChain.entry_ne_zero (wellFormed : FatChain vol start chain) (member : cluster ∈ chain) :
    vol.entryAt cluster % 2 ^ 28 ≠ 0 := by
  intro zero
  have next : fatSucc vol cluster = some 0 := by
    simp only [fatSucc, zero]
    rfl
  exact absurd (wellFormed.inside 0 (wellFormed.follows.succ_mem member next)).1 (by omega)

/-- The volume after `new` was put behind `chain` and `done` clusters were written. -/
structure Grown (vol : Volume) (start : Nat) (chain : List Nat) (dd : Mem) (done : Nat)
    (after : Volume) (new : List Nat) : Prop where
  bs : after.bs = vol.bs
  fat : after.fat = vol.fat
  fatLen : after.fatLen = vol.fatLen
  readable : Readable after start (chain ++ new)
  /-- The new clusters are the lowest free ones. -/
  split : rawFree vol = new ++ rawFree after
  kept : ∀ c, c ∉ new → chain.getLast? ≠ some c → after.entryAt c = vol.entryAt c
  flushed : Flushed vol (chain ++ new) dd done after.disk

/-- `Grown` after `done` turns, with the cluster that is next to be written. -/
structure Progress (vol : Volume) (start : Nat) (chain : List Nat) (dd : Mem) (done : Nat)
    (flush : Flush) (new : List Nat) : Prop where
  grown : Grown vol start chain dd done flush.vol new
  length : chain.length + new.length = max chain.length (done + 1)
  here : (chain ++ new)[done]? = some flush.cluster

theorem Progress.initially (readable : Readable vol start chain) :
    Progress vol start chain dd 0 { vol, cluster := start, visited := [] } [] where
  grown := {
    bs := rfl
    fat := rfl
    fatLen := rfl
    readable := by rwa [List.append_nil]
    split := rfl
    kept := fun _ _ _ => rfl
    flushed := .initially }
  length := by
    have nonempty := List.length_pos_iff.mpr readable.wellFormed.follows.ne_nil
    simp only [List.length_nil, add_zero, zero_add]
    omega
  here := by
    rw [List.append_nil, ← List.head?_eq_getElem?]
    exact readable.wellFormed.follows.head?_eq

theorem Grown.inside {after : Volume} (grown : Grown vol start chain dd done after new) :
    ∀ c ∈ chain ++ new, vol.IsCluster c := fun c member =>
  (Volume.isCluster_congr grown.fatLen).mp (grown.readable.wellFormed.inside c member)

theorem Progress.write {flush : Flush} (layout : Layout vol)
    (progress : Progress vol start chain dd done flush new) :
    Grown vol start chain dd (done + 1)
      (flush.write dd (done * vol.bytesPerCluster)).vol new where
  bs := progress.grown.bs
  fat := progress.grown.fat
  fatLen := progress.grown.fatLen
  readable := progress.grown.readable.congr (fun _ _ => rfl) rfl
  split := progress.grown.split
  kept := progress.grown.kept
  flushed := by
    have step := progress.grown.flushed.write layout progress.grown.readable.nodup
      progress.grown.inside progress.here
    rwa [Flush.write_disk, clusterOffset_congr progress.grown.bs,
      bytesPerCluster_congr progress.grown.bs]

theorem Grown.link {after : Volume} {last next : Nat} {rest : List Nat} (layout : Layout vol)
    (reserved : Reserved vol) (grown : Grown vol start chain dd done after new)
    (ends : (chain ++ new).getLast? = some last) (free : rawFree after = next :: rest)
    (before : done ≤ (chain ++ new).length) :
    Grown vol start chain dd done (linkCluster after last next) (new ++ [next]) := by
  have afterLayout : Layout after := layout.congr grown.bs grown.fat grown.fatLen
  have lastMember : last ∈ chain ++ new := List.mem_of_getLast? ends
  have lastCluster := grown.readable.wellFormed.inside last lastMember
  have nextFree : next ∈ rawFree vol := by rw [grown.split, free]; simp
  have nextCluster : after.IsCluster next :=
    (Volume.isCluster_congr grown.fatLen).mpr (isCluster_of_mem_rawFree reserved nextFree)
  have nextZero : after.entryAt next = 0 := (mem_rawFree.mp (free ▸ List.mem_cons_self ..)).2
  have nextSmall : next < 0x0FFFFFF7 := nextCluster.2.trans_le afterLayout.marks
  have used : ∀ c ∈ chain ++ new, after.entryAt c ≠ 0 := fun c member zero =>
    grown.readable.wellFormed.entry_ne_zero member (by simp [zero])
  have fresh : next ∉ chain ++ new := fun member => used next member nextZero
  have entry : ∀ c, (linkCluster after last next).entryAt c =
      if c = next then 0x0FFFFFFF else if c = last then next else after.entryAt c :=
    fun c => entryAt_linkCluster (by omega)
  have nextPresent : 0 < next := by have := nextCluster.1; omega
  have kept : ∀ c ∈ chain ++ new, c ≠ last →
      (linkCluster after last next).entryAt c = after.entryAt c := by
    intro c member different
    rw [entry, if_neg (ne_of_mem_of_not_mem member fresh), if_neg different]
  have lastEntry : (linkCluster after last next).entryAt last = next := by
    rw [entry, if_neg (ne_of_mem_of_not_mem lastMember fresh), if_pos rfl]
  have nextEntry : (linkCluster after last next).entryAt next = 0x0FFFFFFF := by
    rw [entry, if_pos rfl]
  refine ⟨by simp [grown.bs], by simp [grown.fat], by simp [grown.fatLen], ⟨⟨?_, ?_⟩, ?_⟩, ?_, ?_, ?_⟩
  · -- the chain
    rw [← List.append_assoc]
    refine grown.readable.wellFormed.follows.snoc ends (fun c member different => ?_) ?_ ?_
    · simp only [fatSucc, kept c member different]
    · rw [fatSucc, lastEntry, Nat.mod_eq_of_lt (by omega), if_neg (by omega)]
    · rw [fatSucc, nextEntry]
      rfl
  · intro c member
    rw [Volume.isCluster_congr (linkCluster_fatLen ..)]
    rw [← List.append_assoc, List.mem_append, List.mem_singleton] at member
    obtain old | rfl := member
    · exact grown.readable.wellFormed.inside c old
    · exact nextCluster
  · intro c member
    rw [← List.append_assoc, List.mem_append, List.mem_singleton] at member
    obtain old | rfl := member
    · by_cases same : c = last
      · rw [same, lastEntry]
        exact .inl (by omega)
      · exact (kept c old same).symm ▸ grown.readable.understood c old
    · exact .inr (.inl nextEntry)
  · rw [rawFree_linkCluster free (used last lastMember) (by omega) (by omega), grown.split, free]
    simp
  · intro c new_ tail
    rw [List.mem_append, List.mem_singleton, not_or] at new_
    rw [entry, if_neg new_.2, if_neg, grown.kept c new_.1 tail]
    rintro rfl
    -- the last cluster is new or the old tail
    by_cases empty : new = []
    · rw [empty, List.append_nil] at ends
      exact tail ends
    · rw [List.getLast?_append_of_ne_nil _ empty] at ends
      exact new_.1 (List.mem_of_getLast? ends)
  · rw [← List.append_assoc]
    refine (grown.flushed.append before [next]).congr ?_ ?_
    · intro c member
      rw [List.mem_append, List.mem_singleton] at member
      obtain old | rfl := member
      · exact grown.inside c old
      · exact isCluster_of_mem_rawFree reserved nextFree
    · intro c isCluster k bound
      have fatBefore := layout.fat_before isCluster
      refine afterLayout.linkCluster_outside (by have := lastCluster.1; omega) lastCluster.2
        nextPresent nextCluster.2 (.inr ?_)
      rw [fatOffset, grown.bs, grown.fatLen, ← fatOffset]
      omega

/-- A cluster in use elsewhere is none of the clusters of the chain, old or new. -/
theorem Grown.fresh {after : Volume} {slot : Nat} (grown : Grown vol start chain dd done after new)
    (used : vol.entryAt slot ≠ 0) (apart : slot ∉ chain) : slot ∉ chain ++ new := by
  intro member
  obtain old | fresh := List.mem_append.mp member
  · exact apart old
  · have free : slot ∈ rawFree vol := grown.split ▸ List.mem_append_left _ fresh
    exact used (mem_rawFree.mp free).2

/-- Only the entries of new clusters and of the old end change. -/
theorem Grown.kept_outside {after : Volume} (grown : Grown vol start chain dd done after new)
    (outside : cluster ∉ chain ++ new) : after.entryAt cluster = vol.entryAt cluster := by
  rw [List.mem_append, not_or] at outside
  exact grown.kept cluster outside.2 fun tail => outside.1 (List.mem_of_getLast? tail)

theorem Grown.reserved {after : Volume} (grown : Grown vol start chain dd done after new)
    (reserved : Reserved vol) : Reserved after := by
  have outside : ∀ c < 2, c ∉ chain ++ new := fun c below member =>
    absurd (grown.inside c member).1 (by omega)
  constructor
  · rw [grown.kept_outside (outside 0 (by omega))]
    exact reserved.1
  · rw [grown.kept_outside (outside 1 (by omega))]
    exact reserved.2

/-- A chain apart from the one that grows stays as it is, and apart. -/
theorem Grown.others {after : Volume} {otherStart : Nat} {other : List Nat}
    (grown : Grown vol start chain dd done after new) (wellFormed : FatChain vol otherStart other)
    (apart : List.Disjoint chain other) :
    FatChain after otherStart other ∧ List.Disjoint (chain ++ new) other := by
  have otherNew : ∀ c ∈ other, c ∉ new := by
    intro c member fresh
    have free : c ∈ rawFree vol := grown.split ▸ List.mem_append_left _ fresh
    exact wellFormed.entry_ne_zero member (by rw [(mem_rawFree.mp free).2]; rfl)
  constructor
  · refine wellFormed.congr (fun c member => grown.kept c (otherNew c member) ?_) grown.fatLen
    exact fun tail => apart (List.mem_of_getLast? tail) member
  · rw [List.disjoint_append_left]
    exact ⟨apart, fun c fresh member => otherNew c member fresh⟩

/-! ## The turns of the loop -/

/-- How the volume moves on from one turn to the next. -/
inductive Moves (chain new : List Nat) (flush : Flush) (before after : Volume) :
    List Nat → Prop
  /-- The chain goes on behind the cluster. -/
  | follow (same : after = before) : Moves chain new flush before after new
  /-- The cluster is the last one and gets a free one behind it. -/
  | extend {next : Nat} (ends : (chain ++ new).getLast? = some flush.cluster)
      (linked : after = linkCluster before flush.cluster next) :
      Moves chain new flush before after (new ++ [next])

theorem Progress.turn {flush : Flush} (layout : Layout vol) (reserved : Reserved vol)
    (progress : Progress vol start chain dd done flush new)
    (enough : done + 1 < chain.length + (rawFree vol).length) :
    ∃ new', Progress vol start chain dd (done + 1)
        (flush.write dd (done * vol.bytesPerCluster)).advance new' ∧
      Moves chain new flush (flush.write dd (done * vol.bytesPerCluster)).vol
        (flush.write dd (done * vol.bytesPerCluster)).advance.vol new' := by
  have written := progress.write layout
  have length := progress.length
  have position := (List.getElem?_eq_some_iff.mp progress.here).1
  have step := written.readable.walk.succ_getElem? progress.here
  have cluster : (flush.write dd (done * vol.bytesPerCluster)).cluster = flush.cluster := rfl
  have free : rawFree (flush.write dd (done * vol.bytesPerCluster)).vol = rawFree flush.vol := rfl
  generalize flush.write dd (done * vol.bytesPerCluster) = wrote at *
  rw [List.length_append] at position
  by_cases more : done + 1 < (chain ++ new).length
  · -- the chain goes on
    rw [List.getElem?_eq_getElem more, ← cluster] at step
    rw [Flush.advance_of_some step]
    rw [List.length_append] at more
    exact ⟨new, ⟨written, by omega, by simp⟩, .follow rfl⟩
  · -- the last cluster: `new` has all the clusters it can have so far
    rw [List.getElem?_eq_none (by omega), ← cluster] at step
    rw [List.length_append] at more
    have remaining : rawFree wrote.vol ≠ [] := by
      intro none_left
      have split := congrArg List.length written.split
      rw [none_left, List.append_nil] at split
      omega
    obtain ⟨next, rest, picked⟩ := List.exists_cons_of_ne_nil remaining
    have ends : (chain ++ new).getLast? = some flush.cluster := by
      rw [List.getLast?_eq_getElem?, List.length_append,
        show chain.length + new.length - 1 = done by omega]
      exact progress.here
    have grown := written.link layout reserved ends picked (by rw [List.length_append]; omega)
    rw [Flush.advance_of_none step, fat32GetFreeCluster_of_cons picked, cluster]
    refine ⟨new ++ [next], ⟨grown, by simp; omega, ?_⟩, .extend ends rfl⟩
    rw [← List.append_assoc, List.getElem?_append_right (by rw [List.length_append]; omega),
      List.length_append, show done + 1 - (chain.length + new.length) = 0 by omega]
    rfl

/-- The whole loop, with free clusters enough. -/
theorem writeLoop_grows (dd : Mem) (layout : Layout vol) (reserved : Reserved vol)
    (readable : Readable vol start chain)
    (enough : passes vol total ≤ chain.length + (rawFree vol).length) :
    ∃ last new, writeLoop dd total (total + 1) 0 { vol, cluster := start, visited := [] } =
        some last ∧ Grown vol start chain dd (passes vol total) last.vol new ∧
      chain.length + new.length = max chain.length (passes vol total) := by
  obtain ⟨last, ⟨new, progress⟩, finished⟩ := writeLoop_rule dd total
    layout.positive (fun done flush => ∃ new, Progress vol start chain dd done flush new)
    ⟨[], .initially readable⟩ (fun _ _ ⟨_, progress⟩ => progress.grown.bs)
    (fun done flush more ⟨new, progress⟩ =>
      have ⟨new', after, _⟩ := progress.turn layout reserved (by omega)
      ⟨new', after⟩)
  have count : passes vol total - 1 + 1 = passes vol total := Nat.sub_add_cancel (one_le_passes ..)
  have written := progress.write layout
  have length := progress.length
  rw [count] at written length
  exact ⟨_, new, finished, written, length⟩

end HanOS.Fs
