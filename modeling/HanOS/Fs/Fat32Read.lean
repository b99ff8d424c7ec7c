import HanOS.Fs.Fat32Sectors

/-!
# A call of `fat32_read`

The call sizes its staging block by the request and fills it by the chain, so it stays
in its block only when the request reaches into the last sector of what the loop reads.
`ReadFits` says when it does, and when what the loop reads is the file: the code
understands the chain, or leaves it by a link whose sectors are those of the cluster it
should have come to.
-/

namespace HanOS.Fs

open HanOS.Foundations HanOS.Lib HanOS.Core

variable {vol : Volume} {entry : Fat32Entry} {offset len count : Nat} {chain walk : List Nat}

/-- The request reaches into the last sector of `count` clusters. -/
def ReachesLast (vol : Volume) (count offset len : Nat) : Prop :=
  count * vol.bytesPerCluster < offset + len + vol.bs.bytesPerSector

/-- The clusters have the bytes of the request that the chain has. -/
def HoldsRequest (vol : Volume) (chain clusters : List Nat) (offset len : Nat) : Prop :=
  ∀ x, offset ≤ x → x < offset + len →
    x < clusters.length * vol.bytesPerCluster ∧ chainByte vol clusters x = chainByte vol chain x

/-- When the call reads the file, and reads it inside its block. -/
inductive ReadFits (vol : Volume) (chain : List Nat) (offset len : Nat) : Prop
  | understood (clear : ∀ cluster ∈ chain, Understood (vol.entryAt cluster))
      (reaches : ReachesLast vol chain.length offset len)
  /-- The loop takes the entry of `last` for a cluster, with its reserved bits, and ends there. -/
  | strayed {front rest : List Nat} {last : Nat} (split : chain = front ++ last :: rest)
      (clear : ∀ cluster ∈ front, Understood (vol.entryAt cluster))
      (unclear : ¬ Understood (vol.entryAt last))
      (reaches : ReachesLast vol (front.length + 2) offset len)
      (same : HoldsRequest vol chain (front ++ [last, vol.entryAt last]) offset len)

/-! ## Sizes -/

theorem holdsRequest_self (within : offset + len ≤ chain.length * vol.bytesPerCluster) :
    HoldsRequest vol chain chain offset len :=
  fun _ _ high => ⟨by omega, rfl⟩

theorem ReadFits.walked (fits : ReadFits vol chain offset len)
    (within : offset + len ≤ chain.length * vol.bytesPerCluster) :
    ∃ walk, Walked vol chain walk ∧ ReachesLast vol walk.length offset len ∧
      HoldsRequest vol chain walk offset len := by
  cases fits with
  | understood clear reaches =>
    exact ⟨chain, .understood clear, reaches, holdsRequest_self within⟩
  | @strayed front rest last split clear unclear reaches same =>
    refine ⟨_, .strayed split clear unclear, ?_, same⟩
    rwa [List.length_append]

end HanOS.Fs
