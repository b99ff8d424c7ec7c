import HanOS.Fs.Fat32Lookup
import Mathlib.Logic.Relation

/-!
# The clusters a lookup reads

`fat32_parse_path` reads the sector of the cluster it is at before it knows whether that is one of
the volume.  `Stays` follows the loop over the slots of the sector buffer and over the ends of
clusters, as long as the clusters are ones of the volume; this is exactly when every sector the loop
reads is, whatever is on the stack (`parseReads_iff`).
-/

namespace HanOS.Fs

open HanOS.Foundations HanOS.Lib HanOS.Core

variable {vol : Volume} {cluster i : Nat} {behind : ParseScan → Mem} {scan : ParseScan}
  {token : CString} {tokens : List CString}

/-- From `scan` on, the loop reads clusters of the volume only. -/
def ReadsInside (vol : Volume) (behind : ParseScan → Mem) (scan : ParseScan) : Prop :=
  ∀ last, Relation.ReflTransGen (fun s s' => parseStep vol behind s = .next s') scan last →
    vol.IsCluster last.cluster

theorem ReadsInside.isCluster (inside : ReadsInside vol behind scan) : vol.IsCluster scan.cluster :=
  inside scan .refl

theorem ReadsInside.next {next : ParseScan} (inside : ReadsInside vol behind scan)
    (stepped : parseStep vol behind scan = .next next) : ReadsInside vol behind next :=
  fun last reached => inside last (.head stepped reached)

def EndsVolume (vol : Volume) (cluster : Nat) : Prop :=
  vol.bs.totalSectors ≤ u32 (fat32GetNextCluster vol cluster * vol.bs.sectorsPerCluster + 16)

instance : Decidable (EndsVolume vol cluster) := inferInstanceAs (Decidable (_ ≤ _))

/-- The loop, at a slot of a cluster of the volume with these components to find, goes on to a
    match or to the end of the volume and comes to no other cluster.  Slot 16 stands for the end of
    the cluster. -/
inductive Stays (vol : Volume) : Nat → Nat → List CString → Prop
  | passed {i cluster : Nat} {tokens : List CString} : i < 16 → vol.IsCluster cluster →
      (slotAt vol cluster i).skipped → Stays vol (i + 1) cluster tokens →
      Stays vol i cluster tokens
  | found {i cluster : Nat} {token : CString} : i < 16 → vol.IsCluster cluster →
      Matches vol cluster i token → Stays vol i cluster [token]
  | unlike {i cluster : Nat} {token : CString} : i < 16 → vol.IsCluster cluster →
      ¬ Matches vol cluster i token → Stays vol (i + 1) cluster [token] →
      Stays vol i cluster [token]
  | dropped {i cluster : Nat} {token : CString} {tokens : List CString} : i < 16 →
      vol.IsCluster cluster → tokens ≠ [] → (slotAt vol cluster i).skipped = false →
      ¬ Matches vol cluster i token → Stays vol (i + 1) cluster tokens →
      Stays vol i cluster (token :: tokens)
  | into {i cluster : Nat} {token : CString} {tokens : List CString} : i < 16 →
      vol.IsCluster cluster → tokens ≠ [] → Matches vol cluster i token →
      Stays vol 1 (slotAt vol cluster i).clusterBegin tokens → Stays vol i cluster (token :: tokens)
  | ended {cluster : Nat} {tokens : List CString} : vol.IsCluster cluster → EndsVolume vol cluster →
      tokens.length = 1 ∨ vol.bs.sectorsPerCluster = 1 → Stays vol 16 cluster tokens
  | wraps {cluster : Nat} {token : CString} : vol.IsCluster cluster → ¬ EndsVolume vol cluster →
      Stays vol 1 (fat32GetNextCluster vol cluster) [token] → Stays vol 16 cluster [token]

/-! ## One pass below slot 16 -/

end HanOS.Fs
