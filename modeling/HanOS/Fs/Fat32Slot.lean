import HanOS.Fs.Fat32Call
import HanOS.Fs.Fat32Lookup

/-!
# An entry read and written back

`fat32_write_entry` rewrites the whole slot from the entry in memory.  The entry that
`fat32_parse_path` returns is a translated copy of the slot: a name that begins with 0x05 has
0xE5 there, and a slot behind the first sector of its cluster was never read
(`fat32WriteEntry_sizeOnly_iff`).
-/

namespace HanOS.Fs

open HanOS.Foundations HanOS.Lib HanOS.Core

variable {vol after : Volume} {behind : ParseScan → Mem} {scan : ParseScan} {path : CString}
variable {ent src : Fat32Entry} {fuel cluster index size : Nat}

/-! ## The entries returned -/

def ParsesTo (vol : Volume) (behind : ParseScan → Mem) (fuel : Nat) (path : CString)
    (ent : Fat32Entry) : Prop :=
  path ≠ [] ∧ path ≠ [slash] ∧ parseLoop vol behind fuel (parseStart vol path) = some (some ent)

theorem parseEntry_eq_found {i : Nat} (found : parseEntry src cluster i path = .found ent) :
    ent = src.unescaped := by
  rw [parseEntry] at found
  split at found
  · cases found
  · dsimp only at found
    split at found
    · split at found
      · exact (ParseOutcome.found.inj found).symm
      · cases found
    · split at found <;> cases found

theorem parseStep_eq_found (found : parseStep vol behind scan = .found ent) :
    ent = (fat32ReadEntry vol (behind scan) scan.cluster scan.i).unescaped := by
  rw [parseStep] at found
  dsimp only at found
  split at found
  · split at found
    · cases found
    · exact parseEntry_eq_found found
  · exact parseEntry_eq_found found

theorem parseLoop_eq_found (found : parseLoop vol behind fuel scan = some (some ent)) :
    ∃ stack cluster index, ent = (fat32ReadEntry vol stack cluster index).unescaped := by
  induction fuel generalizing scan with
  | zero => cases found
  | succ fuel inductionHypothesis =>
    rw [parseLoop] at found
    cases step : parseStep vol behind scan with
    | next scan =>
      rw [step] at found
      exact inductionHypothesis found
    | found other =>
      rw [step] at found
      obtain rfl := Option.some.inj (Option.some.inj found)
      exact ⟨_, _, _, parseStep_eq_found step⟩
    | missing =>
      rw [step] at found
      cases found

theorem unescaped_slot : src.unescaped.dirEntryCluster = src.dirEntryCluster ∧
    src.unescaped.dirEntryIndex = src.dirEntryIndex := by
  rw [Fat32Entry.unescaped]
  split <;> exact ⟨rfl, rfl⟩

/-! ## What is written -/

def slotOffset (vol : Volume) (ent : Fat32Entry) : Nat :=
  clusterOffset vol ent.dirEntryCluster + ent.dirEntryIndex * 32

/-- Writing the entry back with another size changes the four bytes of the size in its slot and
    nothing else. -/
def SizeOnly (vol : Volume) (ent : Fat32Entry) (size : Nat) : Prop :=
  fat32WriteEntry vol { ent with fileSizeBytes := size } =
    some { vol with disk := storeLE vol.disk (slotOffset vol ent + 28) 4 size }

/-- The name is written as it is in memory. -/
theorem fat32WriteEntry_name (written : fat32WriteEntry vol src = some after)
    (sector : vol.bs.bytesPerSector = 512) (k : Fin 11) :
    after.disk (slotOffset vol src + k) = src.name k := by
  have inside := k.isLt
  rw [fat32WriteEntry] at written
  split at written
  · cases written
  · next fits =>
    obtain rfl := Option.some.inj written
    rw [slotOffset, clusterOffset, sector, Volume.ataPioWrite28]
    simp only [sector]
    rw [blit_inside (by omega) (by omega), storeLE_outside (by omega), storeLE_outside (by omega),
      storeLE_outside (by omega), storeLE_outside (by omega), blit_inside (by omega) (by omega),
      dif_pos (by omega)]
    congr 1
    exact Fin.ext (by dsimp only; omega)

theorem clusterBegin_words (low high : Nat) (lowFits : low < 2 ^ 16) :
    (low ||| high <<< 16) / 2 ^ 16 = high ∧ (low ||| high <<< 16) % 2 ^ 16 = low := by
  have sum : low ||| high <<< 16 = 2 ^ 16 * high + low := by
    rw [Nat.or_comm, Nat.shiftLeft_eq, mul_comm, Nat.two_pow_add_eq_or_of_lt lowFits]
  rw [sum]
  omega

/-- The sector of a slot, filled from the entry that was read from it. -/
theorem slot_rewritten {disk : Mem} {base : Nat} (inside : index < 16) :
    let src := slotEntry disk (base + index * 32) cluster index
    let dd := blit (fun _ => 0) 0 disk base (1 * 512)
    let dd := blit dd (index * 32)
      (fun i => if inside : i < 11 then src.name ⟨i, inside⟩ else 0) 0 11
    let dd := storeLE dd (index * 32 + 11) 1 src.attr.toNat
    let dd := storeLE dd (index * 32 + 20) 2 (src.clusterBegin / 2 ^ 16)
    let dd := storeLE dd (index * 32 + 26) 2 src.clusterBegin
    let dd := storeLE dd (index * 32 + 28) 4 size
    blit disk base dd 0 (1 * 512) = storeLE disk (base + index * 32 + 28) 4 size := by
  dsimp only [slotEntry]
  -- the sector buffer is the sector, by bytes and by words
  have byte : ∀ x < 512, blit (fun _ => 0) 0 disk base (1 * 512) x = disk (base + x) := by
    intro x below
    rw [blit_inside (Nat.zero_le x) (by omega), Nat.sub_zero]
  have word : ∀ start width, start + width ≤ 32 →
      loadLE (blit (fun _ => 0) 0 disk base (1 * 512)) (index * 32 + start) width =
        loadLE disk (base + index * 32 + start) width := by
    intro start width within
    refine loadLE_shift fun i below => ?_
    rw [byte _ (by omega)]
    congr 1
    omega
  generalize blit (fun _ => 0) 0 disk base (1 * 512) = dd at byte word ⊢
  have small : ∀ x, loadLE disk x 2 < 2 ^ 16 := fun x => loadLE_lt.trans_eq (by norm_num)
  obtain ⟨high, low⟩ := clusterBegin_words _ (loadLE disk (base + index * 32 + 20) 2)
    (small (base + index * 32 + 26))
  -- each store but the last one writes what is there
  have name : blit dd (index * 32) (fun i => if inside : i < 11 then
      disk (base + index * 32 + i) else 0) 0 11 = dd := by
    refine blit_self fun x from_ below => ?_
    rw [byte x (by omega), dif_pos (by omega)]
    congr 1
    omega
  have attr : storeLE dd (index * 32 + 11) 1 (disk (base + index * 32 + 11)).toNat = dd := by
    refine storeLE_self ?_
    rw [word 11 1 (by omega), loadLE, loadLE, Nat.mul_zero, Nat.add_zero]
    exact Nat.mod_eq_of_lt (BitVec.isLt _)
  have upper : storeLE dd (index * 32 + 20) 2 (loadLE disk (base + index * 32 + 20) 2) = dd := by
    refine storeLE_self ?_
    rw [word 20 2 (by omega), Nat.mod_eq_of_lt loadLE_lt]
  have lower : storeLE dd (index * 32 + 26) 2 (loadLE disk (base + index * 32 + 26) 2 |||
      loadLE disk (base + index * 32 + 20) 2 <<< 16) = dd := by
    refine storeLE_self ?_
    rw [word 26 2 (by omega)]
    exact low
  have same : blit disk base dd 0 (1 * 512) = disk := by
    refine blit_self fun x from_ below => ?_
    rw [Nat.zero_add, byte _ (by omega), Nat.add_sub_cancel' from_]
  rw [high, name, attr, upper, lower, blit_storeLE (Nat.zero_le _) (by omega), same, Nat.sub_zero,
    ← Nat.add_assoc]

/-- An entry read from its slot is written back to the same bytes, but for the size. -/
theorem fat32WriteEntry_slotAt (sector : vol.bs.bytesPerSector = 512) (inside : index < 16) :
    SizeOnly vol (slotAt vol cluster index) size := by
  have fits : ¬ (512 < vol.bs.bytesPerSector ∨ 512 < index * 32 + 32) := by omega
  have rewritten := @slot_rewritten cluster index size vol.disk (clusterOffset vol cluster) inside
  rw [SizeOnly, fat32WriteEntry]
  simp only [slotOffset, slotAt, slotEntry, clusterOffset, Volume.ataPioRead28,
    Volume.ataPioWrite28, sector] at fits rewritten ⊢
  rw [if_neg fits, rewritten]

/-- The translated first byte of a name gets on the disk. -/
theorem not_sizeOnly_of_escaped (sector : vol.bs.bytesPerSector = 512)
    (escaped : (slotAt vol cluster index).name 0 = 0x05) :
    ¬ SizeOnly vol (slotAt vol cluster index).unescaped size := by
  intro written
  have name := fat32WriteEntry_name written sector 0
  have place : slotOffset vol { (slotAt vol cluster index).unescaped with fileSizeBytes := size } =
      clusterOffset vol cluster + index * 32 := by
    simp only [slotOffset, unescaped_slot.1, unescaped_slot.2]
    rfl
  have stored : vol.disk (clusterOffset vol cluster + index * 32 + 0) = 0x05 := escaped
  have translated : (slotAt vol cluster index).unescaped.name 0 = 0xE5 := by
    simp only [Fat32Entry.unescaped, escaped, if_true, Function.update_self]
  change storeLE vol.disk (slotOffset vol _ + 28) 4 size (_ + 0) =
    (slotAt vol cluster index).unescaped.name 0 at name
  rw [show slotOffset vol (slotAt vol cluster index).unescaped =
    clusterOffset vol cluster + index * 32 from place, place, storeLE_outside (by omega), stored,
    translated] at name
  exact absurd name (by decide)

/-- An entry returned by `fat32_parse_path` is written back to its slot with only the size changed
    if and only if the slot is in the first sector of its cluster and its name does not begin with
    0x05. -/
theorem fat32WriteEntry_sizeOnly_iff (sector : vol.bs.bytesPerSector = 512)
    (parses : ParsesTo vol behind fuel path ent) :
    SizeOnly vol ent size ↔ ent.dirEntryIndex < 16 ∧ vol.disk (slotOffset vol ent) ≠ 0x05 := by
  obtain ⟨stack, cluster, index, rfl⟩ := parseLoop_eq_found parses.2.2
  have slot : (fat32ReadEntry vol stack cluster index).unescaped.dirEntryIndex = index :=
    unescaped_slot.2
  rw [slot]
  by_cases inside : index < 16
  · rw [fat32ReadEntry_eq _ sector inside, and_iff_right inside]
    have first : vol.disk (slotOffset vol (slotAt vol cluster index).unescaped) =
        (slotAt vol cluster index).name 0 := by
      simp only [slotOffset, unescaped_slot.1, unescaped_slot.2]
      rfl
    rw [first]
    by_cases escaped : (slotAt vol cluster index).name 0 = 0x05
    · exact iff_of_false (not_sizeOnly_of_escaped sector escaped) (not_not_intro escaped)
    · rw [Fat32Entry.unescaped, if_neg escaped]
      exact iff_of_true (fat32WriteEntry_slotAt sector inside) escaped
  · -- the write ends behind the sector buffer
    refine iff_of_false (fun written => ?_) fun both => inside both.1
    have fits := (fat32WriteEntry_isSome_iff.mp (Option.isSome_of_eq_some written)).2
    exact inside (slot.symm.trans_lt fits)

/-! ## A name that begins with 0xE5 -/

/-- The root directory has one file, whose name begins with 0xE5. -/
def escapedVolume : Volume :=
  { fourClusters with
    disk := fun x =>
      if x < 33 * 512 then 0 else (slotBytes [0x05, 0x41] 0x20 5 7).getD (x - 33 * 512) 0 }

theorem escapedVolume_parses :
    ∃ ent, ParsesTo escapedVolume (fun _ _ => 0) 1 [slash, 0xE5, 0x41] ent ∧
      ent = (slotAt escapedVolume 2 0).unescaped := by
  have run : (parseLoop escapedVolume (fun _ _ => 0) 1
      (parseStart escapedVolume [slash, 0xE5, 0x41])).map (Option.map fun ent =>
        (ent.dirEntryCluster, ent.dirEntryIndex)) = some (some (2, 0)) := by decide +kernel
  obtain ⟨found, ended, slot⟩ := Option.map_eq_some_iff.mp run
  obtain ⟨ent, rfl, place⟩ := Option.map_eq_some_iff.mp slot
  refine ⟨ent, ⟨by decide, by decide, ended⟩, ?_⟩
  obtain ⟨stack, cluster, index, rfl⟩ := parseLoop_eq_found ended
  rw [unescaped_slot.1, unescaped_slot.2] at place
  obtain ⟨rfl, rfl⟩ := Prod.mk.inj place
  rw [fat32ReadEntry_eq _ rfl (show 0 < 16 by decide)]

/-- Its name begins with the mark of a deleted entry when the size has been written. -/
theorem escaped_name_rewritten :
    ∃ ent, ParsesTo escapedVolume (fun _ _ => 0) 1 [slash, 0xE5, 0x41] ent ∧
      ent.dirEntryIndex < escapedVolume.bs.sectorsPerCluster * 16 ∧ ¬ SizeOnly escapedVolume ent 9 := by
  obtain ⟨ent, parses, rfl⟩ := escapedVolume_parses
  exact ⟨_, parses, by decide +kernel, not_sizeOnly_of_escaped rfl (by decide +kernel)⟩

theorem fat32WriteEntry_sizeOnly_iff_escapedVolume :
    ∃ ent, ParsesTo escapedVolume (fun _ _ => 0) 1 [slash, 0xE5, 0x41] ent ∧
      (SizeOnly escapedVolume ent 9 ↔
        ent.dirEntryIndex < 16 ∧ escapedVolume.disk (slotOffset escapedVolume ent) ≠ 0x05) := by
  obtain ⟨ent, parses, _⟩ := escapedVolume_parses
  exact ⟨ent, parses, fat32WriteEntry_sizeOnly_iff rfl parses⟩

end HanOS.Fs
