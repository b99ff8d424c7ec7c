import HanOS.Fs.Fat32Call
import HanOS.Fs.Fat32Lookup
import HanOS.Fs.Fat32Refresh
import Mathlib.Data.List.DropRight

/-!
# The listing of a directory

What a FAT32 directory holds, from its entries, and what `fat32_refresh` makes of it.  The code takes
every entry with a bit in the low half of its attribute for a part of a long name and every other one
whose attribute is not zero for a file; and it loads the next cluster for a name that is cut off.
Where all entries of every cluster are what the code takes them for, the items are the listing of the
directory (`refresh_lists`).
-/

namespace HanOS.Fs

open HanOS.Foundations HanOS.Lib HanOS.Core

/-! ## What a directory holds -/

namespace FatDirEntry

def isLongName (fe : FatDirEntry) : Bool := fe.attr &&& 0x0F = 0x0F

structure Live (fe : FatDirEntry) : Prop where
  used : fe 0 ≠ 0
  present : fe 0 ≠ 0xE5
  short : fe.isLongName = false
  label : fe.attr &&& 0x08 = 0

instance (fe : FatDirEntry) : Decidable fe.Live :=
  decidable_of_iff (fe 0 ≠ 0 ∧ fe 0 ≠ 0xE5 ∧ fe.isLongName = false ∧ fe.attr &&& 0x08 = 0)
    ⟨fun ⟨used, present, short, label⟩ => ⟨used, present, short, label⟩,
      fun live => ⟨live.used, live.present, live.short, live.label⟩⟩

/-- The 8 bytes of the name and the 3 of the extension; 0x05 stands for 0xE5 at the start. -/
def base (fe : FatDirEntry) : CString :=
  (if fe 0 = 0x05 then 0xE5 else fe 0) :: [fe 1, fe 2, fe 3, fe 4, fe 5, fe 6, fe 7]

def extension (fe : FatDirEntry) : CString := [fe 8, fe 9, fe 10]

/-- The 8.3 name, without the blanks behind its parts. -/
def shortName (fe : FatDirEntry) : CString :=
  let base := fe.base.rdropWhile (· = 0x20)
  let extension := fe.extension.rdropWhile (· = 0x20)
  if extension = [] then base else base ++ dot :: extension

/-- The characters of a part of a long name. -/
def units (fe : FatDirEntry) : List Nat :=
  lfnOffsets.map fun k => (fe k).toNat + 256 * (fe (k + 1)).toNat

/-- The `k`-th part of the long name of an entry with this checksum. -/
structure IsPart (fe : FatDirEntry) (checksum : Byte) (k : Nat) : Prop where
  attr : fe.isLongName
  checksum : fe.dosChecksum = checksum
  count : 1 ≤ k ∧ k ≤ 20

instance (fe : FatDirEntry) (checksum : Byte) (k : Nat) : Decidable (fe.IsPart checksum k) :=
  decidable_of_iff (fe.isLongName ∧ fe.dosChecksum = checksum ∧ 1 ≤ k ∧ k ≤ 20)
    ⟨fun ⟨attr, checksum, count⟩ => ⟨attr, checksum, count⟩,
      fun part => ⟨part.attr, part.checksum, part.count⟩⟩

end FatDirEntry

/-- The long name from its `k`-th part on; `before` has the entries in front, the last one first. -/
def longName (checksum : Byte) : Nat → List FatDirEntry → Option (List Nat)
  | _, [] => none
  | k, fe :: before =>
    if ¬ fe.IsPart checksum k then none
    else if fe.sequenceNumber = BitVec.ofNat 8 (0x40 + k) then some (fe.units.takeWhile (· ≠ 0))
    else if fe.sequenceNumber = BitVec.ofNat 8 k ∧ 0 ∉ fe.units then
      (longName checksum (k + 1) before).map (fe.units ++ ·)
    else none

/-- The long name of an entry, when a valid one is stored in front of it. -/
def nameBefore (before : List FatDirEntry) (fe : FatDirEntry) : Option (List Nat) :=
  (longName (fat32Checksum fe.fileNameAndExt) 1 before).filter
    fun name => name ≠ [] ∧ name.length ≤ 255

/-- The live entries of a directory, in order, and their names. -/
def listing : List FatDirEntry → List FatDirEntry → List (FatDirEntry × List Nat)
  | _, [] => []
  | before, fe :: rest =>
    if fe.Live then
      (fe, (nameBefore before fe).getD (fe.shortName.map BitVec.toNat)) :: listing (fe :: before) rest
    else listing (fe :: before) rest

def clusterEntries (vol : Volume) (cluster : Nat) : List FatDirEntry :=
  (List.range (vol.bytesPerCluster / 32)).map fun index =>
    dirEntryAt vol.disk (clusterOffset vol cluster + index * 32)

def dirEntries (vol : Volume) (chain : List Nat) : List FatDirEntry :=
  chain.flatMap (clusterEntries vol)

/-- The first cluster of a directory; the `ident` of the mount point has 0 for it. -/
def dirStart (vol : Volume) (entry : Fat32Entry) : Nat :=
  if entry.clusterBegin = 0 then vol.bs.rootDirFirstCluster else entry.clusterBegin

/-- The entry and the name of an item, as `listing` has them. -/
def Fat32IdentItem.listed (item : Fat32IdentItem) : FatDirEntry × List Nat :=
  (item.entry, item.name.map BitVec.toNat)

/-- What is asked of `fat32_refresh`. -/
def ListsDirectory (vol : Volume) (entry : Fat32Entry) (chain : List Nat) : Prop :=
  ∀ call tempBuffer filelist, ∃ fuel items,
    refreshFilelist vol call fuel entry tempBuffer filelist = some (filelist ++ items) ∧
      items.map Fat32IdentItem.listed = listing [] (dirEntries vol chain) ∧
      ∀ item ∈ items, item.parent = call.this

/-! ## What the code takes entries for -/

/-- The parts of a long name from its last one down to the `k`-th, as they are stored. -/
inductive LongRun (checksum : Byte) : Nat → List FatDirEntry → List Nat → Prop
  | last {k : Nat} {fe : FatDirEntry} : fe.IsPart checksum k →
      fe.sequenceNumber = BitVec.ofNat 8 (0x40 + k) →
      LongRun checksum k [fe] (fe.units.takeWhile (· ≠ 0))
  | more {k : Nat} {fe : FatDirEntry} {run : List FatDirEntry} {name : List Nat} :
      fe.IsPart checksum k → fe.sequenceNumber = BitVec.ofNat 8 k → 0 ∉ fe.units →
      LongRun checksum (k + 1) run name → LongRun checksum k (run ++ [fe]) (fe.units ++ name)

def entryBytes (entries : List FatDirEntry) : Mem := fun x =>
  (entries.getD (x / 32) fun _ => 0) ⟨x % 32, Nat.mod_lt _ (by decide)⟩

/-- No long name is complete from the first of the entries on. -/
def CutOff (entries : List FatDirEntry) : Prop :=
  (fat32GetLongFilename (entryBytes entries) 0 ((entries.length - 1) * 32)).map Prod.fst = some 0

/-- The entries of a cluster, from one the pass comes to: unused ones have attribute 0, short ones are
    not hidden, read-only or of the system, long names are complete, and what is listed has a month in
    its date; in the last cluster of the directory, entries without a live one among them may follow
    at the end. -/
inductive Orderly (final : Prop) : List FatDirEntry → Prop
  | nil : Orderly final []
  | unused {fe : FatDirEntry} {rest : List FatDirEntry} : fe.attr = 0 → ¬ fe.Live →
      Orderly final rest → Orderly final (fe :: rest)
  | short {fe : FatDirEntry} {rest : List FatDirEntry} : fe.attr ≠ 0 → fe.attr &&& 0x0F = 0 →
      fe.Live → fe.month ≠ 0 → fe 0 ≠ 0x05 →
      (∀ c ∈ fe.base.rdropWhile (· = 0x20), c ≠ 0x20 ∧ c ≠ 0) →
      (∀ c ∈ fe.extension.rdropWhile (· = 0x20), c ≠ 0x20 ∧ c ≠ 0) →
      Orderly final rest → Orderly final (fe :: rest)
  | long {run : List FatDirEntry} {fe : FatDirEntry} {name : List Nat} {rest : List FatDirEntry} :
      LongRun (fat32Checksum fe.fileNameAndExt) 1 run name → name ≠ [] → name.length ≤ 255 →
      (∀ c ∈ name, c < 256) → fe.Live → fe.month ≠ 0 → Orderly final rest →
      Orderly final (run ++ fe :: rest)
  | cut {fe : FatDirEntry} {rest : List FatDirEntry} : final → fe.attr &&& 0x0F ≠ 0 →
      CutOff (fe :: rest) → (∀ other ∈ fe :: rest, ¬ other.Live) → Orderly final (fe :: rest)

/-- The code understands the chain, the root directory is where it looks for it, and every cluster is
    orderly. -/
structure Listable (vol : Volume) (entry : Fat32Entry) (chain : List Nat) : Prop where
  root : entry.clusterBegin = 0 → vol.bs.rootDirFirstCluster = 2
  understood : ∀ c ∈ chain, Understood (vol.entryAt c)
  orderly : ∀ (i c : Nat), chain[i]? = some c →
    Orderly (i + 1 = chain.length) (clusterEntries vol c)

variable {vol : Volume} {fe : FatDirEntry} {run rest before : List FatDirEntry} {name : List Nat}
  {checksum : Byte} {k : Nat}

/-! ## The parts of a name -/

theorem FatDirEntry.Live.short' (live : fe.Live) : ¬ fe.isLongName = true := by
  simp [live.short]

theorem LongRun.not_live (long : LongRun checksum k run name) : ∀ fe ∈ run, ¬ fe.Live := by
  induction long with
  | last part _ =>
    intro other member live
    obtain rfl := List.mem_singleton.mp member
    exact live.short' part.attr
  | more part _ _ _ inductionHypothesis =>
    intro other member live
    rcases List.mem_append.mp member with earlier | here
    · exact inductionHypothesis other earlier live
    · obtain rfl := List.mem_singleton.mp here
      exact live.short' part.attr

theorem LongRun.isLongName (long : LongRun checksum k run name) :
    ∀ fe ∈ run, ¬ fe.attr = 0 ∧ fe.attr &&& 0x0F ≠ 0 := by
  have part_ : ∀ fe : FatDirEntry, fe.isLongName → ¬ fe.attr = 0 ∧ fe.attr &&& 0x0F ≠ 0 := by
    intro fe isLongName
    have low : fe.attr &&& 0x0F = 0x0F := by simpa [FatDirEntry.isLongName] using isLongName
    refine ⟨fun zero => ?_, by rw [low]; decide⟩
    rw [zero] at low
    exact absurd low (by decide)
  induction long with
  | last part _ =>
    intro other member
    exact List.mem_singleton.mp member ▸ part_ _ part.attr
  | more part _ _ _ inductionHypothesis =>
    intro other member
    rcases List.mem_append.mp member with earlier | here
    · exact inductionHypothesis other earlier
    · exact List.mem_singleton.mp here ▸ part_ _ part.attr

theorem LongRun.longName (long : LongRun checksum k run name) :
    longName checksum k (run.reverse ++ before) = some name := by
  induction long with
  | last part flagged => simp [HanOS.Fs.longName, part, flagged]
  | @more k fe run name part number plain _ inductionHypothesis =>
    have unflagged : ¬ BitVec.ofNat 8 k = BitVec.ofNat 8 (0x40 + k) := by
      have bound := part.count.2
      intro same
      have := congrArg BitVec.toNat same
      simp only [BitVec.toNat_ofNat] at this
      omega
    rw [List.reverse_append, List.reverse_singleton, List.singleton_append, List.cons_append,
      HanOS.Fs.longName, if_neg (not_not.mpr part), number, if_neg unflagged,
      if_pos ⟨rfl, plain⟩, inductionHypothesis, Option.map_some]

theorem sequenceNumber_parts (count : 1 ≤ k ∧ k ≤ 20) :
    (BitVec.ofNat 8 (0x40 + k) &&& (0x3F : Byte)).toNat = k ∧ BitVec.ofNat 8 (0x40 + k) &&& (0x40 : Byte) ≠ 0 ∧
      (BitVec.ofNat 8 k &&& (0x3F : Byte)).toNat = k ∧ BitVec.ofNat 8 k &&& (0x40 : Byte) = 0 := by
  have all : ∀ k : Fin 21, (BitVec.ofNat 8 (0x40 + k) &&& (0x3F : Byte)).toNat = k ∧
      BitVec.ofNat 8 (0x40 + k) &&& (0x40 : Byte) ≠ 0 ∧ (BitVec.ofNat 8 k &&& (0x3F : Byte)).toNat = k ∧
      BitVec.ofNat 8 k &&& (0x40 : Byte) = 0 := by decide
  exact all ⟨k, by omega⟩

/-- Characters below 256 are their low bytes. -/
theorem lfnChars_toNat (chars : ∀ c ∈ fe.units.takeWhile (· ≠ 0), c < 256) :
    ((lfnChars fe).takeWhile (· ≠ 0)).map BitVec.toNat = fe.units.takeWhile (· ≠ 0) := by
  suffices step : ∀ offsets : List (Fin 32),
      (∀ c ∈ (offsets.map fun k => (fe k).toNat + 256 * (fe (k + 1)).toNat).takeWhile (· ≠ 0),
        c < 256) →
      ((offsets.map fe).takeWhile (· ≠ 0)).map BitVec.toNat =
        (offsets.map fun k => (fe k).toNat + 256 * (fe (k + 1)).toNat).takeWhile (· ≠ 0) from
    step lfnOffsets chars
  intro offsets
  induction offsets with
  | nil => intro _; rfl
  | cons offset offsets inductionHypothesis =>
    intro chars
    rw [List.map_cons, List.takeWhile_cons] at chars
    rw [List.map_cons, List.map_cons, List.takeWhile_cons, List.takeWhile_cons]
    by_cases zero : (fe offset).toNat + 256 * (fe (offset + 1)).toNat = 0
    · have low : fe offset = 0 := BitVec.eq_of_toNat_eq (by simp; omega)
      rw [if_neg (by simpa using low), if_neg (by simpa only [decide_eq_true_eq, not_not] using zero)]
      rfl
    · rw [if_pos (by simpa only [decide_eq_true_eq] using zero)] at chars
      obtain ⟨small, chars⟩ := List.forall_mem_cons.mp chars
      have low : fe offset ≠ 0 := by
        intro low
        have none_ : (fe offset).toNat = 0 := by rw [low]; rfl
        omega
      rw [if_pos (by simpa using low), if_pos (by simpa only [decide_eq_true_eq] using zero),
        List.map_cons, inductionHypothesis chars]
      congr 1
      omega

theorem longFilenameLoop_step {bytes : Mem} {last fuel lfne count entryNum idx total : Nat}
    {fname : CString} (here : dirEntryAt bytes lfne = fe)
    (index : (fe.sequenceNumber &&& (0x3F : Byte)).toNat = idx)
    (counted : (if fe.sequenceNumber &&& (0x40 : Byte) ≠ 0 then idx else entryNum) = total)
    (fits : ((lfnChars fe).takeWhile (· ≠ 0) ++ fname).length ≤ 255) :
    longFilenameLoop bytes last (fuel + 1) lfne count entryNum fname =
      if idx = 1 ∧ count + 1 = total then
        some (count + 1, (lfnChars fe).takeWhile (· ≠ 0) ++ fname)
      else if lfne = last then some (0, (lfnChars fe).takeWhile (· ≠ 0) ++ fname)
      else longFilenameLoop bytes last fuel (lfne + 32) (count + 1) total
        ((lfnChars fe).takeWhile (· ≠ 0) ++ fname) := by
  subst index counted here
  rw [longFilenameLoop]
  dsimp only
  rw [if_neg (by rw [vfsMaxNameLen]; omega)]
  simp only [decide_eq_true_eq]

theorem LongRun.nonempty (long : LongRun checksum k run name) : 1 ≤ run.length := by
  cases long with
  | last => simp
  | more => simp

theorem LongRun.loop (long : LongRun checksum k run name) (chars : ∀ c ∈ name, c < 256)
    (short : name.length ≤ 255) {bytes : Mem} {last lfne : Nat}
    (stored : ∀ (j : Nat) fe, run[j]? = some fe → dirEntryAt bytes (lfne + j * 32) = fe)
    (inside : ∀ j, j + 1 < run.length → lfne + j * 32 ≠ last) (fuel : Nat) :
    ∃ fname : CString, fname.map BitVec.toNat = name ∧
      longFilenameLoop bytes last (fuel + run.length) lfne 0 0 [] =
        if k = 1 then some (run.length, fname)
        else if lfne + (run.length - 1) * 32 = last then some (0, fname)
        else longFilenameLoop bytes last fuel (lfne + run.length * 32) run.length
          (k + run.length - 1) fname := by
  induction long generalizing fuel with
  | @last k fe part flagged =>
    -- the last part has the flag, and comes first
    have here : dirEntryAt bytes lfne = fe := by simpa using stored 0 fe rfl
    obtain ⟨index, first, _, _⟩ := sequenceNumber_parts part.count
    rw [← flagged] at index first
    have same := lfnChars_toNat chars
    have length := congrArg List.length same
    rw [List.length_map] at length
    refine ⟨(lfnChars fe).takeWhile (· ≠ 0), same, ?_⟩
    rw [List.length_singleton, longFilenameLoop_step here index (if_pos first)
      (by rw [List.append_nil]; omega), List.append_nil]
    by_cases complete : k = 1
    · rw [if_pos ⟨complete, by omega⟩, if_pos complete]
    · rw [if_neg fun both => complete both.1, if_neg complete]
      simp
  | @more k fe run name part number plain long inductionHypothesis =>
    rw [List.forall_mem_append] at chars
    rw [List.length_append] at short
    -- the parts in front, then this one
    obtain ⟨fname, same, ran⟩ := inductionHypothesis chars.2 (by omega)
      (fun j other at_j => stored j other (by
        rw [List.getElem?_append_left (List.getElem?_eq_some_iff.mp at_j).1, at_j]))
      (fun j below => inside j (by rw [List.length_append]; simp; omega)) (fuel + 1)
    have here : dirEntryAt bytes (lfne + run.length * 32) = fe := stored run.length fe (by simp)
    obtain ⟨_, _, index, unflagged⟩ := sequenceNumber_parts part.count
    rw [← number] at index unflagged
    -- a part that is not the last one is full
    have all : fe.units.takeWhile (· ≠ 0) = fe.units := by
      rw [List.takeWhile_eq_self_iff]
      intro c member
      simpa using ne_of_mem_of_not_mem member plain
    have partChars := @lfnChars_toNat fe (by rw [all]; exact chars.1)
    rw [all] at partChars
    have length := congrArg List.length partChars
    have nameLength := congrArg List.length same
    rw [List.length_map] at length nameLength
    have nonempty := long.nonempty
    have notLast := inside (run.length - 1) (by rw [List.length_append]; simp; omega)
    have count := part.count.1
    refine ⟨(lfnChars fe).takeWhile (· ≠ 0) ++ fname, by rw [List.map_append, partChars, same], ?_⟩
    rw [List.length_append, List.length_singleton, ← Nat.add_assoc, Nat.add_right_comm, ran,
      if_neg (by omega), if_neg notLast,
      longFilenameLoop_step here index (if_neg (not_not.mpr unflagged))
        (by rw [List.length_append]; omega)]
    rw [Nat.add_sub_cancel, Nat.add_mul, Nat.one_mul, ← Nat.add_assoc, ← Nat.add_assoc,
      show k + 1 + run.length - 1 = k + run.length + 1 - 1 by omega]
    by_cases complete : k = 1
    · rw [if_pos ⟨complete, by omega⟩, if_pos complete]
    · rw [if_neg fun both => complete both.1, if_neg complete]

/-- A complete name in a buffer. -/
theorem LongRun.fat32GetLongFilename (long : LongRun checksum 1 run name)
    (chars : ∀ c ∈ name, c < 256) (short : name.length ≤ 255) {bytes : Mem} {i last : Nat}
    (stored : ∀ (j : Nat) fe, run[j]? = some fe → dirEntryAt bytes ((i + j) * 32) = fe)
    (inside : i + run.length ≤ last + 1) :
    ∃ fname : CString, fname.map BitVec.toNat = name ∧
      fat32GetLongFilename bytes (i * 32) (last * 32) = some (run.length, fname) := by
  have nonempty := long.nonempty
  obtain ⟨fname, same, ran⟩ := @LongRun.loop _ _ _ _ long chars short bytes (last * 32) (i * 32)
    (fun j fe at_j => by rw [← Nat.add_mul]; exact stored j fe at_j)
    (fun j below => by omega) (last + 1 - i - run.length)
  refine ⟨fname, same, ?_⟩
  rw [HanOS.Fs.fat32GetLongFilename,
    show (last * 32 - i * 32) / 32 + 1 = last + 1 - i - run.length + run.length by omega, ran,
    if_pos rfl]

/-- The loop looks at the entries only. -/
theorem longFilenameLoop_congr {bytes bytes' : Mem} {fuel lfne lfne' last last' : Nat}
    (same : ∀ j < fuel, dirEntryAt bytes (lfne + j * 32) = dirEntryAt bytes' (lfne' + j * 32))
    (ends : ∀ j, lfne + j * 32 = last ↔ lfne' + j * 32 = last') (count entryNum : Nat)
    (fname : CString) :
    longFilenameLoop bytes last fuel lfne count entryNum fname =
      longFilenameLoop bytes' last' fuel lfne' count entryNum fname := by
  induction fuel generalizing lfne lfne' count entryNum fname with
  | zero => rfl
  | succ fuel inductionHypothesis =>
    have here := same 0 (by omega)
    have end_ := ends 0
    simp only [Nat.zero_mul, Nat.add_zero] at here end_
    have rest := @inductionHypothesis (lfne + 32) (lfne' + 32)
      (fun j below => by
        have next := same (j + 1) (by omega)
        rwa [Nat.succ_mul, Nat.add_comm (j * 32), ← Nat.add_assoc, ← Nat.add_assoc] at next)
      (fun j => by
        have next := ends (j + 1)
        rwa [Nat.succ_mul, Nat.add_comm (j * 32), ← Nat.add_assoc, ← Nat.add_assoc] at next)
    simp only [longFilenameLoop, here, end_, rest]

theorem dirEntryAt_entryBytes {entries : List FatDirEntry} {j : Nat} (at_j : entries[j]? = some fe) :
    dirEntryAt (entryBytes entries) (j * 32) = fe := by
  funext k
  have quotient : (j * 32 + k.val) / 32 = j := by omega
  have remainder : (j * 32 + k.val) % 32 = k.val := by omega
  simp only [dirEntryAt, entryBytes, quotient, remainder, List.getD_eq_getElem?_getD, at_j,
    Option.getD_some]

/-- A name is looked up alike wherever its entries are. -/
theorem fat32GetLongFilename_entryBytes {entries : List FatDirEntry} (nonempty : entries ≠ [])
    {bytes : Mem} {i last : Nat}
    (stored : ∀ (j : Nat) fe, entries[j]? = some fe → dirEntryAt bytes ((i + j) * 32) = fe)
    (ends : i + entries.length = last + 1) :
    fat32GetLongFilename bytes (i * 32) (last * 32) =
      fat32GetLongFilename (entryBytes entries) 0 ((entries.length - 1) * 32) := by
  have positive := List.length_pos_iff.mpr nonempty
  have fuel : (last * 32 - i * 32) / 32 + 1 = entries.length := by omega
  have fuel' : ((entries.length - 1) * 32 - 0) / 32 + 1 = entries.length := by omega
  rw [HanOS.Fs.fat32GetLongFilename, HanOS.Fs.fat32GetLongFilename, fuel, fuel']
  apply longFilenameLoop_congr
  · intro j below
    have at_j := List.getElem?_eq_getElem below
    rw [← Nat.add_mul, stored j _ at_j, Nat.zero_add, dirEntryAt_entryBytes at_j]
  · intro j
    omega

theorem CutOff.fat32GetLongFilename {entries : List FatDirEntry} (cutOff : CutOff entries)
    (nonempty : entries ≠ []) {bytes : Mem} {i last : Nat}
    (stored : ∀ (j : Nat) fe, entries[j]? = some fe → dirEntryAt bytes ((i + j) * 32) = fe)
    (ends : i + entries.length = last + 1) :
    ∃ fname, fat32GetLongFilename bytes (i * 32) (last * 32) = some (0, fname) := by
  obtain ⟨⟨count, fname⟩, looked, rfl⟩ := Option.map_eq_some_iff.mp cutOff
  exact ⟨fname, (fat32GetLongFilename_entryBytes nonempty stored ends).trans looked⟩

/-! ## Short names -/

theorem untilBlank_eq {field : CString}
    (plain : ∀ c ∈ field.rdropWhile (· = 0x20), c ≠ 0x20 ∧ c ≠ 0) :
    untilBlank field = field.rdropWhile (· = 0x20) := by
  have parts : field = field.rdropWhile (· = 0x20) ++ (field.reverse.takeWhile (· = 0x20)).reverse := by
    rw [List.rdropWhile, ← List.reverse_append, List.takeWhile_append_dropWhile, List.reverse_reverse]
  have blanks : ∀ c ∈ (field.reverse.takeWhile (· = 0x20)).reverse, c = 0x20 := by
    intro c member
    simpa using List.mem_takeWhile_imp (List.mem_reverse.mp member)
  generalize (field.reverse.takeWhile (· = 0x20)).reverse = tail at parts blanks
  generalize field.rdropWhile (· = 0x20) = front at *
  rw [untilBlank, parts, List.takeWhile_append_of_pos (by simpa using plain)]
  cases tail with
  | nil => simp
  | cons c tail =>
    rw [blanks c (List.mem_cons_self ..), List.takeWhile_cons_of_neg (by decide), List.append_nil]

theorem fat32GetShortFilename_eq (escape : fe 0 ≠ 0x05)
    (base : ∀ c ∈ fe.base.rdropWhile (· = 0x20), c ≠ 0x20 ∧ c ≠ 0)
    (extension : ∀ c ∈ fe.extension.rdropWhile (· = 0x20), c ≠ 0x20 ∧ c ≠ 0) :
    fat32GetShortFilename fe.fileNameAndExt = fe.shortName := by
  have first : ((List.finRange 11).take 8).map fe.fileNameAndExt = fe.base := by
    rw [FatDirEntry.base, if_neg escape]
    rfl
  have second : ((List.finRange 11).drop 8).map fe.fileNameAndExt = fe.extension := rfl
  simp only [fat32GetShortFilename, FatDirEntry.shortName, first, second, untilBlank_eq base,
    untilBlank_eq extension]

/-! ## The listing of parts -/

theorem listing_append (front : List FatDirEntry) (before rest : List FatDirEntry) :
    listing before (front ++ rest) =
      listing before front ++ listing (front.reverse ++ before) rest := by
  induction front generalizing before with
  | nil => rfl
  | cons fe front inductionHypothesis =>
    rw [List.cons_append, listing, listing, inductionHypothesis, List.reverse_cons, List.append_assoc,
      List.singleton_append]
    split <;> rfl

theorem listing_not_live {front : List FatDirEntry} (none_live : ∀ fe ∈ front, ¬ fe.Live) :
    listing before front = [] := by
  induction front generalizing before with
  | nil => rfl
  | cons fe front inductionHypothesis =>
    rw [List.forall_mem_cons] at none_live
    rw [listing, if_neg none_live.1]
    exact inductionHypothesis none_live.2

/-- Behind an entry that is no part of a long name there is none. -/
theorem nameBefore_eq_none (plain : ∀ part ∈ before.head?, part.isLongName = false) :
    nameBefore before fe = none := by
  cases before with
  | nil => rfl
  | cons part before =>
    have unlike : ¬ part.IsPart (fat32Checksum fe.fileNameAndExt) 1 := by
      intro isPart
      have := plain part rfl
      rw [isPart.attr] at this
      cases this
    rw [nameBefore, longName, if_pos unlike]
    rfl

theorem LongRun.nameBefore (long : LongRun (fat32Checksum fe.fileNameAndExt) 1 run name)
    (nonempty : name ≠ []) (short : name.length ≤ 255) :
    nameBefore (run.reverse ++ before) fe = some name := by
  rw [HanOS.Fs.nameBefore, long.longName]
  simp [nonempty, short]

/-! ## The pass over a cluster -/

variable {call : RefreshCall} {next : Nat} {s s' : Refreshing} {entries : List FatDirEntry}

structure Holds (s : Refreshing) (entries : List FatDirEntry) : Prop where
  length : s.tempLen = (s.i + entries.length) * 32
  stored : ∀ (j : Nat) fe, entries[j]? = some fe → dirEntryAt s.tempBuffer ((s.i + j) * 32) = fe

/-- The pass went over the entries and listed them. -/
structure Passed (call : RefreshCall) (before entries : List FatDirEntry) (s s' : Refreshing) :
    Prop where
  buffer : s'.tempBuffer = s.tempBuffer
  length : s'.tempLen = s.tempLen
  items : ∃ items, s'.filelist = s.filelist ++ items ∧
    items.map Fat32IdentItem.listed = listing before entries ∧
    ∀ item ∈ items, item.parent = call.this

theorem Holds.behind {front rest : List FatDirEntry} (holds : Holds s (front ++ rest))
    {filelist : List Fat32IdentItem} :
    Holds { s with i := s.i + front.length, filelist := filelist } rest := by
  refine ⟨?_, fun j fe at_j => ?_⟩
  · have length := holds.length
    rw [List.length_append] at length
    simp only
    omega
  · have stored := holds.stored (front.length + j) fe
    rw [List.getElem?_append_right (by omega), Nat.add_sub_cancel_left] at stored
    simp only
    rw [Nat.add_assoc]
    exact stored at_j

/-- What one pass takes is listed in front of the rest. -/
theorem Passed.prepend {front rest : List FatDirEntry} {new : List Fat32IdentItem}
    (listed : new.map Fat32IdentItem.listed = listing before front)
    (parent : ∀ item ∈ new, item.parent = call.this)
    (passed : Passed call (front.reverse ++ before) rest
      { s with i := s.i + front.length, filelist := s.filelist ++ new } s') :
    Passed call before (front ++ rest) s s' := by
  obtain ⟨items, filelist, rest_, parents⟩ := passed.items
  refine ⟨passed.buffer, passed.length, new ++ items, ?_, ?_, ?_⟩
  · rw [filelist, List.append_assoc]
  · rw [List.map_append, listed, rest_, ← listing_append]
  · exact List.forall_mem_append.mpr ⟨parent, parents⟩

def identItem (call : RefreshCall) (tm : Tm) (fe : FatDirEntry) (name : CString) : Fat32IdentItem :=
  { entry := fe, tm, name, parent := call.this }

theorem identItem_listed {tm : Tm} {name : CString} :
    (identItem call tm fe name).listed = (fe, name.map BitVec.toNat) := rfl

theorem pushItem_eq {index : Nat} {fn : CString} (inside : (index + 1) * 32 ≤ s.tempLen)
    (stored : dirEntryAt s.tempBuffer (index * 32) = fe) (dated : fe.month ≠ 0) :
    ∃ tm, pushItem call s index fn =
      some
        { s with
          i := index + 1
          filelist := s.filelist ++
            [identItem call tm fe (if fn = [] then fat32GetShortFilename fe.fileNameAndExt else fn)] } := by
  obtain ⟨tm, date⟩ := Option.isSome_iff_exists.mp
    ((fat32GetDatetime_isSome_iff le_rfl (call.tm s)).mpr dated)
  refine ⟨tm, ?_⟩
  rw [pushItem, if_neg (by omega)]
  simp only [stored, date, Option.map_some, identItem]

/-- At a name that is cut off, the pass of the last cluster ends. -/
theorem CutOff.entryLoop (cutOff : CutOff (fe :: entries)) (low : fe.attr &&& 0x0F ≠ 0)
    (holds : Holds s (fe :: entries)) (fuel : Nat) :
    entryLoop vol call 0 (fuel + 1) s = some s := by
  have length := holds.length
  rw [List.length_cons] at length
  have here : dirEntryAt s.tempBuffer (s.i * 32) = fe := holds.stored 0 fe rfl
  obtain ⟨fname, looked⟩ := @CutOff.fat32GetLongFilename _ cutOff (List.cons_ne_nil _ _) s.tempBuffer
    s.i (s.i + entries.length) holds.stored (by rw [List.length_cons]; omega)
  have used : ¬ fe.attr = 0 := by
    intro zero
    rw [zero] at low
    exact low rfl
  rw [HanOS.Fs.entryLoop, if_neg (by omega)]
  rw [show s.tempLen - 32 = (s.i + entries.length) * 32 by omega]
  simp only [here, used, low, if_false, ne_eq, not_false_eq_true, if_true, looked, true_or]

theorem Orderly.passed {final : Prop} (orderly : Orderly final entries) (ends : final → next = 0)
    (holds : Holds s entries) {fuel : Nat} (enough : entries.length + 1 ≤ fuel)
    (plain : ∀ fe ∈ before.head?, fe.isLongName = false) :
    ∃ s', entryLoop vol call next fuel s = some s' ∧ Passed call before entries s s' := by
  obtain ⟨fuel, rfl⟩ : ∃ n, fuel = n + 1 := ⟨fuel - 1, by omega⟩
  induction orderly generalizing s fuel before with
  | nil =>
    have length := holds.length
    refine ⟨s, ?_, rfl, rfl, [], (List.append_nil _).symm, rfl, fun _ member => nomatch member⟩
    -- the end of the buffer
    rw [entryLoop, if_pos (by simp at length; omega)]
  | @unused fe rest unused dead _ inductionHypothesis =>
    have length := holds.length
    rw [List.length_cons] at length enough
    have here : dirEntryAt s.tempBuffer (s.i * 32) = fe := holds.stored 0 fe rfl
    have further := @Holds.behind s [fe] rest holds s.filelist
    obtain ⟨fuel, rfl⟩ : ∃ n, fuel = n + 1 := ⟨fuel - 1, by omega⟩
    obtain ⟨s', ran, passed⟩ := @inductionHypothesis (fe :: before) _ further (by
      intro fe' same
      obtain rfl := Option.some.inj same
      rw [FatDirEntry.isLongName, unused]
      rfl) fuel (by omega)
    refine ⟨s', ?_, ?_⟩
    · -- the pass takes its first branch, for an entry that is not in use
      rw [entryLoop, if_neg (by omega)]
      simp only [here, unused, if_true]
      exact ran
    · refine @Passed.prepend _ _ _ _ [fe] rest [] ?_ (fun _ member => nomatch member) (by simpa using passed)
      rw [listing_not_live (by simpa using dead)]
      rfl
  | @short fe rest used low live dated escape base extension _ inductionHypothesis =>
    have length := holds.length
    rw [List.length_cons] at length enough
    have here : dirEntryAt s.tempBuffer (s.i * 32) = fe := holds.stored 0 fe rfl
    -- the short name is taken, as no long one is pending
    obtain ⟨tm, pushed⟩ := @pushItem_eq fe call s s.i [] (by omega) here dated
    rw [if_pos rfl, fat32GetShortFilename_eq escape base extension] at pushed
    have further := @Holds.behind s [fe] rest holds (s.filelist ++ [identItem call tm fe fe.shortName])
    obtain ⟨fuel, rfl⟩ : ∃ n, fuel = n + 1 := ⟨fuel - 1, by omega⟩
    obtain ⟨s', ran, passed⟩ := @inductionHypothesis (fe :: before) _ further (by
      intro fe' same
      exact Option.some.inj same ▸ live.short) fuel (by omega)
    refine ⟨s', ?_, @Passed.prepend _ _ _ _ [fe] rest [identItem call tm fe fe.shortName] ?_ ?_ passed⟩
    · rw [entryLoop, if_neg (by omega)]
      simp only [here, used, low, if_false, ne_eq, not_true_eq_false, pushed, Option.bind_some]
      exact ran
    · rw [listing, if_pos live, nameBefore_eq_none plain]
      rfl
    · simp [identItem]
  | @long run fe name rest long nonempty short chars live dated _ inductionHypothesis =>
    have length := holds.length
    rw [List.length_append, List.length_cons] at length enough
    obtain ⟨count, counted⟩ : ∃ n, run.length = n + 1 := ⟨run.length - 1, by have := long.nonempty; omega⟩
    obtain ⟨part, at_0⟩ : ∃ part, run[0]? = some part := ⟨_, List.getElem?_eq_getElem (by omega)⟩
    have first : dirEntryAt s.tempBuffer (s.i * 32) = part :=
      holds.stored 0 part (by rw [List.getElem?_append_left (by omega), at_0])
    have isPart := long.isLongName part (List.mem_of_getElem? at_0)
    -- the parts are read to the end, and the entry behind them gets the name
    obtain ⟨fname, same, looked⟩ := @LongRun.fat32GetLongFilename _ _ _ long chars short s.tempBuffer
      s.i (s.i + run.length + rest.length) (fun j fe' at_j => holds.stored j fe' (by
        rw [List.getElem?_append_left (List.getElem?_eq_some_iff.mp at_j).1, at_j])) (by omega)
    have named : fname ≠ [] := fun empty => nonempty (by rw [← same, empty]; rfl)
    obtain ⟨tm, pushed⟩ := @pushItem_eq fe call s (s.i + run.length) fname (by omega)
      (holds.stored run.length fe (by simp)) dated
    rw [if_neg named] at pushed
    have further := @Holds.behind s (run ++ [fe]) rest (by simpa using holds)
      (s.filelist ++ [identItem call tm fe fname])
    obtain ⟨fuel, rfl⟩ : ∃ n, fuel = n + 1 := ⟨fuel - 1, by omega⟩
    obtain ⟨s', ran, passed⟩ := @inductionHypothesis ((run ++ [fe]).reverse ++ before) _ further (by
      intro fe' same
      rw [List.reverse_append] at same
      exact Option.some.inj same ▸ live.short) fuel (by omega)
    have prepended := @Passed.prepend _ _ _ _ (run ++ [fe]) rest [identItem call tm fe fname] ?_ ?_ passed
    refine ⟨s', ?_, by simpa using prepended⟩
    · rw [entryLoop, if_neg (by omega)]
      rw [show s.tempLen - 32 = (s.i + run.length + rest.length) * 32 by omega]
      rw [counted] at looked pushed
      rw [List.length_append, List.length_singleton, counted] at ran
      simp only [first, isPart.1, isPart.2, if_false, ne_eq, not_false_eq_true, if_true, counted, looked,
        pushed, Option.bind_some]
      exact ran
    · rw [listing_append, listing_not_live long.not_live, List.nil_append, listing, if_pos live,
        long.nameBefore nonempty short, List.map_singleton, identItem_listed, same]
      rfl
    · simp [identItem]
  | @cut fe rest last low cutOff dead =>
    -- the name is cut off by the end of the last cluster
    refine ⟨s, ?_, rfl, rfl, [], (List.append_nil _).symm, ?_, fun _ member => nomatch member⟩
    · rw [ends last]
      exact cutOff.entryLoop low holds fuel
    · rw [listing_not_live dead]
      rfl

/-- Behind an orderly cluster, no long name is pending. -/
theorem Orderly.plain_behind {final : Prop} (orderly : Orderly final entries) (more : ¬ final)
    (plain : ∀ fe ∈ before.head?, fe.isLongName = false) :
    ∀ fe ∈ (entries.reverse ++ before).head?, fe.isLongName = false := by
  induction orderly generalizing before with
  | nil => exact plain
  | @unused fe rest unused _ _ inductionHypothesis =>
    have behind := @inductionHypothesis (fe :: before) fun other same => by
      obtain rfl := Option.some.inj same
      rw [FatDirEntry.isLongName, unused]
      rfl
    simpa using behind
  | @short fe rest _ _ live _ _ _ _ _ inductionHypothesis =>
    have behind := @inductionHypothesis (fe :: before) fun other same =>
      Option.some.inj same ▸ live.short
    simpa using behind
  | @long run fe name rest _ _ _ _ live _ _ inductionHypothesis =>
    have behind := @inductionHypothesis (fe :: (run.reverse ++ before)) fun other same =>
      Option.some.inj same ▸ live.short
    simpa using behind
  | cut last => exact absurd last more

/-! ## The clusters of the directory -/

theorem holds_cluster (sector : 32 ∣ vol.bs.bytesPerSector) (cluster : Nat) (tempBuffer : Mem)
    (filelist : List Fat32IdentItem) :
    Holds
      { i := 0
        tempBuffer :=
          vol.ataPioRead28 (vol.clusterLba cluster) vol.bs.sectorsPerCluster tempBuffer 0
        tempLen := vol.bytesPerCluster, filelist }
      (clusterEntries vol cluster) := by
  have whole : vol.bytesPerCluster / 32 * 32 = vol.bytesPerCluster :=
    Nat.div_mul_cancel (Dvd.dvd.mul_right sector _)
  refine ⟨by simp [clusterEntries, whole], fun j fe at_j => ?_⟩
  obtain ⟨below, here⟩ := List.getElem?_eq_some_iff.mp at_j
  simp only [clusterEntries, List.length_map, List.length_range, List.getElem_map,
    List.getElem_range] at below here
  subst here
  funext k
  have inside := @readCluster_inside vol cluster tempBuffer 0 (j * 32 + k) (by omega)
  simp only [Nat.zero_add] at inside
  simp only [dirEntryAt, Nat.zero_add, inside, Nat.add_assoc]

theorem refreshPass_lists {final : Prop} {cluster fuel : Nat} (sector : 32 ∣ vol.bs.bytesPerSector)
    (orderly : Orderly final (clusterEntries vol cluster)) (ends : final → next = 0)
    (plain : ∀ fe ∈ before.head?, fe.isLongName = false)
    (enough : vol.bytesPerCluster / 32 + 1 ≤ fuel) (tempBuffer : Mem)
    (filelist : List Fat32IdentItem) :
    ∃ tempBuffer' items, refreshPass vol call fuel
        (vol.ataPioRead28 (vol.clusterLba cluster) vol.bs.sectorsPerCluster tempBuffer 0) next
        (some (vol.bytesPerCluster, filelist)) =
        (tempBuffer', some (vol.bytesPerCluster, filelist ++ items)) ∧
      items.map Fat32IdentItem.listed = listing before (clusterEntries vol cluster) ∧
      ∀ item ∈ items, item.parent = call.this := by
  obtain ⟨s', ran, passed⟩ := @Orderly.passed vol before call next _ _ _ orderly ends
    (holds_cluster sector cluster tempBuffer filelist) fuel (by simpa [clusterEntries] using enough)
    plain
  obtain ⟨items, filelist', listed, parents⟩ := passed.items
  have length : s'.tempLen = vol.bytesPerCluster := passed.length
  refine ⟨s'.tempBuffer, items, ?_, listed, parents⟩
  rw [refreshPass]
  simp only [ran, length, filelist']

theorem refreshLoop_lists {start : Nat} {chain : List Nat} {passFuel fuel : Nat}
    (sector : 32 ∣ vol.bs.bytesPerSector) (walk : Chain (nextCluster vol) start chain)
    (orderly : ∀ (i c : Nat), chain[i]? = some c →
      Orderly (i + 1 = chain.length) (clusterEntries vol c))
    (plain : ∀ fe ∈ before.head?, fe.isLongName = false)
    (passEnough : vol.bytesPerCluster / 32 + 1 ≤ passFuel) (enough : chain.length ≤ fuel)
    (tempBuffer : Mem) (filelist : List Fat32IdentItem) :
    ∃ items, refreshLoop vol (refreshPass vol call passFuel) fuel start tempBuffer
        (some (vol.bytesPerCluster, filelist)) =
        some (chain, some (vol.bytesPerCluster, filelist ++ items)) ∧
      items.map Fat32IdentItem.listed = listing before (dirEntries vol chain) ∧
      ∀ item ∈ items, item.parent = call.this := by
  induction walk generalizing fuel before tempBuffer filelist with
  | @last c ends =>
    obtain ⟨fuel, rfl⟩ : ∃ n, fuel = n + 1 := ⟨fuel - 1, by simp at enough; omega⟩
    -- the last cluster
    have stop := nextCluster_eq_none_iff.mp ends
    obtain ⟨tempBuffer', items, ran, listed, parents⟩ := @refreshPass_lists vol before call _ _ c passFuel
      sector (orderly 0 c rfl) (fun _ => stop) plain passEnough tempBuffer filelist
    refine ⟨items, ?_, by simpa [dirEntries] using listed, parents⟩
    rw [refreshLoop, ran, stop]
    rfl
  | @link c next rest step walk inductionHypothesis =>
    obtain ⟨fuel, rfl⟩ : ∃ n, fuel = n + 1 := ⟨fuel - 1, by simp at enough; omega⟩
    obtain ⟨goes, present⟩ := nextCluster_eq_some_iff.mp step
    have few : next < 0xFFFFFFF8 := goes ▸ fat32GetNextCluster_lt vol c
    have more : ¬ (0 + 1 = (c :: rest).length) := by
      have := List.length_pos_iff.mpr walk.ne_nil
      simp only [List.length_cons]
      omega
    -- the pass over this cluster, and the loop over the others
    have here := orderly 0 c rfl
    obtain ⟨tempBuffer', items, ran, listed, parents⟩ := @refreshPass_lists vol before call next _ c
      passFuel sector here (fun last => absurd last more) plain passEnough tempBuffer filelist
    obtain ⟨later, ranLater, listedLater, parentsLater⟩ := @inductionHypothesis
      ((clusterEntries vol c).reverse ++ before) fuel (fun i d at_i => by
        have behind := orderly (i + 1) d (by simpa using at_i)
        simpa using behind)
      (here.plain_behind more plain) (by simpa using enough) tempBuffer' (filelist ++ items)
    refine ⟨items ++ later, ?_, ?_, List.forall_mem_append.mpr ⟨parents, parentsLater⟩⟩
    · rw [refreshLoop, goes, ran]
      dsimp only
      rw [if_neg (by omega), ranLater, List.append_assoc]
      rfl
    · rw [List.map_append, listed, listedLater, dirEntries, dirEntries, List.flatMap_cons,
        listing_append]

/-! ## A hidden file -/

/-- Where no name is complete from the first entry on, nothing is listed. -/
theorem refreshFilelist_cutOff {entry : Fat32Entry} {cluster fuel : Nat}
    {filelist filelist' : List Fat32IdentItem} {tempBuffer : Mem}
    (start : (if entry.clusterBegin < 2 then 2 else entry.clusterBegin) = cluster)
    (sector : 32 ∣ vol.bs.bytesPerSector) (ends : fat32GetNextCluster vol cluster = 0)
    (stored : clusterEntries vol cluster = fe :: rest) (low : fe.attr &&& 0x0F ≠ 0)
    (cutOff : CutOff (fe :: rest))
    (ran : refreshFilelist vol call fuel entry tempBuffer filelist = some filelist') :
    filelist' = filelist := by
  have holds := holds_cluster sector cluster tempBuffer filelist
  rw [stored] at holds
  rw [refreshFilelist, fat32Refresh, start, walkFuel, refreshLoop, ends] at ran
  cases fuel with
  | zero => simp [refreshPass, entryLoop] at ran
  | succ fuel =>
    have stayed := @CutOff.entryLoop vol fe call _ _ cutOff low holds fuel
    simp only [refreshPass, stayed, true_or, if_true, Option.bind_some, Option.map_some,
      Option.some.injEq] at ran
    exact ran.symm

/-- The root directory has the hidden file "B". -/
def hiddenVolume : Volume :=
  { fourClusters with
    disk := fun x => if x < 33 * 512 then 0 else (slotBytes [0x42] 0x22 5 7).getD (x - 33 * 512) 0 }

/-- The entry is taken for the start of a long name, which is not complete, and is not listed. -/
theorem hidden_file_not_listed :
    FatChain hiddenVolume (dirStart hiddenVolume .zero) [2] ∧
      ¬ ListsDirectory hiddenVolume .zero [2] := by
  have ends : fatSucc fourClusters 2 = none := by decide +kernel
  refine ⟨⟨.last ends, ?_⟩, fun lists => ?_⟩
  · simp only [List.mem_singleton, forall_eq, Volume.IsCluster]
    decide
  · obtain ⟨fuel, items, ran, listed, _⟩ := lists ⟨0, fun _ _ => 0, fun _ => .zero⟩ (fun _ => 0) []
    have one : (listing [] (dirEntries hiddenVolume [2])).length = 1 := by decide +kernel
    have next : fat32GetNextCluster hiddenVolume 2 = 0 := by decide +kernel
    have cutOff : CutOff (clusterEntries hiddenVolume 2) := by
      rw [CutOff]
      decide +kernel
    have low : (clusterEntries hiddenVolume 2).head?.all (fun fe => fe.attr &&& 0x0F ≠ 0) = true := by
      decide +kernel
    have length : (clusterEntries hiddenVolume 2).length = 16 := by simp [clusterEntries]; rfl
    cases stored : clusterEntries hiddenVolume 2 with
    | nil => rw [stored] at length; cases length
    | cons fe rest =>
      rw [stored] at cutOff low
      have same := refreshFilelist_cutOff (if_pos (by decide)) (by decide) next stored
        (of_decide_eq_true low) cutOff ran
      rw [List.nil_append] at same
      rw [← listed, same] at one
      cases one

/-- `fat32_refresh` lists a directory whose clusters are orderly. -/
theorem refresh_lists {entry : Fat32Entry} {chain : List Nat} (reaches : DriverReaches vol)
    (wellFormed : FatChain vol (dirStart vol entry) chain)
    (listable : Listable vol entry chain) : ListsDirectory vol entry chain := by
  intro call tempBuffer filelist
  have sector : 32 ∣ vol.bs.bytesPerSector := reaches.sector ▸ by decide
  have start : dirStart vol entry = if entry.clusterBegin < 2 then 2 else entry.clusterBegin := by
    have first := (wellFormed.inside _ wellFormed.follows.start_mem).1
    have root := listable.root
    rw [dirStart] at first ⊢
    by_cases zero : entry.clusterBegin = 0
    · rw [if_pos zero, root zero, if_pos (by omega)]
    · rw [if_neg zero] at first ⊢
      rw [if_neg (by omega)]
  obtain ⟨items, ran, listed, parents⟩ := @refreshLoop_lists vol [] call _ _
    (vol.bytesPerCluster / 32 + 1) (walkFuel vol) sector
    (wellFormed.nextCluster_iff.mpr listable.understood) listable.orderly
    (fun _ member => nomatch member) le_rfl wellFormed.length_le tempBuffer filelist
  refine ⟨vol.bytesPerCluster / 32 + 1, items, ?_, listed, parents⟩
  rw [refreshFilelist, fat32Refresh, ← start, ran]
  rfl

theorem orderly_of_unused {final : Prop}
    (unused : entries.all (fun fe => fe.attr = 0 ∧ ¬ fe.Live) = true) : Orderly final entries := by
  induction entries with
  | nil => exact .nil
  | cons fe rest inductionHypothesis =>
    rw [List.all_cons, Bool.and_eq_true, decide_eq_true_eq] at unused
    exact .unused unused.1.1 unused.1.2 (inductionHypothesis unused.2)

/-- A root directory with a directory "D" and a file "X". -/
theorem refresh_lists_treeVolume : ListsDirectory (treeVolume 0) .zero [2] := by
  refine refresh_lists treeVolume_reaches (treeVolume_chain (.inl rfl)) ⟨fun _ => rfl, ?_, ?_⟩
  · intro c member
    obtain rfl := List.mem_singleton.mp member
    exact .inr (.inl (by decide +kernel))
  · intro i c at_i
    obtain ⟨rfl, rfl⟩ : i = 0 ∧ 2 = c := by simpa [List.getElem?_singleton] using at_i
    have size : (treeVolume 0).bytesPerCluster / 32 = 16 := by decide
    have slots : List.range 16 = 0 :: 1 :: List.range' 2 14 := by decide
    rw [clusterEntries, size, slots, List.map_cons, List.map_cons]
    refine .short (by decide +kernel) (by decide +kernel) (by decide +kernel) (by decide +kernel)
      (by decide +kernel) (by decide +kernel) (by decide +kernel) ?_
    refine .short (by decide +kernel) (by decide +kernel) (by decide +kernel) (by decide +kernel)
      (by decide +kernel) (by decide +kernel) (by decide +kernel) ?_
    exact orderly_of_unused (by decide +kernel)

end HanOS.Fs
