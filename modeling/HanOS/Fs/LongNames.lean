import HanOS.Fs.Fat32Listing
import Mathlib.Tactic.IntervalCases

/-!
# Long names put together (`fs/fat32.h`)

`fat32_get_long_filename` works in two buffers of 256 bytes: it saves the name so far, writes
the 13 characters of a part to its front and appends what it saved.  The buffers hold what
the loop on strings has (`longFilenameBuffers_spec`), and of the entries of a name that is
stored as the format says nothing but the name is left (`longName_restored`).
-/

namespace HanOS.Fs

open HanOS.Foundations HanOS.Lib

variable {buf dest src fname fnTemp bytes : Mem} {s t name : CString} {fe : FatDirEntry}
variable {last fuel lfne count entryNum i k n : Nat} {checksum : Byte}

/-! ## The buffers -/

/-- `strlen` of a buffer of 256 bytes; `none` is a read behind it. -/
def bufStrlen (buf : Mem) : Option Nat := (List.range vfsMaxNameLen).find? fun i => buf i = 0

def bufStrcpy (dest src : Mem) : Option Mem := do
  let len ← bufStrlen src
  some (blit dest 0 src 0 (len + 1))

/-- `strcat`; `none` is an access behind a buffer. -/
def bufStrcat (dest src : Mem) : Option Mem := do
  let destLen ← bufStrlen dest
  let len ← bufStrlen src
  if vfsMaxNameLen ≤ destLen + len then none else some (blit dest destLen src 0 (len + 1))

/-- `fat32_name_copy` to `position`, from the characters at `start` -/
def fat32NameCopy (dst : Mem) (position : Nat) (src : Mem) (start len : Nat) : Mem := fun x =>
  if position ≤ x ∧ x < position + len then src (start + 2 * (x - position)) else dst x

def copyParts (fname bytes : Mem) (lfne : Nat) : Mem :=
  let fname := fat32NameCopy fname 0 bytes (lfne + 1) 5
  let fname := fat32NameCopy fname 5 bytes (lfne + 14) 6
  let fname := fat32NameCopy fname 11 bytes (lfne + 28) 2
  Function.update fname 13 0

/-- The loop of `fat32_get_long_filename` on `fname` and `fn_temp`; `none` is an access behind
    one of them. -/
def longFilenameBuffers (bytes : Mem) (last : Nat) : Nat → Nat → Nat → Nat → Mem → Mem →
    Option (Nat × Mem × Mem)
  | 0, _, _, _, _, _ => none
  | fuel + 1, lfne, count, entryNum, fname, fnTemp => do
    let fnTemp ← bufStrcpy fnTemp fname
    let count := count + 1
    let fe := dirEntryAt bytes lfne
    let idx := (fe.sequenceNumber &&& 0x3F).toNat
    let first : Bool := fe.sequenceNumber &&& 0x40 ≠ 0
    let fname ← bufStrcat (copyParts fname bytes lfne) fnTemp
    let entryNum := if first then idx else entryNum
    if idx = 1 ∧ count = entryNum then some (count, fname, fnTemp)
    else if lfne = last then some (0, fname, fnTemp)
    else longFilenameBuffers bytes last fuel (lfne + 32) count entryNum fname fnTemp

/-- `fat32_get_long_filename` with its buffers, `fname` the caller's and `fn_temp` all zero: what it
    returns and leaves in the two. -/
def fat32GetLongFilenameBuffers (bytes : Mem) (lfne last : Nat) (fname : Mem) :
    Option (Nat × Mem × Mem) :=
  longFilenameBuffers bytes last ((last - lfne) / 32 + 1) lfne 0 0 (Function.update fname 0 0)
    fun _ => 0

/-! ## Strings in buffers -/

structure HoldsString (buf : Mem) (s : CString) : Prop where
  chars : ∀ (i : Nat) (inside : i < s.length), buf i = s[i]
  ends : buf s.length = 0
  plain : (0 : Byte) ∉ s
  fits : s.length < vfsMaxNameLen

theorem HoldsString.strlen (holds : HoldsString buf s) : bufStrlen buf = some s.length := by
  rw [bufStrlen, List.find?_range_eq_some]
  refine ⟨decide_eq_true holds.ends, List.mem_range.mpr holds.fits, fun j below => ?_⟩
  rw [Bool.not_eq_true', decide_eq_false_iff_not, holds.chars j below]
  exact fun zero => holds.plain (zero ▸ List.getElem_mem below)

theorem HoldsString.strcpy (holds : HoldsString src s) :
    ∃ buf, bufStrcpy dest src = some buf ∧ HoldsString buf s := by
  refine ⟨blit dest 0 src 0 (s.length + 1), ?_, fun i inside => ?_, ?_, holds.plain, holds.fits⟩
  · rw [bufStrcpy, holds.strlen]
    rfl
  · rw [blit_inside (Nat.zero_le i) (by omega), Nat.sub_zero, Nat.zero_add, holds.chars i inside]
  · rw [blit_inside (Nat.zero_le _) (by omega), Nat.sub_zero, Nat.zero_add, holds.ends]

theorem HoldsString.strcat (front : HoldsString dest s) (back : HoldsString src t) :
    if vfsMaxNameLen ≤ (s ++ t).length then bufStrcat dest src = none
    else ∃ buf, bufStrcat dest src = some buf ∧ HoldsString buf (s ++ t) := by
  rw [bufStrcat, front.strlen, back.strlen, List.length_append]
  split
  · next long => exact if_pos long
  · next short =>
    refine ⟨blit dest s.length src 0 (t.length + 1), if_neg short, fun i inside => ?_, ?_, ?_,
      by rw [List.length_append]; omega⟩
    · rw [List.length_append] at inside
      rcases Nat.lt_or_ge i s.length with low | high
      · rw [blit_outside (.inl low), List.getElem_append_left low, front.chars i low]
      · rw [blit_inside high (by omega), Nat.zero_add, List.getElem_append_right high,
          back.chars _ (by omega)]
    · rw [List.length_append, blit_inside (by omega) (by omega), Nat.zero_add,
        Nat.add_sub_cancel_left, back.ends]
    · rw [List.mem_append, not_or]
      exact ⟨front.plain, back.plain⟩

theorem holdsString_of_chars (chars : ∀ (i : Nat) (inside : i < s.length), buf i = s[i])
    (ends : buf s.length = 0) (fits : s.length < vfsMaxNameLen) :
    HoldsString buf (s.takeWhile (· ≠ 0)) := by
  have whole := @List.takeWhile_append_dropWhile _ (fun c : Byte => decide (c ≠ 0)) s
  have length := congrArg List.length whole
  rw [List.length_append] at length
  refine ⟨fun i inside => ?_, ?_, fun zero => ?_, by omega⟩
  · rw [chars i (by omega), (List.takeWhile_prefix _).getElem inside]
  · cases rest : s.dropWhile (· ≠ 0) with
    | nil =>
      rw [rest, List.append_nil] at whole
      rw [whole, ends]
    | cons c rest' =>
      have first := List.head_dropWhile_not (fun c : Byte => decide (c ≠ 0))
        (show s.dropWhile (fun c => decide (c ≠ 0)) ≠ [] by rw [rest]; simp)
      simp only [rest, List.head_cons] at first
      rw [rest] at whole length
      rw [List.length_cons] at length
      have inside : (s.takeWhile (· ≠ 0)).length < s.length := by omega
      rw [chars _ inside, show s[(s.takeWhile (· ≠ 0)).length] = c by
        rw [← List.getElem_of_eq whole (by rw [List.length_append, List.length_cons]; omega)]
        simp]
      simpa using first
  · simpa using List.mem_takeWhile_imp zero

/-- The three copies leave the part of an entry at the front. -/
theorem copyParts_holds :
    HoldsString (copyParts fname bytes lfne) ((lfnChars (dirEntryAt bytes lfne)).takeWhile (· ≠ 0)) := by
  refine holdsString_of_chars (fun i inside => ?_) ?_ (show 13 < 256 by decide)
  · have below : i < 13 := inside
    interval_cases i <;>
      simp [copyParts, fat32NameCopy, lfnChars, lfnOffsets, dirEntryAt]
  · change copyParts fname bytes lfne 13 = 0
    rw [copyParts, Function.update_self]

def SameOutside (buf buf' : Mem) : Prop := ∀ x, vfsMaxNameLen ≤ x → buf x = buf' x

theorem bufStrcpy_outside (copied : bufStrcpy dest src = some buf) : SameOutside buf dest := by
  intro x outside
  obtain ⟨len, found, result⟩ := Option.bind_eq_some_iff.mp copied
  have below : len < vfsMaxNameLen := by
    rw [bufStrlen, List.find?_range_eq_some] at found
    exact List.mem_range.mp found.2.1
  rw [← Option.some.inj result, blit_outside (by omega)]

theorem bufStrcat_outside (appended : bufStrcat dest src = some buf) : SameOutside buf dest := by
  intro x outside
  obtain ⟨destLen, _, appended⟩ := Option.bind_eq_some_iff.mp appended
  obtain ⟨len, _, result⟩ := Option.bind_eq_some_iff.mp appended
  by_cases long : vfsMaxNameLen ≤ destLen + len
  · rw [if_pos long] at result
    cases result
  · rw [if_neg long] at result
    rw [← Option.some.inj result, blit_outside (by omega)]

theorem copyParts_outside : SameOutside (copyParts fname bytes lfne) fname := by
  intro x outside
  have bound : 256 ≤ x := outside
  rw [copyParts, Function.update_of_ne (by omega)]
  unfold fat32NameCopy
  rw [if_neg (by omega), if_neg (by omega), if_neg (by omega)]

theorem longFilenameBuffers_outside {out scratch : Mem}
    (ran : longFilenameBuffers bytes last fuel lfne count entryNum fname fnTemp =
      some (k, out, scratch)) : SameOutside out fname ∧ SameOutside scratch fnTemp := by
  induction fuel generalizing lfne count entryNum fname fnTemp with
  | zero => cases ran
  | succ fuel inductionHypothesis =>
    obtain ⟨saved, copied, ran⟩ := Option.bind_eq_some_iff.mp ran
    obtain ⟨joined, appended, ran⟩ := Option.bind_eq_some_iff.mp ran
    have savedSame := bufStrcpy_outside copied
    have joinedSame : SameOutside joined fname := fun x outside =>
      (bufStrcat_outside appended x outside).trans (copyParts_outside x outside)
    dsimp only at ran
    generalize (if decide ((dirEntryAt bytes lfne).sequenceNumber &&& 0x40 ≠ 0) = true then
      ((dirEntryAt bytes lfne).sequenceNumber &&& 0x3F).toNat else entryNum) = total at ran
    generalize ((dirEntryAt bytes lfne).sequenceNumber &&& 0x3F).toNat = idx at ran
    by_cases complete : idx = 1 ∧ count + 1 = total
    · rw [if_pos complete] at ran
      cases ran
      exact ⟨joinedSame, savedSame⟩
    · rw [if_neg complete] at ran
      by_cases atLast : lfne = last
      · rw [if_pos atLast] at ran
        cases ran
        exact ⟨joinedSame, savedSame⟩
      · rw [if_neg atLast] at ran
        obtain ⟨outSame, scratchSame⟩ := inductionHypothesis ran
        exact ⟨fun x outside => (outSame x outside).trans (joinedSame x outside),
          fun x outside => (scratchSame x outside).trans (savedSame x outside)⟩

/-- The buffers hold what the loop on strings has, and it fails where they are too small. -/
theorem longFilenameBuffers_spec (holds : HoldsString fname s) :
    match longFilenameLoop bytes last fuel lfne count entryNum s with
    | none => longFilenameBuffers bytes last fuel lfne count entryNum fname fnTemp = none
    | some (count', t) => ∃ out scratch, longFilenameBuffers bytes last fuel lfne count entryNum
        fname fnTemp = some (count', out, scratch) ∧ HoldsString out t := by
  induction fuel generalizing lfne count entryNum fname fnTemp s with
  | zero => rfl
  | succ fuel inductionHypothesis =>
    obtain ⟨saved, copied, savedHolds⟩ := @HoldsString.strcpy fnTemp fname s holds
    have appended := (@copyParts_holds fname bytes lfne).strcat savedHolds
    rw [longFilenameLoop, longFilenameBuffers, copied]
    dsimp only [Option.bind_eq_bind, Option.bind_some]
    generalize (lfnChars (dirEntryAt bytes lfne)).takeWhile (· ≠ 0) ++ s = whole at appended ⊢
    generalize (if decide ((dirEntryAt bytes lfne).sequenceNumber &&& 0x40 ≠ 0) = true then
      ((dirEntryAt bytes lfne).sequenceNumber &&& 0x3F).toNat else entryNum) = total
    generalize ((dirEntryAt bytes lfne).sequenceNumber &&& 0x3F).toNat = idx
    by_cases long : vfsMaxNameLen ≤ whole.length
    · rw [if_pos long] at appended ⊢
      rw [appended]
      rfl
    · rw [if_neg long] at appended ⊢
      obtain ⟨out, result, outHolds⟩ := appended
      rw [result]
      dsimp only [Option.bind_some]
      by_cases complete : idx = 1 ∧ count + 1 = total
      · rw [if_pos complete, if_pos complete]
        exact ⟨out, saved, rfl, outHolds⟩
      · rw [if_neg complete, if_neg complete]
        by_cases atLast : lfne = last
        · rw [if_pos atLast, if_pos atLast]
          exact ⟨out, saved, rfl, outHolds⟩
        · rw [if_neg atLast, if_neg atLast]
          exact inductionHypothesis outHolds

theorem fat32GetLongFilenameBuffers_spec {lfne : Nat}
    (got : fat32GetLongFilename bytes lfne last = some (count, name)) :
    ∃ out scratch, fat32GetLongFilenameBuffers bytes lfne last fname = some (count, out, scratch) ∧
      HoldsString out name ∧ SameOutside out fname ∧ SameOutside scratch fun _ => 0 := by
  have empty : HoldsString (Function.update fname 0 0) [] :=
    ⟨nofun, Function.update_self .., List.not_mem_nil, by decide⟩
  have spec := @longFilenameBuffers_spec _ (fun _ => 0) bytes _ last ((last - lfne) / 32 + 1) lfne 0 0
    empty
  rw [show longFilenameLoop bytes last ((last - lfne) / 32 + 1) lfne 0 0 [] = some (count, name)
    from got] at spec
  obtain ⟨out, scratch, ran, holds⟩ := spec
  obtain ⟨outSame, scratchSame⟩ := longFilenameBuffers_outside ran
  refine ⟨out, scratch, ran, holds, fun x outside => ?_, scratchSame⟩
  have bound : 256 ≤ x := outside
  rw [outSame x outside, Function.update_of_ne (by omega)]

/-! ## Names as they are stored -/

/-- The 16-bit characters of a name, with the NUL behind it and what fills up the last part. -/
def lfnUnit (name : CString) (i : Nat) : Nat :=
  if inside : i < name.length then name[i].toNat else if i = name.length then 0 else 0xFFFF

def lfnCount (name : CString) : Nat := (name.length + 12) / 13

/-- The entry of the `k`-th part, counted from one. -/
def lfnEntry (checksum : Byte) (name : CString) (k : Nat) : FatDirEntry := fun offset =>
  let unit := fun c => lfnUnit name (13 * (k - 1) + c)
  if offset = 0 then BitVec.ofNat 8 (if k = lfnCount name then 0x40 + k else k)
  else if offset = 11 then 0x0F
  else if offset = 13 then checksum
  else
    match lfnOffsets.idxOf? offset, lfnOffsets.idxOf? (offset - 1) with
    | some c, _ => BitVec.ofNat 8 (unit c)
    | none, some c => BitVec.ofNat 8 (unit c / 256)
    | none, none => 0

/-- The entries of a name in the order they are stored: the last part comes first. -/
def lfnEncode (checksum : Byte) (name : CString) : List FatDirEntry :=
  ((List.range' 1 (lfnCount name)).reverse).map (lfnEntry checksum name)

theorem lfnUnit_lt : lfnUnit name i < 2 ^ 16 := by
  rw [lfnUnit]
  split
  · exact (BitVec.isLt _).trans (by decide)
  · split <;> decide

theorem units_lfnEntry : (lfnEntry checksum name k).units =
    (List.range 13).map fun c => lfnUnit name (13 * (k - 1) + c) := by
  have word : ∀ c, (BitVec.ofNat 8 (lfnUnit name c)).toNat +
      256 * (BitVec.ofNat 8 (lfnUnit name c / 256)).toNat = lfnUnit name c := by
    intro c
    have bound := @lfnUnit_lt name c
    simp only [BitVec.toNat_ofNat]
    omega
  refine List.ext_getElem rfl fun c left right => ?_
  have below : c < 13 := left
  rw [List.getElem_map, List.getElem_range]
  interval_cases c <;> exact word _

theorem isPart_lfnEntry (low : 1 ≤ k) (high : k ≤ 20) :
    (lfnEntry checksum name k).IsPart checksum k :=
  ⟨decide_eq_true (show (0x0F : Byte) &&& 0x0F = 0x0F by decide), rfl, low, high⟩

theorem units_inside {start : Nat} (inside : start + 13 ≤ name.length) :
    (List.range 13).map (fun c => lfnUnit name (start + c)) =
      ((name.drop start).take 13).map BitVec.toNat := by
  refine List.ext_getElem (by simp; omega) fun c left right => ?_
  rw [List.length_map, List.length_range] at left
  rw [List.getElem_map, List.getElem_range, List.getElem_map, List.getElem_take,
    List.getElem_drop, lfnUnit, dif_pos (by omega)]

theorem units_end {start : Nat} (plain : (0 : Byte) ∉ name) (inside : start ≤ name.length)
    (ends : name.length ≤ start + 13) :
    ((List.range 13).map fun c => lfnUnit name (start + c)).takeWhile (· ≠ 0) =
      (name.drop start).map BitVec.toNat := by
  obtain ⟨n, length⟩ := Nat.exists_eq_add_of_le inside
  have front : (List.range n).map (fun c => lfnUnit name (start + c)) =
      (name.drop start).map BitVec.toNat := by
    refine List.ext_getElem (by simp; omega) fun c left right => ?_
    rw [List.length_map, List.length_range] at left
    rw [List.getElem_map, List.getElem_range, List.getElem_map, List.getElem_drop, lfnUnit,
      dif_pos (by omega)]
  rw [show 13 = n + (13 - n) by omega, List.range_add, List.map_append, front, List.map_map,
    List.takeWhile_append_of_pos]
  · cases rest : 13 - n with
    | zero => simp
    | succ m =>
      rw [List.range_succ_eq_map, List.map_cons, List.takeWhile_cons, if_neg, List.append_nil]
      simp [lfnUnit, length]
  · intro c member
    obtain ⟨byte, inRest, rfl⟩ := List.mem_map.mp member
    have nonzero := ne_of_mem_of_not_mem (List.mem_of_mem_drop inRest) plain
    simpa [← BitVec.toNat_inj] using nonzero

/-- The parts from the last one down to the `k`-th hold the rest of the name. -/
theorem longRun_lfnEncode (plain : (0 : Byte) ∉ name) (short : name.length ≤ 255) {m : Nat}
    (low : 1 ≤ k) (total : k + m = lfnCount name) :
    LongRun checksum k (((List.range' k (m + 1)).reverse).map (lfnEntry checksum name))
      ((name.drop (13 * (k - 1))).map BitVec.toNat) := by
  have count : lfnCount name = (name.length + 12) / 13 := rfl
  induction m generalizing k with
  | zero =>
    have units := units_end plain (show 13 * (k - 1) ≤ name.length by omega) (by omega)
    rw [← @units_lfnEntry _ _ checksum] at units
    rw [← units]
    refine LongRun.last (isPart_lfnEntry low (by omega)) ?_
    change BitVec.ofNat 8 (if k = lfnCount name then 0x40 + k else k) = _
    rw [if_pos (by omega)]
  | succ m inductionHypothesis =>
    have inside : 13 * (k - 1) + 13 ≤ name.length := by omega
    have units := units_inside inside
    rw [← @units_lfnEntry _ _ checksum] at units
    have rest := @inductionHypothesis (k + 1) (by omega) (by omega)
    rw [show 13 * (k + 1 - 1) = 13 * (k - 1) + 13 by omega, ← List.drop_drop] at rest
    rw [List.range'_succ, List.reverse_cons, List.map_append, List.map_singleton,
      ← List.take_append_drop 13 (name.drop (13 * (k - 1))), List.map_append, ← units]
    refine LongRun.more (isPart_lfnEntry low (by omega)) ?_ (fun zero => ?_) rest
    · change BitVec.ofNat 8 (if k = lfnCount name then 0x40 + k else k) = _
      rw [if_neg (by omega)]
    · rw [units, List.mem_map] at zero
      obtain ⟨byte, member, zero⟩ := zero
      have nonzero := ne_of_mem_of_not_mem
        (List.mem_of_mem_drop (List.mem_of_mem_take member)) plain
      exact nonzero (BitVec.eq_of_toNat_eq zero)

/-- The name of up to 255 characters that is stored in the entries at `lfne` is what the buffer of
    the caller holds at the end, and behind their 256 bytes the buffers are as they were. -/
theorem longName_restored (name : CString) (nonempty : 1 ≤ name.length) (short : name.length ≤ 255)
    (plain : (0 : Byte) ∉ name) (checksum : Byte) (bytes fname : Mem) (lfne last : Nat)
    (stored : ∀ (j : Nat) fe, (lfnEncode checksum name)[j]? = some fe →
      dirEntryAt bytes (lfne + j * 32) = fe)
    (inside : lfne + (lfnCount name - 1) * 32 ≤ last) :
    ∃ out scratch, fat32GetLongFilenameBuffers bytes lfne last fname =
        some (lfnCount name, out, scratch) ∧
      HoldsString out name ∧ SameOutside out fname ∧ SameOutside scratch fun _ => 0 := by
  have count : lfnCount name = (name.length + 12) / 13 := rfl
  have run := @longRun_lfnEncode name 1 checksum plain short (lfnCount name - 1) le_rfl (by omega)
  rw [Nat.sub_add_cancel (by omega), Nat.sub_self, Nat.mul_zero, List.drop_zero] at run
  have length : (lfnEncode checksum name).length = lfnCount name := by simp [lfnEncode]
  obtain ⟨fname', same, ran⟩ := @LongRun.loop _ _ _ _ run
    (fun c member => by
      obtain ⟨byte, _, rfl⟩ := List.mem_map.mp member
      exact byte.isLt)
    (by rwa [List.length_map]) bytes last lfne stored
    (fun j below => by
      rw [show (((List.range' 1 (lfnCount name)).reverse).map (lfnEntry checksum name)).length =
        lfnCount name from length] at below
      omega) ((last - lfne) / 32 + 1 - lfnCount name)
  rw [if_pos rfl, show (((List.range' 1 (lfnCount name)).reverse).map (lfnEntry checksum name)).length
    = lfnCount name from length, Nat.sub_add_cancel (by omega)] at ran
  obtain rfl := List.map_injective_iff.mpr (fun a b => BitVec.eq_of_toNat_eq) same
  exact fat32GetLongFilenameBuffers_spec ran

/-- The alphabet and an extension, a name of three parts. -/
def alphabetTxt : CString :=
  (List.range 26).map (fun i => BitVec.ofNat 8 (0x61 + i)) ++ [0x2E, 0x74, 0x78, 0x74]

theorem longName_restored_alphabet :
    ∃ out scratch, fat32GetLongFilenameBuffers (entryBytes (lfnEncode 7 alphabetTxt)) 0 64
        (fun _ => 0x20) = some (lfnCount alphabetTxt, out, scratch) ∧
      HoldsString out alphabetTxt ∧ SameOutside out (fun _ => 0x20) ∧
      SameOutside scratch fun _ => 0 :=
  longName_restored alphabetTxt (by decide) (by decide) (by decide) 7 _ _ 0 64
    (fun j fe at_j => by
      rw [Nat.zero_add]
      exact dirEntryAt_entryBytes at_j)
    (by decide)

end HanOS.Fs
