import HanOS.Core.Smp
import HanOS.Foundations.ByteMem
import HanOS.Foundations.Loop

/-!
# The interrupt controllers (`core/madt.c`)

`madt_init` goes through the records behind the fixed part of the table, from one to the next by the
length that each says it has.  Memory is counted from the beginning of the table, and the bytes that
are read are kept beside what is collected.
-/

namespace HanOS.Core

open HanOS.Foundations HanOS.Lib

def sizeofMadt : Nat := 44

def madtRecordTypeLapic : Byte := 0

def madtRecordTypeIoapic : Byte := 1

def madtLength (mem : Mem) : Nat := loadLE mem 4 4

/-- `lapics` and `io_apics` up to `num_lapic` and `num_ioapic`, as the offsets of the records, and
    the bytes that have been read. -/
structure Madt where
  lapics : List Nat
  ioApics : List Nat
  reads : List Nat
  deriving DecidableEq, Repr

def madtPass (mem : Mem) (s : Nat × Madt) : Nat × Madt :=
  let (i, madt) := s
  let record := sizeofMadt + i
  let collected :=
    if mem record = madtRecordTypeLapic then
      if madt.lapics.length ≥ cpuMax then madt
      else { madt with lapics := madt.lapics ++ [record] }
    else if mem record = madtRecordTypeIoapic then
      if madt.ioApics.length > 2 then madt
      else { madt with ioApics := madt.ioApics ++ [record] }
    else madt
  (u64 (i + (mem (record + 1)).toNat), { collected with reads := madt.reads ++ [record, record + 1] })

/-- `madt_init` once the table is found, with a bound on the passes of its loop. -/
def madtInit (fuel : Nat) (mem : Mem) : Option Madt :=
  let size := sub64 (madtLength mem) sizeofMadt
  (whileLoop (fun s => s.1 < size) (madtPass mem) fuel (0, ⟨[], [], List.range' 4 4⟩)).map Prod.snd

/-! ## The records of a table -/

variable {mem : Mem} {stop position fuel limit : Nat}

/-- The records between `position` and `stop`, up to one that has no length or is cut off. -/
def madtRecords (mem : Mem) (stop position : Nat) : List Nat :=
  if _ : position + 1 < stop ∧ (mem (position + 1)).toNat ≠ 0 then
    position :: madtRecords mem stop (position + (mem (position + 1)).toNat)
  else []
termination_by stop - position

/-- Every record up to `stop` has its type and its length in front of it, and its length is not 0. -/
inductive Walkable (mem : Mem) (stop : Nat) : Nat → Prop
  | done {position : Nat} : stop ≤ position → Walkable mem stop position
  | record {position : Nat} : position + 1 < stop → (mem (position + 1)).toNat ≠ 0 →
      Walkable mem stop (position + (mem (position + 1)).toNat) → Walkable mem stop position

/-- What `madt_init` is for: it ends and stays inside the table, and has the records of the local
    APICs up to `cpuMax` and those of the I/O APICs up to `limit`, in the order of the table. -/
def Collects (mem : Mem) (limit : Nat) : Prop :=
  ∃ fuel madt, madtInit fuel mem = some madt ∧
    (∀ x ∈ madt.reads, x < madtLength mem) ∧
    madt.lapics = ((madtRecords mem (madtLength mem) sizeofMadt).filter
      (mem · = madtRecordTypeLapic)).take cpuMax ∧
    madt.ioApics = ((madtRecords mem (madtLength mem) sizeofMadt).filter
      (mem · = madtRecordTypeIoapic)).take limit

theorem madtRecords_done (behind : stop ≤ position) : madtRecords mem stop position = [] := by
  rw [madtRecords, dif_neg (by omega)]

theorem madtRecords_record (inside : position + 1 < stop) (advances : (mem (position + 1)).toNat ≠ 0) :
    madtRecords mem stop position =
      position :: madtRecords mem stop (position + (mem (position + 1)).toNat) := by
  rw [madtRecords, dif_pos ⟨inside, advances⟩]

/-! ## The loop -/

structure Gathered (mem : Mem) (stop : Nat) (records : List Nat) (madt : Madt) : Prop where
  lapics : madt.lapics = (records.filter (mem · = madtRecordTypeLapic)).take cpuMax
  ioApics : madt.ioApics = (records.filter (mem · = madtRecordTypeIoapic)).take 3
  inside : ∀ x ∈ madt.reads, x < stop

/-- An array that takes what comes until it is full has the first ones. -/
theorem take_filter_snoc {α : Type*} (p : α → Bool) (xs : List α) (x : α) (limit : Nat) :
    ((xs ++ [x]).filter p).take limit =
      if p x ∧ ((xs.filter p).take limit).length < limit then (xs.filter p).take limit ++ [x]
      else (xs.filter p).take limit := by
  rw [List.filter_append, List.take_append, List.length_take]
  by_cases kept : p x
  · rw [List.filter_cons_of_pos kept, List.filter_nil]
    rcases Nat.lt_or_ge (xs.filter p).length limit with room | full
    · obtain ⟨more, enough⟩ : ∃ n, limit - (xs.filter p).length = n + 1 :=
        ⟨limit - (xs.filter p).length - 1, by omega⟩
      rw [enough, List.take_succ_cons, List.take_nil, if_pos ⟨kept, by omega⟩]
    · rw [Nat.sub_eq_zero_of_le full, List.take_zero, List.append_nil, if_neg (by omega)]
  · rw [List.filter_cons_of_neg kept, List.filter_nil, List.take_nil, List.append_nil,
      if_neg fun both => kept both.1]

theorem madtPass_lapics (madt : Madt) (i : Nat) :
    (madtPass mem (i, madt)).2.lapics =
      if mem (sizeofMadt + i) = madtRecordTypeLapic ∧ madt.lapics.length < cpuMax then
        madt.lapics ++ [sizeofMadt + i]
      else madt.lapics := by
  rw [madtPass]
  grind

theorem madtPass_ioApics (madt : Madt) (i : Nat) :
    (madtPass mem (i, madt)).2.ioApics =
      if mem (sizeofMadt + i) = madtRecordTypeIoapic ∧ madt.ioApics.length < 3 then
        madt.ioApics ++ [sizeofMadt + i]
      else madt.ioApics := by
  have types : madtRecordTypeLapic ≠ madtRecordTypeIoapic := by decide
  rw [madtPass]
  grind

theorem madtPass_gathered {records : List Nat} {madt : Madt} {i : Nat}
    (gathered : Gathered mem stop records madt) (inside : sizeofMadt + i + 1 < stop) :
    Gathered mem stop (records ++ [sizeofMadt + i]) (madtPass mem (i, madt)).2 where
  lapics := by
    rw [madtPass_lapics, take_filter_snoc, ← gathered.lapics]
    simp only [decide_eq_true_eq]
  ioApics := by
    rw [madtPass_ioApics, take_filter_snoc, ← gathered.ioApics]
    simp only [decide_eq_true_eq]
  inside := by
    intro x member
    rcases List.mem_append.mp member with before | now
    · exact gathered.inside x before
    · simp only [List.mem_cons, List.not_mem_nil, or_false] at now
      omega

variable {size : Nat}

theorem walk_collects {i : Nat} (walkable : Walkable mem (sizeofMadt + size) (sizeofMadt + i))
    (small : size < 2 ^ 32) {records : List Nat} {madt : Madt}
    (gathered : Gathered mem (sizeofMadt + size) records madt) :
    ∃ fuel s, whileLoop (fun s => s.1 < size) (madtPass mem) fuel (i, madt) = some s ∧
      Gathered mem (sizeofMadt + size)
        (records ++ madtRecords mem (sizeofMadt + size) (sizeofMadt + i)) s.2 := by
  generalize at_i : sizeofMadt + i = position at walkable
  induction walkable generalizing i records madt with
  | done behind =>
    refine ⟨0, (i, madt), if_neg (by simp only; omega), ?_⟩
    rwa [madtRecords_done behind, List.append_nil]
  | record inside advances _ inductionHypothesis =>
    subst at_i
    have next : (madtPass mem (i, madt)).1 = i + (mem (sizeofMadt + i + 1)).toNat :=
      u64_of_lt (by have := (mem (sizeofMadt + i + 1)).isLt; omega)
    obtain ⟨fuel, s, ended, all⟩ := inductionHypothesis (madtPass_gathered gathered inside)
      (Nat.add_assoc ..).symm
    refine ⟨fuel + 1, s, ?_, ?_⟩
    · rw [whileLoop, if_pos (by simp only; omega), ← ended, ← next]
    · rwa [madtRecords_record inside advances, List.append_cons]

theorem reads_of_ended {i : Nat} {madt : Madt} {s : Nat × Madt} (goes : i < size)
    (ended : whileLoop (fun s => s.1 < size) (madtPass mem) fuel (i, madt) = some s) :
    sizeofMadt + i ∈ s.2.reads ∧ sizeofMadt + i + 1 ∈ s.2.reads := by
  cases fuel with
  | zero =>
    rw [whileLoop, if_pos goes] at ended
    cases ended
  | succ fuel =>
    rw [whileLoop, if_pos goes] at ended
    apply whileLoop_invariant
      (fun s => sizeofMadt + i ∈ s.2.reads ∧ sizeofMadt + i + 1 ∈ s.2.reads) ?_ ?_ ended
    · intro s _ both
      exact ⟨List.mem_append_left _ both.1, List.mem_append_left _ both.2⟩
    · exact ⟨List.mem_append_right _ (by simp), List.mem_append_right _ (by simp)⟩

/-- A walk that ends and stays inside the table has gone through all of it. -/
theorem walkable_of_ended {i : Nat} {madt : Madt} {s : Nat × Madt} (small : size < 2 ^ 32)
    (ended : whileLoop (fun s => s.1 < size) (madtPass mem) fuel (i, madt) = some s)
    (inside : ∀ x ∈ s.2.reads, x < sizeofMadt + size) :
    Walkable mem (sizeofMadt + size) (sizeofMadt + i) := by
  induction fuel generalizing i madt with
  | zero =>
    rw [whileLoop] at ended
    split at ended
    · cases ended
    · next stops => exact .done (by simp only at stops; omega)
  | succ fuel inductionHypothesis =>
    rcases Nat.lt_or_ge i size with goes | behind
    · have read := (reads_of_ended goes ended).2
      have next : (madtPass mem (i, madt)).1 = i + (mem (sizeofMadt + i + 1)).toNat :=
        u64_of_lt (by have := (mem (sizeofMadt + i + 1)).isLt; omega)
      rw [whileLoop, if_pos goes, ← Prod.mk.eta (p := madtPass mem (i, madt)), next] at ended
      have rest := inductionHypothesis ended
      by_cases stays : (mem (sizeofMadt + i + 1)).toNat = 0
      · rwa [stays, Nat.add_zero] at rest
      · exact .record (inside _ read) stays (by rwa [Nat.add_assoc])
    · exact .done (by omega)

/-! ## Any table -/

/-- The declared length covers the fixed part of the table, and the records fill the rest. -/
def WellFormed (mem : Mem) : Prop :=
  sizeofMadt ≤ madtLength mem ∧ Walkable mem (madtLength mem) sizeofMadt

theorem madtInit_of_wellFormed (wellFormed : WellFormed mem) :
    ∃ fuel madt, madtInit fuel mem = some madt ∧
      Gathered mem (madtLength mem) (madtRecords mem (madtLength mem) sizeofMadt) madt := by
  obtain ⟨covers, walkable⟩ := wellFormed
  have small : madtLength mem < 2 ^ 32 := loadLE_lt
  obtain ⟨size, total⟩ := Nat.exists_eq_add_of_le covers
  rw [total] at walkable ⊢
  have start : Gathered mem (sizeofMadt + size) [] ⟨[], [], List.range' 4 4⟩ :=
    ⟨rfl, rfl, fun x member => by rw [List.mem_range'_1] at member; rw [sizeofMadt]; omega⟩
  obtain ⟨fuel, s, ended, all⟩ := @walk_collects mem size 0 walkable (by omega) [] _ start
  refine ⟨fuel, s.2, ?_, all⟩
  rw [madtInit, total, sub64_of_le (Nat.le_add_right ..), Nat.add_sub_cancel_left, ended]
  rfl

theorem wellFormed_of_ended {madt : Madt} (ended : madtInit fuel mem = some madt)
    (inside : ∀ x ∈ madt.reads, x < madtLength mem) : WellFormed mem := by
  obtain ⟨s, loop, rfl⟩ := Option.map_eq_some_iff.mp ended
  have small : madtLength mem < 2 ^ 32 := loadLE_lt
  rcases Nat.lt_or_ge (madtLength mem) sizeofMadt with short | covers
  · -- the size wraps, and the first record is behind the table
    have wraps : 0 < sub64 (madtLength mem) sizeofMadt := by
      rw [sizeofMadt] at short ⊢
      rw [sub64, if_neg (by omega)]
      omega
    have read := inside _ (reads_of_ended wraps loop).1
    omega
  · obtain ⟨size, total⟩ := Nat.exists_eq_add_of_le covers
    rw [total, sub64_of_le (Nat.le_add_right ..), Nat.add_sub_cancel_left] at loop
    refine ⟨covers, ?_⟩
    rw [total] at inside ⊢
    exact walkable_of_ended (by omega) loop inside

theorem madtInit_unique {more : Nat} {madt other : Madt} (ended : madtInit fuel mem = some madt)
    (again : madtInit more mem = some other) : madt = other := by
  obtain ⟨s, loop, rfl⟩ := Option.map_eq_some_iff.mp ended
  obtain ⟨s', loop', rfl⟩ := Option.map_eq_some_iff.mp again
  rw [whileLoop_unique loop loop']

theorem wellFormed_of_collects (collects : Collects mem limit) : WellFormed mem := by
  obtain ⟨fuel, madt, ended, inside, _⟩ := collects
  exact wellFormed_of_ended ended inside

/-- The I/O APICs of a table, of which `io_apics` has room for four and the loop keeps three. -/
def ioApicRecords (mem : Mem) : List Nat :=
  (madtRecords mem (madtLength mem) sizeofMadt).filter (mem · = madtRecordTypeIoapic)

theorem madtInit_iff (mem : Mem) :
    (Collects mem 3 ↔ WellFormed mem) ∧
      (Collects mem 4 ↔ WellFormed mem ∧ (ioApicRecords mem).length ≤ 3) := by
  refine ⟨⟨wellFormed_of_collects, fun wellFormed => ?_⟩, fun collects => ?_, ?_⟩
  · obtain ⟨fuel, madt, ended, all⟩ := madtInit_of_wellFormed wellFormed
    exact ⟨fuel, madt, ended, all.inside, all.lapics, all.ioApics⟩
  · have wellFormed := wellFormed_of_collects collects
    refine ⟨wellFormed, ?_⟩
    obtain ⟨fuel, madt, ended, all⟩ := madtInit_of_wellFormed wellFormed
    obtain ⟨more, other, again, _, _, four⟩ := collects
    rw [← madtInit_unique ended again, all.ioApics] at four
    have lengths := congrArg List.length four
    rw [List.length_take, List.length_take] at lengths
    rw [ioApicRecords]
    omega
  · rintro ⟨wellFormed, few⟩
    obtain ⟨fuel, madt, ended, all⟩ := madtInit_of_wellFormed wellFormed
    refine ⟨fuel, madt, ended, all.inside, all.lapics, all.ioApics.trans ?_⟩
    rw [ioApicRecords] at few
    rw [List.take_of_length_le few, List.take_of_length_le (few.trans (by omega))]

/-- A table of 46 bytes whose only record says that it has none. -/
def emptyRecord : Mem := fun x => if x = 4 then 46 else 0

theorem madtInit_emptyRecord :
    (∀ fuel, madtInit fuel emptyRecord = none) ∧
      ¬ Collects emptyRecord 3 ∧ ¬ Collects emptyRecord 4 := by
  have forever : ∀ fuel, madtInit fuel emptyRecord = none := fun fuel => by
    rw [madtInit, whileLoop_forever fun s => s.1 = 0]
    · rfl
    · intro s first
      rw [first]
      decide
    · rintro ⟨i, madt⟩ rfl
      change u64 (0 + (emptyRecord 45).toNat) = 0
      decide
    · rfl
  have never : ∀ limit, ¬ Collects emptyRecord limit := by
    rintro limit ⟨fuel, madt, ended, _⟩
    cases (forever fuel).symm.trans ended
  exact ⟨forever, never 3, never 4⟩

end HanOS.Core
