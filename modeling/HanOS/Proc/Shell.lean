import HanOS.Device.Term
import HanOS.Lib.CString
import Mathlib.Data.List.Induction

/-!
# The shell (`kshell` in `kmain.c`)

The task takes a key every 16 ms and edits a line in `cmd_buff`, whose length is `cmd_end`.
`lineKey` says what a key does to the line.  A backspace takes the last character off by `cmd_end`
alone: the NUL goes behind the character instead of onto it, so that `cmd_buff` holds the line and
the character just erased (`Holds`), until the next one is typed.

* `none` as a result is an access outside `cmd_buff`.
-/

namespace HanOS.Proc

open HanOS.Device HanOS.Lib HanOS.Foundations

inductive CursorVisible
  | invisible | visible | hide
  deriving DecidableEq, Repr

/-- The functions of the commands: `pmm_dump_usage`, `vfs_debug`, `pci_debug` and `dir_test`. -/
inductive CommandProc
  | pmmDumpUsage | vfsDebug | pciDebug | dirTest
  deriving DecidableEq, Repr

/-- What the shell calls: the terminal, `kprintf` with its format, and the commands. -/
inductive ShellCall
  | term (call : TermCall)
  /-- The character as it is. -/
  | print (c : UInt8)
  /-- The character in blue. -/
  | echo (c : UInt8)
  | prompt
  | help
  | unknown
  | run (proc : CommandProc)
  deriving DecidableEq, Repr

def helpCommand : CString := [104, 101, 108, 112]

/-- `cmd_list` without its last row: memory, vfs, pci and ls. -/
def cmdList : List (CString × CommandProc) :=
  [([109, 101, 109, 111, 114, 121], .pmmDumpUsage), ([118, 102, 115], .vfsDebug),
    ([112, 99, 105], .pciDebug), ([108, 115], .dirTest)]

def cmdBuffSize : Nat := 1024

structure Shell where
  cmdBuff : Vector Byte cmdBuffSize
  cmdEnd : UInt16
  cursorVisible : CursorVisible
  calls : List ShellCall
  /-- The strings compared with the names of the commands, a record of the model's own. -/
  compared : List CString

def Shell.init : Shell where
  cmdBuff := Vector.replicate cmdBuffSize 0
  cmdEnd := 0
  cursorVisible := .invisible
  calls := []
  compared := []

def Shell.command (s : Shell) : CString := s.cmdBuff.toList.takeWhile (· ≠ 0)

def Shell.write (s : Shell) (i : Nat) (c : Byte) : Option Shell :=
  if bound : i < cmdBuffSize then some { s with cmdBuff := s.cmdBuff.set i c bound } else none

def runCommand (command : CString) : ShellCall :=
  if strcmp command helpCommand = 0 then .help
  else
    match cmdList.find? fun row => strcmp command row.1 = 0 with
    | some row => .run row.2
    | none => .unknown

/-- The branch of the Enter key; the cursor is hidden until the command is over. -/
def shellEnter (s : Shell) (curKey : UInt8) : Option Shell := do
  let s : Shell := { s with
    calls := s.calls ++ [.term (.setCursor 32), .term (.refresh .cli), .print curKey] }
  let s : Shell := if s.cmdEnd > 0 then
    { s with calls := s.calls ++ [runCommand s.command], compared := s.compared ++ [s.command] } else s
  let s ← s.write 0 0
  return { s with cmdEnd := 0, cursorVisible := .invisible, calls := s.calls ++ [.prompt] }

def shellBackspace (s : Shell) (curKey : UInt8) : Option Shell :=
  if s.cmdEnd > 0 then do
    let after ← s.write s.cmdEnd.toNat 0
    return { after with cmdEnd := s.cmdEnd - 1, calls := s.calls ++ [.echo curKey] }
  else some s

def shellType (s : Shell) (curKey : UInt8) : Option Shell := do
  let s ← if s.cmdEnd.toNat < cmdBuffSize - 1 then do
      let s ← s.write s.cmdEnd.toNat curKey.toBitVec
      let s : Shell := { s with cmdEnd := s.cmdEnd + 1 }
      s.write s.cmdEnd.toNat 0
    else some s
  return { s with calls := s.calls ++ [.echo curKey] }

/-- A turn of the loop of `kshell`, with what `term_get_mode` and `keyboard_get_key` return. -/
def kshell (s : Shell) (key : TermMode × UInt8) : Option Shell :=
  let (mode, curKey) := key
  if mode ≠ .cli then some s
  else if curKey = 0x0A then shellEnter s curKey
  else if curKey = 8 then shellBackspace s curKey
  else if curKey > 0 then shellType s curKey
  else some s

/-! ## The line -/

def lineKey (line : CString) (key : UInt8) : CString :=
  if key = 0x0A then []
  else if key = 8 then line.dropLast
  else if key = 0 then line
  else if line.length < 1023 then line ++ [key.toBitVec]
  else line

def lineOf (keys : List UInt8) : CString := keys.foldl lineKey []

/-- The lines that are not empty, one for each Enter. -/
def linesOf (keys : List UInt8) : List CString :=
  (keys.foldl (fun (line, lines) key =>
    (lineKey line key, if key = 0x0A ∧ line ≠ [] then lines ++ [line] else lines)) ([], [])).2

/-- The keys received in CLI mode. -/
def keysOf (keys : List (TermMode × UInt8)) : List UInt8 :=
  (keys.filter fun key => key.1 = .cli).map (·.2)

def lastKey (keys : List UInt8) : Option UInt8 := (keys.filter (· ≠ 0)).getLast?

theorem lineOf_snoc (keys : List UInt8) (key : UInt8) :
    lineOf (keys ++ [key]) = lineKey (lineOf keys) key := by
  rw [lineOf, List.foldl_append]
  rfl

theorem linesOf_snoc (keys : List UInt8) (key : UInt8) :
    linesOf (keys ++ [key]) =
      if key = 0x0A ∧ lineOf keys ≠ [] then linesOf keys ++ [lineOf keys] else linesOf keys := by
  have line : ∀ (keys : List UInt8) line lines, (keys.foldl (fun (line, lines) key =>
      (lineKey line key, if key = 0x0A ∧ line ≠ [] then lines ++ [line] else lines))
        ((line, lines) : CString × List CString)).1 = keys.foldl lineKey line := by
    intro keys
    induction keys with
    | nil => intro line lines; rfl
    | cons key keys inductionHypothesis => intro line lines; exact inductionHypothesis _ _
  rw [linesOf, List.foldl_append, List.foldl_cons, List.foldl_nil, lineOf, linesOf, ← line keys [] []]

/-! ## What the buffer holds -/

/-- The buffer holds the line and behind it what an erasure left. -/
structure Holds (s : Shell) (line extra : CString) : Prop where
  cmdEnd : s.cmdEnd.toNat = line.length
  content : ∃ rest, s.cmdBuff.toList = line ++ (extra ++ 0 :: rest)
  nonzero : (0 : Byte) ∉ line ++ extra

section

variable {s after : Shell} {line extra : CString} {key : UInt8} {c : Byte} {i : Nat}

theorem Shell.write_eq (bound : i < cmdBuffSize) :
    s.write i c = some { s with cmdBuff := s.cmdBuff.set i c bound } := dif_pos bound

theorem Holds.length (holds : Holds s line extra) : line.length + extra.length < cmdBuffSize := by
  obtain ⟨rest, content⟩ := holds.content
  have length := congrArg List.length content
  rw [Vector.length_toList] at length
  simp only [List.length_append, List.length_cons] at length
  omega

theorem Holds.command (holds : Holds s line extra) : s.command = line ++ extra := by
  obtain ⟨rest, content⟩ := holds.content
  have plain : ∀ x ∈ line ++ extra, decide (x ≠ 0) := fun x member =>
    decide_eq_true fun zero => holds.nonzero (zero ▸ member)
  rw [Shell.command, content, ← List.append_assoc, List.takeWhile_append_of_pos plain,
    List.takeWhile_cons_of_neg (by simp), List.append_nil]

theorem Holds.cmdEnd_pos (holds : Holds s line extra) : s.cmdEnd > 0 ↔ line ≠ [] := by
  rw [gt_iff_lt, UInt16.lt_iff_toNat_lt, holds.cmdEnd, ← List.length_pos_iff]
  rfl

theorem Holds.init : Holds .init [] [] where
  cmdEnd := rfl
  content := ⟨List.replicate 1023 0, Vector.toList_replicate⟩
  nonzero := by simp

theorem Holds.enter (holds : Holds s line extra) :
    ∃ after, shellEnter s key = some after ∧ Holds after [] [] ∧
      after.compared = if line ≠ [] then s.compared ++ [line ++ extra] else s.compared := by
  obtain ⟨rest, content⟩ := holds.content
  obtain ⟨x, tail, list⟩ := List.exists_cons_of_ne_nil
    (show s.cmdBuff.toList ≠ [] by rw [content]; simp)
  rw [shellEnter, ← holds.command]
  simp only [holds.cmdEnd_pos]
  split <;> rw [Shell.write_eq (by decide)] <;>
    exact ⟨_, rfl, ⟨rfl, ⟨tail, by rw [Vector.toList_set, list]; rfl⟩, by simp⟩, rfl⟩

theorem Holds.backspace (holds : Holds s (line ++ [c]) extra) :
    ∃ after, shellBackspace s key = some after ∧ Holds after line [c] ∧
      after.compared = s.compared := by
  obtain ⟨rest, content⟩ := holds.content
  obtain ⟨x, tail, list⟩ := List.exists_cons_of_ne_nil (show extra ++ 0 :: rest ≠ [] by simp)
  have bound : s.cmdEnd.toNat < cmdBuffSize := holds.cmdEnd ▸ Nat.lt_of_add_right_lt holds.length
  have positive : s.cmdEnd > 0 := holds.cmdEnd_pos.mpr (by simp)
  have count := holds.cmdEnd
  rw [List.length_append, List.length_singleton] at count
  have less : (s.cmdEnd - 1).toNat = line.length := by
    simp only [UInt16.toNat_sub, UInt16.reduceToNat, count]
    rw [cmdBuffSize] at bound
    omega
  rw [shellBackspace, if_pos positive, Shell.write_eq bound]
  refine ⟨_, rfl, ⟨less, ⟨tail, ?_⟩, fun zero => holds.nonzero (List.mem_append_left _ zero)⟩, rfl⟩
  · rw [Vector.toList_set, content, list, holds.cmdEnd, List.set_append_right _ _ le_rfl, Nat.sub_self,
      List.append_assoc]
    rfl

theorem Holds.type (holds : Holds s line extra) (room : line.length < 1023)
    (character : key.toBitVec ≠ 0) :
    ∃ after, shellType s key = some after ∧ Holds after (line ++ [key.toBitVec]) [] ∧
      after.compared = s.compared := by
  obtain ⟨rest, content⟩ := holds.content
  have length := congrArg List.length content
  obtain ⟨x, tail, list⟩ := List.exists_cons_of_ne_nil (show extra ++ 0 :: rest ≠ [] by simp)
  rw [list, Vector.length_toList, List.length_append, List.length_cons, cmdBuffSize] at length
  obtain ⟨y, tail, rfl⟩ := List.exists_cons_of_ne_nil (show tail ≠ [] by rintro rfl; simp at length; omega)
  have count := holds.cmdEnd
  have next : (s.cmdEnd + 1).toNat = line.length + 1 := by
    simp only [UInt16.toNat_add, count, UInt16.reduceToNat]
    omega
  rw [shellType, if_pos (by rw [count, cmdBuffSize]; omega),
    Shell.write_eq (by rw [count, cmdBuffSize]; omega)]
  simp only [Option.bind_eq_bind, Option.bind_some]
  rw [Shell.write_eq (by rw [next, cmdBuffSize]; omega)]
  refine ⟨_, rfl, ⟨?_, ⟨tail, ?_⟩, ?_⟩, rfl⟩
  · rw [List.length_append]
    exact next
  · simp only [Vector.toList_set, content, list, next, count]
    rw [List.set_append_right _ _ le_rfl, List.set_append_right _ _ (Nat.le_succ _), Nat.sub_self,
      Nat.succ_sub le_rfl, Nat.sub_self, List.append_assoc]
    rfl
  · rw [List.append_nil]
    intro zero
    rcases List.mem_append.mp zero with earlier | new
    · exact holds.nonzero (List.mem_append_left _ earlier)
    · exact character (List.mem_singleton.mp new).symm

/-! ## Runs -/

theorem lastKey_snoc (keys : List UInt8) :
    lastKey (keys ++ [key]) = if key = 0 then lastKey keys else some key := by
  rw [lastKey, List.filter_append]
  split
  · next zero => simp [lastKey, zero]
  · next other => simp [other]

/-- What the shell holds after the keys: something is left behind the line exactly when a backspace
    was the last key. -/
structure After (s : Shell) (keys : List UInt8) (extra : CString) : Prop where
  holds : Holds s (lineOf keys) extra
  left : lineOf keys ≠ [] → (extra ≠ [] ↔ lastKey keys = some 8)

theorem After.step {keys : List UInt8} (reached : After s keys extra) (key : UInt8) :
    ∃ after extra', kshell s (.cli, key) = some after ∧ After after (keys ++ [key]) extra' ∧
      after.compared =
        if key = 0x0A ∧ lineOf keys ≠ [] then s.compared ++ [lineOf keys ++ extra] else s.compared := by
  obtain ⟨holds, left⟩ := reached
  have line := lineOf_snoc keys key
  have last := @lastKey_snoc key keys
  rw [kshell, if_neg (by simp)]
  by_cases isEnter : key = 0x0A
  · rw [lineKey, if_pos isEnter] at line
    -- Enter: the buffer is compared, and a new line starts
    obtain ⟨after, stepped, held, compared⟩ := @Holds.enter _ _ _ key holds
    refine ⟨after, [], by rw [if_pos isEnter, stepped], ⟨line ▸ held, fun some => absurd line some⟩, ?_⟩
    simpa only [isEnter, true_and] using compared
  rw [lineKey, if_neg isEnter] at line
  simp only [isEnter, false_and, if_false]
  by_cases isBackspace : key = 8
  · rw [if_pos isBackspace] at line
    subst isBackspace
    rw [if_neg (by decide)] at last
    rw [if_pos rfl]
    rcases List.eq_nil_or_concat (lineOf keys) with empty | ⟨front, c, snoc⟩
    · -- nothing to take off
      rw [empty] at line holds
      refine ⟨s, extra, ?_, ⟨line ▸ holds, fun some => absurd line some⟩, rfl⟩
      rw [shellBackspace, if_neg (mt holds.cmdEnd_pos.mp (by simp))]
    · -- the character taken off is left behind the line
      rw [List.concat_eq_append] at snoc
      rw [snoc, List.dropLast_concat] at line
      obtain ⟨after, stepped, held, compared⟩ := @Holds.backspace _ _ _ 8 _ (snoc ▸ holds)
      exact ⟨after, [c], stepped, ⟨line ▸ held, fun _ => by simp [last]⟩, compared⟩
  rw [if_neg isBackspace] at line
  simp only [if_neg isBackspace]
  by_cases none : key = 0
  · -- no key
    rw [if_pos none] at line last
    refine ⟨s, extra, by simp [none], ⟨line ▸ holds, ?_⟩, rfl⟩
    rw [line, last]
    exact left
  rw [if_neg none] at line last
  have character : key.toBitVec ≠ 0 := fun zero => none (UInt8.toBitVec_inj.mp zero)
  have other : lastKey (keys ++ [key]) ≠ some 8 := by simpa [last] using isBackspace
  rw [if_pos (UInt8.pos_iff_ne_zero.mpr none)]
  by_cases room : (lineOf keys).length < 1023
  · rw [if_pos room] at line
    obtain ⟨after, stepped, held, compared⟩ := holds.type room character
    exact ⟨after, [], stepped, ⟨line ▸ held, fun _ => by simpa using other⟩, compared⟩
  · -- a full line leaves no room for anything behind it
    rw [if_neg room] at line
    have length := holds.length
    have nothing : extra = [] := List.length_eq_zero_iff.mp (by rw [cmdBuffSize] at length; omega)
    subst nothing
    refine ⟨{ s with calls := s.calls ++ [.echo key] }, [], ?_,
      ⟨line ▸ ⟨holds.cmdEnd, holds.content, holds.nonzero⟩, fun _ => by simpa using other⟩, rfl⟩
    rw [shellType, if_neg (by rw [holds.cmdEnd, cmdBuffSize]; exact room)]
    rfl

theorem keysOf_snoc (events : List (TermMode × UInt8)) (mode : TermMode) :
    keysOf (events ++ [(mode, key)]) =
      if mode = .cli then keysOf events ++ [key] else keysOf events := by
  by_cases cli : mode = .cli <;> simp [keysOf, cli]

/-- The shell never writes outside the buffer. -/
theorem After.run (events : List (TermMode × UInt8)) :
    ∃ s extra, events.foldlM kshell .init = some s ∧ After s (keysOf events) extra := by
  induction events using List.reverseRecOn with
  | nil => exact ⟨.init, [], rfl, .init, absurd rfl⟩
  | append_singleton events event inductionHypothesis =>
    obtain ⟨s, extra, ran, reached⟩ := inductionHypothesis
    obtain ⟨mode, key⟩ := event
    rw [List.foldlM_append, ran, keysOf_snoc]
    simp only [Option.bind_eq_bind, Option.bind_some, List.foldlM_cons, List.foldlM_nil]
    by_cases cli : mode = .cli
    · obtain ⟨after, extra', stepped, reached', _⟩ := reached.step key
      rw [cli, stepped, if_pos rfl]
      exact ⟨after, extra', rfl, reached'⟩
    · rw [kshell, if_pos cli, if_neg cli]
      exact ⟨s, extra, rfl, reached⟩

end

/-! ## The strings compared -/

section

variable {events front : List (TermMode × UInt8)} {s : Shell}

/-- What the shell should do with the keys so far. -/
structure Edits (events : List (TermMode × UInt8)) (s : Shell) : Prop where
  ran : events.foldlM kshell .init = some s
  cmdEnd : s.cmdEnd.toNat = (lineOf (keysOf events)).length
  compared : s.compared = linesOf (keysOf events)

/-- An Enter comes directly after a backspace that left some of the line. -/
def ErasedBefore (front : List (TermMode × UInt8)) : Prop :=
  lineOf (keysOf front) ≠ [] ∧ lastKey (keysOf front) = some 8

theorem run_snoc (event : TermMode × UInt8) (ran : events.foldlM kshell .init = some s) :
    (events ++ [event]).foldlM kshell .init = kshell s event := by
  rw [List.foldlM_append, ran]
  simp

/-- At an Enter the right string is compared exactly when no erasure comes before it. -/
theorem Edits.enter (edits : Edits front s) :
    (∃ after, Edits (front ++ [(.cli, 0x0A)]) after) ↔ ¬ ErasedBefore front := by
  obtain ⟨s', extra, ran, reached⟩ := After.run front
  obtain rfl := Option.some.inj (edits.ran.symm.trans ran)
  obtain ⟨after, extra', stepped, reached', compared⟩ := reached.step 0x0A
  have keys := @keysOf_snoc 0x0A front .cli
  rw [if_pos rfl] at keys
  have ran' := (run_snoc (.cli, 0x0A) ran).trans stepped
  have lines := linesOf_snoc (keysOf front) 0x0A
  rw [edits.compared] at compared
  simp only [true_and] at compared lines
  by_cases empty : lineOf (keysOf front) = []
  · refine iff_of_true ⟨after, ran', by rw [keys]; exact reached'.holds.cmdEnd, ?_⟩ fun erased =>
      erased.1 empty
    rw [keys, compared, lines, if_neg (not_not_intro empty), if_neg (not_not_intro empty)]
  · rw [if_pos empty] at compared lines
    constructor
    · rintro ⟨after', edits'⟩ ⟨_, last⟩
      obtain rfl := Option.some.inj (edits'.ran.symm.trans ran')
      have same := edits'.compared
      rw [keys, compared, lines, List.append_cancel_left_eq, List.cons.injEq, List.append_right_eq_self] at same
      exact (reached.left empty).mpr last same.1
    · intro kept
      have nothing : extra = [] := by
        by_contra some
        exact kept ⟨empty, (reached.left empty).mp some⟩
      refine ⟨after, ran', by rw [keys]; exact reached'.holds.cmdEnd, ?_⟩
      rw [keys, compared, lines, nothing, List.append_nil]

/-- Any other key is edited in rightly. -/
theorem Edits.key (edits : Edits front s) {event : TermMode × UInt8} (other : event ≠ (.cli, 0x0A)) :
    ∃ after, Edits (front ++ [event]) after := by
  obtain ⟨s', extra, ran, reached⟩ := After.run front
  obtain rfl := Option.some.inj (edits.ran.symm.trans ran)
  obtain ⟨mode, key⟩ := event
  have keys := @keysOf_snoc key front mode
  by_cases cli : mode = .cli
  · subst cli
    have notEnter : key ≠ 0x0A := by
      rintro rfl
      exact other rfl
    obtain ⟨after, extra', stepped, reached', compared⟩ := reached.step key
    rw [if_pos rfl] at keys
    refine ⟨after, (run_snoc _ ran).trans stepped, by rw [keys]; exact reached'.holds.cmdEnd, ?_⟩
    rw [keys, compared, linesOf_snoc, if_neg (by simp [notEnter]), if_neg (by simp [notEnter]),
      edits.compared]
  · rw [if_neg cli] at keys
    refine ⟨s, (run_snoc _ ran).trans (by rw [kshell, if_pos cli]), ?_, ?_⟩
    · rw [keys]
      exact edits.cmdEnd
    · rw [keys]
      exact edits.compared

end

/-- For all keys and modes, the shell compares the lines that were edited, exactly when no Enter comes
    directly after a backspace that left some of the line. -/
theorem shell_compares_iff (events : List (TermMode × UInt8)) :
    (∀ start, start <+: events → ∃ s, Edits start s) ↔
      ∀ front, front ++ [(.cli, 0x0A)] <+: events → ¬ ErasedBefore front := by
  constructor
  · intro edited front enters
    obtain ⟨s, edits⟩ := edited front ((List.prefix_append ..).trans enters)
    exact edits.enter.mp (edited _ enters)
  · intro kept start
    induction start using List.reverseRecOn with
    | nil => exact fun _ => ⟨.init, rfl, rfl, rfl⟩
    | append_singleton front event inductionHypothesis =>
      intro within
      obtain ⟨s, edits⟩ := inductionHypothesis ((List.prefix_append ..).trans within)
      by_cases isEnter : event = (.cli, 0x0A)
      · subst isEnter
        exact edits.enter.mpr (kept front within)
      · exact edits.key isEnter

/-- `a`, `b`, a backspace and Enter: the line is `a`, and `ab` is compared. -/
theorem shell_compares_erased :
    (([(.cli, 97), (.cli, 98), (.cli, 8), (.cli, 0x0A)] : List (TermMode × UInt8)).foldlM kshell
        .init).map (·.compared) = some [[97, 98]] ∧
      linesOf (keysOf [(.cli, 97), (.cli, 98), (.cli, 8), (.cli, 0x0A)]) = [[97]] := by
  decide +kernel

end HanOS.Proc
