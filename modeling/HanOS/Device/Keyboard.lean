import HanOS.Device.Term
import HanOS.Foundations.Ring
import HanOS.Foundations.Run
import Mathlib.Data.Fin.SuccPred

/-!
# The keyboard (`device/keyboard/keyboard.c`, `keycode.c`)

The interrupt handler puts the characters of the keys into `key_buffer`, and one task takes
them out with `keyboard_get_key`.  Both test `buffer_length` before they take `kb_lock`, so each
of them is two steps here, which the steps of the other may come between.

* `none` as the result of a step is an access outside `key_buffer`.
* `ptr_to_update` is NULL throughout, and the mouse fields are not used.
-/

namespace HanOS.Device

open HanOS.Foundations

/-! ## Characters -/

/-- A key as it is and with shift; NUL is no character. -/
def keyAscii : List (Char × Char) :=
  let nul := Char.ofNat 0
  let none := (nul, nul)
  [ none, (Char.ofNat 27, nul), ('1', '!'), ('2', '@'), ('3', '#'),
    ('4', '$'), ('5', '%'), ('6', '^'), ('7', '&'), ('8', '*'),
    ('9', '('), ('0', ')'), ('-', '_'), ('=', '+'), (Char.ofNat 8, nul),
    (Char.ofNat 9, nul), ('q', 'Q'), ('w', 'W'), ('e', 'E'), ('r', 'R'),
    ('t', 'T'), ('y', 'Y'), ('u', 'U'), ('i', 'I'), ('o', 'O'),
    ('p', 'P'), ('[', Char.ofNat 0x7B), (']', Char.ofNat 0x7D), (Char.ofNat 10, nul), none,
    ('a', 'A'), ('s', 'S'), ('d', 'D'), ('f', 'F'), ('g', 'G'),
    ('h', 'H'), ('j', 'J'), ('k', 'K'), ('l', 'L'), (';', ':'),
    (Char.ofNat 0x27, Char.ofNat 0x22), (Char.ofNat 0x60, '~'), none, (Char.ofNat 0x5C, '|'), ('z', 'Z'),
    ('x', 'X'), ('c', 'C'), ('v', 'V'), ('b', 'B'), ('n', 'N'),
    ('m', 'M'), (',', '<'), ('.', '>'), ('/', '?'), none,
    ('*', nul), none, (' ', nul), none, none,
    none, none, none, none, none,
    none, none, none, none, none,
    none, none, none, none, ('-', nul),
    none, none, none, ('+', nul), none ]

/-- `keyboard_get_ascii`; the rows behind the keypad are all zero. -/
def keyboardGetAscii (scancode : UInt8) (shift capsLock : Bool) : UInt8 :=
  let key := keyAscii.getD scancode.toNat (Char.ofNat 0, Char.ofNat 0)
  if (capsLock ∨ shift) ∧ key.2.toUInt8 ≠ 0 then key.2.toUInt8 else key.1.toUInt8

def kbLctrl : UInt8 := 29

def kbLshift : UInt8 := 42

def kbRshift : UInt8 := 54

def kbCapsLock : UInt8 := 58

/-! ## The buffer -/

def kbBufferSize : Nat := 128

instance : NeZero kbBufferSize := ⟨by decide⟩

/-- `key_buffer`, which has an element more than it uses, and its three counters. -/
structure KeyBuffer where
  keyBuffer : Fin (kbBufferSize + 1) → UInt8
  bufferLength : UInt8
  readIndex : UInt8
  writeIndex : UInt8

/-- What `keyboard_callback` does under the lock. -/
def KeyBuffer.insert (b : KeyBuffer) (ch : UInt8) : Option KeyBuffer :=
  if bound : b.writeIndex.toNat < kbBufferSize + 1 then
    let writeIndex := b.writeIndex + 1
    some { b with
      keyBuffer := Function.update b.keyBuffer ⟨b.writeIndex.toNat, bound⟩ ch
      writeIndex := if writeIndex.toNat = kbBufferSize then 0 else writeIndex
      bufferLength := b.bufferLength + 1 }
  else none

def KeyBuffer.front (b : KeyBuffer) : Option UInt8 :=
  if bound : b.readIndex.toNat < kbBufferSize + 1 then some (b.keyBuffer ⟨b.readIndex.toNat, bound⟩)
  else none

/-- What `keyboard_get_key` does under the lock. -/
def KeyBuffer.advance (b : KeyBuffer) : KeyBuffer :=
  let readIndex := b.readIndex + 1
  { b with
    readIndex := if readIndex.toNat = kbBufferSize then 0 else readIndex
    bufferLength := b.bufferLength - 1 }

/-! ## The handler and the task -/

/-- A character that was typed, and whether the handler took it. -/
structure Typed where
  ch : UInt8
  /-- The characters inserted and not yet received then. -/
  waiting : Nat
  kept : Bool
  deriving DecidableEq, Repr

structure KeySystem where
  buffer : KeyBuffer
  keyPressed : UInt8 → Bool
  lastKeypress : UInt8
  /-- The calls of the terminal. -/
  calls : List TermCall
  /-- The character the handler is about to insert. -/
  handler : Option UInt8
  /-- The character that `keyboard_get_key` has read and not returned yet. -/
  reader : Option UInt8
  -- records of the model's own
  typed : List Typed
  inserted : List UInt8
  received : List UInt8

def KeySystem.init : KeySystem where
  buffer := ⟨fun _ => 0, 0, 0, 0⟩
  keyPressed := fun _ => false
  lastKeypress := 0
  calls := []
  handler := none
  reader := none
  typed := []
  inserted := []
  received := []

def KeySystem.waiting (s : KeySystem) : Nat := s.inserted.length - s.received.length

def keyboardSetKey (s : KeySystem) (state : Bool) (keycode : UInt8) : KeySystem :=
  { s with
    keyPressed := Function.update s.keyPressed keycode state
    lastKeypress := if state then keycode else 0 }

def hotKey (ch : UInt8) : List TermCall :=
  if ch = 33 ∨ ch = 49 then [.switch .cli, .refresh .cli]  -- '!' or '1'
  else if ch = 64 ∨ ch = 50 then [.switch .info, .refresh .info]  -- '@' or '2'
  else []

/-- The character that a byte of the data port types, `none` for a release, for a key without a
    character and for the keys of Ctrl + Shift (Left), which go to the terminals. -/
def typedCharacter (s : KeySystem) (keyCode : UInt8) : Option UInt8 :=
  let scanCode := keyCode &&& 0x7f
  let held := fun key => key = scanCode ∨ s.keyPressed key
  let ch := keyboardGetAscii scanCode (s.keyPressed kbLshift || s.keyPressed kbRshift)
    (s.keyPressed kbCapsLock)
  if keyCode &&& 0x80 = 0 ∧ ch ≠ 0 ∧ ¬ (held kbLshift ∧ held kbLctrl) then some ch else none

/-- `keyboard_callback` up to the lock, with the byte of the data port. -/
def keyboardCallback (s : KeySystem) (keyCode : UInt8) : KeySystem :=
  let scanCode := keyCode &&& 0x7f
  let keyState : Bool := keyCode &&& 0x80 = 0
  let ch := keyboardGetAscii scanCode (s.keyPressed kbLshift || s.keyPressed kbRshift)
    (s.keyPressed kbCapsLock)
  let s := keyboardSetKey s keyState scanCode
  if keyState ∧ ch ≠ 0 then
    if s.keyPressed kbLshift ∧ s.keyPressed kbLctrl then { s with calls := s.calls ++ hotKey ch }
    else if s.buffer.bufferLength.toNat < kbBufferSize then { s with handler := some ch }
    else s
  else s

def keyboardInsert (s : KeySystem) (ch : UInt8) : Option KeySystem := do
  let buffer ← s.buffer.insert ch
  return { s with buffer, handler := none }

/-- `keyboard_get_key` up to the lock; with nothing in the buffer it returns 0. -/
def keyboardGetKey (s : KeySystem) : Option KeySystem :=
  if s.buffer.bufferLength = 0 then some s
  else do
    let ch ← s.buffer.front
    return { s with reader := some ch }

def keyboardAdvance (s : KeySystem) : KeySystem :=
  { s with buffer := s.buffer.advance, reader := none }

inductive KeyAction
  | interrupt (keyCode : UInt8) | insert | getKey | advance
  deriving DecidableEq, Repr

/-- The handler is not interrupted by its own interrupt, and the task makes one call at a time. -/
def keyReady (s : KeySystem) : KeyAction → Prop
  | .interrupt _ => s.handler = none
  | .insert => s.handler ≠ none
  | .getKey => s.reader = none
  | .advance => s.reader ≠ none

/-- The records are written here, from the key that arrives and from what the code has in hand, and by
    none of the functions above. -/
def keyStep (s : KeySystem) : KeyAction → Option KeySystem
  | .interrupt keyCode =>
    let after := keyboardCallback s keyCode
    let arrived := (typedCharacter s keyCode).toList.map fun ch =>
      ⟨ch, s.waiting, decide (after.handler = some ch)⟩
    some { after with typed := s.typed ++ arrived }
  | .insert => do
    let after ← s.handler.elim (some s) (keyboardInsert s)
    return { after with inserted := s.inserted ++ s.handler.toList }
  | .getKey => keyboardGetKey s
  | .advance =>
    some { keyboardAdvance s with received := s.received ++ s.reader.toList }

/-! ## The ring -/

structure Waiting (b : KeyBuffer) (chars : List UInt8) : Prop where
  count : b.bufferLength.toNat = chars.length
  few : chars.length ≤ kbBufferSize
  read : b.readIndex.toNat < kbBufferSize
  write : Wraps kbBufferSize b.writeIndex.toNat (b.readIndex.toNat + chars.length)
  chars : window (fun i : Fin kbBufferSize => b.keyBuffer i.castSucc) b.readIndex.toNat chars.length =
    chars

section

variable {b : KeyBuffer} {chars : List UInt8} {ch i : UInt8}

theorem next_index (bound : i.toNat < kbBufferSize) :
    (if (i + 1).toNat = kbBufferSize then 0 else i + 1).toNat =
      if i.toNat + 1 ≥ kbBufferSize then 0 else i.toNat + 1 := by
  have next : (i + 1).toNat = i.toNat + 1 := by
    rw [kbBufferSize] at bound
    simp only [UInt8.toNat_add, UInt8.reduceToNat]
    omega
  rw [next]
  by_cases last : i.toNat + 1 = kbBufferSize
  · rw [if_pos last, if_pos last.ge]
    rfl
  · rw [if_neg last, if_neg (by omega), next]

theorem Waiting.empty : Waiting KeySystem.init.buffer [] := ⟨rfl, by decide, by decide, ⟨by decide, .inl rfl⟩, rfl⟩

theorem Waiting.insert (waiting : Waiting b chars) (room : chars.length < kbBufferSize) (ch : UInt8) :
    ∃ after, b.insert ch = some after ∧ Waiting after (chars ++ [ch]) := by
  obtain ⟨count, _, read, write, held⟩ := waiting
  have bound : b.writeIndex.toNat < kbBufferSize := write.1
  have length : (chars ++ [ch]).length = chars.length + 1 := by simp
  rw [KeyBuffer.insert, dif_pos (Nat.lt_succ_of_lt bound)]
  refine ⟨_, rfl, ?_, by omega, read, ?_, ?_⟩
  · rw [length]
    rw [kbBufferSize] at room
    simp only [UInt8.toNat_add, count, UInt8.reduceToNat]
    omega
  · rw [length, next_index bound]
    exact write.next (by omega)
  · have view : (fun j : Fin kbBufferSize =>
        Function.update b.keyBuffer ⟨b.writeIndex.toNat, Nat.lt_succ_of_lt bound⟩ ch j.castSucc) =
        Function.update (fun j : Fin kbBufferSize => b.keyBuffer j.castSucc)
          (Fin.ofNat kbBufferSize (b.readIndex.toNat + chars.length)) ch := by
      rw [write.ofNat]
      exact Function.update_comp_eq_of_injective b.keyBuffer (Fin.castSucc_injective _) ⟨_, bound⟩ ch
    rw [view, length, window_write _ _ room, held]

theorem Waiting.front {rest : List UInt8} (waiting : Waiting b (ch :: rest)) : b.front = some ch := by
  have first := waiting.chars
  rw [List.length_cons, window_cons, List.cons.injEq] at first
  rw [Wraps.ofNat ⟨waiting.read, .inl rfl⟩] at first
  rw [KeyBuffer.front, dif_pos (Nat.lt_succ_of_lt waiting.read)]
  exact congrArg some first.1

theorem Waiting.advance {rest : List UInt8} (waiting : Waiting b (ch :: rest)) :
    Waiting b.advance rest := by
  obtain ⟨count, few, read, write, held⟩ := waiting
  have moved : Wraps kbBufferSize b.advance.readIndex.toNat (b.readIndex.toNat + 1) := by
    rw [KeyBuffer.advance, next_index read]
    exact Wraps.next ⟨read, .inl rfl⟩ (by omega)
  rw [List.length_cons] at count few write held
  rw [window_cons, List.cons.injEq] at held
  refine ⟨?_, by omega, moved.1, ?_, ?_⟩
  · have less : b.bufferLength.toNat ≤ 128 := count.trans_le few
    simp only [KeyBuffer.advance, UInt8.toNat_sub, UInt8.reduceToNat]
    omega
  · obtain ⟨_, place⟩ := moved
    obtain ⟨bound, target⟩ := write
    exact ⟨bound, show b.writeIndex.toNat = _ ∨ b.writeIndex.toNat + kbBufferSize = _ by omega⟩
  · rw [← window_wrap _ moved]
    exact held.2

end

/-! ## All interleavings -/

structure KeyOk (s : KeySystem) (waiting : List UInt8) : Prop where
  buffer : Waiting s.buffer waiting
  inserted : s.inserted = s.received ++ waiting
  reader : ∀ ch ∈ s.reader, waiting.head? = some ch
  room : s.handler ≠ none → waiting.length < kbBufferSize
  kept : s.inserted ++ s.handler.toList = (s.typed.filter Typed.kept).map Typed.ch
  dropped : ∀ key ∈ s.typed, ¬ key.kept → key.waiting = kbBufferSize

section

variable {s after : KeySystem} {waiting : List UInt8} {ch : UInt8}

theorem KeyOk.init : KeyOk .init [] where
  buffer := .empty
  inserted := rfl
  reader := nofun
  room := absurd rfl
  kept := rfl
  dropped := nofun

theorem keyboardCallback_frame (s : KeySystem) (keyCode : UInt8) :
    (keyboardCallback s keyCode).buffer = s.buffer ∧ (keyboardCallback s keyCode).reader = s.reader ∧
      (keyboardCallback s keyCode).inserted = s.inserted ∧
      (keyboardCallback s keyCode).received = s.received := by
  unfold keyboardCallback
  dsimp only
  generalize keyboardGetAscii _ _ _ = ch
  split_ifs <;> exact ⟨rfl, rfl, rfl, rfl⟩

/-- The handler takes the character that was typed while there is room. -/
theorem keyboardCallback_handler (idle : s.handler = none) (keyCode : UInt8) :
    (keyboardCallback s keyCode).handler =
      if s.buffer.bufferLength.toNat < kbBufferSize then typedCharacter s keyCode else none := by
  have held (key : UInt8) : Function.update s.keyPressed (keyCode &&& 0x7f) true key = true ↔
      key = keyCode &&& 0x7f ∨ s.keyPressed key = true := by
    by_cases same : key = keyCode &&& 0x7f
    · simp [same]
    · simp [same]
  simp only [keyboardCallback, keyboardSetKey, typedCharacter, decide_eq_true_eq]
  generalize keyboardGetAscii _ _ _ = ch
  by_cases typed : keyCode &&& 0x80 = 0 ∧ ch ≠ 0
  · rw [if_pos typed]
    simp only [typed.1, decide_true, held, if_true]
    by_cases hot : (kbLshift = keyCode &&& 0x7f ∨ s.keyPressed kbLshift = true) ∧
        (kbLctrl = keyCode &&& 0x7f ∨ s.keyPressed kbLctrl = true)
    · -- the terminals are switched, and the character is dropped
      simp [hot, idle]
    · have arrived : True ∧ ch ≠ 0 ∧ ¬ ((kbLshift = keyCode &&& 0x7f ∨ s.keyPressed kbLshift = true) ∧
          (kbLctrl = keyCode &&& 0x7f ∨ s.keyPressed kbLctrl = true)) := ⟨trivial, typed.2, hot⟩
      rw [if_neg hot, if_pos arrived]
      by_cases room : s.buffer.bufferLength.toNat < kbBufferSize
      · rw [if_pos room, if_pos room]
      · rw [if_neg room, if_neg room]
        exact idle
  · -- a release, or a key without a character
    have nothing : ¬ (keyCode &&& 0x80 = 0 ∧ ch ≠ 0 ∧
        ¬ ((kbLshift = keyCode &&& 0x7f ∨ s.keyPressed kbLshift = true) ∧
          (kbLctrl = keyCode &&& 0x7f ∨ s.keyPressed kbLctrl = true))) := by
      intro all
      exact typed ⟨all.1, all.2.1⟩
    rw [if_neg typed, if_neg nothing, ite_self]
    exact idle

theorem KeyOk.waiting_eq (ok : KeyOk s waiting) : s.waiting = waiting.length := by
  rw [KeySystem.waiting, ok.inserted, List.length_append, Nat.add_sub_cancel_left]

theorem KeyOk.callback (ok : KeyOk s waiting) (idle : s.handler = none) (keyCode : UInt8)
    (stepped : keyStep s (.interrupt keyCode) = some after) : KeyOk after waiting := by
  obtain rfl := Option.some.inj stepped
  obtain ⟨sameBuffer, sameReader, sameInserted, sameReceived⟩ := keyboardCallback_frame s keyCode
  have handler := keyboardCallback_handler idle keyCode
  have count := ok.buffer.count
  have kept := ok.kept
  rw [idle, Option.toList_none, List.append_nil] at kept
  have now := ok.waiting_eq
  constructor
  case buffer => exact sameBuffer ▸ ok.buffer
  case inserted => exact (sameInserted.trans ok.inserted).trans (congrArg (· ++ waiting) sameReceived.symm)
  case reader => exact sameReader ▸ ok.reader
  case room =>
    intro busy
    change (keyboardCallback s keyCode).handler ≠ none at busy
    rw [handler] at busy
    split at busy
    · next free => exact count ▸ free
    · exact absurd rfl busy
  case kept =>
    change (keyboardCallback s keyCode).inserted ++ (keyboardCallback s keyCode).handler.toList = _
    rw [sameInserted, handler, kept]
    dsimp only
    cases typedCharacter s keyCode <;> split <;> simp_all
  case dropped =>
    intro key member lost
    rcases List.mem_append.mp member with earlier | new
    · exact ok.dropped key earlier lost
    · obtain ⟨ch, arrived, rfl⟩ := List.mem_map.mp new
      rw [Option.mem_toList] at arrived
      -- the handler passed it over, so the buffer had no room for it
      have full : ¬ s.buffer.bufferLength.toNat < kbBufferSize := by
        intro free
        apply lost
        simp [handler, if_pos free, Option.mem_def.mp arrived]
      have few := ok.buffer.few
      change s.waiting = kbBufferSize
      omega

theorem KeyOk.insert (ok : KeyOk s waiting) (pending : s.handler = some ch) :
    ∃ after, keyStep s .insert = some after ∧ KeyOk after (waiting ++ [ch]) := by
  have room := ok.room (by simp [pending])
  obtain ⟨buffer, inserted, holds⟩ := ok.buffer.insert room ch
  have kept := ok.kept
  rw [pending, Option.toList_some] at kept
  refine ⟨{ s with buffer, handler := none, inserted := s.inserted ++ [ch] }, ?_, holds, ?_, ?_,
    absurd rfl, ?_, ok.dropped⟩
  · simp [keyStep, keyboardInsert, pending, inserted]
  · rw [ok.inserted, List.append_assoc]
  · intro next isNext
    simp [List.head?_append, ok.reader next isNext]
  · simpa using kept

theorem KeyOk.getKey (ok : KeyOk s waiting) :
    keyboardGetKey s = some { s with reader := waiting.head?.or s.reader } := by
  have count := ok.buffer.count
  unfold keyboardGetKey
  cases waiting with
  | nil =>
    rw [if_pos (UInt8.toNat_inj.mp count)]
    rfl
  | cons ch rest =>
    have nonempty : s.buffer.bufferLength ≠ 0 := by
      intro zero
      rw [zero] at count
      cases count
    rw [if_neg nonempty, ok.buffer.front]
    rfl

theorem KeyOk.reads (ok : KeyOk s waiting) :
    KeyOk { s with reader := waiting.head?.or s.reader } waiting where
  buffer := ok.buffer
  inserted := ok.inserted
  reader ch taken := by
    cases waiting with
    | nil => exact ok.reader ch taken
    | cons first rest => exact taken
  room := ok.room
  kept := ok.kept
  dropped := ok.dropped

theorem KeyOk.advance (ok : KeyOk s waiting) (taken : s.reader = some ch) :
    ∃ rest, KeyOk { keyboardAdvance s with received := s.received ++ [ch] } rest := by
  have first := ok.reader ch taken
  obtain ⟨rest, rfl⟩ := List.head?_eq_some_iff.mp first
  refine ⟨rest, ok.buffer.advance, ?_, nofun, fun busy => Nat.lt_of_succ_lt (ok.room busy), ok.kept,
    ok.dropped⟩
  change s.inserted = _
  rw [ok.inserted, List.append_assoc]
  rfl

theorem KeyOk.step (ok : KeyOk s waiting) {action : KeyAction} (ready : keyReady s action) :
    ∃ after, keyStep s action = some after ∧ ∃ rest, KeyOk after rest := by
  cases action with
  | interrupt keyCode => exact ⟨_, rfl, waiting, ok.callback ready keyCode rfl⟩
  | insert =>
    obtain ⟨ch, pending⟩ := Option.ne_none_iff_exists'.mp ready
    obtain ⟨after, stepped, holds⟩ := ok.insert pending
    exact ⟨after, stepped, _, holds⟩
  | getKey => exact ⟨_, ok.getKey, waiting, ok.reads⟩
  | advance =>
    obtain ⟨ch, taken⟩ := Option.ne_none_iff_exists'.mp ready
    refine ⟨_, rfl, ?_⟩
    dsimp only
    rw [taken]
    exact ok.advance taken

theorem KeyOk.run (run : Run keyStep keyReady .init s) : ∃ waiting, KeyOk s waiting := by
  apply run.invariant fun s => ∃ waiting, KeyOk s waiting
  · exact ⟨[], .init⟩
  · rintro before action after ⟨waiting, ok⟩ ready stepped
    obtain ⟨after', stepped', holds⟩ := ok.step ready
    obtain rfl := Option.some.inj (stepped.symm.trans stepped')
    exact holds

/-- A queue: what comes out is what went in, in order and once each, the next call of the task takes the
    next character, and a character is lost only while the buffer is full. -/
structure Fifo (s : KeySystem) : Prop where
  received : s.received <+: s.inserted
  next : s.reader = none →
    keyboardGetKey s = some { s with reader := s.inserted[s.received.length]? }
  taken : ∀ ch ∈ s.reader, s.inserted[s.received.length]? = some ch
  inserted : s.inserted ++ s.handler.toList = (s.typed.filter Typed.kept).map Typed.ch
  dropped : ∀ key ∈ s.typed, ¬ key.kept → key.waiting = kbBufferSize
  safe : ∀ action, keyReady s action → (keyStep s action).isSome

end

/-- However the steps of the interrupt handler and of the task are interleaved. -/
theorem keyboard_fifo {s : KeySystem} (run : Run keyStep keyReady .init s) : Fifo s := by
  obtain ⟨waiting, ok⟩ := KeyOk.run run
  have next : s.inserted[s.received.length]? = waiting.head? := by
    rw [ok.inserted, List.getElem?_append_right le_rfl, Nat.sub_self, List.head?_eq_getElem?]
  refine ⟨⟨waiting, ok.inserted.symm⟩, fun idle => ?_, fun ch taken => next.trans (ok.reader ch taken),
    ok.kept, ok.dropped, fun action ready => ?_⟩
  · rw [ok.getKey, idle, Option.or_none, next]
  · obtain ⟨after, stepped, _⟩ := ok.step ready
    exact Option.isSome_iff_exists.mpr ⟨after, stepped⟩

/-- The key `a` is typed while the task reads: it comes out. -/
theorem keyboard_fifo_a : ∃ s, s.received = [97] ∧ Fifo s := by
  have pressed := @Run.tail _ _ keyStep keyReady .init _ _ (.interrupt 0x1E) .refl rfl rfl
  have inserted := @Run.tail _ _ keyStep keyReady _ _ _ .insert pressed nofun rfl
  have taken := @Run.tail _ _ keyStep keyReady _ _ _ .getKey inserted rfl rfl
  exact ⟨_, rfl, keyboard_fifo (@Run.tail _ _ keyStep keyReady _ _ _ .advance taken nofun rfl)⟩

end HanOS.Device
