import HanOS.Device.Framebuffer

/-!
# The terminals (`device/display/term.c`)

Two terminals share the screen, `term_info` and `term_cli`.  Bytes come in through
`term_putch`, whose parser takes the colour commands out; the rest goes to
`term_print`, which keeps the cursor and draws.

* `none` as the result is an access outside `cparams`, or the last loop of
  `term_print` running on.
* `term_lock` is left out: every function is one step here.
-/

namespace HanOS.Device

open HanOS.Foundations HanOS.Lib

/-- `TERM_MODE_INFO`, `TERM_MODE_CLI`, `TERM_MODE_GUI` and `TERM_MODE_UNKNOWN`. -/
inductive TermMode
  | info | cli | gui | unknown
  deriving DecidableEq, Repr

inductive TermState
  | unknown | idle | cmd | param
  deriving DecidableEq, Repr

structure TermInfo where
  fb : Fb
  fgcolor : UInt32
  bgcolor : UInt32
  width : Nat
  height : Nat
  cursorX : Nat
  cursorY : Nat
  state : TermState
  cparams : Fin 16 → UInt32
  cparamcount : Nat
  lastch : UInt8
  lastQuChar : Bool
  /-- How often the text was scrolled, a record of the model's own. -/
  scrolls : Nat

def defaultFgcolor : UInt32 := 0xC0C0C0

def defaultBgcolor : UInt32 := 0x000000

def fontColors : List UInt32 := [0x000000, 0xFF7777, 0x77FF77, 0xFFFF77, 0x7777FF, defaultFgcolor]

def fontWidth : Nat := 8

def fontHeight : Nat := 16

/-! ## The command parser -/

def TermInfo.err (t : TermInfo) : TermInfo × Bool :=
  ({ t with state := .idle, cparamcount := 0 }, false)

def TermInfo.succ (t : TermInfo) : TermInfo × Bool :=
  ({ t with state := .idle, cparamcount := 0 }, true)

def TermInfo.setCparam (t : TermInfo) (i : Nat) (value : UInt32) : Option TermInfo :=
  if bound : i < 16 then some { t with cparams := Function.update t.cparams ⟨i, bound⟩ value }
  else none

/-- What an `m` does with the first parameter.  A negative `int` fails the tests on the
    parameter as its unsigned value does. -/
def TermInfo.setColor (t : TermInfo) : TermInfo :=
  let param := t.cparams 0
  if param = 0 then { t with fgcolor := defaultFgcolor, bgcolor := defaultBgcolor }
  else if 10 ≤ param ∧ param ≤ 15 then
    { t with fgcolor := fontColors.getD (param.toNat - 10) 0 }
  else if 20 ≤ param ∧ param ≤ 25 then
    { t with bgcolor := fontColors.getD (param.toNat - 20) 0 }
  else t

theorem setColor_eq (t : TermInfo) :
    ∃ fgcolor bgcolor, t.setColor = { t with fgcolor := fgcolor, bgcolor := bgcolor } := by
  unfold TermInfo.setColor
  dsimp only
  split
  · exact ⟨_, _, rfl⟩
  · split
    · exact ⟨_, t.bgcolor, rfl⟩
    · split
      · exact ⟨t.fgcolor, _, rfl⟩
      · exact ⟨t.fgcolor, t.bgcolor, rfl⟩

def termParseCmd (t : TermInfo) (byte : UInt8) : Option (TermInfo × Bool) :=
  if t.state = .unknown then some (t, false)
  else if byte > 0xA0 ∧ t.lastch = 0 then some { t with lastch := byte }.succ
  else
    match t.state with
    | .unknown => some t.err
    | .idle =>
      if byte = 63 then  -- '?'
        if t.lastQuChar then some { t with lastQuChar := false }.err
        else some ({ t with state := .cmd, lastQuChar := true }, true)
      else some t.err
    | .cmd =>
      if byte = 91 then  -- '['
        some ({ t with
          cparamcount := 1
          cparams := Function.update t.cparams 0 0
          state := .param }, true)
      else some t.err
    | .param =>
      if byte = 59 then do  -- ';'
        let t ← { t with cparamcount := t.cparamcount + 1 }.setCparam t.cparamcount 0
        return (t, true)
      else if byte = 109 then some t.setColor.succ  -- 'm'
      else if 48 ≤ byte ∧ byte ≤ 57 then
        -- `cparamcount - 1` is no index when the count is 0
        if bound : 0 < t.cparamcount ∧ t.cparamcount - 1 < 16 then do
          let param := t.cparams ⟨t.cparamcount - 1, bound.2⟩
          let t ← t.setCparam (t.cparamcount - 1) (param * 10 + (byte - 48).toUInt32)
          return (t, true)
        else none
      else some t.err

/-! ## Scrolling and clearing -/

def moveRows (fb : Fb) (top : Nat) : Fb :=
  forLoop (fun y => forLoop (fun x fb =>
    fbPutpixel fb (u32 x) (u32 y) (fbGetpixel fb (u32 x) (u32 (y + fontHeight)))) fb.width) top fb

def fillRows (fb : Fb) (top : Nat) (color : UInt32) : Fb :=
  forLoop (fun i => forLoop (fun x fb =>
    fbPutpixel fb (u32 x) (u32 (top + i)) color) fb.width) (fb.height - top) fb

/-- The two loops of `term_scroll`. -/
def scrollFb (fb : Fb) (cursorY : Nat) (bgcolor : UInt32) : Fb :=
  let top := u32 (sub32 cursorY 1 * fontHeight)
  fillRows (moveRows fb top) top bgcolor

def termScroll (t : TermInfo) : TermInfo :=
  if t.state = .unknown then t
  else { t with fb := scrollFb t.fb t.cursorY t.bgcolor, scrolls := t.scrolls + 1 }

def termClear (t : TermInfo) : TermInfo :=
  if t.state = .unknown then t
  else { t with fb := fillRows t.fb 0 t.bgcolor, cursorX := 0, cursorY := 0 }

/-- `term_scroll` and the `cursor_y--` that follows it. -/
def TermInfo.scrollUp (t : TermInfo) : TermInfo :=
  { termScroll t with cursorY := sub32 t.cursorY 1 }

/-! ## Printing a byte -/

variable (font : Nat → Nat)

def TermInfo.newline (t : TermInfo) : TermInfo := { t with cursorX := 0, cursorY := t.cursorY + 1 }

def TermInfo.makeRoom (t : TermInfo) : TermInfo := if t.cursorY ≥ t.height then t.scrollUp else t

/-- Before a glyph: a new line when the cursor is at `limit`, and room for it. -/
def TermInfo.wrap (t : TermInfo) (limit : Nat) : TermInfo :=
  if t.cursorX ≥ limit then t.newline.makeRoom else t.makeRoom

def termPrintSingle (t : TermInfo) (c : UInt8) : TermInfo :=
  let t := t.wrap t.width
  { t with
    fb := fbPutch font t.fb (t.cursorX * fontWidth) (t.cursorY * fontHeight) t.fgcolor t.bgcolor c
    cursorX := t.cursorX + 1 }

def termPrintDouble (t : TermInfo) : TermInfo :=
  let t := t.wrap (sub32 t.width 1)
  { t with
    lastch := 0
    fb := fbPutzh t.fb (t.cursorX * fontWidth) (t.cursorY * fontHeight)
    cursorX := t.cursorX + 2 }

def tabStop (x : Nat) : Nat := x + if x % 4 = 0 then 0 else 4 - x % 4

def termPrintTab (t : TermInfo) : TermInfo :=
  if tabStop t.cursorX > t.width then
    { t with cursorX := tabStop t.cursorX - t.width, cursorY := t.cursorY + 1 }
  else { t with cursorX := tabStop t.cursorX }

/-- The `while (1)` at the end. -/
def termSettle : Nat → TermInfo → Option TermInfo
  | 0, _ => none
  | fuel + 1, t =>
    if t.cursorY ≥ t.height ∧ ¬ (t.cursorY = t.height ∧ t.cursorX = 0) then
      termSettle fuel t.scrollUp
    else some t

/-- The `switch` on a byte other than NUL and backspace. -/
def termPrintGlyph (t : TermInfo) (c : UInt8) : TermInfo :=
  if c = 10 then t.newline
  else if c = 9 then termPrintTab t
  else if c ≤ 0xA0 ∨ c > 0xA0 ∧ t.lastch = 0 then termPrintSingle font t c
  else termPrintDouble t

/-- `term_print` of a byte other than backspace. -/
def termPrintChar (t : TermInfo) (c : UInt8) : Option TermInfo :=
  let t := if t.cursorY = t.height ∧ c ≠ 0 then t.scrollUp else t
  if c = 0 then some t
  else
    let t := termPrintGlyph font t c
    -- each pass takes a row off the cursor
    termSettle (t.cursorY + 1) t

def TermInfo.back (t : TermInfo) : TermInfo :=
  if t.cursorX > 0 then { t with cursorX := t.cursorX - 1 } else t

def termPrint (t : TermInfo) (c : UInt8) : Option TermInfo :=
  if c = 8 then do
    let t ← termPrintChar font t 32
    return t.back.back
  else termPrintChar font t c

/-- `term_putch` once it has cleared `last_qu_char`. -/
def termFeed (t : TermInfo) (c : UInt8) : Option TermInfo := do
  let (t, taken) ← termParseCmd { t with lastQuChar := false } c
  if taken then return t else termPrint font t c

def termPutch (t : TermInfo) (c : UInt8) : Option TermInfo :=
  if t.state = .unknown then some t
  else if t.lastQuChar ∧ c ≠ 91 then do
    -- the withheld '?' is printed, and the recursive call finds `last_qu_char` cleared
    let t ← termPrint font { t with state := .idle } 63
    termFeed font t c
  else termFeed font t c

/-! ## The two terminals -/

structure Terms where
  info : TermInfo
  cli : TermInfo
  activeMode : TermMode
  /-- The glyph of the text cursor, 0 for none. -/
  cursor : UInt8

def Terms.term (s : Terms) (mode : TermMode) : TermInfo := if mode = .info then s.info else s.cli

def Terms.set (s : Terms) (mode : TermMode) (t : TermInfo) : Terms :=
  if mode = .info then { s with info := t } else { s with cli := t }

/-- `term_refresh` of a terminal without a text cursor; `active` when its mode is the active one. -/
def termRefreshPlain (t : TermInfo) (active : Bool) : TermInfo :=
  if t.state = .unknown then t
  else if active then { t with fb := fbRefresh t.fb }
  else t

/-- `term_refresh` of `term_cli` with the text cursor; `x` and `y` are the function's own. -/
def termRefreshCursor (t : TermInfo) (active : Bool) (cursor : UInt8) : TermInfo :=
  let t := termRefreshPlain t active
  let x := if t.cursorX ≥ t.width then 0 else t.cursorX
  let y := if t.cursorX ≥ t.width then t.cursorY + 1 else t.cursorY
  let u := if y ≥ t.height then t.scrollUp else t
  let y := if y ≥ t.height then sub32 y 1 else y
  { u with fb := fbPutch font u.fb (x * fontWidth) (y * fontHeight) u.fgcolor u.bgcolor cursor }

def termRefresh (s : Terms) (mode : TermMode) : Terms :=
  let t := s.term mode
  let active := decide (mode = s.activeMode)
  s.set mode
    (if mode ≠ .info ∧ s.cursor ≠ 0 then termRefreshCursor font t active s.cursor
      else termRefreshPlain t active)

/-- A terminal as `term_init` leaves it, its framebuffer still without a back buffer. -/
def termInit (shape : FbShape) (addr : Nat → UInt32) : TermInfo where
  fb := { shape with buffered := false, addr := addr, backbuffer := addr, drawn := [] }
  fgcolor := defaultFgcolor
  bgcolor := defaultBgcolor
  width := shape.width / fontWidth
  height := shape.height / fontHeight
  cursorX := 0
  cursorY := 0
  state := .idle
  cparams := fun _ => 0
  cparamcount := 0
  lastch := 0
  lastQuChar := false
  scrolls := 0

def Terms.init (shape : FbShape) (addr : Nat → UInt32) : Terms where
  info := termInit shape addr
  cli := termInit shape addr
  activeMode := .unknown
  cursor := 0

inductive TermCall
  | print (mode : TermMode) (c : UInt8)
  | putch (mode : TermMode) (c : UInt8)
  | clear (mode : TermMode)
  | refresh (mode : TermMode)
  /-- The `fb_init` calls of `term_start`. -/
  | buffers
  | switch (mode : TermMode)
  | setCursor (c : UInt8)
  deriving DecidableEq, Repr

def termStep (s : Terms) : TermCall → Option Terms
  | .print mode c => (termPrint font (s.term mode) c).map (s.set mode)
  | .putch mode c => (termPutch font (s.term mode) c).map (s.set mode)
  | .clear mode => some (s.set mode (termClear (s.term mode)))
  | .refresh mode => some (termRefresh font s mode)
  | .buffers =>
    some { s with
      info := { s.info with fb := fbInitBuffer s.info.fb }
      cli := { s.cli with fb := fbInitBuffer s.cli.fb } }
  | .switch mode => some { s with activeMode := mode }
  | .setCursor c => some { s with cursor := c }

/-! ## What printing leaves alone -/

structure TermSettings where
  state : TermState
  cparams : Fin 16 → UInt32
  cparamcount : Nat
  lastQuChar : Bool
  width : Nat
  height : Nat
  fgcolor : UInt32
  bgcolor : UInt32

def TermInfo.settings (t : TermInfo) : TermSettings :=
  ⟨t.state, t.cparams, t.cparamcount, t.lastQuChar, t.width, t.height, t.fgcolor, t.bgcolor⟩

section

variable (t : TermInfo) (c : UInt8)

@[simp] theorem termScroll_settings : (termScroll t).settings = t.settings := by
  unfold termScroll
  split <;> rfl

@[simp] theorem scrollUp_settings : t.scrollUp.settings = t.settings := termScroll_settings t

@[simp] theorem newline_settings : t.newline.settings = t.settings := rfl

@[simp] theorem makeRoom_settings : t.makeRoom.settings = t.settings := by
  unfold TermInfo.makeRoom
  split <;> simp

@[simp] theorem wrap_settings (limit : Nat) : (t.wrap limit).settings = t.settings := by
  unfold TermInfo.wrap
  split <;> simp

@[simp] theorem termPrintSingle_settings :
    (termPrintSingle font t c).settings = t.settings := wrap_settings t t.width

@[simp] theorem termPrintDouble_settings :
    (termPrintDouble t).settings = t.settings := wrap_settings t (sub32 t.width 1)

@[simp] theorem termPrintTab_settings : (termPrintTab t).settings = t.settings := by
  unfold termPrintTab
  split <;> rfl

@[simp] theorem termPrintGlyph_settings :
    (termPrintGlyph font t c).settings = t.settings := by
  unfold termPrintGlyph
  split
  · rfl
  · split
    · simp
    · split <;> simp

/-- With a row to end in, the loop ends within `cursor_y + 1` passes. -/
theorem termSettle_total (fuel : Nat) (rows : 0 < t.height) (enough : t.cursorY < fuel) :
    ∃ after, termSettle fuel t = some after ∧ after.settings = t.settings := by
  induction fuel generalizing t with
  | zero => omega
  | succ fuel inductionHypothesis =>
    unfold termSettle
    split
    · rename_i below
      have settings := scrollUp_settings t
      have height : t.scrollUp.height = t.height := congrArg TermSettings.height settings
      have row : t.scrollUp.cursorY = t.cursorY - 1 := sub32_of_le (by omega)
      obtain ⟨after, settled, same⟩ :=
        inductionHypothesis t.scrollUp (by omega) (by omega)
      exact ⟨after, settled, same.trans settings⟩
    · exact ⟨t, rfl, rfl⟩

theorem termPrintChar_total (rows : 0 < t.height) :
    ∃ after, termPrintChar font t c = some after ∧ after.settings = t.settings := by
  have room : (if t.cursorY = t.height ∧ c ≠ 0 then t.scrollUp else t).settings = t.settings := by
    split <;> simp
  unfold termPrintChar
  dsimp only
  generalize (if t.cursorY = t.height ∧ c ≠ 0 then t.scrollUp else t) = u at room
  split
  · exact ⟨u, rfl, room⟩
  · have glyph := (termPrintGlyph_settings font u c).trans room
    have height : (termPrintGlyph font u c).height = t.height := congrArg TermSettings.height glyph
    obtain ⟨after, settled, same⟩ :=
      termSettle_total (termPrintGlyph font u c) _ (by omega) (Nat.lt_succ_self _)
    exact ⟨after, settled, same.trans glyph⟩

@[simp] theorem back_settings : t.back.settings = t.settings := by
  unfold TermInfo.back
  split <;> rfl

theorem termPrint_total (rows : 0 < t.height) :
    ∃ after, termPrint font t c = some after ∧ after.settings = t.settings := by
  unfold termPrint
  split
  · obtain ⟨after, printed, same⟩ := termPrintChar_total font t 32 rows
    exact ⟨after.back.back, by rw [printed]; rfl, by simpa using same⟩
  · exact termPrintChar_total font t c rows

end

end HanOS.Device
