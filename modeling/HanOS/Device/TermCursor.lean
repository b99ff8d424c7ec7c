import HanOS.Device.Term
import HanOS.Foundations.Run

/-!
# The cursor of a terminal

Wrapping and scrolling are decided in seven places.  What they come to is said once,
for each of the calls that print: the call may scroll the text, once and from a cursor
that stands at the bottom, and then draws at most one glyph, in a cell of the text
(`Printed`).  The cursor's range is kept with it.
-/

namespace HanOS.Device

open HanOS.Foundations HanOS.Lib

/-- The cursor stands in the text or behind a full line.  Below the last row it stands only at
    the start of a line, before the scrolling that a newline puts off. -/
structure CursorIn (t : TermInfo) : Prop where
  across : t.cursorX ≤ t.width
  down : t.cursorY ≤ t.height
  delayed : t.cursorY = t.height → t.cursorX = 0

/-- A glyph at the pixel position of a cell of the text; a double glyph takes two cells. -/
structure InCell (width height : Nat) (glyph : Glyph) : Prop where
  column : ∃ x, glyph.x = x * fontWidth ∧ if glyph.double then x + 1 < width else x < width
  row : ∃ y, glyph.y = y * fontHeight ∧ y < height

/-- A running terminal of at least 4 by 2 characters. -/
structure TermOk (t : TermInfo) : Prop where
  running : t.state ≠ .unknown
  wide : 4 ≤ t.width
  tall : 2 ≤ t.height
  right : t.width * fontWidth ≤ t.fb.width
  bottom : t.height * fontHeight ≤ t.fb.height
  cursor : CursorIn t
  glyphs : ∀ glyph ∈ t.fb.drawn, InCell t.width t.height glyph

/-! ## What a call may do to the picture -/

/-- `u` shows the text of `t`, or the text scrolled by one row. -/
inductive Ready (t u : TermInfo) : Bool → Prop
  | still (settings : u.settings = t.settings) (fb : u.fb = t.fb) (scrolls : u.scrolls = t.scrolls) :
      Ready t u false
  | scrolled (settings : u.settings = t.settings) (fb : u.fb = scrollFb t.fb t.height t.bgcolor)
      (scrolls : u.scrolls = t.scrolls + 1) : Ready t u true

/-- The first row a call may draw in: the last one once it has scrolled. -/
def topRow (t : TermInfo) (scrolled : Bool) : Nat := if scrolled then t.height - 1 else 0

/-- Nothing is drawn on `base`, or one glyph in a cell of the rows from `top`. -/
inductive Drew (font : Nat → Nat) (t : TermInfo) (base : Fb) (top : Nat) : Fb → Prop
  | nothing : Drew font t base top base
  | single (x y : Nat) (c : UInt8) (column : x < t.width) (below : top ≤ y) (row : y < t.height) :
      Drew font t base top
        (fbPutch font base (x * fontWidth) (y * fontHeight) t.fgcolor t.bgcolor c)
  | double (x y : Nat) (column : x + 1 < t.width) (below : top ≤ y) (row : y < t.height) :
      Drew font t base top (fbPutzh base (x * fontWidth) (y * fontHeight))

structure Printed (font : Nat → Nat) (t u : TermInfo) : Prop where
  settings : u.settings = t.settings
  cursor : CursorIn u
  picture : ∃ ready scrolled, Ready t ready scrolled ∧ u.scrolls = ready.scrolls ∧
    Drew font t ready.fb (topRow t scrolled) u.fb

section

variable {t u : TermInfo} {scrolled : Bool}

theorem Ready.settings (ready : Ready t u scrolled) : u.settings = t.settings := by
  cases ready with
  | still settings _ _ => exact settings
  | scrolled settings _ _ => exact settings

theorem Ready.width (ready : Ready t u scrolled) : u.width = t.width :=
  congrArg TermSettings.width ready.settings

theorem Ready.height (ready : Ready t u scrolled) : u.height = t.height :=
  congrArg TermSettings.height ready.settings

theorem Ready.colors (ready : Ready t u scrolled) : u.fgcolor = t.fgcolor ∧ u.bgcolor = t.bgcolor :=
  ⟨congrArg TermSettings.fgcolor ready.settings, congrArg TermSettings.bgcolor ready.settings⟩

theorem Ready.state (ready : Ready t u scrolled) : u.state = t.state :=
  congrArg TermSettings.state ready.settings

theorem Ready.move {v : TermInfo} (ready : Ready t u scrolled) (settings : v.settings = u.settings)
    (fb : v.fb = u.fb) (scrolls : v.scrolls = u.scrolls) : Ready t v scrolled := by
  cases ready with
  | still settings' fb' scrolls' =>
    exact .still (settings.trans settings') (fb.trans fb') (scrolls.trans scrolls')
  | scrolled settings' fb' scrolls' =>
    exact .scrolled (settings.trans settings') (fb.trans fb') (scrolls.trans scrolls')

/-- From a cursor below the last row, `term_scroll` moves the whole text. -/
theorem Ready.scrollUp (ready : Ready t u false) (running : t.state ≠ .unknown)
    (below : u.cursorY = t.height) : Ready t u.scrollUp true := by
  have state := ready.state
  have colors := ready.colors
  cases ready with
  | still settings fb scrolls =>
    have scroll : termScroll u =
        { u with fb := scrollFb u.fb u.cursorY u.bgcolor, scrolls := u.scrolls + 1 } :=
      if_neg (by rw [state]; exact running)
    apply Ready.scrolled
    · exact (scrollUp_settings u).trans settings
    · simp only [TermInfo.scrollUp, scroll, fb, below, colors.2]
    · simp only [TermInfo.scrollUp, scroll, scrolls]

theorem scrollUp_cursor (t : TermInfo) (positive : 0 < t.cursorY) :
    t.scrollUp.cursorX = t.cursorX ∧ t.scrollUp.cursorY = t.cursorY - 1 := by
  constructor
  · unfold TermInfo.scrollUp termScroll
    split <;> rfl
  · exact sub32_of_le positive

/-- The wrapping before a glyph makes room for it, with one scroll at most. -/
theorem Ready.wrap (ok : TermOk t) (ready : Ready t u scrolled) {limit : Nat}
    (positive : 0 < limit) (row : u.cursorY < t.height) (low : topRow t scrolled ≤ u.cursorY)
    (fresh : scrolled = true → u.cursorX = 0) :
    ∃ scrolled', Ready t (u.wrap limit) scrolled' ∧ (u.wrap limit).cursorX < limit ∧
      topRow t scrolled' ≤ (u.wrap limit).cursorY ∧ (u.wrap limit).cursorY < t.height := by
  have height := ready.height
  have tall := ok.tall
  unfold TermInfo.wrap TermInfo.makeRoom
  by_cases full : u.cursorX ≥ limit
  · rw [if_pos full]
    cases scrolled with
    | true =>
      have start := fresh rfl
      omega
    | false =>
      have ready := ready.move (newline_settings u) rfl rfl
      by_cases bottom : u.newline.cursorY ≥ u.newline.height
      · rw [if_pos bottom]
        have below : u.newline.cursorY = t.height := by
          simp only [TermInfo.newline] at bottom ⊢
          omega
        obtain ⟨x, y⟩ := scrollUp_cursor u.newline (by omega)
        have start : u.newline.cursorX = 0 := rfl
        refine ⟨true, ready.scrollUp ok.running below, ?_, ?_, ?_⟩
        · omega
        · simp only [topRow, if_true]
          omega
        · omega
      · rw [if_neg bottom]
        refine ⟨false, ready, positive, Nat.zero_le _, ?_⟩
        simp only [TermInfo.newline] at bottom ⊢
        omega
  · rw [if_neg full, if_neg (by omega)]
    exact ⟨scrolled, ready, by omega, low, row⟩

end

/-! ## Printing -/

section

variable (font : Nat → Nat) {t u : TermInfo} {scrolled : Bool} (c : UInt8)

/-- A glyph in a row of the text leaves the cursor in that row. -/
theorem Printed.of_row {v : TermInfo} (settings : v.settings = t.settings)
    (across : v.cursorX ≤ t.width) (row : v.cursorY < t.height)
    (picture : ∃ ready scrolled, Ready t ready scrolled ∧ v.scrolls = ready.scrolls ∧
      Drew font t ready.fb (topRow t scrolled) v.fb) : Printed font t v := by
  have width : v.width = t.width := congrArg TermSettings.width settings
  have height : v.height = t.height := congrArg TermSettings.height settings
  exact ⟨settings, ⟨by omega, by omega, by omega⟩, picture⟩

theorem Ready.single (ok : TermOk t) (ready : Ready t u scrolled) (row : u.cursorY < t.height)
    (low : topRow t scrolled ≤ u.cursorY) (fresh : scrolled = true → u.cursorX = 0) :
    Printed font t (termPrintSingle font u c) ∧
      (termPrintSingle font u c).cursorY < t.height := by
  have width := ready.width
  have wide := ok.wide
  obtain ⟨scrolled', placed, left, below, above⟩ :=
    ready.wrap ok (by omega : 0 < u.width) row low fresh
  have colors := placed.colors
  have next : (termPrintSingle font u c).cursorX = (u.wrap u.width).cursorX + 1 := rfl
  refine ⟨.of_row font placed.settings (by omega) above
    ⟨u.wrap u.width, scrolled', placed, rfl, ?_⟩, above⟩
  simp only [termPrintSingle, colors]
  exact .single _ _ c (by omega) below above

theorem Ready.double (ok : TermOk t) (ready : Ready t u scrolled) (row : u.cursorY < t.height)
    (low : topRow t scrolled ≤ u.cursorY) (fresh : scrolled = true → u.cursorX = 0) :
    Printed font t (termPrintDouble u) ∧ (termPrintDouble u).cursorY < t.height := by
  have width := ready.width
  have wide := ok.wide
  have limit : sub32 u.width 1 = u.width - 1 := sub32_of_le (by omega)
  obtain ⟨scrolled', placed, left, below, above⟩ :=
    ready.wrap ok (by omega : 0 < sub32 u.width 1) row low fresh
  have next : (termPrintDouble u).cursorX = (u.wrap (sub32 u.width 1)).cursorX + 2 := rfl
  refine ⟨.of_row font placed.settings (by omega) above
    ⟨u.wrap (sub32 u.width 1), scrolled', placed, rfl, ?_⟩, above⟩
  exact .double _ _ (by omega) below above

theorem termSettle_of_le (tall : 0 < t.height) (row : t.cursorY ≤ t.height) :
    termSettle (t.cursorY + 1) t =
      some (if t.cursorY = t.height ∧ t.cursorX ≠ 0 then t.scrollUp else t) := by
  unfold termSettle
  by_cases below : t.cursorY = t.height ∧ t.cursorX ≠ 0
  · rw [if_pos (by omega), if_pos below]
    obtain ⟨x, y⟩ := scrollUp_cursor t (by omega)
    have height : t.scrollUp.height = t.height := congrArg TermSettings.height (scrollUp_settings t)
    obtain ⟨fuel, enough⟩ : ∃ fuel, t.cursorY = fuel + 1 := ⟨t.cursorY - 1, by omega⟩
    rw [enough, termSettle, if_neg (by omega)]
  · rw [if_neg (by omega), if_neg below]

/-- What has only moved the cursor is settled by one more scroll, or as it is. -/
theorem Ready.settle (ok : TermOk t) (ready : Ready t u scrolled) (column : u.cursorX ≤ t.width)
    (row : u.cursorY ≤ t.height) (fresh : scrolled = true → u.cursorX = 0) :
    ∃ after, termSettle (u.cursorY + 1) u = some after ∧ Printed font t after := by
  have tall := ok.tall
  have height := ready.height
  have width := ready.width
  refine ⟨_, termSettle_of_le (by omega) (by omega), ?_⟩
  by_cases below : u.cursorY = u.height ∧ u.cursorX ≠ 0
  · rw [if_pos below]
    obtain ⟨bottom, pending⟩ := below
    cases scrolled with
    | true => exact absurd (fresh rfl) pending  -- no second scroll in one call
    | false =>
      obtain ⟨x, y⟩ := scrollUp_cursor u (by omega)
      have moved := ready.scrollUp ok.running (by omega)
      have width' := moved.width
      have height' := moved.height
      exact ⟨moved.settings, ⟨by omega, by omega, by omega⟩, ⟨_, true, moved, rfl, .nothing⟩⟩
  · rw [if_neg below]
    exact ⟨ready.settings, ⟨by omega, by omega, by omega⟩, ⟨u, scrolled, ready, rfl, .nothing⟩⟩

theorem Printed.settled (ok : TermOk t) (printed : Printed font t u) (row : u.cursorY < t.height) :
    ∃ after, termSettle (u.cursorY + 1) u = some after ∧ Printed font t after := by
  have tall := ok.tall
  have height : u.height = t.height := congrArg TermSettings.height printed.settings
  refine ⟨u, ?_, printed⟩
  rw [termSettle_of_le (by omega) (by omega), if_neg (by omega)]

theorem tabStop_bounds (x : Nat) : x ≤ tabStop x ∧ tabStop x ≤ x + 3 := by
  unfold tabStop
  split <;> omega

theorem Ready.glyph (ok : TermOk t) (ready : Ready t u scrolled) (column : u.cursorX ≤ t.width)
    (row : u.cursorY < t.height) (low : topRow t scrolled ≤ u.cursorY)
    (fresh : scrolled = true → u.cursorX = 0) :
    ∃ after, termSettle ((termPrintGlyph font u c).cursorY + 1) (termPrintGlyph font u c) =
      some after ∧ Printed font t after := by
  have width := ready.width
  have wide := ok.wide
  unfold termPrintGlyph
  split
  · -- a newline at the bottom leaves the scrolling to the next byte
    have moved := ready.move (newline_settings u) rfl rfl
    have start : u.newline.cursorX = 0 := rfl
    have line : u.newline.cursorY = u.cursorY + 1 := rfl
    exact moved.settle font ok (by omega) (by omega) (fun _ => start)
  · split
    · -- a tab goes on to the next line when its stop lies behind the text
      have moved : Ready t (termPrintTab u) scrolled := by
        apply ready.move (termPrintTab_settings u)
        · unfold termPrintTab; split <;> rfl
        · unfold termPrintTab; split <;> rfl
      have stop := tabStop_bounds u.cursorX
      apply moved.settle font ok
      · unfold termPrintTab
        split <;> simp only <;> omega
      · unfold termPrintTab
        split <;> simp only <;> omega
      · intro just
        have start := fresh just
        have stay : tabStop u.cursorX = 0 := by rw [start]; rfl
        unfold termPrintTab
        rw [if_neg (by omega)]
        exact stay
    · split
      · obtain ⟨printed, line⟩ := ready.single font c ok row low fresh
        exact printed.settled font ok line
      · obtain ⟨printed, line⟩ := ready.double font ok row low fresh
        exact printed.settled font ok line

theorem termPrintChar_printed (ok : TermOk t) :
    ∃ after, termPrintChar font t c = some after ∧ Printed font t after := by
  have tall := ok.tall
  have cursor := ok.cursor
  have same : Ready t t false := .still rfl rfl rfl
  unfold termPrintChar
  dsimp only
  by_cases nul : c = 0
  · subst nul
    refine ⟨t, by simp, ⟨rfl, cursor, ⟨t, false, same, rfl, .nothing⟩⟩⟩
  · simp only [nul, if_false, ne_eq, not_false_eq_true, and_true]
    by_cases delayed : t.cursorY = t.height
    · -- the scrolling a newline at the bottom had put off
      rw [if_pos delayed]
      obtain ⟨x, y⟩ := scrollUp_cursor t (by omega)
      have start := cursor.delayed delayed
      apply (same.scrollUp ok.running delayed).glyph font c ok
      · omega
      · omega
      · simp only [topRow, if_true]
        omega
      · intro _
        omega
    · rw [if_neg delayed]
      have down := cursor.down
      exact same.glyph font c ok cursor.across (by omega) (Nat.zero_le _) (by simp)

theorem Printed.back (printed : Printed font t u) : Printed font t u.back := by
  have cursor := printed.cursor
  obtain ⟨ready, scrolled, shown, scrolls, drew⟩ := printed.picture
  have fb : u.back.fb = u.fb := by unfold TermInfo.back; split <;> rfl
  have count : u.back.scrolls = u.scrolls := by unfold TermInfo.back; split <;> rfl
  refine ⟨(back_settings u).trans printed.settings, ?_, ⟨ready, scrolled, shown, count.trans scrolls,
    fb ▸ drew⟩⟩
  unfold TermInfo.back
  split
  · exact ⟨Nat.le_trans (Nat.sub_le ..) cursor.across, cursor.down,
      fun bottom => by simp [cursor.delayed bottom]⟩
  · exact cursor

theorem termPrint_printed (ok : TermOk t) :
    ∃ after, termPrint font t c = some after ∧ Printed font t after := by
  unfold termPrint
  split
  · obtain ⟨after, print, printed⟩ := termPrintChar_printed font 32 ok
    exact ⟨after.back.back, by rw [print]; rfl, (printed.back font).back font⟩
  · exact termPrintChar_printed font c ok

end

/-! ## Keeping the terminal in order -/

section

variable {font : Nat → Nat} {t u : TermInfo}

/-- The picture changed only by glyphs in cells of the text. -/
theorem TermOk.of_drawn (ok : TermOk t) (settings : u.settings = t.settings) (cursor : CursorIn u)
    (size : u.fb.width = t.fb.width ∧ u.fb.height = t.fb.height)
    (drawn : ∀ glyph ∈ u.fb.drawn, glyph ∈ t.fb.drawn ∨ InCell t.width t.height glyph) :
    TermOk u := by
  have state : u.state = t.state := congrArg TermSettings.state settings
  have width : u.width = t.width := congrArg TermSettings.width settings
  have height : u.height = t.height := congrArg TermSettings.height settings
  refine ⟨state ▸ ok.running, width ▸ ok.wide, height ▸ ok.tall, ?_, ?_, cursor, ?_⟩
  · rw [width, size.1]
    exact ok.right
  · rw [height, size.2]
    exact ok.bottom
  · intro glyph member
    rw [width, height]
    exact (drawn glyph member).elim (ok.glyphs glyph) id

section

variable {Value : Type*} (view : Fb → Value)
  (kept : ∀ fb x y color, view (fbPutpixel fb x y color) = view fb)

include kept

theorem moveRows_kept (fb : Fb) (top : Nat) : view (moveRows fb top) = view fb :=
  forLoop_kept view fun _ _ => forLoop_kept view fun _ _ => kept _ _ _ _

theorem fillRows_kept (fb : Fb) (top : Nat) (color : UInt32) :
    view (fillRows fb top color) = view fb :=
  forLoop_kept view fun _ _ => forLoop_kept view fun _ _ => kept _ _ _ _

theorem scrollFb_kept (fb : Fb) (row : Nat) (color : UInt32) :
    view (scrollFb fb row color) = view fb :=
  (fillRows_kept view kept _ _ _).trans (moveRows_kept view kept _ _)

end

@[simp] theorem scrollFb_shape (fb : Fb) (row : Nat) (color : UInt32) :
    (scrollFb fb row color).toFbShape = fb.toFbShape :=
  scrollFb_kept Fb.toFbShape fbPutpixel_shape fb row color

@[simp] theorem scrollFb_drawn (fb : Fb) (row : Nat) (color : UInt32) :
    (scrollFb fb row color).drawn = fb.drawn :=
  scrollFb_kept Fb.drawn fbPutpixel_drawn fb row color

theorem Ready.fb_kept {scrolled : Bool} (ready : Ready t u scrolled) :
    u.fb.toFbShape = t.fb.toFbShape ∧ u.fb.drawn = t.fb.drawn := by
  cases ready with
  | still _ fb _ => rw [fb]; exact ⟨rfl, rfl⟩
  | scrolled _ fb _ => rw [fb]; exact ⟨scrollFb_shape .., scrollFb_drawn ..⟩

theorem Drew.kept {base fb : Fb} {top : Nat} (drew : Drew font t base top fb) :
    fb.toFbShape = base.toFbShape ∧
      ∀ glyph ∈ fb.drawn, glyph ∈ base.drawn ∨ InCell t.width t.height glyph := by
  cases drew with
  | nothing => exact ⟨rfl, fun _ => .inl⟩
  | single x y c column _ row =>
    refine ⟨fbPutch_shape .., ?_⟩
    intro glyph member
    rw [fbPutch_drawn, List.mem_append, List.mem_singleton] at member
    apply member.imp_right
    rintro rfl
    exact ⟨⟨x, rfl, column⟩, ⟨y, rfl, row⟩⟩
  | double x y column _ row =>
    refine ⟨rfl, ?_⟩
    intro glyph member
    have split : glyph ∈ base.drawn ∨ glyph = ⟨x * fontWidth, y * fontHeight, true⟩ := by
      simpa [fbPutzh, Fb.record] using member
    apply split.imp_right
    rintro rfl
    exact ⟨⟨x, rfl, column⟩, ⟨y, rfl, row⟩⟩

theorem TermOk.printed (ok : TermOk t) (printed : Printed font t u) : TermOk u := by
  obtain ⟨ready, scrolled, shown, _, drew⟩ := printed.picture
  obtain ⟨shape, drawn⟩ := shown.fb_kept
  obtain ⟨shape', drawn'⟩ := drew.kept
  have same := shape'.trans shape
  apply ok.of_drawn printed.settings printed.cursor
  · exact ⟨congrArg FbShape.width same, congrArg FbShape.height same⟩
  · rw [← drawn]
    exact drawn'

/-- The fields of `TermOk` the parser has no part in. -/
def TermInfo.picture (t : TermInfo) : Nat × Nat × Nat × Nat × Fb :=
  (t.width, t.height, t.cursorX, t.cursorY, t.fb)

theorem TermOk.of_picture (ok : TermOk t) (running : u.state ≠ .unknown)
    (same : u.picture = t.picture) : TermOk u := by
  obtain ⟨_, wide, tall, right, bottom, ⟨across, down, delayed⟩, glyphs⟩ := ok
  simp only [TermInfo.picture, Prod.mk.injEq] at same
  obtain ⟨width, height, column, row, fb⟩ := same
  rw [← width] at wide right across glyphs
  rw [← height] at tall bottom down delayed glyphs
  rw [← column] at across delayed
  rw [← row] at down delayed
  rw [← fb] at right bottom glyphs
  exact ⟨running, wide, tall, right, bottom, ⟨across, down, delayed⟩, glyphs⟩

theorem setCparam_picture {i : Nat} {value : UInt32} (set : t.setCparam i value = some u) :
    u.picture = t.picture ∧ u.state = t.state := by
  unfold TermInfo.setCparam at set
  split at set
  · cases set
    exact ⟨rfl, rfl⟩
  · cases set

theorem termParseCmd_picture {c : UInt8} {taken : Bool} (running : t.state ≠ .unknown)
    (parsed : termParseCmd t c = some (u, taken)) : u.picture = t.picture ∧ u.state ≠ .unknown := by
  unfold termParseCmd at parsed
  rw [if_neg running] at parsed
  split at parsed
  · cases parsed
    exact ⟨rfl, by simp⟩
  · split at parsed
    · cases parsed
      exact ⟨rfl, by simp⟩
    · split at parsed
      · split at parsed <;> cases parsed <;> exact ⟨rfl, by simp⟩
      · cases parsed
        exact ⟨rfl, by simp⟩
    · split at parsed
      · cases parsed
        exact ⟨rfl, by simp⟩
      · cases parsed
        exact ⟨rfl, by simp⟩
    · split at parsed
      · obtain ⟨v, set, same⟩ := Option.bind_eq_some_iff.mp parsed
        cases same
        obtain ⟨picture, state⟩ := setCparam_picture set
        exact ⟨picture, by rw [state]; exact running⟩
      · split at parsed
        · obtain ⟨fgcolor, bgcolor, colored⟩ := setColor_eq t
          rw [colored] at parsed
          cases parsed
          exact ⟨rfl, by simp⟩
        · split at parsed
          · split at parsed
            · obtain ⟨v, set, same⟩ := Option.bind_eq_some_iff.mp parsed
              cases same
              obtain ⟨picture, state⟩ := setCparam_picture set
              exact ⟨picture, by rw [state]; exact running⟩
            · cases parsed
          · cases parsed
            exact ⟨rfl, by simp⟩

theorem TermOk.print (ok : TermOk t) {c : UInt8} (print : termPrint font t c = some u) :
    TermOk u := by
  obtain ⟨after, printed, shown⟩ := termPrint_printed font c ok
  cases print.symm.trans printed
  exact ok.printed shown

theorem TermOk.feed (ok : TermOk t) {c : UInt8} (fed : termFeed font t c = some u) : TermOk u := by
  obtain ⟨⟨v, taken⟩, parsed, rest⟩ := Option.bind_eq_some_iff.mp fed
  have quiet : TermOk { t with lastQuChar := false } := ok.of_picture ok.running rfl
  obtain ⟨picture, running⟩ := termParseCmd_picture quiet.running parsed
  have kept : TermOk v := quiet.of_picture running picture
  cases taken with
  | true => cases rest; exact kept
  | false => exact kept.print rest

theorem TermOk.putch (ok : TermOk t) {c : UInt8} (put : termPutch font t c = some u) :
    TermOk u := by
  unfold termPutch at put
  rw [if_neg ok.running] at put
  split at put
  · obtain ⟨v, print, fed⟩ := Option.bind_eq_some_iff.mp put
    have idle : TermOk { t with state := .idle } := ok.of_picture (by simp) rfl
    exact (idle.print print).feed fed
  · exact ok.feed put

/-! ## Refreshing and clearing -/

theorem fbRefresh_kept (fb : Fb) :
    (fbRefresh fb).toFbShape = fb.toFbShape ∧ (fbRefresh fb).drawn = fb.drawn ∧
      (fbRefresh fb).backbuffer = fb.backbuffer := by
  unfold fbRefresh
  split <;> exact ⟨rfl, rfl, rfl⟩

/-- `fb_refresh` shows the back buffer and changes nothing the terminal goes by. -/
theorem termRefreshPlain_kept (t : TermInfo) (active : Bool) :
    (termRefreshPlain t active).settings = t.settings ∧
      (termRefreshPlain t active).cursorX = t.cursorX ∧
      (termRefreshPlain t active).cursorY = t.cursorY ∧
      (termRefreshPlain t active).fb.toFbShape = t.fb.toFbShape ∧
      (termRefreshPlain t active).fb.drawn = t.fb.drawn := by
  obtain ⟨shape, drawn, _⟩ := fbRefresh_kept t.fb
  unfold termRefreshPlain
  split
  · exact ⟨rfl, rfl, rfl, rfl, rfl⟩
  · split
    · exact ⟨rfl, rfl, rfl, shape, drawn⟩
    · exact ⟨rfl, rfl, rfl, rfl, rfl⟩

theorem TermOk.refreshPlain (ok : TermOk t) (active : Bool) : TermOk (termRefreshPlain t active) := by
  obtain ⟨settings, column, row, shape, drawn⟩ := termRefreshPlain_kept t active
  apply ok.of_drawn settings
  · have width : (termRefreshPlain t active).width = t.width :=
      congrArg TermSettings.width settings
    have height : (termRefreshPlain t active).height = t.height :=
      congrArg TermSettings.height settings
    obtain ⟨across, down, delayed⟩ := ok.cursor
    exact ⟨by omega, by omega, by omega⟩
  · exact ⟨congrArg FbShape.width shape, congrArg FbShape.height shape⟩
  · rw [drawn]
    exact fun _ => .inl

/-- The cursor stands behind a full last line. -/
def FullLastLine (t : TermInfo) : Prop := t.cursorX = t.width ∧ t.cursorY + 1 = t.height

instance (t : TermInfo) : Decidable (FullLastLine t) := inferInstanceAs (Decidable (_ ∧ _))

/-- Drawing the text cursor is one more print, unless it finds the last line full. -/
theorem refreshCursor_printed (ok : TermOk t) (active : Bool) (cursor : UInt8)
    (room : ¬ FullLastLine t) :
    Printed font (termRefreshPlain t active) (termRefreshCursor font t active cursor) := by
  have settings := (termRefreshPlain_kept t active).1
  have ok := ok.refreshPlain active
  unfold FullLastLine at room
  rw [← show (termRefreshPlain t active).width = t.width from congrArg TermSettings.width settings,
    ← show (termRefreshPlain t active).height = t.height from congrArg TermSettings.height settings,
    ← (termRefreshPlain_kept t active).2.1, ← (termRefreshPlain_kept t active).2.2.1] at room
  unfold termRefreshCursor
  dsimp only
  generalize termRefreshPlain t active = t at ok room ⊢
  obtain ⟨across, down, delayed⟩ := ok.cursor
  have wide := ok.wide
  have tall := ok.tall
  have same : Ready t t false := .still rfl rfl rfl
  by_cases full : t.cursorX ≥ t.width
  · rw [if_pos full, if_pos full, if_neg (by omega), if_neg (by omega)]
    exact .of_row font rfl across (show t.cursorY < t.height by omega)
      ⟨t, false, same, rfl, .single 0 _ cursor (by omega) (Nat.zero_le _) (by omega)⟩
  · rw [if_neg full, if_neg full]
    by_cases bottom : t.cursorY ≥ t.height
    · rw [if_pos bottom, if_pos bottom, sub32_of_le (by omega)]
      obtain ⟨column, row⟩ := scrollUp_cursor t (by omega)
      have moved := same.scrollUp ok.running (by omega)
      have colors := moved.colors
      refine .of_row font moved.settings (by omega : t.scrollUp.cursorX ≤ t.width)
        (by omega : t.scrollUp.cursorY < t.height) ⟨t.scrollUp, true, moved, rfl, ?_⟩
      simp only [colors]
      exact .single _ _ cursor (by omega) (by simp only [topRow, if_true]; omega) (by omega)
    · rw [if_neg bottom, if_neg bottom]
      exact .of_row font rfl across (show t.cursorY < t.height by omega)
        ⟨t, false, same, rfl, .single _ _ cursor (by omega) (Nat.zero_le _) (by omega)⟩

/-- There it scrolls from a cursor that stands a row too high. -/
theorem refreshCursor_full (ok : TermOk t) (active : Bool) (cursor : UInt8) (full : FullLastLine t) :
    let shown := termRefreshPlain t active
    termRefreshCursor font t active cursor =
      { shown with
        fb := fbPutch font (scrollFb shown.fb (t.height - 1) t.bgcolor) 0
          ((t.height - 1) * fontHeight) t.fgcolor t.bgcolor cursor
        scrolls := shown.scrolls + 1
        cursorY := t.height - 2 } := by
  obtain ⟨column, row⟩ := full
  have tall := ok.tall
  obtain ⟨settings, column', row', _, _⟩ := termRefreshPlain_kept t active
  have ok' := ok.refreshPlain active
  have width : (termRefreshPlain t active).width = t.width := congrArg TermSettings.width settings
  have height : (termRefreshPlain t active).height = t.height :=
    congrArg TermSettings.height settings
  have fgcolor : (termRefreshPlain t active).fgcolor = t.fgcolor :=
    congrArg TermSettings.fgcolor settings
  have bgcolor : (termRefreshPlain t active).bgcolor = t.bgcolor :=
    congrArg TermSettings.bgcolor settings
  dsimp only
  unfold termRefreshCursor
  dsimp only
  have wrapped : (termRefreshPlain t active).cursorX ≥ (termRefreshPlain t active).width := by omega
  have below : (termRefreshPlain t active).cursorY + 1 ≥ (termRefreshPlain t active).height := by
    omega
  simp only [if_pos wrapped, if_pos below]
  rw [sub32_of_le (by omega)]
  unfold TermInfo.scrollUp termScroll
  rw [if_neg ok'.running, sub32_of_le (by omega)]
  simp only [fgcolor, bgcolor, row', Nat.zero_mul, show t.cursorY = t.height - 1 by omega,
    show t.height - 1 + 1 - 1 = t.height - 1 by omega, show t.height - 1 - 1 = t.height - 2 by omega]

theorem TermOk.refreshCursor (ok : TermOk t) (active : Bool) (cursor : UInt8) :
    TermOk (termRefreshCursor font t active cursor) := by
  by_cases full : FullLastLine t
  · obtain ⟨settings, column, _, shape, drawn⟩ := termRefreshPlain_kept t active
    have width : (termRefreshPlain t active).width = t.width := congrArg TermSettings.width settings
    have height : (termRefreshPlain t active).height = t.height :=
      congrArg TermSettings.height settings
    have tall := ok.tall
    have wide := ok.wide
    rw [refreshCursor_full ok active cursor full]
    apply ok.of_drawn
    · exact settings
    · exact ⟨by simp only [column, width]; exact ok.cursor.across, by simp only [height]; omega,
        by simp only [height]; omega⟩
    · simp only [fbPutch_shape, scrollFb_shape, shape, and_self]
    · intro glyph member
      simp only [fbPutch_drawn, scrollFb_drawn, drawn, List.mem_append, List.mem_singleton] at member
      apply member.imp_right
      rintro rfl
      exact ⟨⟨0, rfl, by simp only [Bool.false_eq_true, if_false]; omega⟩,
        ⟨t.height - 1, rfl, by omega⟩⟩
  · exact (ok.refreshPlain active).printed (refreshCursor_printed ok active cursor full)

theorem TermOk.clear (ok : TermOk t) : TermOk (termClear t) := by
  have shape := fillRows_kept Fb.toFbShape fbPutpixel_shape t.fb 0 t.bgcolor
  have drawn := fillRows_kept Fb.drawn fbPutpixel_drawn t.fb 0 t.bgcolor
  unfold termClear
  rw [if_neg ok.running]
  apply ok.of_drawn
  · rfl
  · exact ⟨Nat.zero_le _, Nat.zero_le _, fun _ => rfl⟩
  · exact ⟨congrArg FbShape.width shape, congrArg FbShape.height shape⟩
  · simp only [drawn]
    exact fun _ => .inl

theorem TermOk.buffer (ok : TermOk t) : TermOk { t with fb := fbInitBuffer t.fb } := by
  have kept : (fbInitBuffer t.fb).width = t.fb.width ∧ (fbInitBuffer t.fb).height = t.fb.height ∧
      (fbInitBuffer t.fb).drawn = t.fb.drawn := by
    unfold fbInitBuffer
    split <;> exact ⟨rfl, rfl, rfl⟩
  obtain ⟨across, down, delayed⟩ := ok.cursor
  apply ok.of_drawn
  · rfl
  · exact ⟨across, down, delayed⟩
  · exact ⟨kept.1, kept.2.1⟩
  · simp only [kept.2.2]
    exact fun _ => .inl

end

/-! ## Runs -/

section

variable {font : Nat → Nat} {shape : FbShape} {addr : Nat → UInt32}

def TermsOk (s : Terms) : Prop := ∀ mode, TermOk (s.term mode)

theorem TermsOk.set {s : Terms} (ok : TermsOk s) (mode : TermMode) {t : TermInfo} (fine : TermOk t) :
    TermsOk (s.set mode t) := by
  intro other
  have info := ok .info
  have cli := ok .cli
  simp only [Terms.term, reduceCtorEq, if_true, if_false] at info cli
  unfold Terms.term Terms.set
  by_cases here : mode = .info <;> by_cases there : other = .info <;>
    simp only [here, there, if_true, if_false] <;> assumption

theorem TermsOk.init (wide : 4 ≤ shape.width / fontWidth) (tall : 2 ≤ shape.height / fontHeight) :
    TermsOk (Terms.init shape addr) := by
  have started : TermOk (termInit shape addr) := by
    refine ⟨by simp [termInit], wide, tall, Nat.div_mul_le_self .., Nat.div_mul_le_self ..,
      ⟨Nat.zero_le _, Nat.zero_le _, fun _ => rfl⟩, ?_⟩
    intro glyph member
    cases member
  intro mode
  unfold Terms.term
  split <;> exact started

theorem TermsOk.step {s after : Terms} (ok : TermsOk s) (call : TermCall)
    (stepped : termStep font s call = some after) : TermsOk after := by
  cases call with
  | print mode c =>
    obtain ⟨t, print, rfl⟩ := Option.map_eq_some_iff.mp stepped
    exact ok.set mode ((ok mode).print print)
  | putch mode c =>
    obtain ⟨t, put, rfl⟩ := Option.map_eq_some_iff.mp stepped
    exact ok.set mode ((ok mode).putch put)
  | clear mode =>
    cases stepped
    exact ok.set mode (ok mode).clear
  | refresh mode =>
    cases stepped
    unfold termRefresh
    apply ok.set mode
    split
    · exact (ok mode).refreshCursor _ _
    · exact (ok mode).refreshPlain _
  | buffers =>
    cases stepped
    intro mode
    unfold Terms.term
    split
    · exact (ok .info).buffer
    · exact (ok .cli).buffer
  | switch mode => cases stepped; exact ok
  | setCursor c => cases stepped; exact ok

theorem TermsOk.run {s : Terms} (wide : 4 ≤ shape.width / fontWidth)
    (tall : 2 ≤ shape.height / fontHeight)
    (run : Run (termStep font) anyAction (Terms.init shape addr) s) : TermsOk s :=
  run.invariant TermsOk (.init wide tall) fun _ call _ ok _ stepped => ok.step call stepped

/-- Whatever was printed, refreshed and cleared in whatever order: the cursor is in its range,
    every glyph was drawn in a cell of the text, and the next byte can be printed. -/
theorem cursor_in_text {s : Terms} (wide : 4 ≤ shape.width / fontWidth)
    (tall : 2 ≤ shape.height / fontHeight)
    (run : Run (termStep font) anyAction (Terms.init shape addr) s) (mode : TermMode) :
    CursorIn (s.term mode) ∧
      (∀ glyph ∈ (s.term mode).fb.drawn,
        InCell (s.term mode).width (s.term mode).height glyph) ∧
      ∀ c, ∃ after, termPrint font (s.term mode) c = some after := by
  have ok := TermsOk.run wide tall run mode
  refine ⟨ok.cursor, ok.glyphs, ?_⟩
  intro c
  obtain ⟨after, print, _⟩ := termPrint_printed font c ok
  exact ⟨after, print⟩

theorem cursor_in_text_tiny :
    ∃ s, [TermCall.print .cli 65, .setCursor 95, .refresh .cli].foldlM (termStep fun _ => 0)
        (Terms.init .tiny fun _ => 0) = some s ∧
      CursorIn (s.term .cli) ∧
      (∀ glyph ∈ (s.term .cli).fb.drawn, InCell (s.term .cli).width (s.term .cli).height glyph) ∧
      ∀ c, ∃ after, termPrint (fun _ => 0) (s.term .cli) c = some after :=
  ⟨_, rfl, @cursor_in_text (fun _ => 0) .tiny (fun _ => 0) _ (by decide) (by decide)
    (.of_foldlM (fun _ _ => trivial) [.print .cli 65, .setCursor 95, .refresh .cli] rfl) .cli⟩

end

end HanOS.Device
