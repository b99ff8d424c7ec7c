import HanOS.Device.TermCursor

/-!
# Scrolling

`term_scroll` takes the rows to move from the stored cursor row, which is the number of
rows of the screen in every call but one: `term_refresh` with a text cursor wraps on
copies of the cursor, and behind a full last line it scrolls from a row too high.  The
last line is then overwritten instead of moved (`refreshCursor_law_iff`).
-/

namespace HanOS.Device

open HanOS.Foundations HanOS.Lib

/-! ## The pixel loops -/

section

variable {fb : Fb} {x y : Nat}

/-- One pixel row, when what is written there does not depend on the row itself. -/
theorem putRow_pixel (buffered : fb.buffered = true) {row : Nat} (low : row < fb.height)
    (wide : fb.width < 2 ^ 32 ∧ fb.height < 2 ^ 32) {color : Nat → Fb → UInt32}
    {target : Nat → UInt32}
    (reads : ∀ s k, s.toFbShape = fb.toFbShape → k < fb.width →
      (∀ x' y', x' < fb.width → y' ≠ row → s.pixel x' y' = fb.pixel x' y') →
      color k s = target k) :
    let after := forLoop (fun k s => fbPutpixel s (u32 k) (u32 row) (color k s)) fb.width fb
    after.toFbShape = fb.toFbShape ∧
      ∀ x' y', x' < fb.width →
        after.pixel x' y' = if y' = row then target x' else fb.pixel x' y' := by
  let Painted (k : Nat) (s : Fb) : Prop := s.toFbShape = fb.toFbShape ∧
    ∀ x' y', x' < fb.width →
      s.pixel x' y' = if y' = row ∧ x' < k then target x' else fb.pixel x' y'
  suffices painted : Painted fb.width _ by
    refine ⟨painted.1, ?_⟩
    intro x' y' left
    rw [painted.2 x' y' left]
    simp only [left, and_true]
  apply forLoop_invariant
  · exact ⟨rfl, by simp⟩
  · intro k left s ⟨shape, pixels⟩
    have others : ∀ x' y', x' < fb.width → y' ≠ row → s.pixel x' y' = fb.pixel x' y' := by
      intro x' y' left' other
      rw [pixels x' y' left', if_neg (fun both => other both.1)]
    refine ⟨by rw [fbPutpixel_shape, shape], ?_⟩
    intro x' y' left'
    rw [u32_of_lt (by omega), u32_of_lt (by omega),
      fbPutpixel_pixel (by rw [shape]; exact buffered) (by rw [shape]; exact left)
        (by rw [shape]; exact low) (by rw [shape]; exact left'),
      reads s k shape left others, pixels x' y' left']
    by_cases here : x' = k ∧ y' = row
    · obtain ⟨rfl, rfl⟩ := here
      simp
    · rw [if_neg here]
      congr 1
      simp only [eq_iff_iff]
      omega

theorem moveRows_pixel (buffered : fb.buffered = true) {top : Nat}
    (room : top + fontHeight ≤ fb.height) (left : x < fb.width) :
    (moveRows fb top).pixel x y =
      if y < top then fb.pixel x (y + fontHeight) else fb.pixel x y := by
  have small : 0 < fb.height → fb.width < 2 ^ 32 ∧ fb.height < 2 ^ 32 :=
    fun tall => fb.small left tall
  let Moved (n : Nat) (s : Fb) : Prop := s.toFbShape = fb.toFbShape ∧
    ∀ x' y', x' < fb.width →
      s.pixel x' y' = if y' < n then fb.pixel x' (y' + fontHeight) else fb.pixel x' y'
  suffices moved : Moved top (moveRows fb top) from moved.2 x y left
  apply forLoop_invariant
  · exact ⟨rfl, by simp⟩
  · intro row above s ⟨shape, pixels⟩
    have tall : 0 < fb.height := by omega
    have width : s.width = fb.width := congrArg FbShape.width shape
    have height : s.height = fb.height := congrArg FbShape.height shape
    -- the row below has not been touched when it is read
    have painted := @putRow_pixel s (by rw [shape]; exact buffered) row (by omega)
      (by rw [width, height]; exact small tall)
      (fun k s => fbGetpixel s (u32 k) (u32 (row + fontHeight)))
      (fun k => fb.pixel k (row + fontHeight)) (by
        intro u k shape' column others
        have source : row + fontHeight ≠ row := by simp [fontHeight]
        rw [u32_of_lt (by have := small tall; omega), u32_of_lt (by have := small tall; omega),
          fbGetpixel_pixel (by rw [shape', shape]; exact buffered) (by rw [shape']; exact column)
            (by rw [shape', shape]; omega),
          others k _ column source, pixels k _ (by omega), if_neg (by omega)])
    rw [width] at painted
    refine ⟨painted.1.trans shape, ?_⟩
    intro x' y' left'
    rw [painted.2 x' y' left', pixels x' y' left']
    by_cases here : y' = row
    · rw [if_pos here, if_pos (by omega), here]
    · rw [if_neg here]
      congr 1
      simp only [eq_iff_iff]
      omega

theorem fillRows_pixel (buffered : fb.buffered = true) {top : Nat} {color : UInt32}
    (left : x < fb.width) (low : y < fb.height) :
    (fillRows fb top color).pixel x y = if top ≤ y then color else fb.pixel x y := by
  have small := fb.small left low
  let Filled (n : Nat) (s : Fb) : Prop := s.toFbShape = fb.toFbShape ∧
    ∀ x' y', x' < fb.width →
      s.pixel x' y' = if top ≤ y' ∧ y' < top + n then color else fb.pixel x' y'
  suffices filled : Filled (fb.height - top) (fillRows fb top color) by
    rw [filled.2 x y left]
    congr 1
    simp only [eq_iff_iff]
    omega
  apply forLoop_invariant
  · exact ⟨rfl, fun x' y' _ => by rw [if_neg (by omega)]⟩
  · intro n bound s ⟨shape, pixels⟩
    have width : s.width = fb.width := congrArg FbShape.width shape
    have height : s.height = fb.height := congrArg FbShape.height shape
    have painted := @putRow_pixel s (by rw [shape]; exact buffered) (top + n) (by omega)
      (by rw [width, height]; exact small) (fun _ _ => color) (fun _ => color)
      (fun _ _ _ _ _ => rfl)
    rw [width] at painted
    refine ⟨painted.1.trans shape, ?_⟩
    intro x' y' left'
    rw [painted.2 x' y' left', pixels x' y' left']
    by_cases here : y' = top + n
    · rw [if_pos here, if_pos (by omega)]
    · rw [if_neg here]
      congr 1
      simp only [eq_iff_iff]
      omega

/-- `term_scroll` from a cursor in row `row`: the text above that row moves up by one row, and
    everything from the row above it on is cleared. -/
theorem scrollFb_pixel (buffered : fb.buffered = true) {row : Nat} {color : UInt32}
    (positive : 0 < row) (room : row * fontHeight ≤ fb.height) (left : x < fb.width)
    (low : y < fb.height) :
    (scrollFb fb row color).pixel x y =
      if y < (row - 1) * fontHeight then fb.pixel x (y + fontHeight) else color := by
  have small := fb.small left low
  have below : (row - 1) * fontHeight + fontHeight = row * fontHeight := by
    rw [← Nat.succ_mul, Nat.succ_eq_add_one, Nat.sub_add_cancel positive]
  have fits : (row - 1) * fontHeight < 2 ^ 32 := by omega
  have top : u32 (sub32 row 1 * fontHeight) = (row - 1) * fontHeight := by
    rw [sub32_of_le positive]
    exact u32_of_lt fits
  have shape := moveRows_kept Fb.toFbShape fbPutpixel_shape fb ((row - 1) * fontHeight)
  unfold scrollFb
  dsimp only
  rw [top, fillRows_pixel (by rw [shape]; exact buffered) (by rw [shape]; exact left)
    (by rw [shape]; exact low)]
  by_cases above : y < (row - 1) * fontHeight
  · rw [if_neg (by omega), if_pos above, moveRows_pixel buffered (by omega) left, if_pos above]
  · rw [if_pos (by omega), if_neg above]

theorem scrollFb_unbuffered (bare : fb.buffered = false) (row : Nat) (color : UInt32) :
    scrollFb fb row color = fb := by
  have moved : ∀ top, moveRows fb top = fb := fun top =>
    forLoop_same fun _ => forLoop_same fun _ => fbPutpixel_unbuffered bare
  have filled : ∀ top, fillRows fb top color = fb := fun top =>
    forLoop_same fun _ => forLoop_same fun _ => fbPutpixel_unbuffered bare
  unfold scrollFb
  dsimp only
  rw [moved, filled]

end

/-! ## What the text rows show -/

def Glyph.Covers (glyph : Glyph) (x y : Nat) : Prop :=
  (glyph.x ≤ x ∧ x < glyph.x + if glyph.double then 2 * fontWidth else fontWidth) ∧
    glyph.y ≤ y ∧ y < glyph.y + fontHeight

/-- Text row `r` of `u` shows what row `r'` of `t` shows, glyphs in `drawn` apart. -/
def RowShows (u t : TermInfo) (r r' : Nat) (drawn : List Glyph) : Prop :=
  ∀ x i, x < t.fb.width → i < fontHeight →
    (∀ glyph ∈ drawn, ¬ glyph.Covers x (r * fontHeight + i)) →
    u.fb.pixel x (r * fontHeight + i) = t.fb.pixel x (r' * fontHeight + i)

/-- Text row `r` is blank in one colour, glyphs in `drawn` apart. -/
def RowBlank (u : TermInfo) (r : Nat) (color : UInt32) (drawn : List Glyph) : Prop :=
  ∀ x i, x < u.fb.width → i < fontHeight →
    (∀ glyph ∈ drawn, ¬ glyph.Covers x (r * fontHeight + i)) →
    u.fb.pixel x (r * fontHeight + i) = color

/-- From `t` to `u` the text moved up by one row and only the top row was lost. -/
structure Scrolled (t u : TermInfo) (drawn : List Glyph) : Prop where
  moved : ∀ r, r + 1 < t.height → RowShows u t r (r + 1) []
  blank : RowBlank u (t.height - 1) t.bgcolor drawn

/-- A call that takes `t` to `u` scrolls without loss, or changes only the cells it draws. -/
def ScrollLaw (t u : TermInfo) : Prop :=
  ∃ drawn, u.fb.drawn = t.fb.drawn ++ drawn ∧ (u.scrolls ≠ t.scrolls → Scrolled t u drawn) ∧
    (u.scrolls = t.scrolls → ∀ r < t.height, RowShows u t r r drawn)

section

variable {font : Nat → Nat} {t u : TermInfo} {x y : Nat}

theorem row_lt {r i height : Nat} (row : r < height) (within : i < fontHeight) :
    r * fontHeight + i < height * fontHeight := by
  calc r * fontHeight + i < r * fontHeight + fontHeight := Nat.add_lt_add_left within _
    _ = (r + 1) * fontHeight := (Nat.succ_mul ..).symm
    _ ≤ height * fontHeight := Nat.mul_le_mul_right _ row

/-- Outside the glyph a call draws, the picture stays; the glyph is in the rows from `top`. -/
theorem Drew.pixel {base fb : Fb} {top : Nat} (drew : Drew font t base top fb)
    (right : t.width * fontWidth ≤ base.width) (bottom : t.height * fontHeight ≤ base.height) :
    ∃ drawn, fb.drawn = base.drawn ++ drawn ∧ (∀ glyph ∈ drawn, top * fontHeight ≤ glyph.y) ∧
      ∀ x y, x < base.width → (∀ glyph ∈ drawn, ¬ glyph.Covers x y) →
        fb.pixel x y = base.pixel x y := by
  cases drew with
  | nothing => exact ⟨[], by simp, by simp, fun _ _ _ _ => rfl⟩
  | single x y c column below row =>
    refine ⟨_, fbPutch_drawn .., ?_, ?_⟩
    · intro glyph member
      rw [List.mem_singleton.mp member]
      exact Nat.mul_le_mul_right _ below
    · intro x' y' left outside
      have uncovered := outside _ (List.mem_singleton_self _)
      have edge : x * fontWidth + 8 ≤ base.width := by
        calc x * fontWidth + 8 = (x + 1) * fontWidth := (Nat.succ_mul ..).symm
          _ ≤ t.width * fontWidth := Nat.mul_le_mul_right _ column
          _ ≤ base.width := right
      have floor : y * fontHeight + 16 ≤ base.height := by
        calc y * fontHeight + 16 = (y + 1) * fontHeight := (Nat.succ_mul ..).symm
          _ ≤ t.height * fontHeight := Nat.mul_le_mul_right _ row
          _ ≤ base.height := bottom
      exact fbPutch_pixel _ _ _ _ _ _ _ edge floor left uncovered
  | double x y _ below _ =>
    refine ⟨[⟨x * fontWidth, y * fontHeight, true⟩], rfl, ?_, fun _ _ _ _ => rfl⟩
    intro glyph member
    rw [List.mem_singleton.mp member]
    exact Nat.mul_le_mul_right _ below

theorem Printed.law (ok : TermOk t) (buffered : t.fb.buffered = true) (printed : Printed font t u) :
    ScrollLaw t u := by
  obtain ⟨ready, scrolled, shown, count, drew⟩ := printed.picture
  obtain ⟨shape, kept⟩ := shown.fb_kept
  have width : ready.fb.width = t.fb.width := congrArg FbShape.width shape
  have height : ready.fb.height = t.fb.height := congrArg FbShape.height shape
  have tall := ok.tall
  have bottom := ok.bottom
  obtain ⟨drawn, record, low, outside⟩ :=
    drew.pixel (by rw [width]; exact ok.right) (by rw [height]; exact bottom)
  refine ⟨drawn, by rw [record, kept], ?_⟩
  cases shown with
  | still _ fb scrolls =>
    constructor
    · intro other
      exact absurd (count.trans scrolls) other
    · intro _ r _ x i left within uncovered
      rw [outside x _ (by rw [width]; exact left) uncovered, fb]
  | scrolled _ fb scrolls =>
    have fbSize : u.fb.width = t.fb.width :=
      (congrArg FbShape.width drew.kept.1).trans width
    have moved : ∀ x r i, x < t.fb.width → r < t.height → i < fontHeight →
        ready.fb.pixel x (r * fontHeight + i) =
          if r * fontHeight + i < (t.height - 1) * fontHeight
          then t.fb.pixel x (r * fontHeight + i + fontHeight) else t.bgcolor := by
      intro x r i left row within
      have inside := row_lt row within
      rw [fb]
      exact scrollFb_pixel buffered (by omega) bottom left (by omega)
    constructor
    · intro _
      constructor
      · intro r row x i left within _
        have above := row_lt (by omega : r < t.height - 1) within
        -- a glyph drawn by the call is in the last row
        have uncovered : ∀ glyph ∈ drawn, ¬ glyph.Covers x (r * fontHeight + i) := by
          intro glyph member covers
          have last := low glyph member
          simp only [topRow, if_true] at last
          have start := covers.2.1
          omega
        rw [outside x _ (by rw [width]; exact left) uncovered,
          moved x r i left (by omega) within, if_pos above, Nat.succ_mul, Nat.add_right_comm]
      · intro x i left within uncovered
        rw [fbSize] at left
        rw [outside x _ (by rw [width]; exact left) uncovered,
          moved x _ i left (by omega) within, if_neg (by omega)]
    · intro same
      omega

/-- A call that leaves the screen as it is, whether it scrolls or not. -/
structure Unshown (t u : TermInfo) : Prop where
  pixel : u.fb.pixel = t.fb.pixel
  law : u.scrolls = t.scrolls → ScrollLaw t u

theorem Unshown.of_pixel (pixel : u.fb.pixel = t.fb.pixel)
    (drawn : ∃ drawn, u.fb.drawn = t.fb.drawn ++ drawn) : Unshown t u := by
  obtain ⟨drawn, record⟩ := drawn
  refine ⟨pixel, fun same => ⟨drawn, record, fun other => absurd same other, ?_⟩⟩
  intro _ r _ x i _ _ _
  rw [pixel]

theorem Printed.unbuffered (bare : t.fb.buffered = false) (printed : Printed font t u) :
    u.fb.pixel = t.fb.pixel ∧ ∃ drawn, u.fb.drawn = t.fb.drawn ++ drawn := by
  obtain ⟨ready, scrolled, shown, _, drew⟩ := printed.picture
  have fb : ready.fb = t.fb := by
    cases shown with
    | still _ fb _ => exact fb
    | scrolled _ fb _ => rw [fb, scrollFb_unbuffered bare]
  rw [fb] at drew
  generalize u.fb = after at drew
  cases drew with
  | nothing => exact ⟨rfl, [], by simp⟩
  | single x y c _ _ _ => exact ⟨fbPutch_unbuffered _ _ _ _ _ _ _ bare, _, fbPutch_drawn ..⟩
  | double x y _ _ _ => exact ⟨rfl, _, rfl⟩

theorem refreshPlain_pixel (t : TermInfo) (active : Bool) :
    (termRefreshPlain t active).fb.pixel = t.fb.pixel ∧
      (termRefreshPlain t active).scrolls = t.scrolls := by
  obtain ⟨shape, _, backbuffer⟩ := fbRefresh_kept t.fb
  have pixel : (fbRefresh t.fb).pixel = t.fb.pixel := by
    funext x y
    unfold Fb.pixel
    rw [backbuffer, shape]
  unfold termRefreshPlain
  split
  · exact ⟨rfl, rfl⟩
  · split
    · exact ⟨pixel, rfl⟩
    · exact ⟨rfl, rfl⟩

theorem refreshPlain_law (t : TermInfo) (active : Bool) :
    ScrollLaw t (termRefreshPlain t active) := by
  obtain ⟨pixel, scrolls⟩ := refreshPlain_pixel t active
  obtain ⟨_, _, _, _, drawn⟩ := termRefreshPlain_kept t active
  refine ⟨[], by rw [drawn, List.append_nil], fun other => absurd scrolls other, ?_⟩
  intro _ r _ x i _ _ _
  rw [pixel]

/-- The law may be read from the terminal `fb_refresh` left. -/
theorem ScrollLaw.of_refreshPlain {active : Bool} (law : ScrollLaw (termRefreshPlain t active) u) :
    ScrollLaw t u := by
  obtain ⟨pixel, scrolls⟩ := refreshPlain_pixel t active
  obtain ⟨settings, _, _, shape, record⟩ := termRefreshPlain_kept t active
  have height : (termRefreshPlain t active).height = t.height :=
    congrArg TermSettings.height settings
  have bgcolor : (termRefreshPlain t active).bgcolor = t.bgcolor :=
    congrArg TermSettings.bgcolor settings
  have width : (termRefreshPlain t active).fb.width = t.fb.width := congrArg FbShape.width shape
  have shows : ∀ r r' drawn, RowShows u (termRefreshPlain t active) r r' drawn ↔
      RowShows u t r r' drawn := by
    intro r r' drawn
    unfold RowShows
    rw [pixel, width]
  obtain ⟨drawn, appended, moves, keeps⟩ := law
  rw [record] at appended
  rw [scrolls] at moves keeps
  rw [height] at keeps
  refine ⟨drawn, appended, ?_, ?_⟩
  · intro scrolled
    obtain ⟨moved, blank⟩ := moves scrolled
    rw [height, bgcolor] at blank
    rw [height] at moved
    exact ⟨fun r row => (shows r (r + 1) []).mp (moved r row), blank⟩
  · intro same r row
    exact (shows r r drawn).mp (keeps same r row)

/-- Behind a full last line the rows from the last but one on are cleared, and the text cursor
    is drawn at the start of the last. -/
theorem fullLine_pixel (ok : TermOk t) (buffered : t.fb.buffered = true) (active : Bool)
    (cursor : UInt8) (full : FullLastLine t) (left : x < t.fb.width)
    (low : y < t.height * fontHeight)
    (outside : ¬ (⟨0, (t.height - 1) * fontHeight, false⟩ : Glyph).Covers x y) :
    (termRefreshCursor font t active cursor).fb.pixel x y =
      if y < (t.height - 2) * fontHeight then t.fb.pixel x (y + fontHeight) else t.bgcolor := by
  obtain ⟨pixel, _⟩ := refreshPlain_pixel t active
  obtain ⟨_, _, _, shape, _⟩ := termRefreshPlain_kept t active
  have width : (termRefreshPlain t active).fb.width = t.fb.width := congrArg FbShape.width shape
  have height : (termRefreshPlain t active).fb.height = t.fb.height :=
    congrArg FbShape.height shape
  have wide := ok.wide
  have tall := ok.tall
  have right := ok.right
  have bottom := ok.bottom
  have last : (t.height - 1) * fontHeight + fontHeight = t.height * fontHeight := by
    rw [← Nat.succ_mul, Nat.succ_eq_add_one, Nat.sub_add_cancel (by omega)]
  have scroll := @scrollFb_pixel (termRefreshPlain t active).fb x y
    (by rw [shape]; exact buffered) (t.height - 1) t.bgcolor (by omega)
    (by rw [height]; omega) (by rw [width]; exact left) (by rw [height]; omega)
  rw [refreshCursor_full ok active cursor full]
  dsimp only
  rw [fbPutch_pixel, scroll, pixel, Nat.sub_sub]
  · simp only [scrollFb_shape, width]
    have cell : 8 ≤ t.width * fontWidth := by
      calc 8 ≤ 4 * fontWidth := by decide
        _ ≤ t.width * fontWidth := Nat.mul_le_mul_right _ wide
    omega
  · simp only [scrollFb_shape, height]
    have row : fontHeight = 16 := rfl
    omega
  · simp only [scrollFb_shape, width]
    exact left
  · exact outside

/-- Such a refresh counts as a scroll and draws the one glyph. -/
theorem fullLine_fields (ok : TermOk t) (active : Bool) (cursor : UInt8) (full : FullLastLine t) :
    (termRefreshCursor font t active cursor).fb.width = t.fb.width ∧
      (termRefreshCursor font t active cursor).scrolls = t.scrolls + 1 ∧
      (termRefreshCursor font t active cursor).fb.drawn =
        t.fb.drawn ++ [⟨0, (t.height - 1) * fontHeight, false⟩] := by
  obtain ⟨_, scrolls⟩ := refreshPlain_pixel t active
  obtain ⟨_, _, _, shape, record⟩ := termRefreshPlain_kept t active
  rw [refreshCursor_full ok active cursor full]
  refine ⟨?_, ?_, ?_⟩
  · simp only [fbPutch_shape, scrollFb_shape, shape]
  · simp only [scrolls]
  · simp only [fbPutch_drawn, scrollFb_drawn, record]

/-- A refresh that draws the text cursor keeps the law, unless it meets a full last line that
    shows anything. -/
theorem refreshCursor_law_iff (ok : TermOk t) (buffered : t.fb.buffered = true) (active : Bool)
    (cursor : UInt8) :
    ScrollLaw t (termRefreshCursor font t active cursor) ↔
      (FullLastLine t → RowBlank t (t.height - 1) t.bgcolor []) := by
  by_cases full : FullLastLine t
  · have tall := ok.tall
    obtain ⟨fbSize, count, drawn⟩ := @fullLine_fields font t ok active cursor full
    have pixel := fun x y left low => @fullLine_pixel font t x y ok buffered active cursor full left low
    -- the glyph of the cursor is in the last row
    have uncovered : ∀ r i x, r + 1 < t.height → i < fontHeight →
        ¬ (⟨0, (t.height - 1) * fontHeight, false⟩ : Glyph).Covers x (r * fontHeight + i) := by
      intro r i x row within covers
      have above := row_lt (by omega : r < t.height - 1) within
      have start := covers.2.1
      dsimp only at start
      omega
    have step : ∀ r i, r * fontHeight + i + fontHeight = (r + 1) * fontHeight + i := by
      intro r i
      rw [Nat.succ_mul, Nat.add_right_comm]
    constructor
    · -- the row the law wants moved up is the one that was cleared
      rintro ⟨_, _, moves, _⟩ _ x i left within _
      obtain ⟨moved, _⟩ := moves (by omega)
      have row := moved (t.height - 2) (by omega) x i left within (by simp)
      rw [pixel x _ left (row_lt (by omega) within) (uncovered _ i x (by omega) within),
        if_neg (by omega), show t.height - 2 + 1 = t.height - 1 by omega] at row
      exact row.symm
    · -- a blank row looks the same cleared as moved
      intro blank
      refine ⟨_, drawn, fun _ => ⟨?_, ?_⟩, fun same => by omega⟩
      · intro r row x i left within _
        rw [pixel x _ left (row_lt (by omega) within) (uncovered r i x row within), step]
        by_cases last : r + 2 = t.height
        · obtain rfl : r = t.height - 2 := by omega
          rw [if_neg (by omega), show t.height - 2 + 1 = t.height - 1 by omega]
          exact (blank full x i left within (by simp)).symm
        · rw [if_pos (row_lt (by omega) within)]
      · intro x i left within outside
        rw [fbSize] at left
        have below : (t.height - 2) * fontHeight ≤ (t.height - 1) * fontHeight :=
          Nat.mul_le_mul_right _ (by omega)
        rw [pixel x _ left (row_lt (by omega) within) (outside _ (List.mem_singleton_self _)),
          if_neg (by omega)]
  · -- anywhere else the refresh draws as a print does
    constructor
    · intro _ reached
      exact absurd reached full
    · intro _
      apply @ScrollLaw.of_refreshPlain t _ active
      apply Printed.law (ok.refreshPlain active) _ (refreshCursor_printed ok active cursor full)
      rw [(termRefreshPlain_kept t active).2.2.2.1]
      exact buffered

theorem refreshPlain_unshown (t : TermInfo) (active : Bool) :
    Unshown t (termRefreshPlain t active) := by
  obtain ⟨pixel, _⟩ := refreshPlain_pixel t active
  obtain ⟨_, _, _, _, drawn⟩ := termRefreshPlain_kept t active
  exact .of_pixel pixel ⟨[], by rw [drawn, List.append_nil]⟩

theorem refreshCursor_unshown (ok : TermOk t) (bare : t.fb.buffered = false) (active : Bool)
    (cursor : UInt8) : Unshown t (termRefreshCursor font t active cursor) := by
  obtain ⟨pixel, _⟩ := refreshPlain_pixel t active
  obtain ⟨_, _, _, shape, record⟩ := termRefreshPlain_kept t active
  have plain : (termRefreshPlain t active).fb.buffered = false := by rw [shape]; exact bare
  by_cases full : FullLastLine t
  · refine .of_pixel ?_ ⟨_, (fullLine_fields ok active cursor full).2.2⟩
    rw [refreshCursor_full ok active cursor full]
    dsimp only
    rw [scrollFb_unbuffered plain, fbPutch_unbuffered _ _ _ _ _ _ _ plain, pixel]
  · obtain ⟨same, drawn⟩ := (refreshCursor_printed ok active cursor full).unbuffered plain
    rw [record] at drawn
    exact .of_pixel (same.trans pixel) drawn

end

/-! ## Every call of a run -/

/-- The calls of `term_print` that are made on a terminal from outside and from `term_putch`,
    each with the terminal it is made on. -/
inductive PrintCall (font : Nat → Nat) (t : TermInfo) : TermInfo → UInt8 → Prop
  | direct (c : UInt8) : PrintCall font t t c
  | passed {u : TermInfo} {c : UInt8}
      (parsed : termParseCmd { t with lastQuChar := false } c = some (u, false)) :
      PrintCall font t u c
  /-- The withheld `?`. -/
  | resent : PrintCall font t { t with state := .idle } 63
  | behind {middle u : TermInfo} {c : UInt8}
      (resent : termPrint font { t with state := .idle } 63 = some middle)
      (parsed : termParseCmd { middle with lastQuChar := false } c = some (u, false)) :
      PrintCall font t u c

section

variable {font : Nat → Nat} {shape : FbShape} {addr : Nat → UInt32}

theorem Printed.buffered {t u : TermInfo} (printed : Printed font t u) :
    u.fb.buffered = t.fb.buffered := by
  obtain ⟨ready, scrolled, shown, _, drew⟩ := printed.picture
  exact congrArg FbShape.buffered (drew.kept.1.trans shown.fb_kept.1)

theorem parsed_ok {t u : TermInfo} {c : UInt8} (ok : TermOk t)
    (parsed : termParseCmd { t with lastQuChar := false } c = some (u, false)) :
    TermOk u ∧ u.fb.buffered = t.fb.buffered := by
  have quiet : TermOk { t with lastQuChar := false } := ok.of_picture ok.running rfl
  obtain ⟨picture, running⟩ := termParseCmd_picture quiet.running parsed
  refine ⟨quiet.of_picture running picture, ?_⟩
  have fb : u.fb = t.fb := congrArg (fun parts => parts.2.2.2.2) picture
  rw [fb]

theorem PrintCall.ok {t u : TermInfo} {c : UInt8} (call : PrintCall font t u c) (ok : TermOk t) :
    TermOk u ∧ u.fb.buffered = t.fb.buffered := by
  have idle : TermOk { t with state := .idle } := ok.of_picture (by simp) rfl
  cases call with
  | direct c => exact ⟨ok, rfl⟩
  | passed parsed => exact parsed_ok ok parsed
  | resent => exact ⟨idle, rfl⟩
  | @behind middle _ _ resent parsed =>
    obtain ⟨after, print, printed⟩ := termPrint_printed font 63 idle
    cases resent.symm.trans print
    obtain ⟨fine, same⟩ := parsed_ok (idle.printed printed) parsed
    exact ⟨fine, same.trans printed.buffered⟩

/-- The refresh of a terminal draws the text cursor behind a full last line. -/
def RefreshLoses (s : Terms) (mode : TermMode) : Prop :=
  (mode ≠ .info ∧ s.cursor ≠ 0) ∧ FullLastLine (s.term mode)

theorem Terms.term_set (s : Terms) (mode : TermMode) (t : TermInfo) :
    (s.set mode t).term mode = t := by
  unfold Terms.set Terms.term
  split <;> rfl

/-- In every state a terminal with its back buffer can reach, every print keeps the law; a
    refresh keeps it exactly when it does not come upon a full last line with the text cursor
    to draw, or that line is blank.  Without a back buffer no call changes the screen. -/
theorem scroll_law {s : Terms} (wide : 4 ≤ shape.width / fontWidth)
    (tall : 2 ≤ shape.height / fontHeight)
    (run : Run (termStep font) anyAction (Terms.init shape addr) s) (mode : TermMode) :
    ((s.term mode).fb.buffered = true →
      (∀ t c u, PrintCall font (s.term mode) t c → termPrint font t c = some u → ScrollLaw t u) ∧
      (ScrollLaw (s.term mode) ((termRefresh font s mode).term mode) ↔
        (RefreshLoses s mode →
          RowBlank (s.term mode) ((s.term mode).height - 1) (s.term mode).bgcolor []))) ∧
    ((s.term mode).fb.buffered = false →
      (∀ t c u, PrintCall font (s.term mode) t c → termPrint font t c = some u → Unshown t u) ∧
      Unshown (s.term mode) ((termRefresh font s mode).term mode)) := by
  have ok := TermsOk.run wide tall run mode
  simp only [termRefresh, Terms.term_set, RefreshLoses]
  refine ⟨fun buffered => ⟨?_, ?_⟩, fun bare => ⟨?_, ?_⟩⟩
  · intro t c u call print
    obtain ⟨fine, same⟩ := call.ok ok
    obtain ⟨after, printed, shown⟩ := termPrint_printed font c fine
    cases print.symm.trans printed
    exact shown.law fine (same.trans buffered)
  · by_cases cursor : mode ≠ .info ∧ s.cursor ≠ 0
    · rw [if_pos cursor, refreshCursor_law_iff ok buffered]
      simp only [cursor, ne_eq, not_false_eq_true, and_self, true_and]
    · rw [if_neg cursor]
      constructor
      · intro _ loses
        exact absurd loses.1 cursor
      · intro _
        exact refreshPlain_law _ _
  · intro t c u call print
    obtain ⟨fine, same⟩ := call.ok ok
    obtain ⟨after, printed, shown⟩ := termPrint_printed font c fine
    cases print.symm.trans printed
    obtain ⟨pixel, drawn⟩ := shown.unbuffered (same.trans bare)
    exact .of_pixel pixel drawn
  · by_cases cursor : mode ≠ .info ∧ s.cursor ≠ 0
    · rw [if_pos cursor]
      exact refreshCursor_unshown ok bare _ _
    · rw [if_neg cursor]
      exact refreshPlain_unshown _ _

end

/-- A line break, four characters of an all-set font, and a text cursor: on a screen of two rows
    of four characters the last line is full. -/
def fullLine : List TermCall :=
  [.buffers, .print .cli 10, .print .cli 65, .print .cli 65, .print .cli 65, .print .cli 65,
    .setCursor 95]

theorem fullLine_reached :
    ∃ s, fullLine.foldlM (termStep fun _ => 255) (Terms.init .tiny fun _ => 0) = some s ∧
      (s.term .cli).fb.buffered = true ∧ (s.term .cli).fb.width = 32 ∧ s.cursor = 95 ∧
      FullLastLine (s.term .cli) ∧ (s.term .cli).height = 2 ∧ (s.term .cli).bgcolor = 0 ∧
      (s.term .cli).fb.pixel 0 16 = 0xC0C0C0 := by
  have facts : (fullLine.foldlM (termStep fun _ => 255) (Terms.init .tiny fun _ => 0)).map
      (fun s => decide ((s.term .cli).fb.buffered = true ∧ (s.term .cli).fb.width = 32 ∧
        s.cursor = 95 ∧ FullLastLine (s.term .cli) ∧ (s.term .cli).height = 2 ∧
        (s.term .cli).bgcolor = 0 ∧ (s.term .cli).fb.pixel 0 16 = 0xC0C0C0)) = some true := by
    decide +kernel
  obtain ⟨s, ran, values⟩ := Option.map_eq_some_iff.mp facts
  exact ⟨s, ran, of_decide_eq_true values⟩

theorem scroll_law_fullLine :
    ∃ s, fullLine.foldlM (termStep fun _ => 255) (Terms.init .tiny fun _ => 0) = some s ∧
      (∀ t c u, PrintCall (fun _ => 255) (s.term .cli) t c → termPrint (fun _ => 255) t c = some u →
        ScrollLaw t u) ∧
      (ScrollLaw (s.term .cli) ((termRefresh (fun _ => 255) s .cli).term .cli) ↔
        (RefreshLoses s .cli →
          RowBlank (s.term .cli) ((s.term .cli).height - 1) (s.term .cli).bgcolor [])) := by
  obtain ⟨s, ran, buffered, _⟩ := fullLine_reached
  exact ⟨s, ran, (scroll_law (by decide) (by decide) (.of_foldlM (fun _ _ => trivial) _ ran)
    .cli).1 buffered⟩

/-- The refresh of that terminal wipes the line out instead of moving it up. -/
theorem refresh_loses_line :
    ∃ s, fullLine.foldlM (termStep fun _ => 255) (Terms.init .tiny fun _ => 0) = some s ∧
      (s.term .cli).fb.buffered = true ∧
      ¬ ScrollLaw (s.term .cli) ((termRefresh (fun _ => 255) s .cli).term .cli) := by
  obtain ⟨s, ran, buffered, width, cursor, full, height, bgcolor, shown⟩ := fullLine_reached
  have ok := TermsOk.run (by decide) (by decide) (.of_foldlM (fun _ _ => trivial) _ ran) .cli
  refine ⟨s, ran, buffered, ?_⟩
  intro law
  rw [termRefresh, Terms.term_set, if_pos ⟨by decide, by rw [cursor]; decide⟩] at law
  have blank := (refreshCursor_law_iff ok buffered _ _).mp law full 0 0 (by rw [width]; decide)
    (by decide) (by simp)
  rw [height, bgcolor] at blank
  exact absurd (shown.symm.trans blank) (by decide)

end HanOS.Device
