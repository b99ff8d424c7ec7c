import HanOS.Foundations.Loop
import HanOS.Lib.Klib
import Mathlib.Logic.Function.Basic
import Mathlib.Algebra.Order.Ring.Nat

/-!
# The framebuffer (`device/display/fb.c`)

The operations draw into the back buffer, which is kept here pixel by pixel, each at
the byte offset the code computes for it.  Until `fb_init(fb, NULL)` has made one,
`addr` and `backbuffer` are the same pointer and the operations return at once.
-/

namespace HanOS.Device

open HanOS.Foundations HanOS.Lib

/-- The screen as the boot loader describes it. -/
structure FbShape where
  width : Nat
  height : Nat
  /-- Bytes from one pixel row to the next. -/
  pitch : Nat
  /-- `addr != backbuffer` -/
  buffered : Bool
  wide : 4 * width ≤ pitch
  fits : height * pitch < 2 ^ 32

/-- A call of `fb_putch`, or of `fb_putzh` for a double byte character, at a pixel position. -/
structure Glyph where
  x : Nat
  y : Nat
  double : Bool
  deriving DecidableEq, Repr

structure Fb extends FbShape where
  addr : Nat → UInt32
  backbuffer : Nat → UInt32
  /-- The glyphs drawn so far, a record of the model's own. -/
  drawn : List Glyph

def FbShape.backbufferLen (shape : FbShape) : Nat := shape.height * shape.pitch

def FbShape.offset (shape : FbShape) (x y : Nat) : Nat := shape.pitch * y + 4 * x

def Fb.pixel (fb : Fb) (x y : Nat) : UInt32 := fb.backbuffer (fb.offset x y)

def fbPutpixel (fb : Fb) (x y : Nat) (color : UInt32) : Fb :=
  if fb.buffered then
    if u32 (fb.pitch * y + x * 4) < fb.backbufferLen then
      { fb with
        backbuffer := Function.update fb.backbuffer (u32 (fb.pitch * y) + 4 * x) color }
    else fb
  else fb

def fbGetpixel (fb : Fb) (x y : Nat) : UInt32 :=
  if fb.buffered then
    if u32 (fb.pitch * y + x * 4) < fb.backbufferLen then
      fb.backbuffer (u32 (fb.pitch * y) + 4 * x)
    else 0
  else 0

def Fb.record (fb : Fb) (glyph : Glyph) : Fb := { fb with drawn := fb.drawn ++ [glyph] }

/-- `font` is `asc16_font`, sixteen rows of eight bits for each character. -/
def fbPutch (font : Nat → Nat) (fb : Fb) (x y : Nat) (fgcolor bgcolor : UInt32) (ch : UInt8) :
    Fb :=
  let fb := fb.record ⟨x, y, false⟩
  if fb.buffered then
    forLoop (fun i => forLoop (fun k fb =>
      fbPutpixel fb (u32 (x + k)) (u32 (y + i))
        (if font (ch.toNat * 16 + i) &&& (128 >>> k) ≠ 0 then fgcolor else bgcolor)) 8) 16 fb
  else fb

/-- `fb_putzh`: its body is compiled out, so it draws nothing. -/
def fbPutzh (fb : Fb) (x y : Nat) : Fb := fb.record ⟨x, y, true⟩

/-- `fb_init(fb, NULL)`: the back buffer is allocated and starts as a copy of the screen. -/
def fbInitBuffer (fb : Fb) : Fb :=
  if fb.buffered then fb else { fb with buffered := true, backbuffer := fb.addr }

def fbRefresh (fb : Fb) : Fb :=
  if fb.buffered then
    { fb with
      addr := fun offset =>
        if offset < fb.backbufferLen then fb.backbuffer offset else fb.addr offset }
  else fb

/-- 32 by 32 pixels, two text rows of four characters. -/
def FbShape.tiny : FbShape where
  width := 32
  height := 32
  pitch := 128
  buffered := false
  wide := by decide
  fits := by decide

/-! ## Pixels of the screen -/

section

variable {shape : FbShape} {x y x' y' : Nat}

theorem FbShape.row_bound (shape : FbShape) (low : y < shape.height) :
    shape.pitch * y + shape.pitch ≤ shape.backbufferLen := by
  calc shape.pitch * y + shape.pitch = shape.pitch * (y + 1) := (Nat.mul_succ ..).symm
    _ ≤ shape.pitch * shape.height := Nat.mul_le_mul_left _ low
    _ = shape.backbufferLen := Nat.mul_comm ..

theorem FbShape.offset_lt (left : x < shape.width) (low : y < shape.height) :
    shape.offset x y < shape.backbufferLen := by
  have row := shape.row_bound low
  have wide := shape.wide
  unfold FbShape.offset
  omega

/-- The rows do not overlap: two pixels of the screen at one offset are one pixel. -/
theorem FbShape.offset_inj (left : x < shape.width) (left' : x' < shape.width) :
    shape.offset x y = shape.offset x' y' ↔ x = x' ∧ y = y' := by
  constructor
  · intro same
    have wide := shape.wide
    unfold FbShape.offset at same
    rcases Nat.lt_trichotomy y y' with above | same_row | below
    · have apart : shape.pitch * (y + 1) ≤ shape.pitch * y' := Nat.mul_le_mul_left _ above
      rw [Nat.mul_succ] at apart
      omega
    · subst same_row
      omega
    · have apart : shape.pitch * (y' + 1) ≤ shape.pitch * y := Nat.mul_le_mul_left _ below
      rw [Nat.mul_succ] at apart
      omega
  · rintro ⟨rfl, rfl⟩
    rfl

theorem FbShape.small (shape : FbShape) (left : x < shape.width) (low : y < shape.height) :
    shape.width < 2 ^ 32 ∧ shape.height < 2 ^ 32 := by
  have fits := shape.fits
  have wide := shape.wide
  have across : 1 * shape.pitch ≤ shape.height * shape.pitch :=
    Nat.mul_le_mul_right _ (by omega)
  have down : shape.height * 1 ≤ shape.height * shape.pitch :=
    Nat.mul_le_mul_left _ (by omega)
  omega

/-- On the screen the 32-bit arithmetic of the bounds check is exact. -/
theorem FbShape.checked (left : x < shape.width) (low : y < shape.height) :
    u32 (shape.pitch * y + x * 4) < shape.backbufferLen ∧
      u32 (shape.pitch * y) + 4 * x = shape.offset x y := by
  have inside := shape.offset_lt left low
  have fits : shape.backbufferLen < 2 ^ 32 := shape.fits
  unfold FbShape.offset at inside ⊢
  rw [u32_of_lt (by omega), u32_of_lt (by omega)]
  omega

end

section

variable {fb : Fb} {x y x' y' : Nat} {color : UInt32}

@[simp] theorem fbPutpixel_shape (fb : Fb) (x y : Nat) (color : UInt32) :
    (fbPutpixel fb x y color).toFbShape = fb.toFbShape := by
  unfold fbPutpixel
  split
  · split <;> rfl
  · rfl

@[simp] theorem fbPutpixel_drawn (fb : Fb) (x y : Nat) (color : UInt32) :
    (fbPutpixel fb x y color).drawn = fb.drawn := by
  unfold fbPutpixel
  split
  · split <;> rfl
  · rfl

theorem fbPutpixel_pixel (buffered : fb.buffered = true) (left : x < fb.width)
    (low : y < fb.height) (left' : x' < fb.width) :
    (fbPutpixel fb x y color).pixel x' y' =
      if x' = x ∧ y' = y then color else fb.pixel x' y' := by
  obtain ⟨inside, offset⟩ := FbShape.checked left low
  have same := @FbShape.offset_inj fb.toFbShape x' y' x y left' left
  simp only [fbPutpixel, buffered, inside, if_true, Fb.pixel, offset, Function.update_apply, same]

/-- Without a back buffer nothing is drawn. -/
theorem fbPutpixel_unbuffered (bare : fb.buffered = false) : fbPutpixel fb x y color = fb := by
  simp [fbPutpixel, bare]

theorem fbGetpixel_pixel (buffered : fb.buffered = true) (left : x < fb.width)
    (low : y < fb.height) : fbGetpixel fb x y = fb.pixel x y := by
  obtain ⟨inside, offset⟩ := FbShape.checked left low
  simp only [fbGetpixel, buffered, inside, if_true, Fb.pixel, offset]

@[simp] theorem record_pixel (fb : Fb) (glyph : Glyph) (x y : Nat) :
    (fb.record glyph).pixel x y = fb.pixel x y := rfl

end

/-! ## Drawing a glyph -/

section

variable (font : Nat → Nat) (fb : Fb) (x y : Nat) (fgcolor bgcolor : UInt32) (ch : UInt8)

@[simp] theorem fbPutch_shape :
    (fbPutch font fb x y fgcolor bgcolor ch).toFbShape = fb.toFbShape := by
  unfold fbPutch
  dsimp only
  split
  · apply forLoop_kept Fb.toFbShape
    intro i s
    apply forLoop_kept Fb.toFbShape
    simp
  · rfl

@[simp] theorem fbPutch_drawn :
    (fbPutch font fb x y fgcolor bgcolor ch).drawn = fb.drawn ++ [⟨x, y, false⟩] := by
  unfold fbPutch
  dsimp only
  split
  · apply forLoop_kept Fb.drawn
    intro i s
    apply forLoop_kept Fb.drawn
    simp
  · rfl

theorem fbPutch_unbuffered (bare : fb.buffered = false) :
    (fbPutch font fb x y fgcolor bgcolor ch).pixel = fb.pixel := by
  unfold fbPutch
  dsimp only
  rw [show (fb.record ⟨x, y, false⟩).buffered = false from bare, if_neg (by decide)]
  rfl

/-- A glyph on the screen changes no pixel outside its 8 by 16 cell. -/
theorem fbPutch_pixel {x' y' : Nat} (right : x + 8 ≤ fb.width) (low : y + 16 ≤ fb.height)
    (left' : x' < fb.width)
    (outside : ¬ ((x ≤ x' ∧ x' < x + 8) ∧ y ≤ y' ∧ y' < y + 16)) :
    (fbPutch font fb x y fgcolor bgcolor ch).pixel x' y' = fb.pixel x' y' := by
  unfold fbPutch
  dsimp only
  split
  · rename_i buffered
    have small := fb.small (by omega : x < fb.width) (by omega : y < fb.height)
    let Kept (_ : Nat) (s : Fb) : Prop :=
      s.toFbShape = fb.toFbShape ∧ s.pixel x' y' = fb.pixel x' y'
    suffices kept : Kept 16 _ from kept.2
    apply forLoop_invariant
    · exact ⟨rfl, rfl⟩
    · intro i row s kept
      apply forLoop_invariant Kept kept
      intro k column s ⟨shape, pixel⟩
      refine ⟨by rw [fbPutpixel_shape, shape], ?_⟩
      have at_x : u32 (x + k) = x + k := u32_of_lt (by omega)
      have at_y : u32 (y + i) = y + i := u32_of_lt (by omega)
      rw [at_x, at_y, fbPutpixel_pixel (by rw [shape]; exact buffered) (by rw [shape]; omega)
        (by rw [shape]; omega) (by rw [shape]; exact left'), if_neg (by omega), pixel]
  · rfl

end

end HanOS.Device
