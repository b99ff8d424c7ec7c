import Mathlib.Algebra.Order.Ring.Nat
import Mathlib.Logic.Function.Basic
import Mathlib.Tactic.Ring

/-!
# Byte-addressed memory

Memory is a total function from addresses to bytes; an object is an address range
of it.  Little-endian words of any width are read and written with `loadLE` and
`storeLE`, ranges are set with `fill` and copied with `blit`, byte for byte with `copyUp`.
Every operation comes with what it does inside its range and with a frame lemma for the
rest.
-/

namespace HanOS.Foundations

abbrev Byte := BitVec 8

abbrev Mem := Nat → Byte

/-- The little-endian word of `width` bytes at `a`. -/
def loadLE (m : Mem) (a : Nat) : Nat → Nat
  | 0 => 0
  | width + 1 => (m a).toNat + 256 * loadLE m (a + 1) width

def storeLE (m : Mem) (a width value : Nat) : Mem := fun x =>
  if a ≤ x ∧ x < a + width then BitVec.ofNat 8 (value / 256 ^ (x - a)) else m x

def fill (m : Mem) (a length : Nat) (byte : Byte) : Mem := fun x =>
  if a ≤ x ∧ x < a + length then byte else m x

/-- `length` bytes of `source` from `b` on, copied into `m` at `a`. -/
def blit (m : Mem) (a : Nat) (source : Mem) (b length : Nat) : Mem := fun x =>
  if a ≤ x ∧ x < a + length then source (b + (x - a)) else m x

/-- `length` bytes from `b` on, copied one after the other to `a` in the same memory. -/
def copyUp (m : Mem) (a b : Nat) : Nat → Mem
  | 0 => m
  | length + 1 => copyUp (Function.update m a (m b)) (a + 1) (b + 1) length

variable {m m' source : Mem} {a b x width width' length value : Nat} {byte : Byte}

/-! ## Inside and outside the range -/

theorem storeLE_outside (outside : x < a ∨ a + width ≤ x) :
    storeLE m a width value x = m x := by
  rw [storeLE, if_neg (by omega)]

theorem fill_inside (low : a ≤ x) (high : x < a + length) : fill m a length byte x = byte := by
  rw [fill, if_pos ⟨low, high⟩]

theorem fill_outside (outside : x < a ∨ a + length ≤ x) : fill m a length byte x = m x := by
  rw [fill, if_neg (by omega)]

theorem blit_inside (low : a ≤ x) (high : x < a + length) :
    blit m a source b length x = source (b + (x - a)) := by
  rw [blit, if_pos ⟨low, high⟩]

theorem blit_outside (outside : x < a ∨ a + length ≤ x) : blit m a source b length x = m x := by
  rw [blit, if_neg (by omega)]

/-- Copied downwards, a byte is read before it is overwritten. -/
theorem copyUp_eq_blit (down : a < b) : copyUp m a b length = blit m a m b length := by
  induction length generalizing m a b with
  | zero =>
    funext x
    rw [copyUp, blit_outside (by omega)]
  | succ length inductionHypothesis =>
    funext x
    rw [copyUp, inductionHypothesis (by omega)]
    by_cases inside : a ≤ x ∧ x < a + (length + 1)
    · rw [blit_inside inside.1 inside.2]
      by_cases first : x = a
      · subst first
        rw [blit_outside (by omega), Function.update_self, Nat.sub_self, Nat.add_zero]
      · rw [blit_inside (by omega) (by omega), Function.update_of_ne (by omega)]
        congr 1
        omega
    · rw [blit_outside (by omega), blit_outside (by omega), Function.update_of_ne (by omega)]

/-! ## Words -/

/-- A word is the same wherever its bytes are. -/
theorem loadLE_shift (same : ∀ i < width, m (a + i) = m' (b + i)) :
    loadLE m a width = loadLE m' b width := by
  induction width generalizing a b with
  | zero => rfl
  | succ width inductionHypothesis =>
    have first : m a = m' b := same 0 (by omega)
    have rest : ∀ i < width, m (a + 1 + i) = m' (b + 1 + i) := by
      intro i below
      have next := same (i + 1) (by omega)
      rwa [show a + 1 + i = a + (i + 1) by omega, show b + 1 + i = b + (i + 1) by omega]
    rw [loadLE, loadLE, first, inductionHypothesis rest]

theorem loadLE_congr (same : ∀ x, a ≤ x → x < a + width → m x = m' x) :
    loadLE m a width = loadLE m' a width :=
  loadLE_shift fun i below => same (a + i) (by omega) (by omega)

theorem loadLE_lt : loadLE m a width < 256 ^ width := by
  induction width generalizing a with
  | zero => simp [loadLE]
  | succ width inductionHypothesis =>
    have low := (m a).isLt
    have high := inductionHypothesis (a := a + 1)
    rw [loadLE, pow_succ]
    omega

/-- A word is determined by its bytes. -/
theorem loadLE_eq_mod (bytes : ∀ i, i < width → m (a + i) = BitVec.ofNat 8 (value / 256 ^ i)) :
    loadLE m a width = value % 256 ^ width := by
  induction width generalizing a value with
  | zero => simp [loadLE, Nat.mod_one]
  | succ width inductionHypothesis =>
    have head := bytes 0 (by omega)
    have tail : loadLE m (a + 1) width = value / 256 % 256 ^ width := by
      apply inductionHypothesis
      intro i bound
      have next := bytes (i + 1) (by omega)
      rw [Nat.div_div_eq_div_mul, ← pow_succ', ← next]
      congr 1
      omega
    rw [Nat.add_zero, pow_zero, Nat.div_one] at head
    rw [loadLE, head, tail, BitVec.toNat_ofNat, show 2 ^ 8 = 256 from rfl, ← Nat.mod_mul,
      ← pow_succ']

theorem byte_of_loadLE {i : Nat} (inside : i < width) :
    m (a + i) = BitVec.ofNat 8 (loadLE m a width / 256 ^ i) := by
  induction i generalizing a width with
  | zero =>
    obtain ⟨width, rfl⟩ := Nat.exists_eq_succ_of_ne_zero (Nat.ne_of_gt inside)
    refine BitVec.eq_of_toNat_eq ?_
    rw [loadLE, BitVec.toNat_ofNat, pow_zero, Nat.div_one, Nat.add_zero, Nat.add_mul_mod_self_left]
    exact (Nat.mod_eq_of_lt (m a).isLt).symm
  | succ i inductionHypothesis =>
    obtain ⟨width, rfl⟩ := Nat.exists_eq_succ_of_ne_zero (Nat.ne_of_gt (Nat.zero_lt_of_lt inside))
    rw [loadLE, pow_succ', ← Nat.div_div_eq_div_mul, Nat.add_mul_div_left _ _ (by omega),
      Nat.div_eq_of_lt (m a).isLt, Nat.zero_add,
      ← inductionHypothesis (Nat.lt_of_succ_lt_succ inside), Nat.add_right_comm, Nat.add_assoc]

theorem storeLE_congr {value' : Nat} (same : value % 256 ^ width = value' % 256 ^ width) :
    storeLE m a width value = storeLE m a width value' := by
  have digit : ∀ n i, i < width → n / 256 ^ i % 256 = n % 256 ^ width / 256 ^ i % 256 := by
    intro n i below
    have split : 256 ^ width = 256 ^ i * 256 ^ (width - i) := by
      rw [← pow_add, Nat.add_sub_cancel' below.le]
    rw [split, Nat.mod_mul_right_div_self, Nat.mod_mod_of_dvd]
    exact dvd_pow_self 256 (by omega)
  funext x
  rw [storeLE, storeLE]
  split
  · next inside =>
    refine BitVec.eq_of_toNat_eq ?_
    rw [BitVec.toNat_ofNat, BitVec.toNat_ofNat, show 2 ^ 8 = 256 from rfl,
      digit value _ (by omega), digit value' _ (by omega), same]
  · rfl

theorem storeLE_self (here : value % 256 ^ width = loadLE m a width) :
    storeLE m a width value = m := by
  have same : value % 256 ^ width = loadLE m a width % 256 ^ width := by
    rw [here, Nat.mod_eq_of_lt loadLE_lt]
  rw [storeLE_congr same]
  funext x
  rw [storeLE]
  split
  · next inside =>
    rw [← byte_of_loadLE (by omega), Nat.add_sub_cancel' inside.1]
  · rfl

theorem blit_self (here : ∀ x, a ≤ x → x < a + length → source (b + (x - a)) = m x) :
    blit m a source b length = m := by
  funext x
  rw [blit]
  split
  · next inside => exact here x inside.1 inside.2
  · rfl

/-- A word stored and then copied. -/
theorem blit_storeLE {c : Nat} (low : b ≤ c) (high : c + width ≤ b + length) :
    blit m a (storeLE source c width value) b length =
      storeLE (blit m a source b length) (a + (c - b)) width value := by
  funext x
  by_cases inWord : a + (c - b) ≤ x ∧ x < a + (c - b) + width
  · have within : c ≤ b + (x - a) ∧ b + (x - a) < c + width := by omega
    rw [blit_inside (by omega) (by omega), storeLE, storeLE, if_pos within, if_pos inWord]
    congr 3
    omega
  · rw [storeLE_outside (a := a + (c - b)) (by omega)]
    by_cases inRange : a ≤ x ∧ x < a + length
    · rw [blit_inside inRange.1 inRange.2, blit_inside inRange.1 inRange.2,
        storeLE_outside (by omega)]
    · rw [blit_outside (by omega), blit_outside (by omega)]

theorem loadLE_storeLE : loadLE (storeLE m a width value) a width = value % 256 ^ width := by
  apply loadLE_eq_mod
  intro i bound
  rw [storeLE, if_pos (by omega)]
  congr 3
  omega

theorem loadLE_storeLE_of_lt (fits : value < 256 ^ width) :
    loadLE (storeLE m a width value) a width = value := by
  rw [loadLE_storeLE, Nat.mod_eq_of_lt fits]

theorem loadLE_storeLE_disjoint (disjoint : b + width' ≤ a ∨ a + width ≤ b) :
    loadLE (storeLE m a width value) b width' = loadLE m b width' :=
  loadLE_congr fun _ _ _ => storeLE_outside (by omega)

theorem loadLE_fill_zero (low : a ≤ b) (high : b + width ≤ a + length) :
    loadLE (fill m a length 0) b width = 0 := by
  have zero := @loadLE_eq_mod (fill m a length 0) b width 0
    (fun i bound => by rw [fill_inside (by omega) (by omega), Nat.zero_div]; rfl)
  rwa [Nat.zero_mod] at zero

theorem loadLE_blit_disjoint (disjoint : x + width ≤ a ∨ a + length ≤ x) :
    loadLE (blit m a source b length) x width = loadLE m x width :=
  loadLE_congr fun _ _ _ => blit_outside (by omega)

theorem loadLE_blit (low : a ≤ x) (high : x + width ≤ a + length) :
    loadLE (blit m a source b length) x width = loadLE source (b + (x - a)) width := by
  induction width generalizing x with
  | zero => rfl
  | succ width inductionHypothesis =>
    rw [loadLE, loadLE, blit_inside low (by omega), inductionHypothesis (by omega) (by omega)]
    congr 3
    omega

/-- A word is copied as its bytes are. -/
theorem storeLE_loadLE : storeLE m a width (loadLE source b width) = blit m a source b width := by
  funext x
  rw [storeLE, blit]
  split
  · next inside => exact (byte_of_loadLE (by omega)).symm
  · rfl

theorem blit_append {more : Nat} :
    blit (blit m a source b length) (a + length) source (b + length) more =
      blit m a source b (length + more) := by
  funext x
  by_cases first : x < a + length
  · rw [blit_outside (by omega)]
    by_cases inside : a ≤ x
    · rw [blit_inside inside first, blit_inside inside (by omega)]
    · rw [blit_outside (by omega), blit_outside (by omega)]
  · by_cases inside : x < a + (length + more)
    · rw [blit_inside (by omega) (by omega), blit_inside (by omega) inside]
      congr 1
      omega
    · rw [blit_outside (by omega), blit_outside (by omega), blit_outside (by omega)]

/-- A range copied by way of another memory. -/
theorem blit_blit {c : Nat} {between : Mem} :
    blit m a (blit between c source b length) c length = blit m a source b length := by
  funext x
  by_cases inside : a ≤ x ∧ x < a + length
  · rw [blit_inside inside.1 inside.2, blit_inside inside.1 inside.2, blit_inside (by omega) (by omega),
      Nat.add_sub_cancel_left]
  · rw [blit_outside (by omega), blit_outside (by omega)]

end HanOS.Foundations
