import HanOS.Core.Pci
import HanOS.Foundations.HighBits

/-!
# Base address registers (`core/pci.c`)

`pci_get_bar` writes ones to a register to see which of its bits can be written, and writes back what
was there.  A write changes the bits of a register that are `writable`, and no others.
-/

namespace HanOS.Core

open HanOS.Foundations

def pciConfigBar0 : BitVec 32 := 0x10

def pciBarIo : BitVec 32 := 0x01

def pciBarLowmem : BitVec 32 := 0x02

def pciBar64 : BitVec 32 := 0x04

def pciBarPrefetch : BitVec 32 := 0x08

/-- `pci_bar_t`; `port` is the low half word of the union. -/
structure PciBar where
  address : BitVec 64
  size : BitVec 64
  flags : BitVec 32
  deriving DecidableEq, Repr

def PciBar.port (bar : PciBar) : BitVec 16 := bar.address.setWidth 16

section Probe

variable (writable : BitVec 32 → BitVec 32)

def pciOutd (config : ConfigSpace) (id offset data : BitVec 32) : ConfigSpace :=
  let address := 0x80000000 ||| id ||| (offset &&& 0xFC)
  Function.update config address (config address &&& ~~~writable address ||| data &&& writable address)

def pciReadBar (config : ConfigSpace) (id index : BitVec 32) :
    BitVec 32 × BitVec 32 × ConfigSpace :=
  let reg := pciConfigBar0 + index * 4
  let address := pciInd config id reg
  let config := pciOutd writable config id reg 0xffffffff
  let mask := pciInd config id reg
  (address, mask, pciOutd writable config id reg address)

/-- `pci_get_bar`, on what `bar` holds before. -/
def pciGetBar (bar : PciBar) (config : ConfigSpace) (id index : BitVec 32) : PciBar × ConfigSpace :=
  let (addrLow, maskLow, config) := pciReadBar writable config id index
  if addrLow &&& pciBar64 ≠ 0 then
    let (addrHigh, maskHigh, config) := pciReadBar writable config id (index + 1)
    ({ address := addrHigh.setWidth 64 <<< 32 ||| (addrLow &&& ~~~0xf).setWidth 64
       size := ~~~(maskHigh.setWidth 64 <<< 32 ||| (maskLow &&& ~~~0xf).setWidth 64) + 1
       flags := addrLow &&& 0xf }, config)
  else if addrLow &&& pciBarIo ≠ 0 then
    ({ address := bar.address &&& ~~~0xffff ||| ((addrLow &&& ~~~0x3).setWidth 16).setWidth 64
       size := ((~~~(maskLow &&& ~~~0x3) + 1).setWidth 16).setWidth 64
       flags := addrLow &&& 0x3 }, config)
  else
    ({ address := (addrLow &&& ~~~0xf).setWidth 64
       size := (~~~(maskLow &&& ~~~0xf) + 1).setWidth 64
       flags := addrLow &&& 0xf }, config)

end Probe

/-! ## Registers of the PCI format -/

inductive BarKind
  | io
  | memory32 (lowmem prefetch : Bool)
  | memory64 (prefetch : Bool)
  deriving DecidableEq, Repr

namespace BarKind

def flags : BarKind → BitVec 32
  | io => pciBarIo
  | memory32 lowmem prefetch =>
    (if lowmem then pciBarLowmem else 0) ||| (if prefetch then pciBarPrefetch else 0)
  | memory64 prefetch => pciBar64 ||| (if prefetch then pciBarPrefetch else 0)

def typeBits : BarKind → Nat
  | io => 2
  | memory32 _ _ | memory64 _ => 4

def width : BarKind → Nat
  | io | memory32 _ _ => 32
  | memory64 _ => 64

end BarKind

/-- A base address register, or two of them, as the device has it: `2 ^ order` bytes or ports from an
    aligned base on. -/
structure BaseAddress where
  kind : BarKind
  base : BitVec 64
  order : Nat
  least : kind.typeBits ≤ order
  most : order < kind.width
  aligned : 2 ^ order ∣ base.toNat
  fits : base.toNat < 2 ^ kind.width

namespace BaseAddress

variable (bar : BaseAddress)

def register (id index : BitVec 32) : BitVec 32 :=
  0x80000000 ||| id ||| ((pciConfigBar0 + index * 4) &&& 0xFC)

/-- The registers hold the base and the type bits, and the bits from the size on can be written. -/
structure Wired (writable config : BitVec 32 → BitVec 32) (id index : BitVec 32) : Prop where
  low : config (register id index) = (bar.base ||| bar.kind.flags.setWidth 64).setWidth 32
  lowMask : writable (register id index) = (highBits 64 bar.order).setWidth 32
  high : bar.kind.width = 64 → config (register id (index + 1)) = (bar.base >>> 32).setWidth 32
  highMask : bar.kind.width = 64 →
    writable (register id (index + 1)) = (highBits 64 bar.order >>> 32).setWidth 32

structure ReportedBy (out : PciBar) : Prop where
  flags : out.flags = bar.kind.flags
  size : out.size.toNat = 2 ^ bar.order
  base : if bar.kind = .io then out.port.toNat = bar.base.toNat else out.address = bar.base

end BaseAddress

/-! ## The probe -/

variable {writable : BitVec 32 → BitVec 32} {config : ConfigSpace} {id index : BitVec 32}
  {bar : BaseAddress}

/-- A write of ones, and the word before written back over it. -/
theorem restored (x y : BitVec 32) : (x &&& ~~~y ||| 0xffffffff &&& y) &&& ~~~y ||| x &&& y = x := by
  apply BitVec.eq_of_getLsbD_eq
  intro i below
  simp only [BitVec.getLsbD_or, BitVec.getLsbD_and, BitVec.getLsbD_not, below]
  cases x.getLsbD i <;> cases y.getLsbD i <;> simp

theorem pciReadBar_eq :
    pciReadBar writable config id index =
      (config (BaseAddress.register id index),
        config (BaseAddress.register id index) &&& ~~~writable (BaseAddress.register id index) |||
          writable (BaseAddress.register id index), config) := by
  have read : ∀ config : ConfigSpace, pciInd config id (pciConfigBar0 + index * 4) =
      config (BaseAddress.register id index) := fun _ => rfl
  have write : ∀ (config : ConfigSpace) data,
      pciOutd writable config id (pciConfigBar0 + index * 4) data =
        Function.update config (BaseAddress.register id index)
          (config (BaseAddress.register id index) &&& ~~~writable (BaseAddress.register id index) |||
            data &&& writable (BaseAddress.register id index)) := fun _ _ => rfl
  have ones : 0xffffffff &&& writable (BaseAddress.register id index) =
      writable (BaseAddress.register id index) := BitVec.allOnes_and
  simp only [pciReadBar, read, write, Function.update_self, Function.update_idem, restored,
    Function.update_eq_self]
  rw [ones]

/-! ## What the words say -/

section Words

variable {base : BitVec 64} {flags : BitVec 32} {order types : Nat}

/-- The bits of a base are from the size on, and those of its type below `types`. -/
structure Apart (base : BitVec 64) (flags : BitVec 32) (order types : Nat) : Prop where
  aligned : ∀ i < order, base.getLsbD i = false
  typed : ∀ i, types ≤ i → flags.getLsbD i = false
  least : types ≤ order

theorem Apart.flags_eq (apart : Apart base flags order types) :
    (base ||| flags.setWidth 64).setWidth 32 &&& ~~~highBits 32 types = flags := by
  apply BitVec.eq_of_getLsbD_eq
  intro i below
  have aligned := apart.aligned i
  have typed := apart.typed i
  have least := apart.least
  simp only [BitVec.getLsbD_or, BitVec.getLsbD_and, BitVec.getLsbD_not, BitVec.getLsbD_setWidth,
    getLsbD_highBits, below]
  grind

theorem Apart.base_eq (apart : Apart base flags order types) :
    (base ||| flags.setWidth 64).setWidth 32 &&& highBits 32 types = base.setWidth 32 := by
  apply BitVec.eq_of_getLsbD_eq
  intro i below
  have aligned := apart.aligned i
  have typed := apart.typed i
  have least := apart.least
  simp only [BitVec.getLsbD_or, BitVec.getLsbD_and, BitVec.getLsbD_setWidth, getLsbD_highBits, below]
  grind

theorem Apart.mask_eq (apart : Apart base flags order types) :
    ((base ||| flags.setWidth 64).setWidth 32 &&& ~~~(highBits 64 order).setWidth 32 |||
      (highBits 64 order).setWidth 32) &&& highBits 32 types = highBits 32 order := by
  apply BitVec.eq_of_getLsbD_eq
  intro i below
  have aligned := apart.aligned i
  have typed := apart.typed i
  have least := apart.least
  simp only [BitVec.getLsbD_or, BitVec.getLsbD_and, BitVec.getLsbD_not, BitVec.getLsbD_setWidth,
    getLsbD_highBits, below]
  grind

/-- The mask of the high register has all its bits from the size on. -/
theorem Apart.highMask_eq (apart : Apart base flags order types) :
    (base >>> 32).setWidth 32 &&& ~~~(highBits 64 order >>> 32).setWidth 32 |||
      (highBits 64 order >>> 32).setWidth 32 = (highBits 64 order >>> 32).setWidth 32 := by
  apply BitVec.eq_of_getLsbD_eq
  intro i below
  have aligned := apart.aligned (32 + i)
  simp only [BitVec.getLsbD_or, BitVec.getLsbD_and, BitVec.getLsbD_not, BitVec.getLsbD_setWidth,
    BitVec.getLsbD_ushiftRight, getLsbD_highBits, below]
  grind

end Words

theorem low_half (x : BitVec 64) (y : BitVec 16) :
    (x &&& ~~~0xffff ||| y.setWidth 64).setWidth 16 = y := by
  apply BitVec.eq_of_getLsbD_eq
  intro i below
  have ones : (0xffff : BitVec 64) = ~~~highBits 64 16 := by decide
  rw [ones]
  simp only [BitVec.getLsbD_or, BitVec.getLsbD_and, BitVec.getLsbD_not, BitVec.getLsbD_setWidth,
    getLsbD_highBits, below]
  grind

theorem halves (x : BitVec 64) :
    ((x >>> 32).setWidth 32).setWidth 64 <<< 32 ||| (x.setWidth 32).setWidth 64 = x := by
  apply BitVec.eq_of_getLsbD_eq
  intro i below
  simp only [BitVec.getLsbD_or, BitVec.getLsbD_setWidth, BitVec.getLsbD_shiftLeft,
    BitVec.getLsbD_ushiftRight, below]
  grind

theorem BaseAddress.apart : Apart bar.base bar.kind.flags bar.order bar.kind.typeBits where
  aligned _ below := getLsbD_of_aligned bar.aligned below
  typed i above := by
    have small : bar.kind.flags.toNat < 2 ^ bar.kind.typeBits := by
      cases bar.kind with
      | io => decide
      | memory32 lowmem prefetch => cases lowmem <;> cases prefetch <;> decide
      | memory64 prefetch => cases prefetch <;> decide
    rw [← BitVec.testBit_toNat]
    exact Nat.testBit_lt_two_pow (small.trans_le (Nat.pow_le_pow_right (by decide) above))
  least := bar.least

theorem not_fifteen : ~~~(0xf : BitVec 32) = highBits 32 4 := by decide

theorem not_three : ~~~(0x3 : BitVec 32) = highBits 32 2 := by decide

theorem fifteen : (0xf : BitVec 32) = ~~~highBits 32 4 := by decide

theorem three : (0x3 : BitVec 32) = ~~~highBits 32 2 := by decide

theorem and_twoPow_ne {x : BitVec 32} {i : Nat} (small : i < 32) :
    x &&& BitVec.twoPow 32 i ≠ 0 ↔ x.getLsbD i := by
  rw [BitVec.and_twoPow]
  split
  · next set =>
    refine iff_of_true (fun zero => ?_) set
    have bit := congrArg (BitVec.getLsbD · i) zero
    simp [small] at bit
  · next clear => exact iff_of_false (fun differs => differs rfl) clear

theorem bar64_ne {x : BitVec 32} : x &&& pciBar64 ≠ 0 ↔ x.getLsbD 2 :=
  @and_twoPow_ne x 2 (by decide)

theorem barIo_ne {x : BitVec 32} : x &&& pciBarIo ≠ 0 ↔ x.getLsbD 0 :=
  @and_twoPow_ne x 0 (by decide)

theorem pciReadBar_wired (wired : bar.Wired writable config id index) :
    pciReadBar writable config id index =
      ((bar.base ||| bar.kind.flags.setWidth 64).setWidth 32,
        (bar.base ||| bar.kind.flags.setWidth 64).setWidth 32 &&&
          ~~~(highBits 64 bar.order).setWidth 32 ||| (highBits 64 bar.order).setWidth 32, config) := by
  rw [pciReadBar_eq, wired.low, wired.lowMask]

/-- `pci_get_bar` leaves every register as it was. -/
theorem pciGetBar_config (writable : BitVec 32 → BitVec 32) (out : PciBar) :
    (pciGetBar writable out config id index).2 = config := by
  simp only [pciGetBar, pciReadBar_eq]
  split_ifs <;> rfl

theorem word_bit {i : Nat} (small : i < 32) :
    ((bar.base ||| bar.kind.flags.setWidth 64).setWidth 32).getLsbD i =
      (bar.base.getLsbD i || bar.kind.flags.getLsbD i) := by
  simp only [BitVec.getLsbD_setWidth, BitVec.getLsbD_or]
  grind

theorem toNat_one_shift {w k : Nat} (below : k < w) : (1#w <<< k).toNat = 2 ^ k := by
  have small : 2 ^ k < 2 ^ w := Nat.pow_lt_pow_right (by decide) below
  have one : 1 < 2 ^ w := Nat.one_lt_two_pow (by omega)
  rw [BitVec.toNat_shiftLeft, Nat.shiftLeft_eq, BitVec.toNat_ofNat, Nat.mod_eq_of_lt one, Nat.one_mul,
    Nat.mod_eq_of_lt small]

theorem pciGetBar_memory64 {prefetch : Bool} (kind : bar.kind = .memory64 prefetch)
    (wired : bar.Wired writable config id index) (out : PciBar) :
    bar.ReportedBy (pciGetBar writable out config id index).1 := by
  have apart := bar.apart
  have is64 : bar.kind.width = 64 := by rw [kind]; rfl
  have types : bar.kind.typeBits = 4 := by rw [kind]; rfl
  have flag : bar.kind.flags.getLsbD 2 = true := by rw [kind]; cases prefetch <;> rfl
  have small : bar.order < 64 := is64 ▸ bar.most
  rw [types] at apart
  have bit : (bar.base ||| bar.kind.flags.setWidth 64).setWidth 32 &&& pciBar64 ≠ 0 := by
    rw [bar64_ne, word_bit (by decide), flag, Bool.or_true]
  simp only [pciGetBar, pciReadBar_wired wired, if_pos bit]
  rw [pciReadBar_eq, wired.high is64, wired.highMask is64, apart.highMask_eq, not_fifteen, fifteen,
    apart.base_eq, apart.mask_eq, apart.flags_eq]
  have mask : (highBits 32 bar.order : BitVec 32) = (highBits 64 bar.order).setWidth 32 :=
    (setWidth_highBits (by decide)).symm
  exact {
    flags := rfl
    size := by
      dsimp only
      rw [mask, halves, not_highBits_add_one, toNat_one_shift small]
    base := by
      rw [if_neg (by rw [kind]; nofun)]
      exact halves bar.base }

theorem pciGetBar_memory32 {lowmem prefetch : Bool} (kind : bar.kind = .memory32 lowmem prefetch)
    (wired : bar.Wired writable config id index) (out : PciBar) :
    bar.ReportedBy (pciGetBar writable out config id index).1 := by
  have apart := bar.apart
  have width : bar.kind.width = 32 := by rw [kind]; rfl
  have types : bar.kind.typeBits = 4 := by rw [kind]; rfl
  have small : bar.order < 32 := width ▸ bar.most
  have fits : bar.base.toNat < 2 ^ 32 := width ▸ bar.fits
  rw [types] at apart
  have flags : bar.kind.flags.getLsbD 0 = false ∧ bar.kind.flags.getLsbD 2 = false := by
    rw [kind]
    cases lowmem <;> cases prefetch <;> decide
  have least := apart.least
  have not64 : ¬ ((bar.base ||| bar.kind.flags.setWidth 64).setWidth 32 &&& pciBar64 ≠ 0) := by
    rw [bar64_ne, word_bit (by decide), flags.2, apart.aligned 2 (by omega)]
    decide
  have notIo : ¬ ((bar.base ||| bar.kind.flags.setWidth 64).setWidth 32 &&& pciBarIo ≠ 0) := by
    rw [barIo_ne, word_bit (by decide), flags.1, apart.aligned 0 (by omega)]
    decide
  simp only [pciGetBar, pciReadBar_wired wired, if_neg not64, if_neg notIo]
  rw [not_fifteen, fifteen, apart.base_eq, apart.mask_eq, apart.flags_eq]
  exact {
    flags := rfl
    size := by
      dsimp only
      rw [not_highBits_add_one, BitVec.toNat_setWidth, toNat_one_shift small, Nat.mod_eq_of_lt]
      exact Nat.pow_lt_pow_right (by decide) (by omega)
    base := by
      rw [if_neg (by rw [kind]; nofun)]
      apply BitVec.eq_of_toNat_eq
      rw [BitVec.toNat_setWidth, BitVec.toNat_setWidth, Nat.mod_eq_of_lt fits, Nat.mod_eq_of_lt]
      omega }

/-- The port and the size are half words, and bit 2 of the base is taken for that of the type. -/
theorem pciGetBar_io (kind : bar.kind = .io) (wired : bar.Wired writable config id index)
    (out : PciBar) :
    bar.ReportedBy (pciGetBar writable out config id index).1 ↔
      bar.base.getLsbD 2 = false ∧ bar.base.toNat < 2 ^ 16 ∧ 2 ^ bar.order < 2 ^ 16 := by
  have apart := bar.apart
  have width : bar.kind.width = 32 := by rw [kind]; rfl
  have types : bar.kind.typeBits = 2 := by rw [kind]; rfl
  have flags : bar.kind.flags = 1 := by rw [kind]; rfl
  have small : bar.order < 32 := width ▸ bar.most
  have fits : bar.base.toNat < 2 ^ 32 := width ▸ bar.fits
  rw [types] at apart
  cases bit : bar.base.getLsbD 2 with
  | true =>
    -- bit 2 of the base is read as that of a 64-bit type
    have word : ((bar.base ||| bar.kind.flags.setWidth 64).setWidth 32).getLsbD 2 = true := by
      rw [word_bit (by decide), bit, Bool.true_or]
    refine iff_of_false (fun reported => ?_) nofun
    have wrong := reported.flags
    simp only [pciGetBar, pciReadBar_wired wired, if_pos (bar64_ne.mpr word)] at wrong
    have set := congrArg (BitVec.getLsbD · 2) wrong
    rw [BitVec.getLsbD_and, word, flags] at set
    exact absurd set (by decide)
  | false =>
    -- the branch for ports, which stores half words
    have not64 : ¬ ((bar.base ||| bar.kind.flags.setWidth 64).setWidth 32 &&& pciBar64 ≠ 0) := by
      rw [bar64_ne, word_bit (by decide), bit, flags]
      decide
    have isIo : (bar.base ||| bar.kind.flags.setWidth 64).setWidth 32 &&& pciBarIo ≠ 0 := by
      rw [barIo_ne, word_bit (by decide), flags]
      exact Bool.or_true _
    have result : (pciGetBar writable out config id index).1 =
        { address := out.address &&& ~~~0xffff ||| ((bar.base.setWidth 32).setWidth 16).setWidth 64
          size := ((1#32 <<< bar.order).setWidth 16).setWidth 64
          flags := bar.kind.flags } := by
      simp only [pciGetBar, pciReadBar_wired wired, if_neg not64, if_pos isIo]
      rw [not_three, three, apart.base_eq, apart.mask_eq, apart.flags_eq, not_highBits_add_one]
    have port : (pciGetBar writable out config id index).1.port.toNat = bar.base.toNat % 2 ^ 16 := by
      rw [result, PciBar.port, low_half, BitVec.toNat_setWidth, BitVec.toNat_setWidth,
        Nat.mod_eq_of_lt fits]
    have size : (pciGetBar writable out config id index).1.size.toNat = 2 ^ bar.order % 2 ^ 16 := by
      rw [result]
      dsimp only
      rw [BitVec.toNat_setWidth, BitVec.toNat_setWidth, toNat_one_shift small,
        Nat.mod_eq_of_lt ((Nat.mod_lt _ (by decide)).trans (by decide))]
    constructor
    · intro reported
      have base := reported.base
      rw [if_pos kind, port] at base
      exact ⟨rfl, Nat.mod_eq_iff_lt (by decide) |>.mp base,
        Nat.mod_eq_iff_lt (by decide) |>.mp (size.symm.trans reported.size)⟩
    · rintro ⟨_, inPorts, fewPorts⟩
      exact {
        flags := by rw [result]
        size := size.trans (Nat.mod_eq_of_lt fewPorts)
        base := by rw [if_pos kind, port, Nat.mod_eq_of_lt inPorts] }

/-! ## Any base address register -/

/-- The registers always have what they had before; kind, base and size are right for all memory, and for
    ports if the base and the size are half words and bit 2 of the base is clear. -/
theorem pciGetBar_iff (wired : bar.Wired writable config id index) (out : PciBar) :
    (bar.ReportedBy (pciGetBar writable out config id index).1 ∧
      (pciGetBar writable out config id index).2 = config) ↔
    (bar.kind = .io →
      bar.base.getLsbD 2 = false ∧ bar.base.toNat < 2 ^ 16 ∧ 2 ^ bar.order < 2 ^ 16) := by
  rw [and_iff_left (pciGetBar_config writable out)]
  cases kind : bar.kind with
  | io =>
    have ports := pciGetBar_io kind wired out
    exact ⟨fun reported _ => ports.mp reported, fun fitting => ports.mpr (fitting rfl)⟩
  | memory32 lowmem prefetch => exact iff_of_true (pciGetBar_memory32 kind wired out) nofun
  | memory64 prefetch => exact iff_of_true (pciGetBar_memory64 kind wired out) nofun

def fourPorts (base : BitVec 64) (aligned : 2 ^ 2 ∣ base.toNat) (fits : base.toNat < 2 ^ 32) :
    BaseAddress :=
  ⟨.io, base, 2, by decide, by decide, aligned, fits⟩

/-- A configuration space with one register of four ports. -/
def portConfig (base : BitVec 32) : ConfigSpace := fun address =>
  if address = 0x80000010 then base ||| 1 else 0

def portWritable : BitVec 32 → BitVec 32 := fun address =>
  if address = 0x80000010 then 0xFFFFFFFC else 0

theorem pciGetBar_iff_c000 :
    ((fourPorts 0xC000 (by decide) (by decide)).ReportedBy
        (pciGetBar portWritable ⟨0, 0, 0⟩ (portConfig 0xC000) 0 0).1 ∧
      (pciGetBar portWritable ⟨0, 0, 0⟩ (portConfig 0xC000) 0 0).2 = portConfig 0xC000) ↔
    ((fourPorts 0xC000 (by decide) (by decide)).kind = .io →
      (0xC000 : BitVec 64).getLsbD 2 = false ∧ (0xC000 : BitVec 64).toNat < 2 ^ 16 ∧ 2 ^ 2 < 2 ^ 16) :=
  @pciGetBar_iff portWritable (portConfig 0xC000) 0 0 (fourPorts 0xC000 (by decide) (by decide))
    ⟨by decide, by decide, by decide, by decide⟩ ⟨0, 0, 0⟩

/-- Four ports at 0xC004 are taken for memory. -/
theorem pciGetBar_c004 :
    (fourPorts 0xC004 (by decide) (by decide)).Wired portWritable (portConfig 0xC004) 0 0 ∧
      ¬ (fourPorts 0xC004 (by decide) (by decide)).ReportedBy
        (pciGetBar portWritable ⟨0, 0, 0⟩ (portConfig 0xC004) 0 0).1 := by
  refine ⟨⟨by decide, by decide, by decide, by decide⟩, fun reported => ?_⟩
  exact absurd reported.flags (by decide)

end HanOS.Core
