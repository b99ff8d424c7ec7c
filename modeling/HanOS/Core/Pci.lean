import HanOS.Foundations.Descent
import Mathlib.Data.Finite.Defs
import Mathlib.Data.Fintype.Card
import Mathlib.Logic.Relation

/-!
# The scan of the PCI buses (`core/pci.c`)

The configuration space is what a read of the data port answers for each value of the address port.
`pci_scan_bus` goes through the devices of a bus, and for a bridge through the bus behind it.  The scan
takes a function for a bridge by its class and by the byte that `pci_read_header` reads, which is that
of the subclass; what a bridge is to the specification is `IsPciBridge`.
-/

namespace HanOS.Core

open HanOS.Foundations

abbrev ConfigSpace := BitVec 32 → BitVec 32

/-- The fields of `pci_device_t` that the scan sets. -/
structure PciDevice where
  bus : BitVec 8
  func : BitVec 8 := 0
  device : BitVec 8
  deviceId : BitVec 16 := 0
  vendorId : BitVec 16 := 0
  multifunction : Bool := false
  deriving DecidableEq, Repr

def maxFunction : Nat := 8

def maxDevice : Nat := 16

/-! ## Registers -/

def pciClassLegacy : BitVec 32 := 0x00

def pciClassPeriherals : BitVec 32 := 0x08

def pciClassSerialBus : BitVec 32 := 0x0c

def pciMakeDeviceId (dev : PciDevice) : BitVec 32 :=
  dev.bus.setWidth 32 <<< 16 ||| dev.device.setWidth 32 <<< 11 ||| dev.func.setWidth 32 <<< 8

def pciInd (config : ConfigSpace) (id offset : BitVec 32) : BitVec 32 :=
  config (0x80000000 ||| id ||| (offset &&& 0xFC))

section Registers

variable (config : ConfigSpace) (dev : PciDevice)

def pciFuncExist : Bool :=
  (pciInd config (pciMakeDeviceId dev) pciClassLegacy &&& 0xFFFF).setWidth 16 ≠ 0xFFFF

def pciReadVendorId : BitVec 16 :=
  (pciInd config (pciMakeDeviceId dev) pciClassLegacy &&& 0xFFFF).setWidth 16

def pciReadDeviceId : BitVec 16 :=
  (pciInd config (pciMakeDeviceId dev) pciClassLegacy >>> 16).setWidth 16

def pciReadClass : BitVec 32 := pciInd config (pciMakeDeviceId dev) pciClassPeriherals >>> 24

def pciReadSubclass : BitVec 32 :=
  pciInd config (pciMakeDeviceId dev) pciClassPeriherals >>> 16 &&& 0xFF

def pciReadHeader : BitVec 32 :=
  pciInd config (pciMakeDeviceId dev) pciClassPeriherals >>> 16 &&& ~~~(1 <<< 7 : BitVec 32) &&& 0xFF

def pciReadSubBus : BitVec 8 :=
  (pciInd config (pciMakeDeviceId dev) 0x18 >>> 8 &&& 0xFF).setWidth 8

def pciIsBridge : Bool := pciReadHeader config dev = 0x1 ∧ pciReadClass config dev = 0x6

/-- `pci_has_multi_func`, which the scan does not ask. -/
def pciHasMultiFunc : Bool :=
  pciInd config (pciMakeDeviceId dev) pciClassSerialBus >>> 16 &&& (1 <<< 7) &&& 0xFF ≠ 0

end Registers

/-! ## The scan -/

/-- The loop over the functions of a device behind its first one. -/
def pciScanFuncs (config : ConfigSpace) (bus dev : BitVec 8) (devices : List PciDevice) :
    List PciDevice :=
  (List.range' 1 (maxFunction - 1)).foldl (fun devices func =>
    let device2 : PciDevice := { bus, func := BitVec.ofNat 8 func, device := dev }
    if pciFuncExist config device2 then
      devices ++ [{ device2 with
        deviceId := pciReadDeviceId config device2, vendorId := pciReadVendorId config device2 }]
    else devices) devices

/-- `pci_scan_device`, with the `pci_scan_bus` it calls. -/
def pciScanDevice (config : ConfigSpace)
    (scanBus : BitVec 8 → List PciDevice → Option (List PciDevice)) (bus dev : BitVec 8)
    (devices : List PciDevice) : Option (List PciDevice) :=
  let device : PciDevice := { bus, device := dev }
  let funcExist := pciFuncExist config device
  let isBridge := pciIsBridge config device
  let hasMultiFunc := pciFuncExist config device
  if funcExist then do
    let devices ←
      if isBridge ∧ pciReadSubBus config device ≠ bus then scanBus (pciReadSubBus config device) devices
      else some devices
    let device := { device with
      multifunction := hasMultiFunc, deviceId := pciReadDeviceId config device,
      vendorId := pciReadVendorId config device }
    let devices := devices ++ [device]
    if device.multifunction then some (pciScanFuncs config bus dev devices) else some devices
  else some devices

/-- `pci_scan_bus`, with a bound on the depth of the recursion. -/
def pciScanBus (config : ConfigSpace) : Nat → BitVec 8 → List PciDevice → Option (List PciDevice)
  | 0, _, _ => none
  | depth + 1, bus, devices => (List.range maxDevice).foldlM (fun devices dev =>
      pciScanDevice config (pciScanBus config depth) bus (BitVec.ofNat 8 dev) devices) devices

def pciInit (config : ConfigSpace) (depth : Nat) : Option (List PciDevice) :=
  pciScanBus config depth 0 []

/-! ## What the specification calls a bridge -/

def pciFunction (bus dev func : BitVec 8) : PciDevice := { bus, func, device := dev }

/-- The function answers, and its device announces it. -/
def Announced (config : ConfigSpace) (bus dev func : BitVec 8) : Prop :=
  pciFuncExist config (pciFunction bus dev func) ∧ func.toNat < maxFunction ∧
    (func ≠ 0 → pciHasMultiFunc config (pciFunction bus dev 0))

def headerType (config : ConfigSpace) (dev : PciDevice) : BitVec 32 :=
  pciInd config (pciMakeDeviceId dev) pciClassSerialBus >>> 16 &&& 0x7F

def IsPciBridge (config : ConfigSpace) (dev : PciDevice) : Prop :=
  pciReadClass config dev = 0x06 ∧ pciReadSubclass config dev = 0x04 ∧ headerType config dev = 0x01

/-- A bridge on the one bus leads to the other. -/
def Bridged (config : ConfigSpace) (bus sub : BitVec 8) : Prop :=
  ∃ dev func, dev.toNat < 32 ∧ Announced config bus dev func ∧
    IsPciBridge config (pciFunction bus dev func) ∧
    pciReadSubBus config (pciFunction bus dev func) = sub

def OnBus (config : ConfigSpace) (bus : BitVec 8) : Prop := Relation.ReflTransGen (Bridged config) 0 bus

def listings (devices : List PciDevice) (bus dev func : BitVec 8) : Nat :=
  devices.countP fun entry => entry.bus = bus ∧ entry.device = dev ∧ entry.func = func

structure Complete (config : ConfigSpace) (devices : List PciDevice) : Prop where
  once : ∀ bus dev func, OnBus config bus → dev.toNat < maxDevice → Announced config bus dev func →
    listings devices bus dev func = 1
  onlyAnnounced : ∀ bus dev func, ¬ pciHasMultiFunc config (pciFunction bus dev 0) → func ≠ 0 →
    listings devices bus dev func = 0

/-! ## The scan as a descent -/

def scanChild (config : ConfigSpace) (bus : BitVec 8) (dev : Nat) : Option (BitVec 8) :=
  let device := pciFunction bus (BitVec.ofNat 8 dev) 0
  if pciFuncExist config device ∧ pciIsBridge config device ∧ pciReadSubBus config device ≠ bus then
    some (pciReadSubBus config device)
  else none

def scanFunc (config : ConfigSpace) (multifunction : Bool) (bus dev func : BitVec 8) :
    List PciDevice :=
  let device := pciFunction bus dev func
  if pciFuncExist config device then
    [{ device with
      multifunction, deviceId := pciReadDeviceId config device,
      vendorId := pciReadVendorId config device }]
  else []

def scanOwn (config : ConfigSpace) (bus : BitVec 8) (dev : Nat) : List PciDevice :=
  let dev := BitVec.ofNat 8 dev
  if pciFuncExist config (pciFunction bus dev 0) then
    scanFunc config true bus dev 0 ++
      (List.range' 1 (maxFunction - 1)).flatMap fun func =>
        scanFunc config false bus dev (BitVec.ofNat 8 func)
  else []

/-- A way of the scan from the first bus, by the numbers of its devices. -/
def ScanWay (config : ConfigSpace) (way : List Nat) (bus : BitVec 8) : Prop :=
  Leads (scanChild config) (List.range maxDevice) 0 way bus

variable {config : ConfigSpace} {bus dev func sub : BitVec 8} {devices : List PciDevice} {depth : Nat}

theorem pciScanFuncs_eq : pciScanFuncs config bus dev devices =
    devices ++ (List.range' 1 (maxFunction - 1)).flatMap fun func =>
      scanFunc config false bus dev (BitVec.ofNat 8 func) := by
  rw [List.flatMap, ← List.foldl_append_eq_append, pciScanFuncs]
  congr 1
  funext devices func
  by_cases present : pciFuncExist config (pciFunction bus dev (BitVec.ofNat 8 func))
  · rw [scanFunc, if_pos present]
    exact if_pos present
  · rw [scanFunc, if_neg present, List.append_nil]
    exact if_neg present

theorem pciScanDevice_eq {scanBus : BitVec 8 → List PciDevice → Option (List PciDevice)} {dev : Nat} :
    pciScanDevice config scanBus bus (BitVec.ofNat 8 dev) devices =
      Option.map (· ++ scanOwn config bus dev)
        (match scanChild config bus dev with
          | none => some devices
          | some sub => scanBus sub devices) := by
  rw [scanOwn, scanChild, pciScanDevice]
  by_cases present : pciFuncExist config (pciFunction bus (BitVec.ofNat 8 dev) 0)
  · have own : ∀ found, pciScanFuncs config bus (BitVec.ofNat 8 dev) (found ++
        [{ bus, device := BitVec.ofNat 8 dev, multifunction := true,
           deviceId := pciReadDeviceId config (pciFunction bus (BitVec.ofNat 8 dev) 0),
           vendorId := pciReadVendorId config (pciFunction bus (BitVec.ofNat 8 dev) 0) }]) =
        found ++ (scanFunc config true bus (BitVec.ofNat 8 dev) 0 ++
          (List.range' 1 (maxFunction - 1)).flatMap fun func =>
            scanFunc config false bus (BitVec.ofNat 8 dev) (BitVec.ofNat 8 func)) := by
      intro found
      rw [pciScanFuncs_eq, List.append_assoc, scanFunc, if_pos present]
      rfl
    simp only [pciFunction] at present own
    simp only [pciFunction, present, if_true, true_and, own]
    split
    · exact (Option.map_eq_bind ..).symm
    · rfl
  · simp only [pciFunction] at present
    simp only [pciFunction, present, Bool.false_eq_true, if_false, false_and, List.append_nil,
      Option.map_some]

theorem pciScanBus_eq : pciScanBus config depth bus devices =
    gather (scanChild config) (scanOwn config) (List.range maxDevice) depth bus devices := by
  induction depth generalizing bus devices with
  | zero => rfl
  | succ depth inductionHypothesis =>
    rw [pciScanBus, gather]
    congr 1
    funext devices dev
    rw [pciScanDevice_eq]
    simp only [inductionHypothesis]
    cases scanChild config bus dev <;> rfl

/-! ## Listings -/

theorem listings_scanFunc {entryBus entryDev number : BitVec 8} {multifunction : Bool} :
    listings (scanFunc config multifunction entryBus entryDev number) bus dev func =
      if entryBus = bus ∧ entryDev = dev ∧ number = func ∧
        pciFuncExist config (pciFunction bus dev func) then 1 else 0 := by
  rw [scanFunc]
  by_cases same : entryBus = bus ∧ entryDev = dev ∧ number = func
  · obtain ⟨rfl, rfl, rfl⟩ := same
    simp only [true_and]
    split <;> simp [listings, pciFunction]
  · have absent : ¬ (entryBus = bus ∧ entryDev = dev ∧ number = func ∧
        pciFuncExist config (pciFunction bus dev func)) := by tauto
    rw [if_neg absent]
    split
    · exact List.countP_eq_zero.mpr (by simpa [pciFunction] using same)
    · rfl

theorem ofNat_eq_iff {number : Nat} (small : number < 256) :
    BitVec.ofNat 8 number = func ↔ number = func.toNat := by
  rw [← BitVec.toNat_inj, BitVec.toNat_ofNat, Nat.mod_eq_of_lt (by omega)]

/-- The functions of the loop have different numbers. -/
theorem listings_scanFuncs {entryBus entryDev : BitVec 8} :
    listings ((List.range' 1 (maxFunction - 1)).flatMap fun number =>
      scanFunc config false entryBus entryDev (BitVec.ofNat 8 number)) bus dev func =
      if entryBus = bus ∧ entryDev = dev ∧ func ≠ 0 ∧ func.toNat < maxFunction ∧
        pciFuncExist config (pciFunction bus dev func) then 1 else 0 := by
  have single := @countP_flatMap_single Nat PciDevice _
    (fun entry => entry.bus = bus ∧ entry.device = dev ∧ entry.func = func)
    (fun number => scanFunc config false entryBus entryDev (BitVec.ofNat 8 number))
    (List.range' 1 (maxFunction - 1)) func.toNat List.nodup_range' (by
      intro other member different
      have small := (List.mem_range'_1.mp member).2
      rw [maxFunction] at small
      refine listings_scanFunc.trans (if_neg ?_)
      rintro ⟨_, _, same, _⟩
      exact different ((ofNat_eq_iff (by omega)).mp same))
  refine single.trans ?_
  have inLoop : func.toNat ∈ List.range' 1 (maxFunction - 1) ↔ func ≠ 0 ∧ func.toNat < maxFunction := by
    have zero : func = 0 ↔ func.toNat = 0 := BitVec.toNat_inj.symm
    rw [List.mem_range'_1, ne_eq, zero, maxFunction]
    omega
  change (if _ then listings _ bus dev func else 0) = _
  rw [listings_scanFunc, BitVec.ofNat_toNat, BitVec.setWidth_eq]
  simp only [inLoop, true_and, ← ite_and]
  congr 1
  simp only [eq_iff_iff]
  tauto

theorem listings_scanOwn {entryBus : BitVec 8} {number : Nat} :
    listings (scanOwn config entryBus number) bus dev func =
      if entryBus = bus ∧ BitVec.ofNat 8 number = dev ∧ func.toNat < maxFunction ∧
        pciFuncExist config (pciFunction bus dev 0) ∧ pciFuncExist config (pciFunction bus dev func)
      then 1 else 0 := by
  rw [scanOwn]
  by_cases present : pciFuncExist config (pciFunction entryBus (BitVec.ofNat 8 number) 0)
  · simp only [if_pos present]
    rw [listings, List.countP_append]
    change listings _ bus dev func + listings _ bus dev func = _
    rw [listings_scanFuncs, listings_scanFunc]
    grind [maxFunction]
  · simp only [if_neg present]
    refine (if_neg ?_).symm
    rintro ⟨rfl, rfl, _, present', _⟩
    exact present present'

def Scanned (config : ConfigSpace) (bus dev func : BitVec 8) : Prop :=
  dev.toNat < maxDevice ∧ func.toNat < maxFunction ∧ pciFuncExist config (pciFunction bus dev 0) ∧
    pciFuncExist config (pciFunction bus dev func)

instance : Decidable (Scanned config bus dev func) := inferInstanceAs (Decidable (_ ∧ _))

theorem listings_entries :
    listings (entries (scanOwn config) (List.range maxDevice) bus) bus dev func =
      if Scanned config bus dev func then 1 else 0 := by
  have single := @countP_flatMap_single Nat PciDevice _
    (fun entry => entry.bus = bus ∧ entry.device = dev ∧ entry.func = func) (scanOwn config bus)
    (List.range maxDevice) dev.toNat List.nodup_range (by
      intro other member different
      have small := List.mem_range.mp member
      rw [maxDevice] at small
      refine listings_scanOwn.trans (if_neg ?_)
      rintro ⟨_, same, _⟩
      exact different ((ofNat_eq_iff (by omega)).mp same))
  refine single.trans ?_
  change (if _ then listings _ bus dev func else 0) = _
  rw [listings_scanOwn, BitVec.ofNat_toNat, BitVec.setWidth_eq, ← ite_and]
  congr 1
  simp only [List.mem_range, true_and, Scanned]

/-- How often the scan has listed a function: once for each way to its bus. -/
theorem listings_pciInit (ended : pciInit config depth = some devices) :
    listings devices bus dev func =
      (tour (scanChild config) (List.range maxDevice) depth 0).countP (·.2 = bus) *
        if Scanned config bus dev func then 1 else 0 := by
  rw [pciInit, pciScanBus_eq] at ended
  rw [← listings_entries, listings, gather_countP ended, List.countP_nil, Nat.zero_add]
  · rfl
  · intro other number entry member counted
    have one := @listings_scanOwn config entry.bus entry.device entry.func other number
    have positive : 0 < listings (scanOwn config other number) entry.bus entry.device entry.func :=
      List.countP_pos_iff.mpr ⟨entry, member, by simp⟩
    rw [one] at positive
    split at positive
    · next same => exact same.1.trans (by simpa using (of_decide_eq_true counted).1)
    · exact absurd positive (Nat.lt_irrefl 0)

/-! ## When the list is complete -/

/-- The functions that the scan takes for bridges lead it round in no circle, exactly one way to each
    bus with something on it, and the devices answer for the functions they announce. -/
structure ScanFits (config : ConfigSpace) : Prop where
  acyclic : Acyclic (scanChild config) (List.range maxDevice) 0
  oneWay : ∀ bus dev func, OnBus config bus → dev.toNat < maxDevice → Announced config bus dev func →
    ∃! way, ScanWay config way bus
  first : ∀ bus dev func, OnBus config bus → dev.toNat < maxDevice → Announced config bus dev func →
    pciFuncExist config (pciFunction bus dev 0)
  single : ∀ way bus dev func, ScanWay config way bus → dev.toNat < maxDevice →
    pciFuncExist config (pciFunction bus dev 0) → ¬ pciHasMultiFunc config (pciFunction bus dev 0) →
    func ≠ 0 → func.toNat < maxFunction → ¬ pciFuncExist config (pciFunction bus dev func)

theorem pciInit_bounded (ended : pciInit config depth = some devices) :
    Bounded (scanChild config) (List.range maxDevice) depth 0 := by
  rw [pciInit, pciScanBus_eq] at ended
  exact bounded_of_gather ended

theorem listings_eq_one (ended : pciInit config depth = some devices) :
    listings devices bus dev func = 1 ↔
      (∃! way, ScanWay config way bus) ∧ Scanned config bus dev func := by
  have ways := @countP_tour_eq_one _ _ (scanChild config) (List.range maxDevice) 0 bus depth _
    List.nodup_range (pciInit_bounded ended)
  rw [listings_pciInit ended, mul_ite, Nat.mul_one, Nat.mul_zero]
  split
  · next asked => rw [ways, and_iff_left asked]; rfl
  · next silent => exact ⟨nofun, fun both => absurd both.2 silent⟩

theorem listings_eq_zero (ended : pciInit config depth = some devices) :
    listings devices bus dev func = 0 ↔
      (∀ way, ¬ ScanWay config way bus) ∨ ¬ Scanned config bus dev func := by
  have ways := @countP_tour_eq_zero _ _ (scanChild config) (List.range maxDevice) 0 bus depth _
    (pciInit_bounded ended)
  rw [listings_pciInit ended, mul_ite, Nat.mul_one, Nat.mul_zero]
  split
  · next asked => rw [ways, or_iff_left (not_not_intro asked)]; rfl
  · next silent => exact iff_of_true rfl (.inr silent)

theorem ScanFits.of_complete (ended : pciInit config depth = some devices)
    (complete : Complete config devices) : ScanFits config where
  acyclic := (pciInit_bounded ended).acyclic
  oneWay bus dev func onBus inRange announced :=
    ((listings_eq_one ended).mp (complete.once bus dev func onBus inRange announced)).1
  first bus dev func onBus inRange announced :=
    ((listings_eq_one ended).mp (complete.once bus dev func onBus inRange announced)).2.2.2.1
  single way bus dev func leads inRange present alone other small answers := by
    obtain never | silent := (listings_eq_zero ended).mp (complete.onlyAnnounced bus dev func alone other)
    · exact never way leads
    · exact silent ⟨inRange, small, present, answers⟩

theorem ScanFits.complete (fits : ScanFits config) (ended : pciInit config depth = some devices) :
    Complete config devices where
  once bus dev func onBus inRange announced := by
    refine (listings_eq_one ended).mpr ⟨fits.oneWay bus dev func onBus inRange announced, inRange,
      announced.2.1, fits.first bus dev func onBus inRange announced, announced.1⟩
  onlyAnnounced bus dev func alone other := by
    rw [listings_eq_zero ended]
    by_contra neither
    rw [not_or, not_not, not_forall] at neither
    obtain ⟨⟨way, leads⟩, inRange, small, present, answers⟩ := neither
    exact fits.single way bus dev func (not_not.mp leads) inRange present alone other small answers

instance byteFinite : Finite (BitVec 8) := Finite.of_injective BitVec.toFin fun _ _ => BitVec.eq_of_toFin_eq

/-- The scan ends with a complete list if and only if the space fits it. -/
theorem pciInit_complete_iff :
    (∃ depth devices, pciInit config depth = some devices ∧ Complete config devices) ↔
      ScanFits config := by
  constructor
  · rintro ⟨depth, devices, ended, complete⟩
    exact .of_complete ended complete
  · intro fits
    obtain ⟨depth, bounded⟩ := fits.acyclic.bounded
    obtain ⟨devices, ended⟩ := @Bounded.gather_ends _ _ _ _ (scanOwn config) _ _ depth [] bounded
    rw [← pciScanBus_eq] at ended
    exact ⟨depth, devices, ended, fits.complete ended⟩

/-! ## A device behind a bridge -/

/-- A bridge to bus 1 as the only device of bus 0, and one device behind it. -/
def oneBridge : ConfigSpace := fun address =>
  if address = 0x80000000 then 0x00018086
  else if address = 0x80000008 then 0x06040000
  else if address = 0x8000000C then 0x00010000
  else if address = 0x80000018 then 0x00000100
  else if address = 0x80010000 then 0x100E8086
  else 0xFFFFFFFF

theorem oneBridge_way {way : List Nat} (leads : ScanWay oneBridge way bus) : bus = 0 := by
  cases leads with
  | here => rfl
  | down index step _ =>
    have none : ∀ dev ∈ List.range maxDevice, scanChild oneBridge 0 dev = none := by decide +kernel
    rw [none _ index] at step
    cases step

theorem oneBridge_bridged : Bridged oneBridge 0 1 := by
  refine ⟨0, 0, ?_⟩
  simp only [Announced, IsPciBridge]
  decide +kernel

/-- The only bridge is the one to bus 1. -/
theorem oneBridge_bridged_only {other : BitVec 8} (bridged : Bridged oneBridge bus other) :
    bus ≠ 1 ∧ other = 1 := by
  obtain ⟨dev, func, _, _, ⟨isBridge, _, _⟩, rfl⟩ := bridged
  have address : 0x80000000 ||| pciMakeDeviceId (pciFunction bus dev func) ||| 0x8 = 0x80000008 := by
    change oneBridge (0x80000000 ||| pciMakeDeviceId (pciFunction bus dev func) ||| 0x8) >>> 24 =
      0x06 at isBridge
    rw [oneBridge] at isBridge
    split_ifs at isBridge <;> first | assumption | exact absurd isBridge (by decide)
  constructor
  · rintro rfl
    have bit := congrArg (·.getLsbD 16) address
    simp [pciMakeDeviceId, pciFunction] at bit
  · have subBus : 0x80000000 ||| pciMakeDeviceId (pciFunction bus dev func) ||| 0x18 = 0x80000018 :=
      calc 0x80000000 ||| pciMakeDeviceId (pciFunction bus dev func) ||| 0x18
        _ = 0x80000000 ||| pciMakeDeviceId (pciFunction bus dev func) ||| 0x8 ||| 0x18 := by
          rw [BitVec.or_assoc _ 0x8]
          rfl
        _ = 0x80000018 := by rw [address]; rfl
    change (oneBridge (0x80000000 ||| pciMakeDeviceId (pciFunction bus dev func) ||| 0x18) >>> 8 &&&
      0xFF).setWidth 8 = 1
    rw [subBus]
    decide

/-- The bridge is not a bridge to the scan, which comes to its end without the device behind it. -/
theorem scan_misses_bridge :
    (∀ bus, ¬ Relation.TransGen (Bridged oneBridge) bus bus) ∧
      ¬ ∃ depth devices, pciInit oneBridge depth = some devices ∧ Complete oneBridge devices := by
  constructor
  · intro bus circle
    obtain ⟨middle, first, rest⟩ := Relation.TransGen.head'_iff.mp circle
    obtain ⟨notOne, rfl⟩ := oneBridge_bridged_only first
    obtain rfl | ⟨next, onward, _⟩ := Relation.ReflTransGen.cases_head rest
    · exact notOne rfl
    · exact (oneBridge_bridged_only onward).1 rfl
  · rintro ⟨depth, devices, ended, complete⟩
    have announced : Announced oneBridge 1 0 0 := by
      simp only [Announced]
      decide +kernel
    obtain ⟨way, leads, _⟩ := (ScanFits.of_complete ended complete).oneWay 1 0 0
      (.single oneBridge_bridged) (by decide) announced
    cases oneBridge_way leads

/-! ## When the scan ends -/

theorem pciScanBus_ends :
    (∃ depth out, pciScanBus config depth bus devices = some out) ↔
      Acyclic (scanChild config) (List.range maxDevice) bus := by
  rw [← bounded_iff_acyclic]
  simp only [pciScanBus_eq, gather_ends_iff]

theorem pciScanDevice_ends {dev : Nat} :
    (∃ depth out, pciScanDevice config (pciScanBus config depth) bus (BitVec.ofNat 8 dev) devices =
        some out) ↔
      ∀ sub, scanChild config bus dev = some sub →
        Acyclic (scanChild config) (List.range maxDevice) sub := by
  simp only [pciScanDevice_eq, Option.map_eq_some_iff]
  cases behind : scanChild config bus dev with
  | none => exact iff_of_true ⟨0, _, devices, rfl, rfl⟩ nofun
  | some sub =>
    have ends := @pciScanBus_ends config sub devices
    constructor
    · rintro ⟨depth, _, out, ended, _⟩ _ ⟨⟩
      exact ends.mp ⟨depth, out, ended⟩
    · intro acyclic
      obtain ⟨depth, out, ended⟩ := ends.mpr (acyclic sub rfl)
      exact ⟨depth, _, out, ended, rfl⟩

/-- The recursion ends if and only if the bridges lead round in no circle; the scan leaves out only
    those that lead back to their own bus. -/
theorem pciScan_ends_iff (config : ConfigSpace) (bus dev : BitVec 8) (devices : List PciDevice) :
    ((∃ depth out, pciScanBus config depth bus devices = some out) ↔
      Acyclic (scanChild config) (List.range maxDevice) bus) ∧
    ((∃ depth out, pciScanDevice config (pciScanBus config depth) bus dev devices = some out) ↔
      ∀ sub, scanChild config bus dev.toNat = some sub →
        Acyclic (scanChild config) (List.range maxDevice) sub) := by
  refine ⟨pciScanBus_ends, ?_⟩
  have device := @pciScanDevice_ends config bus devices dev.toNat
  rwa [BitVec.ofNat_toNat, BitVec.setWidth_eq] at device

/-- A bridge from bus 0 to bus 1, and one back. -/
def twoBridges : ConfigSpace := fun address =>
  if address = 0x80000000 ∨ address = 0x80010000 then 0x00018086
  else if address = 0x80000008 ∨ address = 0x80010008 then 0x06010000
  else if address = 0x80000018 then 0x00000100
  else if address = 0x80010018 then 0x00000000
  else 0xFFFFFFFF

theorem pciInit_twoBridges : ¬ ∃ depth devices, pciInit twoBridges depth = some devices := by
  rintro ⟨depth, devices, ended⟩
  have there : scanChild twoBridges 0 0 = some 1 := by decide +kernel
  have back : scanChild twoBridges 1 0 = some 0 := by decide +kernel
  have round : Leads (scanChild twoBridges) (List.range maxDevice) 0 [0, 0] 0 :=
    .down (by decide) there (.down (by decide) back .here)
  cases (pciInit_bounded ended).acyclic [] 0 [0, 0] .here round

end HanOS.Core
