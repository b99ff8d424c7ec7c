import HanOS.Foundations.ByteMem
import HanOS.Foundations.Fuel

/-!
# The ATA driver (`device/storage/ata.h`, `ata.c`)

The driver moves sectors through the registers of a channel with two drives.  The side of the drives
is what their interface promises: a command makes the drive of `hddevsel` busy for as long as it
takes, then it asks for the words of one sector after the other, and it reports an error instead of
a sector it has no data for.

* A drive that was given something to do shows so within 400 nanoseconds, the time of four accesses;
  until then, while it is busy, and out of turn, an access is undefined.  `undefined` is such an
  access.
* `io_base + ATA_REG_ALTSTATUS` is a port of no drive, and reading it only takes its time.
* The busy times are arbitrary, and so are the bad sectors.  A sector that cannot be written is an
  error after its words were taken.
-/

namespace HanOS.Device

open HanOS.Foundations

/-! ## The drives -/

structure AtaMedia where
  sectors : Nat
  bad : Nat → Bool
  data : Mem

def ataErIdnf : UInt8 := 0x10

def ataErUnc : UInt8 := 0x40

/-- A sector behind the last one, or behind the last number of 28 bits. -/
def AtaMedia.absent (media : AtaMedia) (lba : Nat) : Bool := decide (min media.sectors (2 ^ 28) ≤ lba)

/-- What a drive reports instead of the words of a sector. -/
def AtaMedia.readFault (media : AtaMedia) (lba : Nat) : Option UInt8 :=
  if media.absent lba then some ataErIdnf else if media.bad lba then some ataErUnc else none

def AtaMedia.store (media : AtaMedia) (lba : Nat) (buffer : Mem) : AtaMedia :=
  { media with data := blit media.data (lba * 512) buffer 0 512 }

/-- What a drive does when it is no longer busy; `todo` sectors are still to be transferred. -/
inductive AtaWork
  | rest
  | fetch (lba todo : Nat)
  | accept (lba todo : Nat)
  | store (lba todo : Nat) (buffer : Mem)

inductive AtaPhase
  /-- No command is being executed; the last one may have ended with an error. -/
  | idle (error : Option UInt8)
  | busy (left : Nat) (work : AtaWork)
  | dataIn (lba todo word : Nat)
  | dataOut (lba todo word : Nat) (buffer : Mem)

structure AtaChannel where
  /-- The slave is `media true`. -/
  media : Bool → AtaMedia
  seccount0 : UInt8
  lba0 : UInt8
  lba1 : UInt8
  lba2 : UInt8
  hddevsel : UInt8
  phase : AtaPhase
  /-- The accesses until the status is valid. -/
  settle : Nat
  /-- How often the status is read in each of the busy times. -/
  delays : Nat → Nat
  waits : Nat

namespace AtaChannel

def selected (c : AtaChannel) : Bool := decide (c.hddevsel &&& 0x10 ≠ 0)

def medium (c : AtaChannel) : AtaMedia := c.media c.selected

def lba (c : AtaChannel) : Nat :=
  (c.hddevsel &&& 0x0F).toNat * 2 ^ 24 + c.lba2.toNat * 2 ^ 16 + c.lba1.toNat * 2 ^ 8 + c.lba0.toNat

/-- No sectors at all are 256 sectors. -/
def count (c : AtaChannel) : Nat := if c.seccount0 = 0 then 256 else c.seccount0.toNat

def tick (c : AtaChannel) : AtaChannel := { c with settle := c.settle - 1 }

def start (c : AtaChannel) (work : AtaWork) : AtaChannel :=
  { c with phase := .busy (c.delays c.waits) work, waits := c.waits + 1, settle := 4 }

def askIn (c : AtaChannel) (lba todo : Nat) : AtaPhase :=
  if todo = 0 then .idle none
  else (c.medium.readFault lba).elim (.dataIn lba todo 0) fun err => .idle (some err)

def askOut (c : AtaChannel) (lba todo : Nat) : AtaPhase :=
  if todo = 0 then .idle none
  else if c.medium.absent lba then .idle (some ataErIdnf)
  else .dataOut lba todo 0 fun _ => 0

/-- The end of a busy time. -/
def resume (c : AtaChannel) : AtaWork → AtaChannel
  | .rest => { c with phase := .idle none }
  | .fetch lba todo => { c with phase := c.askIn lba todo }
  | .accept lba todo => { c with phase := c.askOut lba todo }
  | .store lba todo buffer =>
    if c.medium.bad lba then { c with phase := .idle (some ataErUnc) }
    else
      { c with
        media := Function.update c.media c.selected (c.medium.store lba buffer)
        phase := c.askOut (lba + 1) todo }

end AtaChannel

/-! ## The ports -/

inductive AtaStop
  | undefined
  | kpanic (err : UInt8) (c : AtaChannel)
  | outOfFuel

def ataSrBsy : UInt8 := 0x80

def ataSrDf : UInt8 := 0x20

def ataSrDrq : UInt8 := 0x08

def ataSrErr : UInt8 := 0x01

def ataCmdReadPio : UInt8 := 0x20

def ataCmdWritePio : UInt8 := 0x30

def ataCmdCacheFlush : UInt8 := 0xE7

/-- The registers, by their distance from `io_base`. -/
inductive AtaReg
  | data | error | seccount0 | lba0 | lba1 | lba2 | hddevsel | command | altstatus
  deriving DecidableEq, Repr

namespace AtaPhase

def status : AtaPhase → UInt8
  | .idle none => 0x40
  | .idle (some _) => 0x41
  | .busy _ _ => 0x80
  | .dataIn _ _ _ => 0x48
  | .dataOut _ _ _ _ => 0x48

end AtaPhase

namespace AtaChannel

/-- The status register; while the drive is busy, the reading takes a part of the time. -/
def readStatus (c : AtaChannel) : UInt8 × AtaChannel :=
  match c.phase with
  | .busy (left + 1) work => (0x80, { c with phase := .busy left work })
  | .busy 0 work => ((c.resume work).phase.status, c.resume work)
  | phase => (phase.status, c)

/-- `port_inb`; the command register is the status register then. -/
def inb (c : AtaChannel) (reg : AtaReg) : Except AtaStop (UInt8 × AtaChannel) :=
  if reg = .altstatus then .ok (0xFF, c.tick)
  else if c.settle ≠ 0 then .error .undefined
  else
    match reg, c.phase with
    | .command, _ => .ok c.readStatus
    | .error, .idle error => .ok (error.getD 0, c)
    | _, _ => .error .undefined

def inw (c : AtaChannel) : Except AtaStop (Nat × AtaChannel) :=
  match c.settle, c.phase with
  | 0, .dataIn lba todo word =>
    .ok (loadLE c.medium.data (lba * 512 + 2 * word) 2,
      if word + 1 < 256 then { c with phase := .dataIn lba todo (word + 1) }
      else c.start (.fetch (lba + 1) (todo - 1)))
  | _, _ => .error .undefined

def outb (c : AtaChannel) (reg : AtaReg) (data : UInt8) : Except AtaStop AtaChannel :=
  match c.settle, c.phase with
  | 0, .idle _ =>
    match reg with
    | .error => .ok c  -- the features, which no command here uses
    | .seccount0 => .ok { c with seccount0 := data }
    | .lba0 => .ok { c with lba0 := data }
    | .lba1 => .ok { c with lba1 := data }
    | .lba2 => .ok { c with lba2 := data }
    | .hddevsel => .ok { c with hddevsel := data, settle := 4 }
    | .command =>
      if data = ataCmdReadPio then .ok (c.start (.fetch c.lba c.count))
      else if data = ataCmdWritePio then .ok (c.start (.accept c.lba c.count))
      else if data = ataCmdCacheFlush then .ok (c.start .rest)
      else .error .undefined
    | _ => .error .undefined
  | _, _ => .error .undefined

def outw (c : AtaChannel) (data : Nat) : Except AtaStop AtaChannel :=
  match c.settle, c.phase with
  | 0, .dataOut lba todo word buffer =>
    let buffer := storeLE buffer (2 * word) 2 data
    .ok (if word + 1 < 256 then { c with phase := .dataOut lba todo (word + 1) buffer }
      else c.start (.store lba (todo - 1) buffer))
  | _, _ => .error .undefined

end AtaChannel

/-! ## The driver -/

def ataIoWait (c : AtaChannel) : Except AtaStop AtaChannel := do
  let (_, c) ← c.inb .altstatus
  let (_, c) ← c.inb .altstatus
  let (_, c) ← c.inb .altstatus
  let (_, c) ← c.inb .altstatus
  return c

/-- The first loop of `ata_poll`, with the status that was read. -/
def pollBusy : Nat → UInt8 → AtaChannel → Except AtaStop AtaChannel
  | 0, s, c => if s &&& ataSrBsy ≠ 0 then throw .outOfFuel else return c
  | fuel + 1, s, c =>
    if s &&& ataSrBsy ≠ 0 then do
      let (_, c) ← c.inb .altstatus
      let (s, c) ← c.inb .command
      pollBusy fuel s c
    else return c

/-- The loop of the advanced check. -/
def pollData : Nat → AtaChannel → Except AtaStop AtaChannel
  | 0, _ => throw .outOfFuel
  | fuel + 1, c => do
    let (_, c) ← c.inb .altstatus
    let (s, c) ← c.inb .command
    if s &&& ataSrErr ≠ 0 ∨ s &&& ataSrDf ≠ 0 then
      let c ← ataIoWait c
      let (err, c) ← c.inb .error
      throw (.kpanic err c)
    else if s &&& ataSrDrq ≠ 0 then return c
    else
      let c ← ataIoWait c
      pollData fuel c

def ataPoll (fuel : Nat) (advancedCheck : Bool) (c : AtaChannel) : Except AtaStop AtaChannel := do
  let c ← ataIoWait c
  let (s, c) ← c.inb .command
  let c ← pollBusy fuel s c
  if advancedCheck then pollData fuel c else return c

/-- The registers of a transfer, up to its command. -/
def ataSetup (slave : Bool) (lba : UInt32) (sectorCount : UInt8) (c : AtaChannel) :
    Except AtaStop AtaChannel := do
  let slave : UInt32 := if slave then 1 else 0
  let c ← ataIoWait c
  let c ← c.outb .hddevsel ((0xE0 : UInt32) ||| slave <<< 4 ||| (lba &&& 0x0f000000) >>> 24).toUInt8
  let c ← ataIoWait c
  let c ← c.outb .error 0x00
  let c ← c.outb .seccount0 sectorCount
  let c ← c.outb .lba0 (lba &&& 0x000000ff).toUInt8
  let c ← c.outb .lba1 ((lba &&& 0x0000ff00) >>> 8).toUInt8
  c.outb .lba2 ((lba &&& 0x00ff0000) >>> 16).toUInt8

def portInsw (c : AtaChannel) (target : Mem) (addr : Nat) : Nat → Except AtaStop (Mem × AtaChannel)
  | 0 => return (target, c)
  | count + 1 => do
    let (word, c) ← c.inw
    portInsw c (storeLE target addr 2 word) (addr + 2) count

def readSectors (fuel : Nat) (c : AtaChannel) (target : Mem) (addr : Nat) :
    Nat → Except AtaStop (Mem × AtaChannel)
  | 0 => return (target, c)
  | n + 1 => do
    let c ← ataPoll fuel true c
    let (target, c) ← portInsw c target addr 256
    let c ← ataIoWait c
    readSectors fuel c target (addr + 512) n

def ataPioRead28 (fuel : Nat) (slave : Bool) (lba : UInt32) (sectorCount : UInt8) (target : Mem)
    (addr : Nat) (c : AtaChannel) : Except AtaStop (Mem × AtaChannel) := do
  let c ← ataSetup slave lba sectorCount c
  let c ← c.outb .command ataCmdReadPio
  let (target, c) ← readSectors fuel c target addr sectorCount.toNat
  let c ← ataPoll fuel false c
  return (target, c)

/-- The words of `od`, from `idx` on. -/
def writeWords (c : AtaChannel) (source : Mem) (addr : Nat) : Nat → Except AtaStop AtaChannel
  | 0 => return c
  | count + 1 => do
    let c ← c.outw (loadLE source addr 2)
    writeWords c source (addr + 2) count

def writeSectors (fuel : Nat) (c : AtaChannel) (source : Mem) (addr : Nat) :
    Nat → Except AtaStop AtaChannel
  | 0 => return c
  | n + 1 => do
    let c ← ataPoll fuel true c
    let c ← writeWords c source addr 256
    let c ← ataIoWait c
    writeSectors fuel c source (addr + 512) n

def ataPioWrite28 (fuel : Nat) (slave : Bool) (lba : UInt32) (sectorCount : UInt8) (source : Mem)
    (addr : Nat) (c : AtaChannel) : Except AtaStop AtaChannel := do
  let c ← ataSetup slave lba sectorCount c
  let c ← c.outb .command ataCmdWritePio
  let c ← ataIoWait c
  let c ← writeSectors fuel c source addr sectorCount.toNat
  let c ← ataPoll fuel false c
  let c ← c.outb .command ataCmdCacheFlush
  ataPoll fuel false c

end HanOS.Device
