import HanOS.Foundations.BitArray
import HanOS.Core.Page
import Mathlib.Tactic.NormNum

/-!
# The physical memory manager (`core/mm.c`)

One bit for each page, set when the page is free.  The bitmap lies in physical memory
like everything else, at the address `bitmap`; a page behind the pages it was made for
has its bit in the bytes behind it.  Addresses are physical ones: the bitmap and the
blocks are reached through the direct map at `MEM_VIRT_OFFSET`.
-/

namespace HanOS.Core

open HanOS.Foundations HanOS.Lib

/-- `kmem_info`, with the memory it describes. -/
structure PhysMem where
  physLimit : Nat
  totalSize : Nat
  freeSize : Nat
  bitmap : Nat
  mem : Mem

def bmpPagesPerByte : Nat := 8

/-- The values of `i` in `for (i = addr; i < addr + numpages * PAGE_SIZE; i += PAGE_SIZE)`. -/
def pageStarts (addr numpages : Nat) : List Nat :=
  let stop := u64 (addr + u64 (numpages * pageSize))
  (List.range ((stop - addr + (pageSize - 1)) / pageSize)).map fun k => addr + k * pageSize

namespace PhysMem

def byteOf (pm : PhysMem) (addr : Nat) : Nat := pm.bitmap + addr / (pageSize * bmpPagesPerByte)

def bitOf (addr : Nat) : Nat := addr / pageSize % bmpPagesPerByte

def markused (pm : PhysMem) (addr : Nat) : PhysMem :=
  { pm with mem := withoutBit pm.mem (pm.byteOf addr) (bitOf addr) }

def markfree (pm : PhysMem) (addr : Nat) : PhysMem :=
  { pm with mem := withBit pm.mem (pm.byteOf addr) (bitOf addr) }

end PhysMem

def bitmapMarkused (pm : PhysMem) (addr numpages : Nat) : PhysMem :=
  (pageStarts addr numpages).foldl PhysMem.markused pm

def bitmapIsfree (pm : PhysMem) (addr numpages : Nat) : Bool :=
  (pageStarts addr numpages).all fun i => bitAt pm.mem (pm.byteOf i) (PhysMem.bitOf i)

/-- One turn of the loop of `pmm_free`: a page that was used adds to `free_size`. -/
def PhysMem.release (pm : PhysMem) (addr : Nat) : PhysMem :=
  let pm := if !bitmapIsfree pm addr 1 then
    { pm with freeSize := u64 (pm.freeSize + pageSize) } else pm
  pm.markfree addr

def pmmFree (pm : PhysMem) (addr numpages : Nat) : PhysMem :=
  (pageStarts addr numpages).foldl PhysMem.release pm

/-- `pmm_alloc`; `none` is the answer false, with nothing changed. -/
def pmmAlloc (pm : PhysMem) (addr numpages : Nat) : Option PhysMem :=
  if !bitmapIsfree pm addr numpages then none
  else
    let pm := bitmapMarkused pm addr numpages
    some { pm with freeSize := sub64 pm.freeSize (u64 (numpages * pageSize)) }

/-- The values of `i` in `for (i = baseaddr; i < phys_limit; i += PAGE_SIZE)`. -/
def candidates (pm : PhysMem) (baseaddr : Nat) : List Nat :=
  (List.range ((pm.physLimit - baseaddr + (pageSize - 1)) / pageSize)).map fun k =>
    baseaddr + k * pageSize

/-- `pmm_get`: the first window whose pages are all free; `none` is the panic without one. -/
def pmmGet (pm : PhysMem) (numpages baseaddr : Nat) : Option (Nat × PhysMem) :=
  (candidates pm baseaddr).findSome? fun i => (pmmAlloc pm i numpages).map fun pm => (i, pm)

/-! ## Words of the memory behind the direct map -/

def load64 (pm : PhysMem) (addr : Nat) : Nat := loadLE pm.mem addr 8

def store64 (pm : PhysMem) (addr value : Nat) : PhysMem :=
  { pm with mem := storeLE pm.mem addr 8 value }

theorem load64_store64 {pm : PhysMem} {addr value : Nat} (fits : value < 2 ^ 64) :
    load64 (store64 pm addr value) addr = value :=
  loadLE_storeLE_of_lt (fits.trans_eq (by norm_num))

theorem load64_store64_apart {pm : PhysMem} {addr other value : Nat}
    (apart : other + 8 ≤ addr ∨ addr + 8 ≤ other) :
    load64 (store64 pm addr value) other = load64 pm other :=
  loadLE_storeLE_disjoint apart

/-! ## Initialisation -/

inductive MemmapType
  | usable | reserved | acpiReclaimable | acpiNvs | badMemory | bootloaderReclaimable
  | kernelAndModules | framebuffer
  deriving DecidableEq, Repr

structure MemmapEntry where
  base : Nat
  length : Nat
  type : MemmapType
  deriving DecidableEq, Repr

def MemmapEntry.top (entry : MemmapEntry) : Nat := u64 (entry.base + entry.length)

def MemmapEntry.aboveLow (entry : MemmapEntry) : Bool := 0x100000 < entry.top

/-- What `phys_limit` and `total_size` are in the end. -/
def physLimitOf (map : List MemmapEntry) : Nat :=
  map.foldl (fun limit entry => if limit < entry.top then entry.top else limit) 0

def totalSizeOf (map : List MemmapEntry) : Nat :=
  map.foldl (fun total entry =>
    if entry.type = .usable ∨ entry.type = .bootloaderReclaimable ∨
        entry.type = .acpiReclaimable ∨ entry.type = .kernelAndModules then
      u64 (total + entry.length) else total) 0

/-- The bytes of the bitmap; a rest of less than eight pages has no bits. -/
def PhysMem.bmSize (pm : PhysMem) : Nat := pm.physLimit / (pageSize * bmpPagesPerByte)

/-- `pmm_init`; without a place for the bitmap it is left NULL, which is not survived. -/
def pmmInit (map : List MemmapEntry) (mem : Mem) : Option PhysMem :=
  let bmSize := physLimitOf map / (pageSize * bmpPagesPerByte)
  match map.find? fun entry => entry.aboveLow ∧ bmSize ≤ entry.length ∧ entry.type = .usable with
  | none => none
  | some place =>
    let pm : PhysMem :=
      { physLimit := physLimitOf map, totalSize := totalSizeOf map, freeSize := 0,
        bitmap := place.base, mem := fill mem place.base bmSize 0 }
    let pm := map.foldl (fun pm entry =>
      if entry.aboveLow ∧ entry.type = .usable then pmmFree pm entry.base (numPages entry.length)
      else pm) pm
    some ((pmmAlloc pm place.base (numPages bmSize)).getD pm)

end HanOS.Core
