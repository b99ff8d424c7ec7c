import HanOS.Core.PmmInit

/-!
# The kernel heap (`lib/kmalloc.c`)

A block is a page with its metadata and behind it the pages of the data; the pointer a
client gets is that of the data.  Pointers are given by their physical addresses here.
-/

namespace HanOS.Lib

open HanOS.Foundations HanOS.Core

def numpagesAt (alloc : Nat) : Nat := alloc

def sizeAt (alloc : Nat) : Nat := alloc + 8

def kmalloc (pm : PhysMem) (size : Nat) : Option (Nat × PhysMem) := do
  let (alloc, pm) ← pmmGet pm (u64 (numPages size + 1)) 0
  let pm := store64 pm (numpagesAt alloc) (numPages size)
  let pm := store64 pm (sizeAt alloc) size
  some (alloc + pageSize, pm)

def kmfree (pm : PhysMem) (addr : Nat) : PhysMem :=
  let d := sub64 addr pageSize
  pmmFree pm d (u64 (load64 pm (numpagesAt d) + 1))

def kmrealloc (pm : PhysMem) (addr : Option Nat) (newsize : Nat) : Option (Nat × PhysMem) :=
  match addr with
  | none => kmalloc pm newsize
  | some addr =>
    let d := sub64 addr pageSize
    if numPages (load64 pm (sizeAt d)) = numPages newsize then
      let pm := store64 pm (sizeAt d) newsize
      some (addr, store64 pm (numpagesAt d) (numPages newsize))
    else do
      let (new, pm) ← kmalloc pm newsize
      let size := load64 pm (sizeAt d)
      let pm := { pm with mem := blit pm.mem new pm.mem addr (if newsize < size then newsize else size) }
      some (new, kmfree pm addr)

end HanOS.Lib
