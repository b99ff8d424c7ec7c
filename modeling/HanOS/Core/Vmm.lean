import HanOS.Core.Pmm

/-!
# The virtual memory manager (`core/mm.c`)

The tables of an address space are pages of 512 entries; `pml4` is the address of the
root (`kaddrspace.PML4`).  As for the bitmap, the tables are given by their physical
addresses.  The translation cache of the processor is no part of the model.
-/

namespace HanOS.Core

open HanOS.Foundations HanOS.Lib

def vmmFlagPresent : Nat := 1 <<< 0

def vmmFlagReadwrite : Nat := 1 <<< 1

def vmmFlagUser : Nat := 1 <<< 2

def vmmFlagsDefault : Nat := vmmFlagPresent ||| vmmFlagReadwrite

def vmmFlagsUsermode : Nat := vmmFlagsDefault ||| vmmFlagUser

/-- `& ~(0xfff)`, with which `map_page` takes the address out of an entry -/
def clear12 (entry : Nat) : Nat := entry - entry % 0x1000

/-- `& ~(0x1ff)`, with which `unmap_page` does -/
def clear9 (entry : Nat) : Nat := entry - entry % 0x200

def makeTableEntry (address flags : Nat) : Nat := clear12 address ||| flags

def isPresent (entry : Nat) : Bool := entry &&& vmmFlagPresent ≠ 0

def pte (vaddr : Nat) : Fin 512 := Fin.ofNat 512 (vaddr >>> 12)

def pde (vaddr : Nat) : Fin 512 := Fin.ofNat 512 (vaddr >>> 21)

def pdpe (vaddr : Nat) : Fin 512 := Fin.ofNat 512 (vaddr >>> 30)

def pml4e (vaddr : Nat) : Fin 512 := Fin.ofNat 512 (vaddr >>> 39)

def entryAt (pm : PhysMem) (table : Nat) (i : Fin 512) : Nat := load64 pm (table + 8 * i)

def setEntryAt (pm : PhysMem) (table : Nat) (i : Fin 512) (entry : Nat) : PhysMem :=
  store64 pm (table + 8 * i) entry

/-- One of the three levels `map_page` goes down: the table an entry refers to, allocated where
    there is none. -/
def tableBelow (pm : PhysMem) (table : Nat) (i : Fin 512) : Option (Nat × PhysMem) :=
  if isPresent (entryAt pm table i) then some (clear12 (entryAt pm table i), pm)
  else do
    let (page, pm) ← pmmGet pm 1 0
    let pm := { pm with mem := fill pm.mem page pageSize 0 }
    some (page, setEntryAt pm table i (makeTableEntry page vmmFlagsUsermode))

def mapPage (pml4 : Nat) (pm : PhysMem) (vaddr paddr flags : Nat) : Option PhysMem := do
  let (pdpt, pm) ← tableBelow pm pml4 (pml4e vaddr)
  let (pd, pm) ← tableBelow pm pdpt (pdpe vaddr)
  let (pt, pm) ← tableBelow pm pd (pde vaddr)
  some (setEntryAt pm pt (pte vaddr) (makeTableEntry (clear12 paddr) flags))

/-- A call of `pmm_free`: the memory it is made in, and the page. -/
structure Release where
  before : PhysMem
  page : Nat

/-- `for (int i = 0; i < 512; i++) if (table[i] != 0) goto done;` -/
def tableEmpty (pm : PhysMem) (table : Nat) : Bool :=
  (List.finRange 512).all fun i => entryAt pm table i = 0

/-- The end of one level of `unmap_page`: the entry is cleared and the empty table given back. -/
def dropTable (pm : PhysMem) (upper : Nat) (i : Fin 512) (table : Nat) : PhysMem × Release :=
  let pm := setEntryAt pm upper i 0
  (pmmFree pm table 1, ⟨pm, table⟩)

/-- The memory after `unmap_page`, and the pages it gives back. -/
def unmapPage (pml4 : Nat) (pm : PhysMem) (vaddr : Nat) : PhysMem × List Release :=
  if !isPresent (entryAt pm pml4 (pml4e vaddr)) then (pm, [])
  else
    let pdpt := clear9 (entryAt pm pml4 (pml4e vaddr))
    if !isPresent (entryAt pm pdpt (pdpe vaddr)) then (pm, [])
    else
      let pd := clear9 (entryAt pm pdpt (pdpe vaddr))
      if !isPresent (entryAt pm pd (pde vaddr)) then (pm, [])
      else
        let pt := clear9 (entryAt pm pd (pde vaddr))
        if !isPresent (entryAt pm pt (pte vaddr)) then (pm, [])
        else
          let pm := setEntryAt pm pt (pte vaddr) 0
          if !tableEmpty pm pt then (pm, [])
          else
            let (pm, ptRelease) := dropTable pm pd (pde vaddr) pt
            if !tableEmpty pm pd then (pm, [ptRelease])
            else
              let (pm, pdRelease) := dropTable pm pdpt (pdpe vaddr) pd
              if !tableEmpty pm pdpt then (pm, [ptRelease, pdRelease])
              else
                let (pm, pdptRelease) := dropTable pm pml4 (pml4e vaddr) pdpt
                (pm, [ptRelease, pdRelease, pdptRelease])

/-- The loop of `vmm_unmap`; `pageStarts 0 np` are the values of its counter. -/
def vmmUnmap (pml4 : Nat) (pm : PhysMem) (vaddr np : Nat) : PhysMem × List Release :=
  (pageStarts 0 np).foldl (fun (pm, releases) i =>
    let (pm, more) := unmapPage pml4 pm (u64 (vaddr + i))
    (pm, releases ++ more)) (pm, [])

def vmmMap (pml4 : Nat) (pm : PhysMem) (vaddr paddr np flags : Nat) : Option PhysMem :=
  (pageStarts 0 np).foldlM (fun pm i => mapPage pml4 pm (u64 (vaddr + i)) (u64 (paddr + i)) flags)
    pm

end HanOS.Core
