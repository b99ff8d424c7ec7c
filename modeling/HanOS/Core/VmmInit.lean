import HanOS.Core.TableTree
import HanOS.Lib.HeapRuns

/-!
# The kernel's address space (`vmm_init`)

`vmm_init` maps the first `MM_SIZE` bytes of memory behind `MEM_VIRT_OFFSET`, and of the
rest only what is not usable memory.  So of the pages the memory manager hands out just
those below `MM_SIZE` are mapped at the address they are used at, and of the pages whose bits
lie behind the bitmap those of an entry that is mapped (`direct_map_iff`).
-/

namespace HanOS.Core

open HanOS.Foundations HanOS.Lib

def memVirtOffset : Nat := 0xffff800000000000

def physToVirt (addr : Nat) : Nat := u64 (addr + memVirtOffset)

def mmSize : Nat := 256 * 1024 * 1024

structure KernelAddress where
  virtualBase : Nat
  physicalBase : Nat

def mapEntry (pml4 : Nat) (kernel : KernelAddress) (pm : PhysMem) (entry : MemmapEntry) :
    Option PhysMem :=
  if entry.type = .kernelAndModules then
    let vaddr := sub64 (u64 (kernel.virtualBase + entry.base)) kernel.physicalBase
    vmmMap pml4 pm vaddr entry.base (numPages entry.length) vmmFlagsDefault
  else if entry.type = .framebuffer then
    vmmMap pml4 pm (physToVirt entry.base) entry.base (numPages entry.length) vmmFlagsDefault
  else if entry.type ≠ .usable ∧ (mmSize ≤ entry.base ∨ mmSize < entry.top) then
    vmmMap pml4 pm (physToVirt entry.base) entry.base (numPages entry.length) vmmFlagsDefault
  else some pm

/-- The PML4 is a block of the heap. -/
def allocPml4 (pm : PhysMem) : Option (Nat × PhysMem) := do
  let (pml4, pm) ← kmalloc pm pageSize
  some (pml4, { pm with mem := fill pm.mem pml4 pageSize 0 })

/-- The PML4 loaded in the end, and the memory then. -/
def vmmInit (pm : PhysMem) (map : List MemmapEntry) (kernel : KernelAddress) :
    Option (Nat × PhysMem) := do
  let (pml4, pm) ← allocPml4 pm
  let np := numPages (min pm.physLimit mmSize)
  let pm ← vmmMap pml4 pm 0xffffffff80000000 0 np vmmFlagsUsermode
  let pm ← vmmMap pml4 pm 0xffff800000000000 0 np vmmFlagsDefault
  let pm ← map.foldlM (mapEntry pml4 kernel) pm
  some (pml4, pm)

/-- Where the processor finds an address, by the tables. -/
def translate (pm : PhysMem) (pml4 vaddr : Nat) : Option Nat :=
  let entry := leafEntry pm pml4 (tablePath vaddr) (pte vaddr)
  if isPresent entry then some (clear12 entry + vaddr % pageSize) else none

/-! ## The pages `vmm_init` maps -/

structure PageMap where
  vaddr : Nat
  paddr : Nat
  flags : Nat

def PageMap.run (pml4 : Nat) (pm : PhysMem) (call : PageMap) : Option PhysMem :=
  mapPage pml4 pm call.vaddr call.paddr call.flags

def PageMap.Served (pml4 : Nat) (pm : PhysMem) (call : PageMap) : Prop :=
  PageServed pml4 pm call.vaddr

def pageMaps (vaddr paddr np flags : Nat) : List PageMap :=
  (pageStarts 0 np).map fun i => ⟨u64 (vaddr + i), u64 (paddr + i), flags⟩

def entryMaps (kernel : KernelAddress) (entry : MemmapEntry) : List PageMap :=
  if entry.type = .kernelAndModules then
    pageMaps (sub64 (u64 (kernel.virtualBase + entry.base)) kernel.physicalBase) entry.base
      (numPages entry.length) vmmFlagsDefault
  else if entry.type = .framebuffer then
    pageMaps (physToVirt entry.base) entry.base (numPages entry.length) vmmFlagsDefault
  else if entry.type ≠ .usable ∧ (mmSize ≤ entry.base ∨ mmSize < entry.top) then
    pageMaps (physToVirt entry.base) entry.base (numPages entry.length) vmmFlagsDefault
  else []

def initMaps (physLimit : Nat) (map : List MemmapEntry) (kernel : KernelAddress) : List PageMap :=
  pageMaps 0xffffffff80000000 0 (numPages (min physLimit mmSize)) vmmFlagsUsermode ++
    (pageMaps 0xffff800000000000 0 (numPages (min physLimit mmSize)) vmmFlagsDefault ++
      map.flatMap (entryMaps kernel))

variable {pm pm' start : PhysMem} {root vaddr paddr np flags p : Nat} {map : List MemmapEntry}
variable {kernel : KernelAddress} {entry : MemmapEntry} {maps : List PageMap} {call : PageMap}

theorem vmmMap_eq : vmmMap root pm vaddr paddr np flags =
    (pageMaps vaddr paddr np flags).foldlM (PageMap.run root) pm := by
  rw [vmmMap, pageMaps, List.foldlM_map]
  rfl

theorem mapEntry_eq : mapEntry root kernel pm entry =
    (entryMaps kernel entry).foldlM (PageMap.run root) pm := by
  rw [mapEntry, entryMaps]
  split
  · exact vmmMap_eq
  · split
    · exact vmmMap_eq
    · split
      · exact vmmMap_eq
      · rfl

theorem mapEntries_eq : map.foldlM (mapEntry root kernel) pm =
    (map.flatMap (entryMaps kernel)).foldlM (PageMap.run root) pm := by
  induction map generalizing pm with
  | nil => rfl
  | cons entry map inductionHypothesis =>
    rw [List.foldlM_cons, List.flatMap_cons, List.foldlM_append, mapEntry_eq]
    exact bind_congr fun _ => inductionHypothesis

theorem vmmInit_eq : vmmInit pm map kernel = (allocPml4 pm).bind fun (pml4, pm) =>
    ((initMaps pm.physLimit map kernel).foldlM (PageMap.run pml4) pm).map fun pm => (pml4, pm) := by
  rw [vmmInit]
  refine Option.bind_congr fun result _ => ?_
  simp only [initMaps, List.foldlM_append, ← vmmMap_eq, ← mapEntries_eq, Option.bind_eq_bind,
    Option.map_eq_bind, Option.bind_assoc]
  rfl

/-! ## Where the pages are mapped -/

/-- The two addresses belong to one page of the address space. -/
def SamePage (vaddr other : Nat) : Prop := vaddr / pageSize % 2 ^ 36 = other / pageSize % 2 ^ 36

instance {other : Nat} : Decidable (SamePage vaddr other) := inferInstanceAs (Decidable (_ = _))

theorem samePage_iff {other : Nat} : SamePage vaddr other ↔
    tablePath vaddr = tablePath other ∧ pte vaddr = pte other := by
  simp only [SamePage, tablePath, pml4e, pdpe, pde, pte, List.cons.injEq, Fin.ext_iff, Fin.ofNat,
    Nat.shiftRight_eq_div_pow, pageSize, and_true]
  omega

theorem translate_remapped {other : Nat} (remapped :
      Remapped root pm pm' vaddr (makeTableEntry (clear12 paddr) flags)) (valid : ValidFlags flags) :
    translate pm' root other =
      if SamePage other vaddr then some (clear12 paddr + other % pageSize)
      else translate pm root other := by
  rw [translate, remapped.leaf _ _ length_tablePath]
  simp only [← samePage_iff]
  split
  · have flag : isPresent flags := decide_eq_true valid.1
    have low := valid.2
    have multiple := @clear12_dvd paddr
    have entry : makeTableEntry (clear12 paddr) flags = clear12 paddr + flags := by
      rw [makeTableEntry_eq low, clear12_of_dvd multiple]
    have present : isPresent (clear12 paddr + flags) := by
      rw [isPresent_iff] at flag ⊢
      rw [clear12]
      omega
    have address : clear12 (clear12 paddr + flags) = clear12 paddr := by
      simp only [clear12]
      omega
    rw [entry, if_pos present, address]
  · rfl

/-- What a list of calls does; where an address is, when those for its page agree on it. -/
theorem pageMaps_spec (tree : TreeOk root pm)
    (served : Along (PageMap.run root) (PageMap.Served root) pm maps)
    (valid : ∀ call ∈ maps, ValidFlags call.flags ∧ call.paddr < 2 ^ 64) :
    ∃ pm', maps.foldlM (PageMap.run root) pm = some pm' ∧ pm'.physLimit = pm.physLimit ∧
      (∀ p, pm.Tracked p → pm'.isFree p → pm.isFree p) ∧
      ∀ other page, (∀ call ∈ maps, SamePage other call.vaddr → clear12 call.paddr = page) →
        translate pm' root other =
          if ∃ call ∈ maps, SamePage other call.vaddr then some (page + other % pageSize)
          else translate pm root other := by
  induction maps generalizing pm with
  | nil => exact ⟨pm, rfl, rfl, fun _ _ free => free, fun _ _ _ => by simp⟩
  | cons call maps inductionHypothesis =>
    obtain ⟨flags, small⟩ := valid call (by simp)
    obtain ⟨next, mapped, remapped, _, physLimit, free⟩ :=
      mapPage_spec tree.tables tree.filled served.1 flags small
    obtain ⟨final, rest, finalLimit, finalFree, place⟩ :=
      inductionHypothesis ⟨remapped.tables, remapped.filled⟩ (served.2 next mapped)
        (fun other member => valid other (List.mem_cons_of_mem _ member))
    refine ⟨final, ?_, finalLimit.trans physLimit, fun p tracked freeAtEnd =>
      free p tracked (finalFree p ((tracked_congr physLimit).mpr tracked) freeAtEnd),
      fun other page agree => ?_⟩
    · rw [List.foldlM_cons, show PageMap.run root pm call = some next from mapped]
      exact rest
    · rw [place other page fun call member => agree call (List.mem_cons_of_mem _ member),
        translate_remapped remapped flags]
      simp only [List.mem_cons, exists_eq_or_imp]
      -- the last call for a page decides, and all of them agree
      by_cases later : ∃ call ∈ maps, SamePage other call.vaddr
      · rw [if_pos later, if_pos (.inr later)]
      · rw [if_neg later]
        by_cases here : SamePage other call.vaddr
        · rw [if_pos here, if_pos (.inl here), agree call (by simp) here]
        · rw [if_neg here, if_neg (not_or.mpr ⟨here, later⟩)]

/-! ## The PML4 -/

theorem EmptyPml4.leafEntry {path : Path} {i : Fin 512} (empty : EmptyPml4 pm root)
    (last : path.length = 3) : HanOS.Core.leafEntry pm root path i = 0 := by
  cases path with
  | nil => cases last
  | cons j path =>
    rw [HanOS.Core.leafEntry, tableAt, descend, child_eq_none (empty.zero j)]
    rfl

theorem ready_of_owns {live : List Block} (ready : PmmReady start) (owns : Owns start pm live) :
    PmmReady pm where
  aligned := owns.bitmap ▸ ready.aligned
  storageUsed p tracked storage := by
    rw [tracked_congr owns.physLimit] at tracked
    rw [storage_congr owns.bitmap owns.physLimit] at storage
    rw [← Bool.not_eq_true, owns.bits p tracked, ready.storageUsed p tracked storage]
    exact fun free => absurd free.1 Bool.false_ne_true
  freeSize := owns.small
  physLimit := owns.physLimit ▸ ready.physLimit

theorem allocPml4_spec (ready : PmmReady start) (fits : FirstFitTracked start 2) :
    ∃ pml4 pm, allocPml4 start = some (pml4, pm) ∧ EmptyPml4 pm pml4 ∧
      pm.physLimit = start.physLimit ∧ ∃ q, start.FirstWindow q 2 ∧
        (∀ p, start.Tracked p → (pm.isFree p ↔ start.isFree p ∧ ¬ (q ≤ p ∧ p < q + 2))) ∧
        pm.bitmap = start.bitmap ∧ ∀ x, ¬ start.InBitmap x →
          ¬ (q ≤ x / pageSize ∧ x / pageSize < q + 2) → pm.mem x = start.mem x := by
  have pages : numPages pageSize + 1 = 2 := by decide
  have small : pageSize < 2 ^ 64 := by decide
  obtain ⟨q, window, tracked⟩ := fits
  have nowrap : (q + (numPages pageSize + 1)) * pageSize < 2 ^ 64 :=
    (Nat.mul_le_mul_right _ (pages ▸ tracked)).trans_lt (bmSize_pages ready)
  have inLimit : start.InLimit q := by
    simp only [PhysMem.InLimit, PhysMem.bmSize, bmpPagesPerByte, pageSize, mul_pageSize] at *
    omega
  -- `kmalloc` takes the first window of two pages
  obtain ⟨taken, _, result⟩ := kmalloc_of_first nowrap inLimit (pages ▸ window)
  have fits : FirstFitTracked start (numPages pageSize + 1) := pages ▸ ⟨q, window, tracked⟩
  have heap := HeapOk.malloc ready (.initially ready) small fits result
  have bytes := fun x => @HeapOk.malloc_outside start start _ [] x pageSize _ ready
    (.initially ready) fits result
  generalize store64 (store64 _ _ _) _ _ = given at heap result bytes
  generalize place : q * pageSize + pageSize = pml4 at heap result bytes
  -- the PML4 is the data page of the block
  have cleared : HeapOk start { given with mem := fill given.mem pml4 pageSize 0 }
      [⟨pml4, pageSize⟩] := heap.frame ready fun x outside => fill_outside (by
    have data := outside _ (List.mem_cons_self ..)
    simp only [Block.HasData, show pageAlignUp pageSize = pageSize by decide] at data
    omega)
  have owns := cleared.owns
  have placed := owns.placed _ (List.mem_cons_self ..)
  have page : Block.Covers ⟨pml4, pageSize⟩ (pml4 / pageSize) :=
    (placed.data_page ⟨le_rfl, Nat.lt_add_of_pos_right (show 0 < pageAlignUp pageSize by decide)⟩).2
  have inside : start.Tracked (pml4 / pageSize) := page.2.trans_le placed.tracked
  have first : Block.first ⟨pml4, pageSize⟩ = q := by
    rw [← place]
    simp only [Block.first, pageSize, mul_pageSize]
    omega
  refine ⟨pml4, _, ?_, ⟨ready_of_owns ready owns, ⟨?_, ?_, ?_, fun storage => ?_⟩, fun i => ?_⟩,
    owns.physLimit, q, window, fun p tracked => ?_, owns.bitmap, fun x outside apart => ?_⟩
  · rw [allocPml4, result]
    rfl
  · exact Dvd.intro_left _ placed.aligned.symm
  · exact (tracked_congr owns.physLimit).mpr inside
  · exact owns.used (List.mem_cons_self ..) page
  · have used := ready.storageUsed _ inside ((storage_congr owns.bitmap owns.physLimit).mp storage)
    rw [placed.wasFree _ page] at used
    cases used
  · exact loadLE_fill_zero (Nat.le_add_right ..) (by simp only [pageSize]; omega)
  · rw [owns.bits p tracked, List.forall_mem_singleton, Block.Covers, first,
      show Block.pages ⟨pml4, pageSize⟩ = 2 from pages]
  · have notBlock : ¬ Block.Covers ⟨pml4, pageSize⟩ (x / pageSize) := by
      rwa [Block.Covers, first, show Block.pages ⟨pml4, pageSize⟩ = 2 from pages]
    refine (fill_outside ?_).trans (bytes x outside notBlock)
    simp only [pageSize, mul_pageSize] at *
    omega

/-! ## The direct map -/

/-- What the boot protocol promises beyond `MapOk`: usable memory is nothing else, physical
    memory ends before 32 TiB, and the kernel is linked into the highest 2 GiB. -/
structure BootOk (map : List MemmapEntry) (kernel : KernelAddress) : Prop where
  memmap : MapOk map
  apart : ∀ entry ∈ map, ∀ other ∈ map, entry.type = .usable → other.type ≠ .usable →
    entry.base + entry.length ≤ other.base ∨ other.base + other.length ≤ entry.base
  physLimit : physLimitOf map ≤ 2 ^ 45
  virtualBase : 0xffffffff80000000 ≤ kernel.virtualBase ∧ kernel.virtualBase < 2 ^ 64
  physicalBase : kernel.physicalBase < physLimitOf map

theorem BootOk.entry_end (boot : BootOk map kernel) (member : entry ∈ map) :
    entry.base + entry.length ≤ physLimitOf map := by
  have top := top_le_physLimitOf member
  rwa [MemmapEntry.top, u64_of_lt (boot.memmap.nowrap entry member)] at top

theorem mem_pageMaps (few : np < 2 ^ 52) : call ∈ pageMaps vaddr paddr np flags ↔
    ∃ k < np, call = ⟨u64 (vaddr + k * pageSize), u64 (paddr + k * pageSize), flags⟩ := by
  have starts := @pageStarts_page 0 np (by simp only [pageSize, mul_pageSize]; omega)
  rw [Nat.zero_mul] at starts
  simp only [pageMaps, starts, List.map_map, List.mem_map, List.mem_range'_1, Function.comp_apply,
    Nat.zero_le, Nat.zero_add, true_and, eq_comm]

theorem direct_place {base length : Nat} (inside : base + length ≤ 2 ^ 45) (page : p < 2 ^ 33)
    (member : call ∈ pageMaps (physToVirt base) base (numPages length) flags)
    (same : SamePage (physToVirt (p * pageSize)) call.vaddr) :
    clear12 call.paddr = p * pageSize ∧ base ≤ call.paddr ∧ call.paddr < base + length := by
  obtain ⟨k, below, rfl⟩ := (mem_pageMaps (numPages_lt length)).mp member
  simp only [numPages, SamePage, physToVirt, memVirtOffset, u64, clear12, pageSize,
    mul_pageSize] at *
  omega

theorem kernelMaps_apart (boot : BootOk map kernel) (member : entry ∈ map) (page : p < 2 ^ 33)
    (mapped : call ∈ pageMaps (sub64 (u64 (kernel.virtualBase + entry.base)) kernel.physicalBase)
      entry.base (numPages entry.length) flags) :
    ¬ SamePage (physToVirt (p * pageSize)) call.vaddr := by
  intro same
  have limit := boot.physLimit
  have inside := boot.entry_end member
  obtain ⟨k, below, rfl⟩ := (mem_pageMaps (numPages_lt _)).mp mapped
  obtain ⟨virtualLow, virtualHigh⟩ := boot.virtualBase
  have physicalBase := boot.physicalBase
  rw [SamePage, sub64] at same
  split at same <;>
    simp only [physToVirt, memVirtOffset, numPages, u64, pageSize, mul_pageSize] at * <;> omega

/-- The entries of the map are mapped where they belong, and away from usable pages. -/
theorem entryMaps_place (boot : BootOk map kernel) (member : entry ∈ map) (page : p < 2 ^ 33)
    (mapped : call ∈ entryMaps kernel entry)
    (same : SamePage (physToVirt (p * pageSize)) call.vaddr) :
    entry.type ≠ .usable ∧ clear12 call.paddr = p * pageSize ∧ entry.base ≤ call.paddr ∧
      call.paddr < entry.base + entry.length := by
  have direct : entry.base + entry.length ≤ 2 ^ 45 := (boot.entry_end member).trans boot.physLimit
  rw [entryMaps] at mapped
  split at mapped
  · exact absurd same (kernelMaps_apart boot member page mapped)
  · split at mapped
    · next framebuffer => exact ⟨by rw [framebuffer]; decide, direct_place direct page mapped same⟩
    · split at mapped
      · next reserved => exact ⟨reserved.1, direct_place direct page mapped same⟩
      · cases mapped

theorem validFlags_usermode : ValidFlags vmmFlagsUsermode := ⟨by decide, by decide⟩

theorem pageMaps_valid (valid : ValidFlags flags) (member : call ∈ pageMaps vaddr paddr np flags) :
    ValidFlags call.flags ∧ call.paddr < 2 ^ 64 := by
  obtain ⟨i, _, rfl⟩ := List.mem_map.mp member
  exact ⟨valid, Nat.mod_lt _ (Nat.two_pow_pos 64)⟩

theorem initMaps_valid {limit : Nat} (member : call ∈ initMaps limit map kernel) :
    ValidFlags call.flags ∧ call.paddr < 2 ^ 64 := by
  simp only [initMaps, List.mem_append, List.mem_flatMap] at member
  rcases member with member | member | ⟨entry, _, member⟩
  · exact pageMaps_valid validFlags_usermode member
  · exact pageMaps_valid validFlags_default member
  · rw [entryMaps] at member
    split_ifs at member
    · exact pageMaps_valid validFlags_default member
    · exact pageMaps_valid validFlags_default member
    · exact pageMaps_valid validFlags_default member
    · cases member

theorem BootOk.usable_apart (boot : BootOk map kernel) (usable : Usable map p) (member : entry ∈ map)
    (other : entry.type ≠ .usable) {x : Nat} (inPage : clear12 x = p * pageSize) :
    ¬ (entry.base ≤ x ∧ x < entry.base + entry.length) := by
  obtain ⟨own, ownMember, _, type, low, high⟩ := usable
  have apart := boot.apart own ownMember entry member type other
  obtain ⟨⟨first, start⟩, count, length⟩ := boot.memmap.aligned own ownMember type
  simp only [start, length, clear12, pageSize, mul_pageSize] at *
  omega

theorem image_apart {limit : Nat} {call : PageMap} (page : p < 2 ^ 33)
    (member : call ∈ pageMaps 0xffffffff80000000 0 (numPages (min limit mmSize)) vmmFlagsUsermode) :
    ¬ SamePage (physToVirt (p * pageSize)) call.vaddr := by
  intro same
  obtain ⟨k, below, rfl⟩ := (mem_pageMaps (numPages_lt _)).mp member
  simp only [SamePage, physToVirt, memVirtOffset, numPages, mmSize, u64, pageSize,
    mul_pageSize] at *
  omega

/-! ## The pages of the direct map -/

/-- An entry that is neither usable memory nor the kernel's. -/
def MemmapEntry.Device (entry : MemmapEntry) : Prop :=
  entry.type ≠ .usable ∧ entry.type ≠ .kernelAndModules

def MemmapEntry.OwnMap (entry : MemmapEntry) : Prop :=
  entry.Device ∧ (entry.type = .framebuffer ∨ mmSize ≤ entry.base ∨ mmSize < entry.top)

/-- The page is one of the first `MM_SIZE` bytes, or of the pages counted from the one an entry
    begins in. -/
def PageMapped (map : List MemmapEntry) (page : Nat) : Prop :=
  page < numPages (min (physLimitOf map) mmSize) ∨
    ∃ entry ∈ map, entry.OwnMap ∧ entry.base / pageSize ≤ page ∧
      page < entry.base / pageSize + numPages entry.length

theorem direct_iff {base length : Nat} (inside : base + length ≤ 2 ^ 45) (page : p < 2 ^ 33) :
    (∃ call ∈ pageMaps (physToVirt base) base (numPages length) flags,
      SamePage (physToVirt (p * pageSize)) call.vaddr) ↔
        base / pageSize ≤ p ∧ p < base / pageSize + numPages length := by
  constructor
  · rintro ⟨call, member, same⟩
    obtain ⟨k, below, rfl⟩ := (mem_pageMaps (numPages_lt length)).mp member
    simp only [numPages, SamePage, physToVirt, memVirtOffset, u64, pageSize, mul_pageSize] at *
    omega
  · rintro ⟨low, high⟩
    refine ⟨_, (mem_pageMaps (numPages_lt length)).mpr ⟨p - base / pageSize, by omega, rfl⟩, ?_⟩
    simp only [numPages, SamePage, physToVirt, memVirtOffset, u64, pageSize, mul_pageSize] at *
    omega

theorem entryMaps_iff (boot : BootOk map kernel) (member : entry ∈ map) (page : p < 2 ^ 33) :
    (∃ call ∈ entryMaps kernel entry, SamePage (physToVirt (p * pageSize)) call.vaddr) ↔
      entry.OwnMap ∧ entry.base / pageSize ≤ p ∧ p < entry.base / pageSize + numPages entry.length := by
  have inside : entry.base + entry.length ≤ 2 ^ 45 := (boot.entry_end member).trans boot.physLimit
  rw [entryMaps]
  by_cases ofKernel : entry.type = .kernelAndModules
  · rw [if_pos ofKernel]
    refine iff_of_false ?_ fun both => both.1.1.2 ofKernel
    rintro ⟨call, mapped, same⟩
    exact kernelMaps_apart boot member page mapped same
  · rw [if_neg ofKernel]
    by_cases framebuffer : entry.type = .framebuffer
    · have own : entry.OwnMap := ⟨⟨by rw [framebuffer]; decide, ofKernel⟩, .inl framebuffer⟩
      rw [if_pos framebuffer, direct_iff inside page, and_iff_right own]
    · rw [if_neg framebuffer]
      split
      · next mapped =>
        have own : entry.OwnMap := ⟨⟨mapped.1, ofKernel⟩, .inr mapped.2⟩
        rw [direct_iff inside page, and_iff_right own]
      · next skipped =>
        refine iff_of_false (by simp) fun both => skipped ⟨both.1.1.1, ?_⟩
        exact both.1.2.resolve_left framebuffer

/-- The calls for a page of the direct map agree, and there is one if and only if the page is one
    of those mapped. -/
theorem initMaps_iff (boot : BootOk map kernel) (page : p < 2 ^ 33) :
    (∀ call ∈ initMaps (physLimitOf map) map kernel,
      SamePage (physToVirt (p * pageSize)) call.vaddr → clear12 call.paddr = p * pageSize) ∧
    ((∃ call ∈ initMaps (physLimitOf map) map kernel,
      SamePage (physToVirt (p * pageSize)) call.vaddr) ↔ PageMapped map p) := by
  have size : 0 + min (physLimitOf map) mmSize ≤ 2 ^ 45 := by
    rw [Nat.zero_add]
    exact (Nat.min_le_left ..).trans boot.physLimit
  have zero : physToVirt 0 = 0xffff800000000000 := by decide
  have low := @direct_iff vmmFlagsDefault p 0 _ size page
  rw [zero, Nat.zero_div, Nat.zero_add, and_iff_right (Nat.zero_le p)] at low
  simp only [initMaps, List.mem_append, List.mem_flatMap]
  refine ⟨fun call member same => ?_, ?_⟩
  · rcases member with member | member | ⟨entry, ofMap, member⟩
    · exact absurd same (image_apart page member)
    · exact (direct_place size page (zero ▸ member) same).1
    · exact (entryMaps_place boot ofMap page member same).2.1
  · rw [PageMapped, ← low]
    constructor
    · rintro ⟨call, member | member | ⟨entry, ofMap, member⟩, same⟩
      · exact absurd same (image_apart page member)
      · exact .inl ⟨call, member, same⟩
      · exact .inr ⟨entry, ofMap, (entryMaps_iff boot ofMap page).mp ⟨call, member, same⟩⟩
    · rintro (⟨call, member, same⟩ | ⟨entry, ofMap, own⟩)
      · exact ⟨call, .inr (.inl member), same⟩
      · obtain ⟨call, member, same⟩ := (entryMaps_iff boot ofMap page).mpr own
        exact ⟨call, .inr (.inr ⟨entry, ofMap, member⟩), same⟩

/-! ## The pages the memory manager hands out -/

/-- `PHYS_TO_VIRT` leads to the page. -/
def ReachedAt (pm : PhysMem) (pml4 p : Nat) : Prop :=
  translate pm pml4 (physToVirt (p * pageSize)) = some (p * pageSize)

/-- There are two adjacent pages for the PML4, and a page whenever a table is missing. -/
structure EnoughMemory (start : PhysMem) (map : List MemmapEntry) (kernel : KernelAddress) :
    Prop where
  pml4 : FirstFitTracked start 2
  tables : ∀ pml4 pm, allocPml4 start = some (pml4, pm) →
    Along (PageMap.run pml4) (PageMap.Served pml4) pm (initMaps pm.physLimit map kernel)

/-- `PHYS_TO_VIRT` of a byte is found at the byte if and only if its page is mapped. -/
theorem vmmInit_translates {mem : Mem} (boot : BootOk map kernel) (initialised : pmmInit map mem = some start)
    (enough : EnoughMemory start map kernel) :
    ∃ pml4 pm, vmmInit start map kernel = some (pml4, pm) ∧ pm.physLimit = start.physLimit ∧
      ∀ b < physLimitOf map,
        (translate pm pml4 (physToVirt b) = some b ↔ PageMapped map (b / pageSize)) := by
  -- the PML4 is empty before the calls, so a page is mapped if one of them maps it
  obtain ⟨limit, ready, _, _⟩ := pmmInit_spec boot.memmap initialised
  obtain ⟨pml4, pm, allocated, empty, physLimit, _⟩ := allocPml4_spec ready enough.pml4
  obtain ⟨final, finished, finalLimit, _, place⟩ := pageMaps_spec empty.treeOk
    (enough.tables pml4 pm allocated) fun call member => initMaps_valid member
  refine ⟨pml4, final, ?_, finalLimit.trans physLimit, fun b below => ?_⟩
  · simp only [vmmInit_eq, allocated, Option.bind_some, finished, Option.map_some]
  · have bound := below.trans_le boot.physLimit
    have page : b / pageSize < 2 ^ 33 := by
      rw [pageSize]
      omega
    have samePage : ∀ other, SamePage (physToVirt b) other ↔
        SamePage (physToVirt (b / pageSize * pageSize)) other := fun other => by
      simp only [SamePage, physToVirt, memVirtOffset, u64, pageSize, mul_pageSize]
      omega
    have offset : physToVirt b % pageSize = b % pageSize := by
      simp only [physToVirt, memVirtOffset, u64, pageSize]
      omega
    obtain ⟨agree, called⟩ := @initMaps_iff (b / pageSize) map kernel boot page
    rw [← limit, ← physLimit] at agree called
    have unmapped : translate pm pml4 (physToVirt b) = none := by
      rw [translate, empty.leafEntry length_tablePath]
      rfl
    rw [place _ (b / pageSize * pageSize) fun call member same =>
      agree call member ((samePage call.vaddr).mp same), unmapped, offset, Nat.div_add_mod']
    simp only [samePage]
    rw [← called]
    split
    · next mapped => exact iff_of_true rfl mapped
    · next missing => exact iff_of_false (by simp) missing

theorem reachedAt_iff (inLimit : p * pageSize < physLimitOf map)
    (translates : ∀ b < physLimitOf map,
      (translate pm root (physToVirt b) = some b ↔ PageMapped map (b / pageSize))) :
    ReachedAt pm root p ↔ PageMapped map p := by
  have page : p * pageSize / pageSize = p := Nat.mul_div_cancel p (Nat.two_pow_pos 12)
  rw [ReachedAt, translates _ inLimit, page]

/-- Of the pages of usable memory, those below `MM_SIZE` are mapped. -/
theorem pageMapped_usable (boot : BootOk map kernel) (usable : Usable map p) :
    PageMapped map p ↔ p * pageSize < mmSize := by
  have limit := boot.physLimit
  have inside : p * pageSize < physLimitOf map := by
    obtain ⟨own, member, _, _, _, high⟩ := usable
    exact high.trans_le (boot.entry_end member)
  have low : p < numPages (min (physLimitOf map) mmSize) ↔ p * pageSize < mmSize := by
    simp only [numPages, mmSize, u64, pageSize, mul_pageSize] at *
    omega
  rw [PageMapped, low, or_iff_left]
  rintro ⟨entry, member, own, first, last⟩
  -- an entry with bytes on the page is no other than its own
  have top := boot.entry_end member
  refine boot.usable_apart usable member own.1.1
    (x := entry.base + (p - entry.base / pageSize) * pageSize) ?_ ⟨Nat.le_add_right .., ?_⟩
  · simp only [clear12, pageSize, mul_pageSize] at *
    omega
  · simp only [numPages, u64, pageSize, mul_pageSize] at *
    omega

/-- Every page that `pmm_get` can return is found at `PHYS_TO_VIRT` after `vmm_init` if and only if
    all pages with a set bit are mapped there: of the pages with a bit in the bitmap itself, those
    below `MM_SIZE`.  The bits may be those that `pmm_init` leaves, or those that `vmm_init` leaves. -/
theorem direct_map_iff {mem : Mem} (boot : BootOk map kernel)
    (initialised : pmmInit map mem = some start) (enough : EnoughMemory start map kernel) :
    ∃ pml4 pm, vmmInit start map kernel = some (pml4, pm) ∧
      ((∀ p, start.InLimit p → start.isFree p → ReachedAt pm pml4 p) ↔
        ∀ p, start.InLimit p → start.isFree p → PageMapped map p) ∧
      ((∀ p, pm.InLimit p → pm.isFree p → ReachedAt pm pml4 p) ↔
        ∀ p, pm.InLimit p → pm.isFree p → PageMapped map p) ∧
      ∀ p, start.Tracked p → start.isFree p → (PageMapped map p ↔ p * pageSize < mmSize) := by
  obtain ⟨limit, _, _, free⟩ := pmmInit_spec boot.memmap initialised
  obtain ⟨pml4, pm, done, physLimit, translates⟩ := vmmInit_translates boot initialised enough
  have reached : ∀ p, start.InLimit p → (ReachedAt pm pml4 p ↔ PageMapped map p) := by
    intro p inLimit
    rw [PhysMem.InLimit, limit] at inLimit
    exact reachedAt_iff inLimit translates
  refine ⟨pml4, pm, done, ?_, ?_, ?_⟩
  · exact forall_congr' fun p => forall_congr' fun inLimit => forall_congr' fun _ => reached p inLimit
  · refine forall_congr' fun p => forall_congr' fun inLimit => forall_congr' fun _ => reached p ?_
    rwa [PhysMem.InLimit, physLimit] at inLimit
  · exact fun p tracked isFree => pageMapped_usable boot ((free p tracked).mp isFree).1

/-! ## A machine with 4 GiB -/

def bigMap : List MemmapEntry :=
  [⟨0x100000, 0x100000, .kernelAndModules⟩, ⟨0x200000, 0xFFE00000, .usable⟩]

def bigKernel : KernelAddress := ⟨0xffffffff80200000, 0x100000⟩

theorem bigMap_ok : BootOk bigMap bigKernel where
  memmap := ⟨by decide, by decide⟩
  apart := by decide
  physLimit := by decide
  virtualBase := by decide
  physicalBase := by decide

theorem bigMap_usable (p : Nat) : Usable bigMap p ↔ 512 ≤ p ∧ p < 2 ^ 20 := by
  simp only [Usable, bigMap, List.mem_cons, List.not_mem_nil, or_false, exists_eq_or_imp,
    exists_eq_left, MemmapEntry.aboveLow, MemmapEntry.top, u64, pageSize, mul_pageSize,
    reduceCtorEq]
  norm_num
  omega

/-- The bitmap takes the first 32 usable pages, and the rest is free; so it is for every map with
    the same usable memory. -/
theorem bigStart_of (ok : MapOk map) (limit : physLimitOf map / (pageSize * bmpPagesPerByte) = 2 ^ 17)
    (usable : ∀ p, Usable map p ↔ 512 ≤ p ∧ p < 2 ^ 20)
    (found : map.find? (fun entry => entry.aboveLow ∧
      physLimitOf map / (pageSize * bmpPagesPerByte) ≤ entry.length ∧ entry.type = .usable) =
        some ⟨0x200000, 0xFFE00000, .usable⟩) :
    ∃ start, pmmInit map (fun _ => 0) = some start ∧ start.bmSize = 2 ^ 17 ∧
      ∀ p < 2 ^ 20, start.isFree p ↔ 544 ≤ p := by
  obtain ⟨start, initialised⟩ : ∃ start, pmmInit map (fun _ => 0) = some start := by
    rw [pmmInit]
    simp only [found]
    exact ⟨_, rfl⟩
  obtain ⟨physLimit, ready, _, free⟩ := pmmInit_spec ok initialised
  obtain ⟨place, foundPlace, bitmap⟩ := pmmInit_bitmap ok initialised
  obtain rfl := Option.some.inj (found.symm.trans foundPlace)
  have bmSize : start.bmSize = 2 ^ 17 := by rw [PhysMem.bmSize, physLimit, limit]
  refine ⟨start, initialised, bmSize, fun p below => ?_⟩
  rw [free p (by rw [PhysMem.Tracked, bmSize]; omega), usable, PhysMem.Storage, bitmap, bmSize,
    show numPages (2 ^ 17) = 32 by decide]
  simp only [pageSize, mul_pageSize]
  omega

theorem bigStart : ∃ start, pmmInit bigMap (fun _ => 0) = some start ∧ start.bmSize = 2 ^ 17 ∧
    ∀ p < 2 ^ 20, start.isFree p ↔ 544 ≤ p :=
  bigStart_of bigMap_ok.memmap (by decide) bigMap_usable (by decide)

theorem length_pageMaps (few : np < 2 ^ 52) : (pageMaps vaddr paddr np flags).length = np := by
  have starts := @pageStarts_page 0 np (by simp only [pageSize, mul_pageSize]; omega)
  rw [Nat.zero_mul] at starts
  rw [pageMaps, starts, List.length_map, List.length_map, List.length_range']

theorem length_initMaps_big : (initMaps (2 ^ 32) bigMap bigKernel).length = 131328 := by
  have entries : bigMap.flatMap (entryMaps bigKernel) =
      pageMaps (sub64 (u64 (0xffffffff80200000 + 0x100000)) 0x100000) 0x100000
        (numPages 0x100000) vmmFlagsDefault := by
    simp [bigMap, entryMaps, bigKernel]
  rw [initMaps, List.length_append, List.length_append, entries, length_pageMaps (numPages_lt _),
    length_pageMaps (numPages_lt _), length_pageMaps (numPages_lt _)]
  decide

/-- Three pages for each of its calls leave the rest of the memory free. -/
theorem bigStart_enough {count : Nat} (bmSize : start.bmSize = 2 ^ 17)
    (length : (initMaps start.physLimit map kernel).length = count)
    (few : 546 + 3 * count < 2 ^ 20) (ready : PmmReady start)
    (free : ∀ p < 2 ^ 20, start.isFree p ↔ 544 ≤ p) :
    EnoughMemory start map kernel ∧
      ∀ pml4 pm, vmmInit start map kernel = some (pml4, pm) → pm.isFree (2 ^ 20 - 1) := by
  have first : start.FirstWindow 544 2 := by
    refine ⟨fun p low high => (free p (by omega)).mpr low, fun j below window => ?_⟩
    have := (free j (by omega)).mp (window j le_rfl (by omega))
    omega
  have fits : FirstFitTracked start 2 := ⟨544, first, by rw [bmSize]; decide⟩
  -- the PML4 takes pages 544 and 545
  have run : ∀ pml4 pm, allocPml4 start = some (pml4, pm) →
      Along (PageMap.run pml4) (PageMap.Served pml4) pm (initMaps pm.physLimit map kernel) ∧
      ∀ pm', (initMaps pm.physLimit map kernel).foldlM (PageMap.run pml4) pm = some pm' →
        pm'.Window (546 + 3 * count) (2 ^ 20 - (546 + 3 * count)) := by
    intro pml4 pm allocated
    obtain ⟨pml4', pm', result, empty, limit, q, taken, bits, _⟩ := allocPml4_spec ready fits
    obtain ⟨rfl, rfl⟩ := Prod.mk.inj (Option.some.inj (allocated.symm.trans result))
    have place : q ≤ 544 := not_lt.mp fun later => taken.first 544 later first.window
    rw [← limit] at length
    rw [← length]
    refine along_of_window empty.treeOk (fun call member => initMaps_valid member) ?_ ?_
    · intro p low high
      rw [length] at high
      have below : p < 2 ^ 20 := by omega
      exact (bits p (by rw [PhysMem.Tracked, bmSize]; omega)).mpr
        ⟨(free p below).mpr (by omega), by omega⟩
    · rw [length, bmSize_congr limit, bmSize]
      omega
  refine ⟨⟨fits, fun pml4 pm allocated => (run pml4 pm allocated).1⟩, fun pml4 pm done => ?_⟩
  rw [vmmInit_eq] at done
  obtain ⟨⟨pml4, pm₁⟩, allocated, done⟩ := Option.bind_eq_some_iff.mp done
  obtain ⟨final, finished, result⟩ := Option.map_eq_some_iff.mp done
  obtain ⟨rfl, rfl⟩ := Prod.mk.inj result
  exact (run _ _ allocated).2 _ finished _ (by omega) (by omega)

/-- Its last page is free and has no address. -/
theorem page_above_direct_map :
    ∃ start pml4 pm, pmmInit bigMap (fun _ => 0) = some start ∧
      vmmInit start bigMap bigKernel = some (pml4, pm) ∧
      ¬ ∀ p, pm.InLimit p → pm.isFree p → ReachedAt pm pml4 p := by
  obtain ⟨start, initialised, bmSize, free⟩ := bigStart
  obtain ⟨limit, ready, _, _⟩ := pmmInit_spec bigMap_ok.memmap initialised
  have length := length_initMaps_big
  rw [show 2 ^ 32 = start.physLimit from ((limit.trans (by decide)).symm)] at length
  obtain ⟨enough, last⟩ := bigStart_enough bmSize length (by decide) ready free
  obtain ⟨pml4, pm, done, physLimit, translates⟩ := vmmInit_translates bigMap_ok initialised enough
  have inLimit : pm.InLimit (2 ^ 20 - 1) := by
    rw [PhysMem.InLimit, physLimit, limit]
    decide
  refine ⟨start, pml4, pm, initialised, done, fun all => ?_⟩
  have mapped := (reachedAt_iff (by decide) translates).mp (all _ inLimit (last pml4 pm done))
  rw [pageMapped_usable bigMap_ok ((bigMap_usable _).mpr (by decide))] at mapped
  exact absurd mapped (by decide)

theorem direct_map_iff_bigMap :
    ∃ start pml4 pm, pmmInit bigMap (fun _ => 0) = some start ∧
      vmmInit start bigMap bigKernel = some (pml4, pm) ∧
      ((∀ p, start.InLimit p → start.isFree p → ReachedAt pm pml4 p) ↔
        ∀ p, start.InLimit p → start.isFree p → PageMapped bigMap p) := by
  obtain ⟨start, initialised, bmSize, free⟩ := bigStart
  obtain ⟨limit, ready, _, _⟩ := pmmInit_spec bigMap_ok.memmap initialised
  have length := length_initMaps_big
  rw [show 2 ^ 32 = start.physLimit from ((limit.trans (by decide)).symm)] at length
  obtain ⟨enough, _⟩ := bigStart_enough bmSize length (by decide) ready free
  obtain ⟨pml4, pm, done, iff, _⟩ := direct_map_iff bigMap_ok initialised enough
  exact ⟨start, pml4, pm, initialised, done, iff⟩

end HanOS.Core
