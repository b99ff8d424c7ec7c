import HanOS.Core.VmmInit

/-!
# The memory of devices

Framebuffers, tables of the firmware and the memory of devices have entries of their own in
the memory map, which need not consist of whole pages.  `vmm_init` takes the number of pages
from the length of an entry alone, so the last bytes may lie on a page behind those it maps
(`devices_translated_iff`).
-/

namespace HanOS.Core

open HanOS.Foundations HanOS.Lib

variable {pm start : PhysMem} {root p b flags : Nat} {map : List MemmapEntry} {mem : Mem}
variable {kernel : KernelAddress} {entry : MemmapEntry}

/-! ## The last byte -/

/-- Only the last page of an entry can be missing. -/
theorem pageMapped_of_last (boot : BootOk map kernel) (member : entry ∈ map) (device : entry.Device)
    (low : entry.base ≤ b) (high : b < entry.base + entry.length)
    (last : PageMapped map ((entry.base + entry.length - 1) / pageSize)) :
    PageMapped map (b / pageSize) := by
  have end_ := boot.entry_end member
  have limit := boot.physLimit
  have top : entry.top = entry.base + entry.length := u64_of_lt (boot.memmap.nowrap entry member)
  by_cases own : entry.OwnMap
  · by_cases behind : b / pageSize < entry.base / pageSize + numPages entry.length
    · exact .inr ⟨entry, member, own, Nat.div_le_div_right low, behind⟩
    · have same : b / pageSize = (entry.base + entry.length - 1) / pageSize := by
        simp only [numPages, u64, pageSize] at *
        omega
      rwa [same]
  · -- an entry without a call of its own lies in the first `MM_SIZE` bytes
    have below : entry.top ≤ mmSize := not_lt.mp fun large => own ⟨device, .inr (.inr large)⟩
    refine .inl ?_
    have inside : b < min (physLimitOf map) mmSize := by omega
    have size : min (physLimitOf map) mmSize ≤ 2 ^ 45 := (Nat.min_le_left ..).trans limit
    simp only [numPages, u64, pageSize]
    omega

/-- The bytes of the devices are found at `PHYS_TO_VIRT` after `vmm_init` if and only if the last
    byte of every entry is on a mapped page. -/
theorem devices_translated_iff (boot : BootOk map kernel) (initialised : pmmInit map mem = some start)
    (enough : EnoughMemory start map kernel) :
    ∃ pml4 pm, vmmInit start map kernel = some (pml4, pm) ∧
      ((∀ entry ∈ map, entry.Device → ∀ b, entry.base ≤ b → b < entry.base + entry.length →
          translate pm pml4 (physToVirt b) = some b) ↔
        ∀ entry ∈ map, entry.Device → 0 < entry.length →
          PageMapped map ((entry.base + entry.length - 1) / pageSize)) := by
  obtain ⟨pml4, pm, done, _, translates⟩ := vmmInit_translates boot initialised enough
  refine ⟨pml4, pm, done, fun all entry member device some_ => ?_,
    fun last entry member device b low high => ?_⟩
  · have end_ := boot.entry_end member
    exact (translates _ (by omega)).mp (all entry member device _ (by omega) (by omega))
  · have end_ := boot.entry_end member
    exact (translates b (by omega)).mpr (pageMapped_of_last boot member device low high
      (last entry member device (by omega)))

/-! ## A framebuffer that does not begin with a page -/

def unalignedMap : List MemmapEntry := bigMap ++ [⟨0x100000800, 0x1000, .framebuffer⟩]

theorem unalignedMap_ok : BootOk unalignedMap bigKernel where
  memmap := ⟨by decide, by decide⟩
  apart := by decide
  physLimit := by decide
  virtualBase := by decide
  physicalBase := by decide

theorem unalignedStart : ∃ start, pmmInit unalignedMap (fun _ => 0) = some start ∧
    EnoughMemory start unalignedMap bigKernel := by
  have usable : ∀ p, Usable unalignedMap p ↔ 512 ≤ p ∧ p < 2 ^ 20 := by
    intro p
    rw [← bigMap_usable p]
    simp only [Usable, unalignedMap, List.mem_append, List.mem_singleton, or_and_right, exists_or,
      exists_eq_left, reduceCtorEq, false_and, and_false, or_false]
  obtain ⟨start, initialised, bmSize, free⟩ :=
    bigStart_of unalignedMap_ok.memmap (by decide) usable (by decide)
  obtain ⟨limit, ready, _, _⟩ := pmmInit_spec unalignedMap_ok.memmap initialised
  have length : (initMaps start.physLimit unalignedMap bigKernel).length = 131329 := by
    have entries : unalignedMap.flatMap (entryMaps bigKernel) =
        pageMaps (sub64 (u64 (0xffffffff80200000 + 0x100000)) 0x100000) 0x100000
          (numPages 0x100000) vmmFlagsDefault ++
        pageMaps (physToVirt 0x100000800) 0x100000800 (numPages 0x1000) vmmFlagsDefault := by
      simp [unalignedMap, bigMap, entryMaps, bigKernel]
    rw [initMaps, List.length_append, List.length_append, entries, List.length_append, limit,
      length_pageMaps (numPages_lt _), length_pageMaps (numPages_lt _),
      length_pageMaps (numPages_lt _), length_pageMaps (numPages_lt _)]
    decide
  exact ⟨start, initialised, (bigStart_enough bmSize length (by decide) ready free).1⟩

theorem not_pageMapped_unalignedMap : ¬ PageMapped unalignedMap 0x100001 := by
  rintro (low | ⟨entry, member, own, low, high⟩)
  · exact absurd low (by decide)
  · simp only [unalignedMap, bigMap, List.mem_append, List.mem_cons, List.not_mem_nil,
      or_false] at member
    rcases member with (rfl | rfl) | rfl
    · exact own.1.2 rfl
    · exact own.1.1 rfl
    · exact absurd high (by decide)

/-- The second half of this framebuffer begins a page of its own, which is not mapped. -/
theorem framebuffer_end_unmapped :
    ∃ start pml4 pm, pmmInit unalignedMap (fun _ => 0) = some start ∧
      vmmInit start unalignedMap bigKernel = some (pml4, pm) ∧
      ¬ ∀ entry ∈ unalignedMap, entry.Device → ∀ b, entry.base ≤ b →
        b < entry.base + entry.length → translate pm pml4 (physToVirt b) = some b := by
  obtain ⟨start, initialised, enough⟩ := unalignedStart
  obtain ⟨pml4, pm, done, _, translates⟩ := vmmInit_translates unalignedMap_ok initialised enough
  refine ⟨start, pml4, pm, initialised, done, fun all => ?_⟩
  have found := all ⟨0x100000800, 0x1000, .framebuffer⟩ (by simp [unalignedMap])
    ⟨by decide, by decide⟩ 0x100001000 (by decide) (by decide)
  exact not_pageMapped_unalignedMap ((translates 0x100001000 (by decide)).mp found)

theorem devices_translated_iff_unalignedMap :
    ∃ start pml4 pm, pmmInit unalignedMap (fun _ => 0) = some start ∧
      vmmInit start unalignedMap bigKernel = some (pml4, pm) ∧
      ((∀ entry ∈ unalignedMap, entry.Device → ∀ b, entry.base ≤ b →
          b < entry.base + entry.length → translate pm pml4 (physToVirt b) = some b) ↔
        ∀ entry ∈ unalignedMap, entry.Device → 0 < entry.length →
          PageMapped unalignedMap ((entry.base + entry.length - 1) / pageSize)) := by
  obtain ⟨start, initialised, enough⟩ := unalignedStart
  obtain ⟨pml4, pm, done, iff⟩ := devices_translated_iff unalignedMap_ok initialised enough
  exact ⟨start, pml4, pm, initialised, done, iff⟩

end HanOS.Core
