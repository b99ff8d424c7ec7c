import HanOS.Core.PmmCount
import HanOS.Lib.HeapRuns
import Mathlib.Algebra.Order.BigOperators.Group.List
import Mathlib.Data.List.Nodup
import Mathlib.Data.List.Perm.Basic

/-!
# The heap on several CPUs

`pmm_alloc` and `pmm_free` take no lock.  Here every check of a range of bits, every change of bits and
every update of `free_size` is a step of its own, and the CPUs take their steps in any order.  Between
the check of a window and its marking another CPU may take the window too (`window_taken_twice`).  As
long as every window that is marked is still free and has its bits in the bitmap, live blocks share no
page and `free_size` counts the free pages (`cpus_sound`).
-/

namespace HanOS.Lib

open HanOS.Foundations HanOS.Core

/-! ## The steps -/

/-- Where a CPU is in `kmalloc` or `kmfree`; the addresses are physical ones. -/
inductive CpuCall
  | idle
  /-- `pmm_get`, with these windows left. -/
  | search (size : Nat) (rest : List Nat)
  /-- `pmm_alloc`, behind `bitmap_isfree`. -/
  | mark (size addr : Nat)
  /-- `pmm_alloc`, behind `bitmap_markused`. -/
  | account (size addr : Nat)
  /-- `kmalloc`, behind `pmm_get`. -/
  | recordPages (size addr : Nat)
  | recordSize (size addr : Nat)
  /-- `pmm_free`, with these pages left. -/
  | release (rest : List Nat)
  /-- It found the first of them used. -/
  | addSize (addr : Nat) (rest : List Nat)
  | setBit (addr : Nat) (rest : List Nat)
  deriving DecidableEq

/-- The argument `numpages` of `pmm_get` in `kmalloc`. -/
def windowPages (size : Nat) : Nat := u64 (numPages size + 1)

/-- The next step of a call, and the block it returns. -/
def CpuCall.step (pm : PhysMem) : CpuCall → Option (CpuCall × PhysMem × Option Block)
  | .idle => none
  -- `kpanic`
  | .search _ [] => none
  | .search size (addr :: rest) =>
    if bitmapIsfree pm addr (windowPages size) then some (.mark size addr, pm, none)
    else some (.search size rest, pm, none)
  | .mark size addr => some (.account size addr, bitmapMarkused pm addr (windowPages size), none)
  | .account size addr =>
    some (.recordPages size addr,
      { pm with freeSize := sub64 pm.freeSize (u64 (windowPages size * pageSize)) }, none)
  | .recordPages size addr =>
    some (.recordSize size addr, store64 pm (numpagesAt addr) (numPages size), none)
  | .recordSize size addr =>
    some (.idle, store64 pm (sizeAt addr) size, some ⟨addr + pageSize, size⟩)
  | .release [] => some (.idle, pm, none)
  | .release (addr :: rest) =>
    if bitmapIsfree pm addr 1 then some (.setBit addr rest, pm, none)
    else some (.addSize addr rest, pm, none)
  | .addSize addr rest =>
    some (.setBit addr rest, { pm with freeSize := u64 (pm.freeSize + pageSize) }, none)
  | .setBit addr rest => some (.release rest, pm.markfree addr, none)

/-- The memory, what each CPU is doing, and the blocks that were returned and not given back. -/
structure Cpus where
  pm : PhysMem
  calls : List CpuCall
  live : List Block

inductive CpuAction
  | malloc (cpu size : Nat)
  | free (cpu addr : Nat)
  /-- The CPU takes the next step of its call. -/
  | run (cpu : Nat)
  /-- A client writes to its block. -/
  | write (addr : Nat) (byte : Byte)

def Cpus.step (s : Cpus) : CpuAction → Option Cpus
  | .malloc cpu size =>
    if s.calls[cpu]? = some .idle then
      some { s with calls := s.calls.set cpu (.search size (candidates s.pm 0)) }
    else none
  | .free cpu addr =>
    if s.calls[cpu]? = some .idle then
      let d := sub64 addr pageSize
      let pages := pageStarts d (u64 (load64 s.pm (numpagesAt d) + 1))
      some { s with calls := s.calls.set cpu (.release pages), live := without s.live (some addr) }
    else none
  | .run cpu => do
    let call ← s.calls[cpu]?
    let (call, pm, block) ← call.step s.pm
    some { pm, calls := s.calls.set cpu call, live := block.toList ++ s.live }
  | .write addr byte => some { s with pm := { s.pm with mem := fill s.pm.mem addr 1 byte } }

/-- What clients keep to: pointers given back are those of live blocks, writes stay in the data of one,
    and rounding a size up to pages does not wrap. -/
def Cpus.Allowed (s : Cpus) : CpuAction → Prop
  | .malloc _ size => size + pageSize ≤ 2 ^ 64
  | .free _ addr => ∃ b ∈ s.live, b.ptr = addr
  | .run _ => True
  | .write addr _ => ∃ b ∈ s.live, b.HasData addr

/-- A window that is marked is still free, and its bits are in the bitmap. -/
def CpuCall.Undisturbed (pm : PhysMem) : CpuCall → Prop
  | .mark size addr => ∀ p, addr / pageSize ≤ p → p < addr / pageSize + (numPages size + 1) →
      pm.Tracked p ∧ pm.isFree p
  | _ => True

def Cpus.Undisturbed (s : Cpus) : CpuAction → Prop
  | .run cpu => ∀ call ∈ s.calls[cpu]?, call.Undisturbed s.pm
  | _ => True

instance {s : Cpus} : DecidablePred s.Allowed
  | .malloc _ _ => inferInstanceAs (Decidable (_ ≤ _))
  | .free _ addr => inferInstanceAs (Decidable (∃ b ∈ s.live, b.ptr = addr))
  | .run _ => inferInstanceAs (Decidable True)
  | .write addr _ => inferInstanceAs (Decidable (∃ b ∈ s.live, b.ptr ≤ addr ∧ addr < b.ptr + pageAlignUp b.size))

instance {pm : PhysMem} : DecidablePred (CpuCall.Undisturbed pm)
  | .mark size addr => inferInstanceAs (Decidable (∀ p, addr / pageSize ≤ p →
      p < addr / pageSize + (numPages size + 1) → pm.Tracked p ∧ pm.isFree p))
  | .idle | .search _ _ | .account _ _ | .recordPages _ _ | .recordSize _ _ | .release _
  | .addSize _ _ | .setBit _ _ => inferInstanceAs (Decidable True)

instance {s : Cpus} : DecidablePred s.Undisturbed
  | .run cpu => inferInstanceAs (Decidable (∀ call ∈ s.calls[cpu]?, call.Undisturbed s.pm))
  | .malloc _ _ | .free _ _ | .write _ _ => inferInstanceAs (Decidable True)

/-- No two live blocks share a page, and between the calls `free_size` counts the free pages. -/
structure CpusSound (s : Cpus) : Prop where
  apart : s.live.Pairwise Block.Apart
  freeSize : (∀ call ∈ s.calls, call = .idle) → s.pm.freeSize = freePages s.pm * pageSize

/-! ## Who holds which pages -/

def CpuCall.pages : CpuCall → List Nat
  | .idle | .search _ _ | .mark _ _ => []
  | .account size addr | .recordPages size addr | .recordSize size addr =>
    List.range' (addr / pageSize) (numPages size + 1)
  | .release rest => rest.map (· / pageSize)
  | .addSize addr rest | .setBit addr rest => (addr :: rest).map (· / pageSize)

/-- The pages that `free_size` counts while their bits are not set. -/
def CpuCall.counted : CpuCall → Nat
  | .account size _ => numPages size + 1
  | .setBit _ _ => 1
  | _ => 0

def Block.pageList (b : Block) : List Nat := List.range' b.first b.pages

def held (calls : List CpuCall) (live : List Block) : List Nat :=
  calls.flatMap CpuCall.pages ++ live.flatMap Block.pageList

/-- The addresses of a call are those of pages, and the metadata it has written is there. -/
def CpuCall.Ok (pm : PhysMem) : CpuCall → Prop
  | .idle => True
  | .search _ rest | .release rest => ∀ addr ∈ rest, pageSize ∣ addr
  | .mark _ addr | .account _ addr | .recordPages _ addr => pageSize ∣ addr
  | .recordSize size addr => pageSize ∣ addr ∧ load64 pm (numpagesAt addr) = numPages size
  | .addSize addr rest | .setBit addr rest => ∀ other ∈ addr :: rest, pageSize ∣ other

/-- A live block is where its pointer says, with the number of its pages on its first one. -/
structure Block.Kept (pm : PhysMem) (b : Block) : Prop where
  aligned : b.ptr = (b.first + 1) * pageSize
  numpages : load64 pm (numpagesAt (b.first * pageSize)) = numPages b.size

/-- The pages in use are those in use at the start and those that calls and blocks hold; each has one
    holder. -/
structure CpusOk (start pm : PhysMem) (calls : List CpuCall) (live : List Block) : Prop where
  bitmap : pm.bitmap = start.bitmap
  physLimit : pm.physLimit = start.physLimit
  single : (held calls live).Nodup
  wasFree : ∀ p ∈ held calls live, start.Tracked p ∧ start.isFree p
  bits : ∀ p, start.Tracked p → (pm.isFree p ↔ start.isFree p ∧ p ∉ held calls live)
  freeSize : pm.freeSize = (freePages pm + (calls.map CpuCall.counted).sum) * pageSize
  calls : ∀ call ∈ calls, call.Ok pm
  live : ∀ b ∈ live, b.Kept pm

variable {start pm pm' : PhysMem} {calls calls' rest : List CpuCall} {call call' : CpuCall}
  {live live' : List Block} {b : Block} {p q n x size addr : Nat}

theorem held_perm (calls_ : calls.Perm calls') (live_ : live.Perm live') :
    (held calls live).Perm (held calls' live') :=
  (calls_.flatMap_right _).append (live_.flatMap_right _)

theorem CpusOk.perm (ok : CpusOk start pm calls live) (calls_ : calls.Perm calls')
    (live_ : live.Perm live') : CpusOk start pm calls' live' := by
  have same := held_perm calls_ live_
  refine ⟨ok.bitmap, ok.physLimit, same.nodup ok.single, fun p member => ?_, fun p tracked => ?_, ?_,
    fun call member => ok.calls call (calls_.mem_iff.mpr member),
    fun b member => ok.live b (live_.mem_iff.mpr member)⟩
  · exact ok.wasFree p (same.mem_iff.mpr member)
  · rw [ok.bits p tracked, same.mem_iff]
  · rw [ok.freeSize, (calls_.map CpuCall.counted).sum_nat]

/-! ## Changes outside the pages of a holder -/

theorem windowPages_eq (size : Nat) : windowPages size = numPages size + 1 := by
  have few := numPages_lt size
  rw [windowPages, u64_of_lt (by omega)]

theorem load64_numpages_congr (aligned : pageSize ∣ addr)
    (same : ∀ x, x / pageSize = addr / pageSize → pm'.mem x = pm.mem x) :
    load64 pm' (numpagesAt addr) = load64 pm (numpagesAt addr) := by
  refine loadLE_congr fun x low high => same x ?_
  obtain ⟨q, rfl⟩ := aligned
  simp only [numpagesAt, pageSize] at *
  omega

theorem CpuCall.Ok.frame (ok : call.Ok pm)
    (same : ∀ p ∈ call.pages, ∀ x, x / pageSize = p → pm'.mem x = pm.mem x) : call.Ok pm' := by
  cases call with
  | recordSize size addr =>
    obtain ⟨aligned, numpages⟩ := ok
    refine ⟨aligned, ?_⟩
    rw [load64_numpages_congr aligned (same _ (List.mem_range'_1.mpr ⟨le_rfl, by omega⟩)), numpages]
  | _ => exact ok

theorem Block.first_mem (b : Block) : b.first ∈ b.pageList :=
  List.mem_range'_1.mpr ⟨le_rfl, by rw [Block.pages]; omega⟩

theorem Block.Kept.frame (kept : b.Kept pm)
    (same : ∀ x, x / pageSize = b.first → pm'.mem x = pm.mem x) : b.Kept pm' := by
  refine ⟨kept.aligned, ?_⟩
  have page : b.first * pageSize / pageSize = b.first := Nat.mul_div_cancel _ (by decide)
  rw [load64_numpages_congr (Dvd.intro_left _ rfl) (by rwa [page]), kept.numpages]

theorem mem_held_call (member : call ∈ calls) (page : p ∈ call.pages) : p ∈ held calls live :=
  List.mem_append_left _ (List.mem_flatMap_of_mem member page)

theorem mem_held_block (member : b ∈ live) (page : p ∈ b.pageList) : p ∈ held calls live :=
  List.mem_append_right _ (List.mem_flatMap_of_mem member page)

/-- Who holds none of the pages that change keeps its metadata. -/
theorem metadata_frame (calls_ : ∀ call ∈ calls, call.Ok pm) (live_ : ∀ b ∈ live, b.Kept pm)
    (same : ∀ p ∈ held calls live, ∀ x, x / pageSize = p → pm'.mem x = pm.mem x) :
    (∀ call ∈ calls, call.Ok pm') ∧ ∀ b ∈ live, b.Kept pm' :=
  ⟨fun _ member => (calls_ _ member).frame fun p page => same p (mem_held_call member page),
    fun _ member => (live_ _ member).frame (same _ (mem_held_block member (Block.first_mem _)))⟩

/-- The bitmap is in no page that is held. -/
theorem CpusOk.outside (ok : CpusOk start pm calls live) (ready : PmmReady start)
    (member : p ∈ held calls live) (inPage : x / pageSize = p) : ¬ pm.InBitmap x := by
  obtain ⟨tracked, free⟩ := ok.wasFree p member
  rw [inBitmap_congr ok.bitmap ok.physLimit]
  exact ready.outside_bitmap tracked free inPage

theorem CpusOk.bmSize (ok : CpusOk start pm calls live) : pm.bmSize = start.bmSize :=
  bmSize_congr ok.physLimit

theorem CpusOk.used (ok : CpusOk start pm calls live) (member : p ∈ held calls live) :
    pm.isFree p = false := by
  rw [← Bool.not_eq_true, ok.bits p (ok.wasFree p member).1]
  exact fun free => free.2 member

/-- Free pages and held ones are different pages of the bitmap. -/
theorem CpusOk.few (ok : CpusOk start pm calls live) :
    freePages pm + (held calls live).length ≤ 8 * start.bmSize := by
  have free : ∀ p ∈ (List.range (8 * pm.bmSize)).filter (fun p => pm.isFree p),
      p ∉ held calls live := by
    intro p member held_
    have isFree := (List.mem_filter.mp member).2
    rw [ok.used held_] at isFree
    cases isFree
  have nodup : ((List.range (8 * pm.bmSize)).filter (fun p => pm.isFree p) ++ held calls live).Nodup :=
    List.nodup_append'.mpr ⟨List.nodup_range.filter _, ok.single, free⟩
  have sub : (List.range (8 * pm.bmSize)).filter (fun p => pm.isFree p) ++ held calls live ⊆
      List.range (8 * start.bmSize) := by
    intro p member
    rw [List.mem_range]
    rcases List.mem_append.mp member with inRange | held_
    · have below := List.mem_range.mp (List.mem_filter.mp inRange).1
      rwa [ok.bmSize] at below
    · exact (ok.wasFree p held_).1
  have le := (List.subperm_of_subset nodup sub).length_le
  rwa [List.length_append, ← List.countP_eq_length_filter, List.length_range] at le

/-! ## One step of a call -/

/-- The call goes on with the same pages, and `free_size` counts what is to be counted then. -/
theorem CpusOk.resize {freeSize : Nat} (ok : CpusOk start pm (call :: rest) live)
    (pages : call'.pages = call.pages) (callOk : call'.Ok pm)
    (counted : freeSize =
      (freePages pm + (call'.counted + (rest.map CpuCall.counted).sum)) * pageSize) :
    CpusOk start { pm with freeSize } (call' :: rest) live := by
  have same : held (call' :: rest) live = held (call :: rest) live := by
    simp only [held, List.flatMap_cons, pages]
  have frame : ∀ {c : CpuCall}, c.Ok pm → c.Ok { pm with freeSize } :=
    fun ok => ok.frame fun _ _ _ _ => rfl
  refine ⟨ok.bitmap, ok.physLimit, same ▸ ok.single, same ▸ ok.wasFree, same ▸ ok.bits, counted, ?_,
    fun b member => (ok.live b member).frame fun _ _ => rfl⟩
  rw [List.forall_mem_cons]
  exact ⟨frame callOk, fun c member => frame (ok.calls c (List.mem_cons_of_mem _ member))⟩

theorem CpusOk.turn (ok : CpusOk start pm (call :: rest) live) (pages : call'.pages = call.pages)
    (counted : call'.counted = call.counted) (callOk : call'.Ok pm) :
    CpusOk start pm (call' :: rest) live := by
  refine ok.resize pages callOk ?_
  rw [ok.freeSize, List.map_cons, List.sum_cons, counted]

theorem CpusOk.metadata_bits (ok : CpusOk start pm calls live) (ready : PmmReady start)
    (same : SameButBits pm pm' q n) (inside : q + n ≤ 8 * start.bmSize) :
    (∀ call ∈ calls, call.Ok pm') ∧ ∀ b ∈ live, b.Kept pm' := by
  refine metadata_frame ok.calls ok.live fun p member x inPage => same.outside ?_ ?_
  · rwa [ok.bmSize]
  · exact ok.outside ready member inPage

theorem CpusOk.marked (ready : PmmReady start) (ok : CpusOk start pm (.mark size addr :: rest) live)
    (undisturbed : CpuCall.Undisturbed pm (.mark size addr)) :
    CpusOk start (bitmapMarkused pm addr (windowPages size)) (.account size addr :: rest) live := by
  obtain ⟨q, rfl⟩ : pageSize ∣ addr := ok.calls _ (List.mem_cons_self ..)
  have quotient : pageSize * q / pageSize = q := Nat.mul_div_cancel_left _ (by decide)
  rw [CpuCall.Undisturbed, quotient] at undisturbed
  have inside : q + (numPages size + 1) ≤ 8 * start.bmSize := by
    have last := (undisturbed (q + numPages size) (by omega) (by omega)).1
    rw [PhysMem.Tracked, ok.bmSize] at last
    omega
  have nowrap : (q + (numPages size + 1)) * pageSize < 2 ^ 64 :=
    (Nat.mul_le_mul_right _ inside).trans_lt (bmSize_pages ready)
  rw [windowPages_eq, mul_comm pageSize q]
  obtain ⟨same, freeSize, bits⟩ := bitmapMarkused_spec pm nowrap
  generalize bitmapMarkused pm (q * pageSize) (numPages size + 1) = pm' at same freeSize bits
  have window : (CpuCall.account size (q * pageSize)).pages = List.range' q (numPages size + 1) := by
    rw [CpuCall.pages, mul_comm, quotient]
  have split : held (.account size (q * pageSize) :: rest) live =
      List.range' q (numPages size + 1) ++ held (.mark size (pageSize * q) :: rest) live := by
    simp only [held, List.flatMap_cons, window, List.append_assoc]
    rfl
  -- the pages of the window are free, so nobody holds them
  have free : ∀ p ∈ List.range' q (numPages size + 1), start.Tracked p ∧ start.isFree p ∧
      p ∉ held (.mark size (pageSize * q) :: rest) live := by
    intro p member
    obtain ⟨low, high⟩ := List.mem_range'_1.mp member
    obtain ⟨tracked, isFree⟩ := undisturbed p low high
    rw [PhysMem.Tracked, ok.bmSize] at tracked
    exact ⟨tracked, (ok.bits p tracked).mp isFree⟩
  obtain ⟨calls, live_⟩ := ok.metadata_bits ready same inside
  refine ⟨same.bitmap.trans ok.bitmap, same.physLimit.trans ok.physLimit, ?_, ?_, ?_, ?_, ?_, live_⟩
  · rw [split]
    exact List.nodup_append'.mpr ⟨List.nodup_range', ok.single, fun p member => (free p member).2.2⟩
  · rw [split]
    intro p member
    rcases List.mem_append.mp member with new | old
    · exact ⟨(free p new).1, (free p new).2.1⟩
    · exact ok.wasFree p old
  · intro p tracked
    rw [split, List.mem_append, List.mem_range'_1, bits]
    by_cases inWindow : q ≤ p ∧ p < q + (numPages size + 1)
    · rw [if_pos inWindow]
      exact iff_of_false Bool.false_ne_true fun all => all.2 (.inl inWindow)
    · rw [if_neg inWindow, ok.bits p tracked]
      simp only [inWindow, false_or]
  · have taken := freePages_take (bmSize_congr same.physLimit) (by rwa [ok.bmSize])
      (fun p low high => (undisturbed p low high).2) bits
    rw [freeSize, ok.freeSize, taken]
    simp only [List.map_cons, List.sum_cons, CpuCall.counted]
    ring
  · intro other member
    cases member with
    | head => exact Dvd.intro_left _ rfl
    | tail _ member => exact calls other (List.mem_cons_of_mem _ member)

theorem CpuCall.counted_le (call : CpuCall) : call.counted ≤ call.pages.length := by
  cases call <;> simp [CpuCall.counted, CpuCall.pages]

theorem counted_le_held (calls : List CpuCall) (live : List Block) :
    (calls.map CpuCall.counted).sum ≤ (held calls live).length := by
  have le : (calls.map CpuCall.counted).sum ≤ (calls.map (·.pages.length)).sum :=
    List.sum_le_sum fun call _ => call.counted_le
  rw [held, List.length_append, List.length_flatMap]
  omega

theorem CpusOk.accounted (ready : PmmReady start)
    (ok : CpusOk start pm (.account size addr :: rest) live) :
    CpusOk start { pm with freeSize := sub64 pm.freeSize (u64 (windowPages size * pageSize)) }
      (.recordPages size addr :: rest) live := by
  have bound := bmSize_pages ready
  have few := ok.few
  have length : (held (.account size addr :: rest) live).length =
      numPages size + 1 + (held rest live).length := by
    simp [held, CpuCall.pages, Nat.add_assoc]
  have fits : (numPages size + 1) * pageSize < 2 ^ 64 := by
    refine (Nat.mul_le_mul_right _ ?_).trans_lt bound
    omega
  have callOk : CpuCall.Ok pm (.account size addr) := ok.calls _ (List.mem_cons_self ..)
  refine ok.resize rfl callOk ?_
  simp only [windowPages_eq, u64_of_lt fits, ok.freeSize, List.map_cons, List.sum_cons, CpuCall.counted]
  rw [sub64_of_le (Nat.mul_le_mul_right _ (by omega)), ← Nat.sub_mul]
  congr 1
  omega

/-- The update of `free_size` in `pmm_free`, for a page that is still used. -/
theorem CpusOk.sized {pages : List Nat} (ready : PmmReady start)
    (ok : CpusOk start pm (.addSize addr pages :: rest) live) :
    CpusOk start { pm with freeSize := u64 (pm.freeSize + pageSize) } (.setBit addr pages :: rest)
      live := by
  have bound := bmSize_pages ready
  have few := ok.few
  have counted := counted_le_held rest live
  have length : (held (.addSize addr pages :: rest) live).length =
      1 + pages.length + (held rest live).length := by
    simp [held, CpuCall.pages, Nat.add_assoc, Nat.add_comm 1]
  have fits : (freePages pm + (rest.map CpuCall.counted).sum + 1) * pageSize < 2 ^ 64 := by
    refine (Nat.mul_le_mul_right _ ?_).trans_lt bound
    omega
  have callOk : CpuCall.Ok pm (.addSize addr pages) := ok.calls _ (List.mem_cons_self ..)
  refine ok.resize rfl callOk ?_
  have added : (freePages pm + (0 + (rest.map CpuCall.counted).sum)) * pageSize + pageSize =
      (freePages pm + (rest.map CpuCall.counted).sum + 1) * pageSize := by ring
  simp only [ok.freeSize, List.map_cons, List.sum_cons, CpuCall.counted, added, u64_of_lt fits]
  ring

theorem CpusOk.frame {mem : Mem} (ok : CpusOk start pm calls live)
    (outside : ∀ x, start.InBitmap x → mem x = pm.mem x)
    (calls_ : ∀ call ∈ calls, call.Ok { pm with mem })
    (live_ : ∀ b ∈ live, b.Kept { pm with mem }) : CpusOk start { pm with mem } calls live := by
  have free : ∀ p, start.Tracked p → PhysMem.isFree { pm with mem } p = pm.isFree p := by
    intro p tracked
    refine @isFree_congr pm { pm with mem } _ rfl (fun x inside => outside x ?_) ?_
    · rwa [← inBitmap_congr ok.bitmap ok.physLimit]
    · rwa [tracked_congr ok.physLimit]
  have count : freePages { pm with mem } = freePages pm := by
    refine List.countP_congr fun p member => ?_
    have tracked : start.Tracked p := by
      rw [← tracked_congr ok.physLimit]
      exact List.mem_range.mp member
    rw [free p tracked]
  exact ⟨ok.bitmap, ok.physLimit, ok.single, ok.wasFree, fun p tracked => by
    rw [free p tracked, ok.bits p tracked], by rw [count]; exact ok.freeSize, calls_, live_⟩

theorem CpusOk.stored {value offset : Nat} (ready : PmmReady start)
    (ok : CpusOk start pm (call :: rest) live) (aligned : pageSize ∣ addr)
    (page : addr / pageSize ∈ call.pages) (inside : offset + 8 ≤ pageSize)
    (callOk : call.Ok (store64 pm (addr + offset) value)) :
    CpusOk start (store64 pm (addr + offset) value) (call :: rest) live := by
  have same : ∀ x, x / pageSize ≠ addr / pageSize →
      storeLE pm.mem (addr + offset) 8 value x = pm.mem x := by
    intro x apart
    obtain ⟨q, rfl⟩ := aligned
    refine storeLE_outside ?_
    simp only [pageSize] at *
    omega
  have others : ∀ p ∈ held rest live, p ≠ addr / pageSize := by
    rintro p member rfl
    have single := ok.single
    rw [held, List.flatMap_cons, List.append_assoc] at single
    exact (List.nodup_append'.mp single).2.2 page member
  obtain ⟨calls, live_⟩ := @metadata_frame pm (store64 pm (addr + offset) value) rest live
    (fun c member => ok.calls c (List.mem_cons_of_mem _ member)) ok.live
    fun p member x inPage => same x (inPage ▸ others p member)
  refine ok.frame (fun x inBitmap => same x fun here => ?_) (List.forall_mem_cons.mpr ⟨callOk, calls⟩)
    live_
  refine ok.outside ready (mem_held_call (List.mem_cons_self ..) page) here ?_
  rwa [inBitmap_congr ok.bitmap ok.physLimit]

theorem CpusOk.returned (ok : CpusOk start pm (.recordSize size addr :: rest) live) :
    CpusOk start pm (.idle :: rest) (⟨addr + pageSize, size⟩ :: live) := by
  obtain ⟨⟨q, rfl⟩, numpages⟩ : CpuCall.Ok pm (.recordSize size addr) :=
    ok.calls _ (List.mem_cons_self ..)
  generalize block : (⟨pageSize * q + pageSize, size⟩ : Block) = b
  have first : b.first = q := by
    subst block
    simp only [Block.first, pageSize]
    omega
  have pages : b.pageList = CpuCall.pages (.recordSize size (pageSize * q)) := by
    rw [Block.pageList, first, CpuCall.pages, Nat.mul_div_cancel_left _ (by decide), ← block]
    rfl
  have same : (held (.recordSize size (pageSize * q) :: rest) live).Perm
      (held (.idle :: rest) (b :: live)) := by
    simp only [held, List.flatMap_cons, pages]
    generalize CpuCall.pages (.recordSize size (pageSize * q)) = window
    rw [List.append_assoc]
    exact (List.perm_append_comm_assoc ..)
  refine ⟨ok.bitmap, ok.physLimit, same.nodup ok.single,
    fun p member => ok.wasFree p (same.mem_iff.mpr member),
    fun p tracked => by rw [ok.bits p tracked, same.mem_iff], ?_, ?_, ?_⟩
  · rw [ok.freeSize]
    rfl
  · exact List.forall_mem_cons.mpr ⟨trivial, fun c member => ok.calls c (List.mem_cons_of_mem _ member)⟩
  · refine List.forall_mem_cons.mpr ⟨⟨?_, ?_⟩, ok.live⟩
    · rw [first, ← block]
      ring
    · rw [first, mul_comm, numpages, ← block]

theorem CpusOk.released {pages : List Nat} (ready : PmmReady start)
    (ok : CpusOk start pm (.setBit addr pages :: rest) live) :
    CpusOk start (pm.markfree addr) (.release pages :: rest) live := by
  have aligned : ∀ other ∈ addr :: pages, pageSize ∣ other := ok.calls _ (List.mem_cons_self ..)
  obtain ⟨q, rfl⟩ := aligned addr (List.mem_cons_self ..)
  have quotient : pageSize * q / pageSize = q := Nat.mul_div_cancel_left _ (by decide)
  -- the page leaves those held by the call
  have split : held (.setBit (pageSize * q) pages :: rest) live =
      q :: held (.release pages :: rest) live := by
    simp [held, CpuCall.pages, quotient]
  have single := ok.single
  rw [split, List.nodup_cons] at single
  have own := ok.wasFree q (by rw [split]; exact List.mem_cons_self ..)
  have tracked : q + 1 ≤ 8 * start.bmSize := own.1
  have same : SameButBits pm (pm.markfree (q * pageSize)) q 1 := markfree_same
  have bits : ∀ p, (pm.markfree (q * pageSize)).isFree p = if p = q then true else pm.isFree p :=
    fun p => isFree_markfree
  rw [mul_comm pageSize q] at ok split ⊢
  obtain ⟨calls, live_⟩ := ok.metadata_bits ready same tracked
  have used : pm.isFree q = false := ok.used (by rw [split]; exact List.mem_cons_self ..)
  -- and is counted as free
  have given : freePages (pm.markfree (q * pageSize)) = freePages pm + 1 := by
    have range : ∀ p, q ≤ p ∧ p < q + 1 ↔ p = q := fun p => by omega
    have inside : q + 1 ≤ 8 * pm.bmSize := by
      rw [ok.bmSize]
      exact tracked
    have give := @freePages_give pm (pm.markfree (q * pageSize)) 1 q rfl inside
      fun p => by simp only [range]; exact bits p
    rwa [usedPages_all fun p low high => by
      obtain rfl : p = q := by omega
      exact used] at give
  refine ⟨same.bitmap.trans ok.bitmap, same.physLimit.trans ok.physLimit, single.2, ?_, ?_, ?_, ?_,
    live_⟩
  · intro p member
    exact ok.wasFree p (by rw [split]; exact List.mem_cons_of_mem _ member)
  · intro p isTracked
    rw [bits]
    by_cases here : p = q
    · subst here
      rw [if_pos rfl]
      exact iff_of_true rfl ⟨own.2, single.1⟩
    · rw [if_neg here, ok.bits p isTracked, split, List.mem_cons, or_iff_right here]
  · have freeSize : (pm.markfree (q * pageSize)).freeSize = pm.freeSize := rfl
    rw [freeSize, ok.freeSize, given]
    simp only [List.map_cons, List.sum_cons, CpuCall.counted]
    ring
  · refine List.forall_mem_cons.mpr ⟨?_, fun c member => calls c (List.mem_cons_of_mem _ member)⟩
    exact fun other member => aligned other (List.mem_cons_of_mem _ member)

/-- What the next step of a call leaves. -/
theorem CpusOk.step {block : Option Block} (ready : PmmReady start)
    (ok : CpusOk start pm (call :: rest) live) (undisturbed : call.Undisturbed pm)
    (stepped : call.step pm = some (call', pm', block)) :
    CpusOk start pm' (call' :: rest) (block.toList ++ live) := by
  have callOk : call.Ok pm := ok.calls _ (List.mem_cons_self ..)
  cases call with
  | idle => cases stepped
  | search size windows =>
    cases windows with
    | nil => cases stepped
    | cons addr windows =>
      obtain ⟨aligned, further⟩ := List.forall_mem_cons.mp callOk
      rw [CpuCall.step] at stepped
      split at stepped
      · cases stepped
        exact ok.turn rfl rfl aligned
      · cases stepped
        exact ok.turn rfl rfl further
  | mark size addr =>
    cases stepped
    exact ok.marked ready undisturbed
  | account size addr =>
    cases stepped
    exact ok.accounted ready
  | recordPages size addr =>
    cases stepped
    have few := numPages_lt size
    have aligned : pageSize ∣ addr := callOk
    have page : addr / pageSize ∈ (CpuCall.recordPages size addr).pages :=
      List.mem_range'_1.mpr ⟨le_rfl, by omega⟩
    have recorded : load64 (store64 pm (numpagesAt addr) (numPages size)) (numpagesAt addr) =
        numPages size := load64_store64 (by omega)
    have stored := @CpusOk.stored _ _ _ _ _ addr (numPages size) 0 ready ok aligned page
      (by decide) aligned
    exact stored.turn rfl rfl ⟨aligned, recorded⟩
  | recordSize size addr =>
    cases stepped
    obtain ⟨aligned, numpages⟩ := callOk
    have page : addr / pageSize ∈ (CpuCall.recordSize size addr).pages :=
      List.mem_range'_1.mpr ⟨le_rfl, by omega⟩
    have apart : numpagesAt addr + 8 ≤ sizeAt addr := by rw [numpagesAt, sizeAt]
    refine CpusOk.returned ?_
    refine @CpusOk.stored _ _ _ _ _ addr size 8 ready ok aligned page (by decide) ⟨aligned, ?_⟩
    exact (load64_store64_apart (.inl apart)).trans numpages
  | release pages =>
    cases pages with
    | nil =>
      cases stepped
      exact ok.turn rfl rfl trivial
    | cons addr pages =>
      -- the page is held, so its bit is not set
      obtain ⟨q, rfl⟩ : pageSize ∣ addr := callOk addr (List.mem_cons_self ..)
      have member : q ∈ held (.release (pageSize * q :: pages) :: rest) live := by
        refine mem_held_call (List.mem_cons_self ..) ?_
        simp [CpuCall.pages, Nat.mul_div_cancel_left q (show 0 < pageSize by decide)]
      have tracked : q + 1 ≤ 8 * start.bmSize := (ok.wasFree q member).1
      have used : bitmapIsfree pm (pageSize * q) 1 = false := by
        rw [← Bool.not_eq_true, mul_comm, bitmapIsfree_iff
          ((Nat.mul_le_mul_right _ tracked).trans_lt (bmSize_pages ready))]
        intro all
        have free := all q le_rfl (by omega)
        rw [ok.used member] at free
        cases free
      rw [CpuCall.step, used, if_neg Bool.false_ne_true] at stepped
      cases stepped
      exact ok.turn rfl rfl callOk
  | addSize addr pages =>
    cases stepped
    exact ok.sized ready
  | setBit addr pages =>
    cases stepped
    exact ok.released ready

/-! ## Steps of the system -/

theorem candidates_aligned : ∀ addr ∈ candidates pm 0, pageSize ∣ addr := by
  rw [candidates_zero]
  intro addr member
  obtain ⟨q, _, rfl⟩ := List.mem_map.mp member
  exact Dvd.intro_left _ rfl

/-- One CPU's call is brought to the front, and its next one put in its place. -/
theorem set_perm {cpu : Nat} (at_cpu : calls[cpu]? = some call) :
    calls.Perm (call :: calls.eraseIdx cpu) ∧
      ∀ call', (call' :: calls.eraseIdx cpu).Perm (calls.set cpu call') := by
  obtain ⟨inside, rfl⟩ := List.getElem?_eq_some_iff.mp at_cpu
  exact ⟨(List.getElem_cons_eraseIdx_perm inside).symm,
    fun call' => (List.set_perm_cons_eraseIdx inside call').symm⟩

theorem CpusOk.freed (ready : PmmReady start) (ok : CpusOk start pm (.idle :: rest) (b :: live)) :
    CpusOk start pm
      (.release (pageStarts (sub64 b.ptr pageSize)
        (u64 (load64 pm (numpagesAt (sub64 b.ptr pageSize)) + 1))) :: rest) live := by
  obtain ⟨aligned, numpages⟩ := ok.live b (List.mem_cons_self ..)
  have few := numPages_lt b.size
  have d : sub64 b.ptr pageSize = b.first * pageSize := by
    rw [sub64_of_le (by rw [aligned]; simp only [pageSize]; omega), aligned, Nat.add_mul, Nat.one_mul,
      Nat.add_sub_cancel]
  have own : ∀ p ∈ b.pageList, p ∈ held (.idle :: rest) (b :: live) :=
    fun p member => mem_held_block (List.mem_cons_self ..) member
  have inside : b.first + b.pages ≤ 8 * start.bmSize := by
    have last := (ok.wasFree (b.first + numPages b.size) (own _ (List.mem_range'_1.mpr
      ⟨by omega, by rw [Block.pages]; omega⟩))).1
    rw [PhysMem.Tracked] at last
    rw [Block.pages]
    omega
  have nowrap : (b.first + b.pages) * pageSize < 2 ^ 64 :=
    (Nat.mul_le_mul_right _ inside).trans_lt (bmSize_pages ready)
  have count : u64 (numPages b.size + 1) = b.pages := by rw [u64_of_lt (by omega), Block.pages]
  rw [d, numpages, count, pageStarts_page nowrap]
  have pages : CpuCall.pages (.release ((List.range' b.first b.pages).map (· * pageSize))) =
      b.pageList := by
    rw [CpuCall.pages, List.map_map, Block.pageList]
    refine (List.map_congr_left fun p _ => ?_).trans (List.map_id _)
    exact Nat.mul_div_cancel p (by decide)
  -- the call holds the pages that the block held
  have same : (held (.idle :: rest) (b :: live)).Perm
      (held (.release ((List.range' b.first b.pages).map (· * pageSize)) :: rest) live) := by
    have nothing : CpuCall.pages .idle = [] := rfl
    simp only [held, List.flatMap_cons, pages, nothing, List.nil_append, List.append_assoc]
    exact List.perm_append_comm_assoc ..
  refine ⟨ok.bitmap, ok.physLimit, same.nodup ok.single,
    fun p member => ok.wasFree p (same.mem_iff.mpr member),
    fun p tracked => by rw [ok.bits p tracked, same.mem_iff], ?_, ?_,
    fun c member => ok.live c (List.mem_cons_of_mem _ member)⟩
  · rw [ok.freeSize]
    rfl
  · refine List.forall_mem_cons.mpr ⟨fun other member => ?_,
      fun c member => ok.calls c (List.mem_cons_of_mem _ member)⟩
    obtain ⟨p, _, rfl⟩ := List.mem_map.mp member
    exact Dvd.intro_left _ rfl

theorem held_cons : (held calls (b :: live)).Perm (b.pageList ++ held calls live) := by
  rw [held, List.flatMap_cons]
  exact List.perm_append_comm_assoc ..

theorem CpusOk.written {byte : Byte} (ready : PmmReady start) (ok : CpusOk start pm calls (b :: live))
    (data : b.HasData addr) : CpusOk start { pm with mem := fill pm.mem addr 1 byte } calls (b :: live) := by
  have same : ∀ x, x / pageSize ≠ addr / pageSize → fill pm.mem addr 1 byte x = pm.mem x := by
    intro x apart
    refine fill_outside ?_
    have different : x ≠ addr := fun same => apart (by rw [same])
    omega
  -- the byte is behind the first page of its block
  have page : addr / pageSize ∈ b.pageList ∧ addr / pageSize ≠ b.first := by
    have aligned := (ok.live b (List.mem_cons_self ..)).aligned
    obtain ⟨low, high⟩ := data
    rw [Block.pageList, List.mem_range'_1, Block.pages]
    simp only [pageAlignUp, pageSize, mul_pageSize] at *
    omega
  have single := held_cons.nodup ok.single
  have others : ∀ p ∈ held calls live, p ≠ addr / pageSize := by
    rintro p member rfl
    exact (List.nodup_append'.mp single).2.2 page.1 member
  obtain ⟨calls_, live_⟩ := @metadata_frame pm { pm with mem := fill pm.mem addr 1 byte } calls live
    ok.calls (fun c member => ok.live c (List.mem_cons_of_mem _ member))
    fun p member x inPage => same x (inPage ▸ others p member)
  refine ok.frame (fun x inBitmap => same x fun here => ?_) calls_ (List.forall_mem_cons.mpr ⟨?_, live_⟩)
  · refine ok.outside ready (mem_held_block (List.mem_cons_self ..) page.1) here ?_
    rwa [inBitmap_congr ok.bitmap ok.physLimit]
  · exact (ok.live b (List.mem_cons_self ..)).frame fun x inPage => same x (inPage ▸ page.2.symm)

theorem CpusOk.action {s s' : Cpus} {action : CpuAction} (ready : PmmReady start)
    (ok : CpusOk start s.pm s.calls s.live) (allowed : s.Allowed action)
    (undisturbed : s.Undisturbed action) (stepped : s.step action = some s') :
    CpusOk start s'.pm s'.calls s'.live := by
  cases action with
  | malloc cpu size =>
    rw [Cpus.step] at stepped
    split at stepped
    · next idle =>
      cases stepped
      obtain ⟨front, back⟩ := set_perm idle
      have searching :
          CpusOk start s.pm (.search size (candidates s.pm 0) :: s.calls.eraseIdx cpu) s.live :=
        (ok.perm front (.refl _)).turn rfl rfl candidates_aligned
      exact searching.perm (back _) (.refl _)
    · cases stepped
  | free cpu addr =>
    rw [Cpus.step] at stepped
    split at stepped
    · next idle =>
      cases stepped
      obtain ⟨front, back⟩ := set_perm idle
      obtain ⟨b, _, rfl, same⟩ := perm_without allowed
      exact ((ok.perm front same).freed ready).perm (back _) (.refl _)
    · cases stepped
  | run cpu =>
    obtain ⟨call, at_cpu, stepped⟩ := Option.bind_eq_some_iff.mp stepped
    obtain ⟨⟨call', pm', block⟩, turn, stepped⟩ := Option.bind_eq_some_iff.mp stepped
    cases stepped
    obtain ⟨front, back⟩ := set_perm at_cpu
    exact ((ok.perm front (.refl _)).step ready (undisturbed call at_cpu) turn).perm (back _) (.refl _)
  | write addr byte =>
    cases stepped
    obtain ⟨b, member, data⟩ := allowed
    have front := List.perm_cons_erase member
    exact ((ok.perm (.refl _) front).written ready data).perm (.refl _) front.symm

theorem CpusOk.initially {cpus : Nat} (counted : Counted start) :
    CpusOk start start (List.replicate cpus .idle) [] := by
  have nothing : held (List.replicate cpus .idle) [] = [] := by
    simp [held, CpuCall.pages]
  refine ⟨rfl, rfl, by rw [nothing]; exact .nil, by rw [nothing]; exact nofun, ?_, ?_, ?_, nofun⟩
  · intro p _
    rw [nothing]
    exact (and_iff_left nofun).symm
  · rw [counted.freeSize]
    simp [CpuCall.counted]
  · intro call member
    rw [List.eq_of_mem_replicate member]
    trivial

theorem CpusOk.sound {s : Cpus} (ok : CpusOk start s.pm s.calls s.live) : CpusSound s := by
  refine ⟨?_, fun idle => ?_⟩
  · refine (List.nodup_flatMap.mp (List.nodup_append'.mp ok.single).2.1).2.imp fun disjoint p both => ?_
    exact disjoint (List.mem_range'_1.mpr both.1) (List.mem_range'_1.mpr both.2)
  · have none_ : (s.calls.map CpuCall.counted).sum = 0 := by
      refine List.sum_eq_zero fun n member => ?_
      obtain ⟨call, here, rfl⟩ := List.mem_map.mp member
      rw [idle call here]
      rfl
    rw [ok.freeSize, none_, Nat.add_zero]

/-- In every interleaving in which each window that is marked is still free and has its bits in the
    bitmap, no two live blocks share a page, and between the calls `free_size` counts the free pages. -/
theorem cpus_sound {map : List MemmapEntry} {mem : Mem} {cpus : Nat} {s : Cpus} (mapOk : MapOk map)
    (covers : pageSize * bmpPagesPerByte ∣ physLimitOf map)
    (initialised : pmmInit map mem = some start)
    (run : Run Cpus.step (fun s action => s.Allowed action ∧ s.Undisturbed action)
      ⟨start, List.replicate cpus .idle, []⟩ s) : CpusSound s := by
  obtain ⟨_, ready, _, _⟩ := pmmInit_spec mapOk initialised
  have counted := pmmInit_counted mapOk.nowrap covers initialised
  exact CpusOk.sound (run.invariant (fun s => CpusOk start s.pm s.calls s.live) (.initially counted)
    fun _ _ _ ok allowed stepped => ok.action ready allowed.1 allowed.2 stepped)

/-! ## One CPU alone -/

/-- From a call on, a CPU that is left alone comes to the end of it. -/
inductive Alone : CpuCall → PhysMem → PhysMem → Option Block → Prop
  | last {call : CpuCall} {pm pm' : PhysMem} {block : Option Block} :
      call.step pm = some (.idle, pm', block) → Alone call pm pm' block
  | next {call call' : CpuCall} {pm middle pm' : PhysMem} {block : Option Block} :
      call.step pm = some (call', middle, none) → Alone call' middle pm' block →
      Alone call pm pm' block

/-- The steps of `kmalloc` in order are `kmalloc`. -/
theorem kmalloc_alone {ptr : Nat} (result : kmalloc pm size = some (ptr, pm')) :
    Alone (.search size (candidates pm 0)) pm pm' (some ⟨ptr, size⟩) := by
  obtain ⟨⟨addr, taken⟩, got, result⟩ := Option.bind_eq_some_iff.mp result
  obtain ⟨rfl, rfl⟩ := Prod.mk.inj (Option.some.inj result)
  rw [pmmGet] at got
  generalize candidates pm 0 = windows at got
  induction windows with
  | nil => cases got
  | cons window windows inductionHypothesis =>
    cases free : bitmapIsfree pm window (windowPages size) with
    | false =>
      have skipped : pmmAlloc pm window (u64 (numPages size + 1)) = none := by
        rw [windowPages] at free
        rw [pmmAlloc, free]
        rfl
      rw [List.findSome?_cons, skipped] at got
      exact .next (by rw [CpuCall.step, free]; rfl) (inductionHypothesis got)
    | true =>
      have found : pmmAlloc pm window (u64 (numPages size + 1)) =
          some { bitmapMarkused pm window (windowPages size) with
            freeSize := sub64 (bitmapMarkused pm window (windowPages size)).freeSize
              (u64 (windowPages size * pageSize)) } := by
        rw [windowPages] at free
        rw [pmmAlloc, free, windowPages]
        rfl
      rw [List.findSome?_cons, found] at got
      obtain ⟨rfl, rfl⟩ := Prod.mk.inj (Option.some.inj got)
      apply Alone.next
      · rw [CpuCall.step, free]
        rfl
      · exact .next rfl (.next rfl (.next rfl (.last rfl)))

/-- The steps of `kmfree` in order are `kmfree`. -/
theorem kmfree_alone {ptr : Nat} :
    Alone (.release (pageStarts (sub64 ptr pageSize)
      (u64 (load64 pm (numpagesAt (sub64 ptr pageSize)) + 1)))) pm (kmfree pm ptr) none := by
  rw [kmfree, pmmFree]
  generalize pageStarts _ _ = pages
  induction pages generalizing pm with
  | nil => exact .last rfl
  | cons addr pages inductionHypothesis =>
    rw [List.foldl_cons, PhysMem.release]
    cases free : bitmapIsfree pm addr 1 with
    | true =>
      apply Alone.next
      · rw [CpuCall.step, free]
        rfl
      · exact .next rfl inductionHypothesis
    | false =>
      apply Alone.next
      · rw [CpuCall.step, free]
        rfl
      · exact .next rfl (.next rfl inductionHypothesis)

/-! ## Two CPUs -/

/-- One entry of eight pages; the first of them holds the bitmap. -/
def eightPages : List MemmapEntry := [⟨0x100000, 0x8000, .usable⟩]

theorem eightPages_ok : MapOk eightPages := by
  constructor <;> decide

/-- Both CPUs search before one of them marks the window. -/
def twoSearches : List CpuAction :=
  [.malloc 0 1, .malloc 1 1] ++ List.replicate 258 (.run 0) ++ List.replicate 258 (.run 1) ++
    List.replicate 4 (.run 0) ++ List.replicate 4 (.run 1)

/-- The two blocks are the same. -/
theorem window_taken_twice :
    ∃ start s, pmmInit eightPages (fun _ => 0) = some start ∧
      Run Cpus.step Cpus.Allowed ⟨start, [.idle, .idle], []⟩ s ∧ ¬ CpusSound s := by
  have executed : ((pmmInit eightPages (fun _ => 0)).bind fun start =>
      twoSearches.foldlM (fun s action => if s.Allowed action then s.step action else none)
        ⟨start, [.idle, .idle], []⟩).map Cpus.live =
      some [⟨258 * 4096, 1⟩, ⟨258 * 4096, 1⟩] := by decide +kernel
  obtain ⟨s, ran, live⟩ := Option.map_eq_some_iff.mp executed
  obtain ⟨start, initialised, ran⟩ := Option.bind_eq_some_iff.mp ran
  refine ⟨start, s, initialised, Run.of_guarded ran, fun sound => ?_⟩
  have apart := sound.apart
  rw [live] at apart
  have covers : Block.Covers ⟨258 * 4096, 1⟩ 257 := ⟨by decide, by decide⟩
  exact (List.pairwise_cons.mp apart).1 _ (List.mem_singleton_self _) 257 ⟨covers, covers⟩

/-- The second CPU starts its search while the first one writes the metadata of its block. -/
def oneAfterAnother : List CpuAction :=
  .malloc 0 1 :: List.replicate 260 (.run 0) ++ .malloc 1 1 :: List.replicate 259 (.run 1) ++
    [.run 0, .run 1, .run 0] ++ List.replicate 4 (.run 1)

theorem cpus_sound_twoBlocks :
    ∃ start s, pmmInit eightPages (fun _ => 0) = some start ∧
      s.live = [⟨260 * 4096, 1⟩, ⟨258 * 4096, 1⟩] ∧ CpusSound s := by
  have executed : ((pmmInit eightPages (fun _ => 0)).bind fun start =>
      oneAfterAnother.foldlM (fun s action =>
        if s.Allowed action ∧ s.Undisturbed action then s.step action else none)
        ⟨start, List.replicate 2 .idle, []⟩).map Cpus.live =
      some [⟨260 * 4096, 1⟩, ⟨258 * 4096, 1⟩] := by decide +kernel
  obtain ⟨s, ran, live⟩ := Option.map_eq_some_iff.mp executed
  obtain ⟨start, initialised, ran⟩ := Option.bind_eq_some_iff.mp ran
  exact ⟨start, s, initialised, live,
    cpus_sound eightPages_ok (by decide) initialised (Run.of_guarded ran)⟩

end HanOS.Lib
