import HanOS.Foundations.ByteMem

/-!
# The backtrace (`core/panic.c`, `symbols.h`)

`kpanic` follows the saved frame pointers and names the function of each return address.  A return
address that is the one before it ends the trace, as zero does; one without a symbol is printed and
then read again, which ends the trace too.  What is printed is a part of the callers from the first
on (`dumpBacktrace_iff`).

The table is sorted, as `gensym` writes it, and a symbol is its place in it.  The frames are those of
the stack; the texts of the lines are left out.
-/

namespace HanOS.Core

open HanOS.Foundations

def uint64Max : Nat := 2 ^ 64 - 1

/-- `symbols_get_index`, in the addresses of `_kernel_symtab` before the one that ends it. -/
def symbolsGetIndex : List Nat → Nat → Option Nat
  | [], _ => none
  | a :: rest, addr =>
    if a < uint64Max then
      if a < addr ∧ addr ≤ rest.headD uint64Max then some 0
      else (symbolsGetIndex rest addr).map (· + 1)
    else none

/-- A line of the trace, with the symbol it names. -/
structure TraceLine where
  i : Nat
  funcAddr : Nat
  idx : Option Nat
  deriving DecidableEq, Repr

/-- The loop of `dump_backtrace`, from pass `i` on. -/
def backtraceLoop (mem : Mem) (symtab : List Nat) : Nat → Nat → Nat → Nat → Option (List TraceLine)
  | 0, _, _, _ => none
  | fuel + 1, i, rbpVal, prevFuncAddr =>
    let funcAddr := loadLE mem (rbpVal + 8) 8
    if funcAddr = 0 ∨ funcAddr = prevFuncAddr then some []
    else
      let idx := symbolsGetIndex symtab funcAddr
      -- without a symbol, the loop goes on with the same frame
      let next := if idx.isNone then rbpVal else loadLE mem rbpVal 8
      (backtraceLoop mem symtab fuel (i + 1) next funcAddr).map (⟨i, funcAddr, idx⟩ :: ·)

def dumpBacktrace (mem : Mem) (symtab : List Nat) (rbpVal fuel : Nat) : Option (List TraceLine) :=
  backtraceLoop mem symtab fuel 0 rbpVal 0

/-! ## Symbols -/

variable {symtab callers : List Nat} {addr i prev rbp : Nat} {mem : Mem}

theorem symbolsGetIndex_eq (sorted : symtab.Pairwise (· ≤ ·)) (below : ∀ a ∈ symtab, a < uint64Max)
    (small : addr ≤ uint64Max) :
    symbolsGetIndex symtab addr =
      if symtab.countP (· < addr) = 0 then none else some (symtab.countP (· < addr) - 1) := by
  induction symtab with
  | nil => rfl
  | cons a rest inductionHypothesis =>
    have here := below a (List.mem_cons_self ..)
    obtain ⟨first, sorted'⟩ := List.pairwise_cons.mp sorted
    have rest_ := inductionHypothesis sorted' fun b member => below b (List.mem_cons_of_mem _ member)
    rw [symbolsGetIndex, if_pos here, rest_, List.countP_cons]
    by_cases lower : a < addr
    · by_cases last : addr ≤ rest.headD uint64Max
      · have none_ : rest.countP (· < addr) = 0 := by
          rw [List.countP_eq_zero]
          cases rest with
          | nil => simp
          | cons b rest =>
            intro c member
            have above := (List.pairwise_cons.mp sorted').1 c
            rw [List.headD_cons] at last
            rw [decide_eq_true_eq, not_lt]
            rcases List.mem_cons.mp member with rfl | later
            · exact last
            · exact last.trans (above later)
        rw [if_pos ⟨lower, last⟩, none_]
        simp [lower]
      · -- the symbol behind is below the address too
        have more : rest.countP (· < addr) ≠ 0 := by
          cases rest with
          | nil => exact absurd small last
          | cons b rest =>
            rw [List.headD_cons, not_le] at last
            simp [last]
        rw [if_neg fun both => last both.2, if_neg more, if_neg (by simp [lower]), Option.map_some]
        simp only [lower, decide_true, if_true]
        congr 1
        omega
    · have none_ : rest.countP (· < addr) = 0 := by
        rw [List.countP_eq_zero]
        intro b member
        have above := first b member
        rw [decide_eq_true_eq]
        omega
      rw [if_neg fun both => lower both.1, none_]
      simp [lower]

def Known (symtab : List Nat) (addr : Nat) : Prop := ∃ a ∈ symtab, a < addr

theorem symbolsGetIndex_isSome (sorted : symtab.Pairwise (· ≤ ·)) (below : ∀ a ∈ symtab, a < uint64Max)
    (small : addr ≤ uint64Max) : (symbolsGetIndex symtab addr).isSome ↔ Known symtab addr := by
  rw [symbolsGetIndex_eq sorted below small]
  have none_ : symtab.countP (· < addr) = 0 ↔ ¬ Known symtab addr := by
    simp [Known, List.countP_eq_zero]
  by_cases known : Known symtab addr
  · rw [if_neg fun zero => none_.mp zero known]
    simp [known]
  · rw [if_pos (none_.mpr known)]
    simp [known]

/-! ## Frames -/

/-- The frames from a frame pointer on, by the return addresses they hold; the outermost holds zero. -/
inductive Frames (mem : Mem) : Nat → List Nat → Prop
  | outermost {rbp : Nat} (ends : loadLE mem (rbp + 8) 8 = 0) : Frames mem rbp []
  | inner {rbp : Nat} {callers : List Nat} (called : loadLE mem (rbp + 8) 8 ≠ 0)
      (outer : Frames mem (loadLE mem rbp 8) callers) :
      Frames mem rbp (loadLE mem (rbp + 8) 8 :: callers)

def linesOf (symtab : List Nat) : Nat → List Nat → List TraceLine
  | _, [] => []
  | i, caller :: callers => ⟨i, caller, symbolsGetIndex symtab caller⟩ :: linesOf symtab (i + 1) callers

theorem mem_linesOf {line : TraceLine} (member : line ∈ linesOf symtab i callers) :
    line.funcAddr ∈ callers ∧ line.idx = symbolsGetIndex symtab line.funcAddr := by
  induction callers generalizing i with
  | nil => cases member
  | cons caller callers inductionHypothesis =>
    rcases List.mem_cons.mp member with rfl | later
    · exact ⟨List.mem_cons_self .., rfl⟩
    · obtain ⟨among, named⟩ := inductionHypothesis later
      exact ⟨List.mem_cons_of_mem _ among, named⟩

theorem word_le (a : Nat) : loadLE mem a 8 ≤ uint64Max := by
  have bound := @loadLE_lt mem a 8
  rw [uint64Max]
  omega

theorem Frames.small (frames : Frames mem rbp callers) : ∀ caller ∈ callers, caller ≤ uint64Max := by
  induction frames with
  | outermost => simp
  | inner called outer inductionHypothesis =>
    intro caller member
    rcases List.mem_cons.mp member with rfl | later
    · exact word_le _
    · exact inductionHypothesis caller later

/-- A caller without a symbol is read once more, and ends the loop. -/
theorem backtraceLoop_unknown {fuel : Nat} (called : loadLE mem (rbp + 8) 8 ≠ 0)
    (other : loadLE mem (rbp + 8) 8 ≠ prev)
    (unknown : symbolsGetIndex symtab (loadLE mem (rbp + 8) 8) = none) :
    backtraceLoop mem symtab (fuel + 2) i rbp prev = some [⟨i, loadLE mem (rbp + 8) 8, none⟩] := by
  have again : backtraceLoop mem symtab (fuel + 1) (i + 1) rbp (loadLE mem (rbp + 8) 8) = some [] := by
    rw [backtraceLoop, if_pos (.inr rfl)]
  rw [backtraceLoop, if_neg (by simp [called, other])]
  simp [unknown, again]

theorem backtraceLoop_known {fuel : Nat} {idx : Nat} (called : loadLE mem (rbp + 8) 8 ≠ 0)
    (other : loadLE mem (rbp + 8) 8 ≠ prev)
    (known : symbolsGetIndex symtab (loadLE mem (rbp + 8) 8) = some idx) :
    backtraceLoop mem symtab (fuel + 1) i rbp prev =
      (backtraceLoop mem symtab fuel (i + 1) (loadLE mem rbp 8) (loadLE mem (rbp + 8) 8)).map
        (⟨i, loadLE mem (rbp + 8) 8, some idx⟩ :: ·) := by
  rw [backtraceLoop, if_neg (by simp [called, other])]
  simp [known]

theorem backtraceLoop_iff (sorted : symtab.Pairwise (· ≤ ·)) (below : ∀ a ∈ symtab, a < uint64Max)
    (frames : Frames mem rbp callers) (i prev : Nat) :
    ∃ lines, (∃ least, ∀ fuel, least ≤ fuel → backtraceLoop mem symtab fuel i rbp prev = some lines) ∧
      lines <+: linesOf symtab i callers ∧
      (lines = linesOf symtab i callers ↔
        (prev :: callers).IsChain (· ≠ ·) ∧ ∀ caller ∈ callers.dropLast, Known symtab caller) := by
  induction frames generalizing i prev with
  | @outermost rbp ends =>
    refine ⟨[], ⟨1, fun fuel enough => ?_⟩, List.nil_prefix, by simp [linesOf]⟩
    obtain ⟨fuel, rfl⟩ : ∃ k, fuel = k + 1 := ⟨fuel - 1, by omega⟩
    rw [backtraceLoop, if_pos (.inl ends)]
  | @inner rbp callers called outer inductionHypothesis =>
    by_cases other : loadLE mem (rbp + 8) 8 = prev
    · -- the address of the frame before
      refine ⟨[], ⟨1, fun fuel enough => ?_⟩, List.nil_prefix, ?_⟩
      · obtain ⟨fuel, rfl⟩ : ∃ k, fuel = k + 1 := ⟨fuel - 1, by omega⟩
        rw [backtraceLoop, if_pos (.inr other)]
      · simp [linesOf, other]
    · have known := @symbolsGetIndex_isSome symtab (loadLE mem (rbp + 8) 8) sorted below (word_le _)
      cases found : symbolsGetIndex symtab (loadLE mem (rbp + 8) 8) with
      | none =>
        rw [found] at known
        -- a caller without a symbol ends the loop
        have unknown : ¬ Known symtab (loadLE mem (rbp + 8) 8) := by simpa using known
        refine ⟨[⟨i, loadLE mem (rbp + 8) 8, none⟩], ⟨2, fun fuel enough => ?_⟩, ?_, ?_⟩
        · obtain ⟨fuel, rfl⟩ : ∃ k, fuel = k + 2 := ⟨fuel - 2, by omega⟩
          exact backtraceLoop_unknown called other found
        · simp [linesOf, found]
        · cases callers with
          | nil => simpa [linesOf, found] using Ne.symm other
          | cons next callers => simp [linesOf, unknown]
      | some idx =>
        rw [found] at known
        -- the loop goes on with the frame outside
        have known : Known symtab (loadLE mem (rbp + 8) 8) := by simpa using known
        obtain ⟨lines, ⟨least, ends⟩, part, whole⟩ :=
          inductionHypothesis (i + 1) (loadLE mem (rbp + 8) 8)
        refine ⟨⟨i, loadLE mem (rbp + 8) 8, some idx⟩ :: lines, ⟨least + 1, fun fuel enough => ?_⟩, ?_, ?_⟩
        · obtain ⟨fuel, rfl⟩ : ∃ k, fuel = k + 1 := ⟨fuel - 1, by omega⟩
          rw [backtraceLoop_known called other found, ends fuel (by omega), Option.map_some]
        · rw [linesOf, found]
          exact (List.prefix_cons_inj _).mpr part
        · rw [linesOf, found, List.cons_inj_right, whole, List.isChain_cons_cons]
          cases callers with
          | nil => simpa using Ne.symm other
          | cons next callers =>
            simp only [List.dropLast_cons_cons, List.mem_cons, forall_eq_or_imp, known, true_and]
            simp [Ne.symm other]

/-- `dump_backtrace` ends on every stack whose frames end.  It prints callers from the first on, each
    with the last symbol below it, and all of them if and only if no two in a row are the same and
    each but the last has a symbol. -/
theorem dumpBacktrace_iff (sorted : symtab.Pairwise (· ≤ ·)) (below : ∀ a ∈ symtab, a < uint64Max)
    (frames : Frames mem rbp callers) :
    ∃ lines, (∃ least, ∀ fuel, least ≤ fuel → dumpBacktrace mem symtab rbp fuel = some lines) ∧
      (∀ line ∈ lines, line.idx = if symtab.countP (· < line.funcAddr) = 0 then none
        else some (symtab.countP (· < line.funcAddr) - 1)) ∧
      lines <+: linesOf symtab 0 callers ∧
      (lines = linesOf symtab 0 callers ↔
        callers.IsChain (· ≠ ·) ∧ ∀ caller ∈ callers.dropLast, Known symtab caller) := by
  obtain ⟨lines, ends, part, whole⟩ := backtraceLoop_iff sorted below frames 0 0
  refine ⟨lines, ends, fun line member => ?_, part, whole.trans (and_congr_left fun _ => ?_)⟩
  · obtain ⟨among, named⟩ := mem_linesOf (part.subset member)
    rw [named, symbolsGetIndex_eq sorted below (frames.small _ among)]
  · -- no caller is zero
    cases frames with
    | outermost => simp
    | inner called => simp [List.isChain_cons_cons, Ne.symm called]

/-- Frames at 100, 200 and 300, called from 0x1008 and 0x2010. -/
def twoCallers : Mem := fun x =>
  if x = 100 then 200 else if x = 108 then 0x08 else if x = 109 then 0x10
  else if x = 200 then 44 else if x = 201 then 1 else if x = 208 then 0x10 else if x = 209 then 0x20
  else 0

theorem dumpBacktrace_iff_twoCallers :
    ∃ lines, (∃ least, ∀ fuel, least ≤ fuel → dumpBacktrace twoCallers [0x1000, 0x2000] 100 fuel = some lines) ∧
      lines = linesOf [0x1000, 0x2000] 0 [0x1008, 0x2010] := by
  have frames : Frames twoCallers 100 [0x1008, 0x2010] := by
    have outermost : Frames twoCallers 300 [] := .outermost (by decide)
    have second : Frames twoCallers 200 [loadLE twoCallers 208 8] :=
      .inner (by decide) (by rwa [show loadLE twoCallers 200 8 = 300 by decide])
    have first : Frames twoCallers 100 [loadLE twoCallers 108 8, loadLE twoCallers 208 8] :=
      .inner (by decide) (by rwa [show loadLE twoCallers 100 8 = 200 by decide])
    rwa [show loadLE twoCallers 108 8 = 0x1008 by decide,
      show loadLE twoCallers 208 8 = 0x2010 by decide] at first
  obtain ⟨lines, ends, _, _, whole⟩ := @dumpBacktrace_iff [0x1000, 0x2000] _ _ _ (by decide)
    (by decide) frames
  refine ⟨lines, ends, whole.mpr ⟨by decide, ?_⟩⟩
  intro caller member
  have same : caller = 0x1008 := List.mem_singleton.mp member
  exact ⟨0x1000, List.mem_cons_self .., by rw [same]; decide⟩

end HanOS.Core
