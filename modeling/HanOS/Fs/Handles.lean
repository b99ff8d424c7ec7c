import HanOS.Foundations.Run
import HanOS.Fs.VfsCalls

/-!
# The handles of `vfs_open`

Tasks call `vfs_open` and `vfs_close`.  The section of `vfs_open` under the lock makes a
descriptor in a new slot; the handle is computed from the number of slots when the lock has
been given back, and by then another call may have made a slot of its own
(`one_handle_for_two`).  Where no other call comes between, every handle is the slot of the
call's own descriptor (`handles_sound`).
-/

namespace HanOS.Fs

open HanOS.Foundations HanOS.Lib

variable {Ident Task : Type}

/-! ## What the section leaves of the slots -/

section Openfiles

variable {heap : Allocator} {driver : Driver Ident} {v v' : Vfs Ident} {path : CString} {this : Addr}

theorem pathToNode_openfiles {mode : Nat} {type : NodeType} :
    (pathToNode heap driver v path mode type).2.openfiles = v.openfiles := by
  simp only [pathToNode, vfsPathToNode, createNode, vfsAllocInode, vfsAllocTnode]
  split_ifs <;> (try split) <;> rfl

theorem fat32MakeNode_openfiles {rootnode : Option Addr} {fe : Fat32Entry} {node : Addr}
    (made : fat32MakeNode heap driver v rootnode path fe = some (node, v')) :
    v'.openfiles = v.openfiles := by
  obtain ⟨_, _, made⟩ := Option.bind_eq_some_iff.mp made
  obtain ⟨_, _, made⟩ := Option.bind_eq_some_iff.mp made
  obtain ⟨_, _, made⟩ := Option.bind_eq_some_iff.mp made
  obtain ⟨_, rfl⟩ := Prod.mk.inj (Option.some.inj made)
  exact pathToNode_openfiles

theorem fat32OpenTmp_openfiles {fuel : Nat} {result : Option Addr × Vfs Ident × CString}
    (opened : fat32OpenTmp heap driver this fuel v path = some result) :
    result.2.1.openfiles = v.openfiles := by
  induction fuel generalizing v path result with
  | zero => cases opened
  | succ fuel inductionHypothesis =>
    rw [fat32OpenTmp] at opened
    obtain ⟨fe, _, opened⟩ := Option.bind_eq_some_iff.mp opened
    split at opened
    · obtain ⟨⟨u, rest⟩, descended, opened⟩ := Option.bind_eq_some_iff.mp opened
      obtain ⟨⟨tnode, w⟩, made, opened⟩ := Option.bind_eq_some_iff.mp opened
      obtain rfl := Option.some.inj opened
      refine (fat32MakeNode_openfiles made).trans ?_
      refine foldlM_invariant (fun state : Vfs Ident × CString => state.1.openfiles = v.openfiles) rfl
        (fun before i after same turn => ?_) descended
      dsimp only at turn
      split at turn
      · obtain ⟨⟨_, u', front⟩, inner, turn⟩ := Option.bind_eq_some_iff.mp turn
        obtain rfl := Option.some.inj turn
        exact (inductionHypothesis inner).trans same
      · exact Option.some.inj turn ▸ same
    · exact Option.some.inj opened ▸ rfl

theorem fat32Open_openfiles {result : Option Addr × Vfs Ident}
    (opened : fat32Open heap driver v this path = some result) :
    result.2.openfiles = v.openfiles := by
  rw [fat32Open] at opened
  obtain ⟨fe, _, opened⟩ := Option.bind_eq_some_iff.mp opened
  split at opened
  · obtain ⟨u, descended, opened⟩ := Option.bind_eq_some_iff.mp opened
    obtain ⟨⟨tnode, w⟩, made, opened⟩ := Option.bind_eq_some_iff.mp opened
    obtain rfl := Option.some.inj opened
    refine (fat32MakeNode_openfiles made).trans ?_
    refine foldlM_invariant (fun u : Vfs Ident => u.openfiles = v.openfiles) rfl
      (fun before i after same turn => ?_) descended
    split at turn
    · obtain ⟨inner, opened, rfl⟩ := Option.map_eq_some_iff.mp turn
      exact (fat32OpenTmp_openfiles opened).trans same
    · exact Option.some.inj turn ▸ same
  · exact Option.some.inj opened ▸ rfl

theorem openNode_openfiles {result : Option Addr × Vfs Ident}
    (opened : openNode heap driver v path = some result) : result.2.openfiles = v.openfiles := by
  rw [openNode] at opened
  split at opened
  · exact Option.some.inj opened ▸ rfl
  · obtain ⟨pn, _, opened⟩ := Option.bind_eq_some_iff.mp opened
    obtain ⟨pn, _, opened⟩ := Option.bind_eq_some_iff.mp opened
    split at opened
    · exact Option.some.inj opened ▸ rfl
    · exact fat32Open_openfiles opened

/-- A call that succeeds has one more slot, a call that fails none. -/
theorem vfsOpen_slots {mode : OpenMode} {ok : Bool}
    (opened : vfsOpen heap driver v path mode = some (ok, v')) :
    v'.openfiles.length = v.openfiles.length + ok.toNat := by
  obtain ⟨⟨req, u⟩, found, opened⟩ := Option.bind_eq_some_iff.mp opened
  have same := openNode_openfiles found
  dsimp only at opened
  split at opened
  · obtain ⟨rfl, rfl⟩ := Prod.mk.inj (Option.some.inj opened)
    rw [same]
    rfl
  · obtain ⟨rfl, rfl⟩ := Prod.mk.inj (Option.some.inj opened)
    rw [pushDesc, List.length_append, same]
    rfl

theorem vfsClose_slots {handle : Int} :
    (vfsClose v handle).2.openfiles.length = v.openfiles.length := by
  rw [vfsClose]
  split
  · rfl
  · exact List.length_set

end Openfiles

/-! ## Tasks -/

structure Returned where
  handle : Int
  slot : Nat
  deriving DecidableEq

structure Openers (Ident Task : Type) where
  vfs : Vfs Ident
  /-- The slot made by a call that has given back the lock and has no handle yet. -/
  pending : Task → Option Nat
  returned : List Returned

inductive OpenStep (Task : Type)
  /-- The section of `vfs_open` -/
  | section_ (task : Task) (path : CString) (mode : OpenMode)
  /-- The read of `vfs_openfiles.len` behind it -/
  | handle (task : Task)
  | close (handle : Int)

variable [DecidableEq Task]

def Openers.step (heap : Allocator) (driver : Driver Ident) (s : Openers Ident Task) :
    OpenStep Task → Option (Openers Ident Task)
  | .section_ task path mode =>
    if (s.pending task).isSome then none
    else
      (vfsOpen heap driver s.vfs path mode).map fun (ok, v) =>
        if ok then
          { s with vfs := v, pending := Function.update s.pending task (some s.vfs.openfiles.length) }
        else { s with vfs := v }
  | .handle task =>
    (s.pending task).map fun slot =>
      { s with
        pending := Function.update s.pending task none
        returned := s.returned ++ [⟨lastHandle s.vfs, slot⟩] }
  | .close handle => some { s with vfs := (vfsClose s.vfs handle).2 }

/-- No section makes a slot while another call has still to compute its handle, and the slots
    have numbers of the type `vfs_handle_t`. -/
def Openers.Alone (heap : Allocator) (driver : Driver Ident) (s : Openers Ident Task) :
    OpenStep Task → Prop
  | .section_ _ path mode => ∀ v, vfsOpen heap driver s.vfs path mode = some (true, v) →
      (∀ task, s.pending task = none) ∧ s.vfs.openfiles.length < 2 ^ 31
  | .handle _ => True
  | .close _ => True

/-- Every handle designates the descriptor of its own call, and open descriptors have different
    ones. -/
structure HandlesSound (s : Openers Ident Task) : Prop where
  own : ∀ r ∈ s.returned, r.handle = r.slot
  distinct : ∀ r ∈ s.returned, ∀ r' ∈ s.returned, (s.vfs.openfiles[r.slot]?).join.isSome →
    (s.vfs.openfiles[r'.slot]?).join.isSome → r.handle = r'.handle → r.slot = r'.slot

structure LastPending (s : Openers Ident Task) : Prop where
  last : ∀ task slot, s.pending task = some slot → s.vfs.openfiles.length = slot + 1
  few : ∀ task slot, s.pending task = some slot → slot < 2 ^ 31
  own : ∀ r ∈ s.returned, r.handle = r.slot

theorem lastHandle_eq {v : Vfs Ident} {slot : Nat} (last : v.openfiles.length = slot + 1)
    (few : slot < 2 ^ 31) : lastHandle v = slot := by
  have small : (BitVec.ofNat 32 slot).toNat = slot := by
    rw [BitVec.toNat_ofNat, Nat.mod_eq_of_lt (by omega)]
  rw [lastHandle, last, sub64_of_le (Nat.le_add_left ..), Nat.add_sub_cancel, toHandle,
    BitVec.toInt_eq_toNat_of_lt (by omega), small]

variable {heap : Allocator} {driver : Driver Ident} {start s s' : Openers Ident Task}

theorem LastPending.step {action : OpenStep Task} (before : LastPending s)
    (alone : s.Alone heap driver action) (stepped : s.step heap driver action = some s') :
    LastPending s' := by
  cases action with
  | section_ task path mode =>
    rw [Openers.step] at stepped
    split at stepped
    · cases stepped
    · obtain ⟨⟨ok, v⟩, opened, rfl⟩ := Option.map_eq_some_iff.mp stepped
      have slots := vfsOpen_slots opened
      cases ok with
      | true =>
        -- a slot was made, while nobody else waits for a handle
        obtain ⟨idle, few⟩ := alone v opened
        have pending : ∀ other slot,
            Function.update s.pending task (some s.vfs.openfiles.length) other = some slot →
              slot = s.vfs.openfiles.length := by
          intro other slot waits
          by_cases same : other = task
          · subst same
            rw [Function.update_self] at waits
            exact (Option.some.inj waits).symm
          · rw [Function.update_of_ne same, idle] at waits
            cases waits
        refine ⟨fun other slot waits => ?_, fun other slot waits => ?_, before.own⟩
        · rw [pending other slot waits]
          exact slots
        · rw [pending other slot waits]
          exact few
      | false =>
        refine ⟨fun other slot waits => ?_, before.few, before.own⟩
        exact slots.trans (before.last other slot waits)
  | handle task =>
    obtain ⟨slot, waits, rfl⟩ := Option.map_eq_some_iff.mp stepped
    -- the waiting call gets the handle of the last slot, which is its own
    have others : ∀ other slot', Function.update s.pending task none other = some slot' →
        s.pending other = some slot' := by
      intro other slot' still
      by_cases same : other = task
      · rw [same, Function.update_self] at still
        cases still
      · rwa [Function.update_of_ne same] at still
    refine ⟨fun other slot' still => before.last other slot' (others other slot' still),
      fun other slot' still => before.few other slot' (others other slot' still), fun r member => ?_⟩
    rcases List.mem_append.mp member with old | new
    · exact before.own r old
    · rw [List.mem_singleton.mp new]
      exact lastHandle_eq (before.last task slot waits) (before.few task slot waits)
  | close handle =>
    obtain rfl := Option.some.inj stepped
    exact ⟨fun task slot waits => vfsClose_slots.trans (before.last task slot waits), before.few,
      before.own⟩

/-- Where no other call's section comes between, every call gets the handle of its own
    descriptor. -/
theorem handles_sound (idle : ∀ task, start.pending task = none) (none_ : start.returned = [])
    (run : Run (Openers.step heap driver) (Openers.Alone heap driver) start s) : HandlesSound s := by
  have initially : LastPending start := by
    refine ⟨fun task slot waits => ?_, fun task slot waits => ?_, none_ ▸ nofun⟩ <;>
      · rw [idle] at waits
        cases waits
  have last := run.invariant LastPending initially
    fun _ _ _ before alone stepped => before.step alone stepped
  refine ⟨last.own, fun r member r' member' _ _ same => ?_⟩
  rw [last.own r member, last.own r' member'] at same
  exact Int.ofNat.inj same

/-! ## Two tasks -/

def noDisk : Driver Unit where
  createIdent := ()
  withEntry _ _ := ()
  parsePath _ _ _ := none
  mountIdent _ _ := none
  dirents _ _ := none

/-- Behind `vfs_init`, with two tasks. -/
def twoTasks : Openers Unit Bool := ⟨vfsInit bumpAllocator noDisk 0, fun _ => none, []⟩

/-- The second task opens `/disk` before the first one has its handle for `/dev`: both get the
    handle of the second. -/
theorem one_handle_for_two :
    ∃ s : Openers Unit Bool,
      Run (Openers.step bumpAllocator noDisk) anyAction twoTasks s ∧ ¬ HandlesSound s := by
  have executed : ([.section_ false devPath .read, .section_ true diskPath .read, .handle false,
      .handle true].foldlM (Openers.step bumpAllocator noDisk) twoTasks).map Openers.returned =
        some [⟨1, 0⟩, ⟨1, 1⟩] := by decide +kernel
  obtain ⟨s, finished, returned⟩ := Option.map_eq_some_iff.mp executed
  refine ⟨s, Run.of_foldlM (fun _ _ => trivial) _ finished, fun sound => ?_⟩
  have own := sound.own ⟨1, 0⟩ (by rw [returned]; exact List.mem_cons_self ..)
  cases own

/-- The second task opens `/disk` when the first one has its handle for `/dev`. -/
theorem handles_sound_inTurn :
    ∃ s : Openers Unit Bool, s.returned = [⟨0, 0⟩, ⟨1, 1⟩] ∧ HandlesSound s := by
  have executed : (([.section_ false devPath .read, .handle false].foldlM
      (Openers.step bumpAllocator noDisk) twoTasks).map fun middle =>
        ((middle.pending false, middle.pending true, middle.vfs.openfiles.length),
          ([.section_ true diskPath .read, .handle true].foldlM
            (Openers.step bumpAllocator noDisk) middle).map Openers.returned)) =
      some ((none, none, 1), some [⟨0, 0⟩, ⟨1, 1⟩]) := by decide +kernel
  obtain ⟨middle, first, between⟩ := Option.map_eq_some_iff.mp executed
  obtain ⟨settled, rest⟩ := Prod.mk.inj between
  obtain ⟨ofFalse, settled⟩ := Prod.mk.inj settled
  obtain ⟨ofTrue, length⟩ := Prod.mk.inj settled
  obtain ⟨last, second, returned⟩ := Option.map_eq_some_iff.mp rest
  simp only [List.foldlM_cons, List.foldlM_nil] at first second
  obtain ⟨opened₁, open₁, read₁⟩ := Option.bind_eq_some_iff.mp first
  obtain ⟨handled₁, handle₁, same₁⟩ := Option.bind_eq_some_iff.mp read₁
  obtain ⟨opened₂, open₂, read₂⟩ := Option.bind_eq_some_iff.mp second
  obtain ⟨handled₂, handle₂, same₂⟩ := Option.bind_eq_some_iff.mp read₂
  obtain rfl := Option.some.inj same₁
  obtain rfl := Option.some.inj same₂
  have alone₁ : Openers.Alone bumpAllocator noDisk twoTasks (.section_ false devPath .read) :=
    fun _ _ => ⟨fun _ => rfl, by decide⟩
  have alone₂ : Openers.Alone bumpAllocator noDisk handled₁ (.section_ true diskPath .read) := by
    refine fun _ _ => ⟨fun task => ?_, by rw [length]; decide⟩
    cases task with
    | false => exact ofFalse
    | true => exact ofTrue
  have handling : ∀ (s : Openers Unit Bool) task, Openers.Alone bumpAllocator noDisk s (.handle task) :=
    fun _ _ => trivial
  exact ⟨handled₂, returned, handles_sound (fun _ => rfl) rfl
    (.tail (.tail (.tail (.tail .refl alone₁ open₁) (handling _ _) handle₁) alone₂ open₂)
      (handling _ _) handle₂)⟩

end HanOS.Fs
