import HanOS.Fs.RefCounts

/-!
# The way back of `vfs_open`

For a path without a node, `vfs_open` looks for an ancestor whose file system may know the file.  It cuts
the path at its last slash again and again, but never at the leading one: a path whose first component
names no node leads to no ancestor, and the node that was looked up last, NULL, is used.
-/

namespace HanOS.Fs

open HanOS.Foundations HanOS.Lib

variable {Ident : Type} {heap : Allocator} {driver : Driver Ident} {v : Vfs Ident}
  {path parent ancestor : CString} {mode : OpenMode} {fuel : Nat}

/-! ## Ancestors -/

/-- What `vfs_get_parent_dir` makes of a path, applied once or more, until it changes nothing. -/
inductive Ancestor : CString → CString → Prop
  | parent {path parent : CString} (cut : vfsGetParentDir path = some parent) (changed : path ≠ parent) :
      Ancestor path parent
  | further {path parent ancestor : CString} (cut : vfsGetParentDir path = some parent)
      (changed : path ≠ parent) (rest : Ancestor parent ancestor) : Ancestor path ancestor

/-- A path is cut behind its first character, or left as it is. -/
theorem vfsGetParentDir_cases (nonempty : path ≠ []) :
    vfsGetParentDir path = some path ∨
      ∃ j, 0 < j ∧ j < path.length ∧ path[j]? = some slash ∧
        vfsGetParentDir path = some (path.take j) := by
  have length := List.length_pos_iff.mpr nonempty
  rw [vfsGetParentDir, if_neg nonempty]
  dsimp only
  generalize index : (if 0 < path.length - 1 ∧ path[path.length - 1]? = some slash then
    path.length - 1 - 1 else path.length - 1) = idx
  have inside : idx < path.length := by
    rw [← index]
    split <;> omega
  cases found : (List.range' 1 idx).reverse.find? fun j => path[j]? = some slash with
  | none => exact .inl rfl
  | some j =>
    have member := List.mem_reverse.mp (List.mem_of_find?_eq_some found)
    obtain ⟨low, high⟩ := List.mem_range'_1.mp member
    exact .inr ⟨j, low, by omega, by simpa using List.find?_some found, rfl⟩

/-- A path that is changed gets shorter. -/
theorem vfsGetParentDir_shorter (nonempty : path ≠ []) (cut : vfsGetParentDir path = some parent)
    (changed : path ≠ parent) : parent ≠ [] ∧ parent.length < path.length := by
  obtain same | ⟨j, positive, inside, _, taken⟩ := vfsGetParentDir_cases nonempty
  · rw [same] at cut
    exact absurd (Option.some.inj cut) changed
  · rw [taken] at cut
    obtain rfl := Option.some.inj cut
    rw [← List.length_pos_iff, List.length_take]
    omega

theorem Ancestor.cases_cut (ancestor_ : Ancestor path ancestor)
    (cut : vfsGetParentDir path = some parent) : ancestor = parent ∨ Ancestor parent ancestor := by
  cases ancestor_ with
  | parent cut' =>
    rw [cut] at cut'
    exact .inl (Option.some.inj cut').symm
  | further cut' _ rest =>
    rw [cut] at cut'
    obtain rfl := Option.some.inj cut'
    exact .inr rest

/-- A path that is left as it is has no ancestors. -/
theorem not_ancestor_of_same (same : vfsGetParentDir path = some path) : ¬ Ancestor path ancestor := by
  intro ancestor_
  cases ancestor_ with
  | parent cut changed =>
    rw [same] at cut
    exact changed (Option.some.inj cut)
  | further cut changed _ =>
    rw [same] at cut
    exact changed (Option.some.inj cut)

/-! ## The loop -/

/-- The loop ends for every path but the empty one: at an ancestor that names a node if there is one,
    and otherwise with NULL. -/
theorem visitBack_ends (nonempty : path ≠ []) (enough : path.length < fuel) :
    (∃ pn ancestor, visitBack heap driver v fuel path = some (some pn) ∧ Ancestor path ancestor ∧
        findNode heap driver v ancestor = some pn) ∨
      (visitBack heap driver v fuel path = some none ∧
        ∀ ancestor, Ancestor path ancestor → findNode heap driver v ancestor = none) := by
  induction fuel generalizing path with
  | zero => exact absurd enough (Nat.not_lt_zero _)
  | succ fuel inductionHypothesis =>
    obtain ⟨parent, cut⟩ : ∃ parent, vfsGetParentDir path = some parent := by
      obtain same | ⟨j, _, _, _, taken⟩ := vfsGetParentDir_cases nonempty
      · exact ⟨path, same⟩
      · exact ⟨_, taken⟩
    rw [visitBack, cut, Option.bind_eq_bind, Option.bind_some]
    by_cases same : path = parent
    · subst same
      rw [if_pos rfl]
      exact .inr ⟨rfl, fun ancestor ancestor_ => absurd ancestor_ (not_ancestor_of_same cut)⟩
    · rw [if_neg same]
      obtain ⟨nonempty', shorter⟩ := vfsGetParentDir_shorter nonempty cut same
      cases found : findNode heap driver v parent with
      | some pn => exact .inl ⟨pn, parent, rfl, .parent cut same, found⟩
      | none =>
        obtain ⟨pn, ancestor, ended, ancestor_, named⟩ | ⟨ended, nameless⟩ :=
          inductionHypothesis nonempty' (by omega)
        · exact .inl ⟨pn, ancestor, ended, .further cut same ancestor_, named⟩
        · refine .inr ⟨ended, fun ancestor ancestor_ => ?_⟩
          obtain rfl | further := ancestor_.cases_cut cut
          · exact found
          · exact nameless ancestor further

/-! ## `vfs_open` of a path without a node -/

/-- The path fits the buffers and names no node, and no file system at an ancestor has the file. -/
structure NamesNothing (heap : Allocator) (driver : Driver Ident) (v : Vfs Ident) (path : CString) :
    Prop where
  fits : FitsPath path
  noNode : findNode heap driver v path = none
  noFile : ∀ ancestor pn, Ancestor path ancestor → findNode heap driver v ancestor = some pn →
    (v.inodeOf pn).fs ≠ none → fat32Open heap driver v (v.tnodes pn).inode path = some (none, v)

/-- `vfs_open` of such a path fails and changes nothing if and only if an ancestor names a node. -/
theorem vfsOpen_fails_iff (nothing : NamesNothing heap driver v path) :
    vfsOpen heap driver v path mode = some (false, v) ↔
      ∃ ancestor pn, Ancestor path ancestor ∧ findNode heap driver v ancestor = some pn := by
  -- the call fails as soon as the way back ends at a node
  have start : vfsOpen heap driver v path mode = some (false, v) ↔
      ∃ pn, visitBack heap driver v (path.length + 1) path = some (some pn) := by
    rw [vfsOpen, openNode, nothing.noNode]
    by_cases nonempty : path = []
    · subst nonempty
      constructor
      · intro impossible
        cases impossible
      · rintro ⟨pn, impossible⟩
        cases impossible
    obtain ⟨pn, ancestor, ended, ancestor_, named⟩ | ⟨ended, _⟩ :=
      @visitBack_ends _ heap driver v path (path.length + 1) nonempty (Nat.lt_succ_self _)
    · refine iff_of_true ?_ ⟨pn, ended⟩
      rw [ended]
      cases kind : (v.inodeOf pn).fs with
      | none => simp [kind]
      | some fs =>
        obtain ⟨⟩ := fs
        -- its file system does not have the file
        have refused := nothing.noFile ancestor pn ancestor_ named (by simp [kind])
        simp [kind, refused]
    · rw [ended]
      constructor
      · intro impossible
        cases impossible
      · rintro ⟨pn, impossible⟩
        cases impossible
  rw [start]
  by_cases nonempty : path = []
  · subst nonempty
    constructor
    · rintro ⟨pn, impossible⟩
      cases impossible
    · rintro ⟨_, _, ancestor_, _⟩
      cases ancestor_ <;> contradiction
  obtain ⟨pn, ancestor, ended, ancestor_, named⟩ | ⟨ended, nameless⟩ :=
    @visitBack_ends _ heap driver v path (path.length + 1) nonempty (Nat.lt_succ_self _)
  · exact iff_of_true ⟨pn, ended⟩ ⟨ancestor, pn, ancestor_, named⟩
  · rw [ended]
    refine iff_of_false (by simp) ?_
    rintro ⟨ancestor, pn, ancestor_, named⟩
    rw [nameless ancestor ancestor_] at named
    cases named

/-! ## A path of one component -/

def xOnly : CString := [slash, 0x78]

theorem xOnly_same : vfsGetParentDir xOnly = some xOnly := by decide

theorem xOnly_nothing : NamesNothing bumpAllocator emptyDisk
    (vfsInit bumpAllocator emptyDisk 0 : Vfs Unit) xOnly :=
  ⟨by decide, by decide +kernel,
    fun _ _ ancestor_ => absurd ancestor_ (not_ancestor_of_same xOnly_same)⟩

/-- After `vfs_init`, `vfs_open` of "/x" uses the node that it did not find. -/
theorem open_uses_null :
    ∃ v : Vfs Unit, Run (Vfs.step bumpAllocator emptyDisk) (Calm bumpAllocator emptyDisk)
      (vfsInit bumpAllocator emptyDisk 0) v ∧ NamesNothing bumpAllocator emptyDisk v xOnly ∧
      vfsOpen bumpAllocator emptyDisk v xOnly .read = none :=
  ⟨_, .refl, xOnly_nothing, by decide +kernel⟩

/-- "/dev/x" -/
def devX : CString := devPath ++ xOnly

theorem vfsOpen_fails_iff_devX :
    vfsOpen bumpAllocator emptyDisk (vfsInit bumpAllocator emptyDisk 0 : Vfs Unit) devX .read =
      some (false, vfsInit bumpAllocator emptyDisk 0) := by
  have cut : vfsGetParentDir devX = some devPath := by decide
  have same : vfsGetParentDir devPath = some devPath := by decide
  have found : findNode bumpAllocator emptyDisk (vfsInit bumpAllocator emptyDisk 0 : Vfs Unit) devPath =
      some 3 := by decide +kernel
  have onlyDev : ∀ ancestor, Ancestor devX ancestor → ancestor = devPath := fun ancestor ancestor_ =>
    (ancestor_.cases_cut cut).resolve_right (not_ancestor_of_same same)
  refine (vfsOpen_fails_iff ⟨by decide, by decide +kernel,
    fun ancestor pn ancestor_ named served => ?_⟩).mpr ⟨devPath, 3, .parent cut (by decide), found⟩
  rw [onlyDev ancestor ancestor_, found] at named
  obtain rfl := Option.some.inj named
  exact absurd (show ((vfsInit bumpAllocator emptyDisk 0 : Vfs Unit).inodeOf 3).fs = none by decide +kernel)
    served

end HanOS.Fs
