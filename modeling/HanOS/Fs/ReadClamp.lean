import HanOS.Fs.CachedOpen

/-!
# What `vfs_read` asks for

`vfs_read` cuts `len` down to what is left of the file with unsigned arithmetic: the sum of position and
length can wrap, and behind the end of the file the difference does.  `readAsk` is what it then asks the
driver for, and `read_exact_iff` says when that is what is left of the file.
-/

namespace HanOS.Fs

open HanOS.Foundations HanOS.Lib HanOS.Core

variable {Ident : Type}

/-- The length that `vfs_read` asks the driver for, from `seek_pos` on; `none` if it does not ask. -/
def readAsk (size seekPos len : Nat) : Option Nat :=
  let truncate := size < u64 (seekPos + len)
  let len := if truncate then sub64 size seekPos else len
  if truncate ∧ len = 0 then none else some len

/-- `vfs_read` returns the bytes that are left of the file, `len` of them at most, and the driver is
    asked for no byte behind the file. -/
structure ReadExact (v : Vfs Ident) (handle : Int) (len : Nat) : Prop where
  returns : ∀ fd, vfsHandleToFd v handle = some fd →
    (readAsk (v.inodes fd.inode).size fd.seekPos len).getD 0 =
      min len ((v.inodes fd.inode).size - fd.seekPos)
  within : ∀ fd asked, vfsHandleToFd v handle = some fd →
    readAsk (v.inodes fd.inode).size fd.seekPos len = some asked →
    ∀ x, fd.seekPos ≤ x → x < fd.seekPos + asked → x < (v.inodes fd.inode).size

/-- The position is in the file or at its end, and its sum with the length either does not wrap or is
    behind the end all the same. -/
def Clamps (size seekPos len : Nat) : Prop :=
  seekPos ≤ size ∧ (seekPos + len < 2 ^ 64 ∨ 2 ^ 64 + size < seekPos + len)

def askDriver (vol : Volume) (inode : Inode Fat32Ident) (seekPos asked : Nat) (block buff : Mem) :
    Option (Nat × Mem) := do
  let .fat32 ← inode.fs
  let ident ← inode.ident
  if !ident.mounted ∨ sectorBytes vol seekPos asked < seekPos then none
  else
    let (status, buff) ← fat32Read vol ident.entry seekPos asked block buff
    some (if status = -1 then 0 else asked, buff)

variable {v : Vfs Fat32Ident} {vol : Volume} {handle : Int} {fd : NodeDesc} {size seekPos len : Nat}
  {block buff buff' : Mem} {read : Nat}

/-! ## The call -/

/-- The driver is asked for `readAsk`, and when it succeeds that is what the call returns. -/
theorem vfsRead_ask (opened : vfsHandleToFd v handle = some fd) :
    vfsRead v vol handle len block buff =
      match readAsk (v.inodes fd.inode).size fd.seekPos len with
      | none => some (0, buff)
      | some asked => askDriver vol (v.inodes fd.inode) fd.seekPos asked block buff := by
  rw [vfsRead, opened]
  simp only [readFile, readAsk]
  generalize (if (v.inodes fd.inode).size < u64 (fd.seekPos + len) then _ else len) = cut
  by_cases nothing : (v.inodes fd.inode).size < u64 (fd.seekPos + len) ∧ cut = 0
  · rw [if_pos nothing, if_pos nothing]
  · rw [if_neg nothing, if_neg nothing]
    rfl

/-- In the file the length is cut to what is left of it. -/
theorem readAsk_clamps (lenBound : len < 2 ^ 64) (clamps : Clamps size seekPos len) :
    (readAsk size seekPos len).getD 0 = min len (size - seekPos) := by
  obtain ⟨inFile, sum⟩ := clamps
  have cut : (if size < u64 (seekPos + len) then sub64 size seekPos else len) =
      min len (size - seekPos) := by
    rw [sub64_of_le inFile, u64]
    split <;> omega
  simp only [readAsk, cut]
  split
  · next nothing => exact nothing.2.symm
  · rfl

/-- Otherwise the driver is asked for a byte behind the end of the file. -/
theorem readAsk_behind (bound : size < 2 ^ 64) (position : seekPos < 2 ^ 64) (lenBound : len < 2 ^ 64)
    (unclamped : ¬ Clamps size seekPos len) :
    ∃ asked, readAsk size seekPos len = some asked ∧ size < seekPos + asked ∧ 0 < asked := by
  rw [Clamps, not_and_or, not_or, Nat.not_lt, Nat.not_lt, Nat.not_le] at unclamped
  by_cases cut : size < u64 (seekPos + len)
  · -- the sum did not wrap to a position in the file, so the difference does
    have behind : size < seekPos := by
      rw [u64] at cut
      omega
    have length : sub64 size seekPos = 2 ^ 64 + size - seekPos := by
      rw [sub64, if_neg (by omega)]
    refine ⟨sub64 size seekPos, ?_, by omega, by omega⟩
    simp only [readAsk, if_pos cut]
    rw [if_neg (by omega)]
  · refine ⟨len, ?_, ?_, ?_⟩
    · simp only [readAsk, if_neg cut]
      exact if_neg fun truncated => cut truncated.1
    all_goals
      rw [u64] at cut
      omega

/-- A read is exact if and only if its position and length clamp. -/
theorem read_exact_iff {v : Vfs Ident} (opened : vfsHandleToFd v handle = some fd)
    (bound : (v.inodes fd.inode).size < 2 ^ 64) (position : fd.seekPos < 2 ^ 64)
    (lenBound : len < 2 ^ 64) :
    ReadExact v handle len ↔ Clamps (v.inodes fd.inode).size fd.seekPos len := by
  constructor
  · intro exact_
    by_contra unclamped
    obtain ⟨asked, asks, behind, positive⟩ := readAsk_behind bound position lenBound unclamped
    have last := exact_.within fd asked opened asks (fd.seekPos + asked - 1) (by omega) (by omega)
    omega
  · intro clamps
    have returns := readAsk_clamps lenBound clamps
    refine ⟨fun fd' same => ?_, fun fd' asked same asks x low high => ?_⟩
    all_goals
      rw [opened] at same
      obtain rfl := Option.some.inj same
    · exact returns
    · rw [asks, Option.getD_some] at returns
      omega

/-! ## Behind the end of a file -/

/-- The file "X" of 7 bytes on the volume mounted at boot. -/
def xPath : CString := absolutePath [diskName, zeroName, xName]

def xCalls : List VfsStep := bootCalls ++ [.open_ xPath .readwrite]

theorem xOpened : ∃ v fd,
    xCalls.foldlM (Vfs.step bumpAllocator treeDriver) (vfsInit bumpAllocator treeDriver 0) = some v ∧
      vfsHandleToFd v 1 = some fd ∧ fd.mode = .readwrite ∧ fd.seekPos = 0 ∧
      (v.inodes fd.inode).size = 7 := by
  have ran : (xCalls.foldlM (Vfs.step bumpAllocator treeDriver)
      (vfsInit bumpAllocator treeDriver 0)).map (fun v => (vfsHandleToFd v 1).map fun fd =>
        (fd.mode, fd.seekPos, (v.inodes fd.inode).size)) = some (some (.readwrite, 0, 7)) := by
    decide +kernel
  obtain ⟨v, ran, found⟩ := Option.map_eq_some_iff.mp ran
  obtain ⟨fd, opened, fields⟩ := Option.map_eq_some_iff.mp found
  simp only [Prod.mk.injEq] at fields
  exact ⟨v, fd, ran, opened, fields⟩

theorem vfsSeek_writable {pos : Nat} (opened : vfsHandleToFd v handle = some fd)
    (writable : fd.mode ≠ .read) :
    ∃ u, vfsSeek v handle pos = (true, u) ∧
      vfsHandleToFd u handle = some { fd with seekPos := pos } ∧ u.inodes = v.inodes := by
  have slot := opened
  rw [vfsHandleToFd] at slot
  split at slot
  · cases slot
  · next nonnegative =>
    have inTable : handle.toNat < v.openfiles.length := by
      by_contra past
      rw [List.getElem?_eq_none (Nat.le_of_not_lt past)] at slot
      cases slot
    refine ⟨{ v with openfiles := v.openfiles.set handle.toNat (some { fd with seekPos := pos }) },
      ?_, ?_, rfl⟩
    · rw [vfsSeek, opened]
      simp only [writable, and_false, if_false]
    · rw [vfsHandleToFd, if_neg nonnegative, List.getElem?_set_self inTable]
      rfl

/-- Two bytes behind the end of the file. -/
theorem read_behind_end : ∃ v u,
    xCalls.foldlM (Vfs.step bumpAllocator treeDriver) (vfsInit bumpAllocator treeDriver 0) = some v ∧
      vfsSeek v 1 9 = (true, u) ∧ ¬ ReadExact u 1 1 := by
  obtain ⟨v, fd, ran, opened, mode, _, size⟩ := xOpened
  obtain ⟨u, sought, reopened, inodes⟩ := @vfsSeek_writable v 1 fd 9 opened (by rw [mode]; decide)
  refine ⟨v, u, ran, sought, fun exact_ => ?_⟩
  have returned := exact_.returns _ reopened
  simp only [inodes, size] at returned
  exact absurd returned (by decide)

/-- From the start of the file. -/
theorem read_exact_iff_start : ∃ v,
    xCalls.foldlM (Vfs.step bumpAllocator treeDriver) (vfsInit bumpAllocator treeDriver 0) = some v ∧
      ReadExact v 1 100 := by
  obtain ⟨v, fd, ran, opened, _, seekPos, size⟩ := xOpened
  refine ⟨v, ran, (read_exact_iff opened (by rw [size]; decide) (by rw [seekPos]; decide)
    (by decide)).mpr ?_⟩
  rw [size, seekPos, Clamps]
  decide

end HanOS.Fs
