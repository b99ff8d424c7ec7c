import HanOS.Lib.Klib

/-!
# Pages (`core/mm.h`)
-/

namespace HanOS.Core

open HanOS.Lib

def pageSize : Nat := 4096

def numPages (num : Nat) : Nat := u64 (num + (pageSize - 1)) / pageSize

/-- `PAGE_ALIGN_UP`: the bytes of the pages that `kmalloc num` hands out. -/
def pageAlignUp (num : Nat) : Nat := numPages num * pageSize

theorem numPages_lt (num : Nat) : numPages num < 2 ^ 52 := by
  simp only [numPages, u64, pageSize]
  omega

/-- `omega` takes a literal factor in front only. -/
theorem mul_pageSize (n : Nat) : n * 4096 = 4096 * n := Nat.mul_comm ..

theorem le_pageAlignUp (num : Nat) (bound : num + pageSize ≤ 2 ^ 64) : num ≤ pageAlignUp num := by
  simp only [pageAlignUp, numPages, u64, pageSize] at *
  omega

end HanOS.Core
