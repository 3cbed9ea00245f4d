import Mathlib.Algebra.Group.Nat.Defs
import Mathlib.Algebra.Ring.Int.Defs

/- The two machines of the kernel, and the numbers in which their headers differ (include-i386/kern/arch/page.h,
   include-amd64/kern/arch/page.h). -/
namespace Kern

inductive Machine where
  | i386
  | amd64
  deriving DecidableEq

namespace Machine

/-- The values of a `size_t`, of a `vpage` and of a `ppage` are below this bound. -/
def word : Machine → Nat
  | i386 => 2 ^ 32
  | amd64 => 2 ^ 64

def ppageSize : Machine → Nat
  | i386 => 4
  | amd64 => 8

def pageDyn : Machine → Nat
  | i386 => 0x1400
  | amd64 => 0x10200

/-- `PAGE_DYN + PAGE_DYN_COUNT`, that is `PAGE_USER` -/
def pageDynEnd : Nat := 0x40000

def tableEntries : Machine → Nat
  | i386 => 1024
  | amd64 => 512

theorem word_large (m : Machine) : 2 ^ 32 ≤ m.word := by
  cases m <;> decide

end Machine

end Kern
