import Mathlib.Algebra.Group.Nat.Defs
import Mathlib.Algebra.Ring.Int.Defs

/- Integers of `w` bits: what is left of a number that is stored in one. -/
namespace Ints

def unsigned (w : Nat) (n : Int) : Int := n % 2 ^ w

def signed (w : Nat) (n : Int) : Int := (n + 2 ^ (w - 1)) % 2 ^ w - 2 ^ (w - 1)

abbrev int : Int → Int := signed 32

def Fits (w : Nat) (n : Int) : Prop := -2 ^ (w - 1) ≤ n ∧ n < 2 ^ (w - 1)

variable {w : Nat} {n : Int}

theorem pow_split (pos : 0 < w) : (2 : Int) ^ w = 2 ^ (w - 1) + 2 ^ (w - 1) := by
  obtain ⟨v, rfl⟩ : ∃ v, w = v + 1 := ⟨w - 1, by omega⟩
  rw [Nat.add_sub_cancel, Int.pow_succ]
  omega

theorem signed_eq (pos : 0 < w) (fits : Fits w n) : signed w n = n := by
  obtain ⟨lo, hi⟩ := fits
  have split := pow_split pos
  rw [signed, Int.emod_eq_of_lt (by omega) (by omega), Int.add_sub_cancel]

theorem int_eq (lo : -2 ^ 31 ≤ n) (hi : n < 2 ^ 31) : int n = n := signed_eq (by decide) ⟨lo, hi⟩

theorem unsigned_eq (lo : 0 ≤ n) (hi : n < 2 ^ w) : unsigned w n = n := Int.emod_eq_of_lt lo hi

theorem fits_signed (pos : 0 < w) (n : Int) : Fits w (signed w n) := by
  have split := pow_split pos
  have half : (0 : Int) < 2 ^ (w - 1) := Int.pow_pos (by decide)
  have lo := Int.emod_nonneg (n + 2 ^ (w - 1)) (show (2 : Int) ^ w ≠ 0 by omega)
  constructor <;> simp only [signed] <;> omega

end Ints
