import Mathlib.Tactic.ByContra

/- Comparison functions as the C library takes them: the sign of an `int` says which of two things comes first. -/
namespace Compare

variable {α : Type}

/-- The function compares by a total preorder. -/
structure Orders (cmp : α → α → Int) : Prop where
  swap : ∀ a b, cmp a b ≤ 0 ↔ 0 ≤ cmp b a
  trans : ∀ a b c, cmp a b ≤ 0 → cmp b c ≤ 0 → cmp a c ≤ 0

/-- The things at the places from `lo` up to `hi` are in order. -/
def Sorted (cmp : α → α → Int) (at' : Nat → α) (lo hi : Nat) : Prop :=
  ∀ i j, lo ≤ i → i < j → j ≤ hi → cmp (at' i) (at' j) ≤ 0

def byKey (key : α → Int) (a b : α) : Int := key a - key b

theorem byKey_orders (key : α → Int) : Orders (byKey key) := by
  constructor
  · intro a b
    unfold byKey
    omega
  · intro a b c first second
    unfold byKey at *
    omega

namespace Orders
variable {cmp : α → α → Int} (orders : Orders cmp) {a b c : α}

include orders

theorem refl (a : α) : cmp a a = 0 := by
  have swap := orders.swap a a
  omega

theorem lt_of_le_of_lt (first : cmp a b ≤ 0) (second : cmp b c < 0) : cmp a c < 0 := by
  have le := orders.trans a b c first (by omega)
  have swap := orders.swap c a
  have back := orders.swap c b
  by_contra not
  have via := orders.trans c a b (by omega) first
  omega

theorem pos_of_le_of_pos (first : cmp a b ≤ 0) (second : 0 < cmp a c) : 0 < cmp b c := by
  have le := (orders.swap c a).mpr (Int.le_of_lt second)
  by_contra not
  have back := orders.trans a b c first (by omega)
  omega

end Orders

end Compare
