import Mathlib.Algebra.BigOperators.Intervals

/- Numbers of entries of a table that have a property, and what a change of one entry does to them. -/
namespace Tally
open Finset Function

variable {α : Type}

theorem sum_range_update (lt : a < n) (g : Nat → Nat) (v : Nat) :
    (∑ i ∈ range n, update g a v i) + g a = (∑ i ∈ range n, g i) + v := by
  have mem : a ∈ range n := mem_range.mpr lt
  have rest : ∑ i ∈ (range n).erase a, update g a v i = ∑ i ∈ (range n).erase a, g i := by
    apply sum_congr rfl
    intro i in_rest
    rw [update_of_ne (mem_erase.mp in_rest).1]
  rw [← add_sum_erase _ _ mem, ← add_sum_erase _ g mem, rest, update_self]
  omega

def tally (n : Nat) (P : α → Bool) (g : Nat → α) : Nat := ∑ i ∈ range n, if P (g i) then 1 else 0

variable {n a : Nat} {P : α → Bool} {g g' : Nat → α}

theorem tally_update (lt : a < n) (v : α) :
    tally n P (update g a v) + (if P (g a) then 1 else 0) = tally n P g + if P v then 1 else 0 := by
  rw [tally, tally, ← sum_range_update lt (fun i => if P (g i) then 1 else 0)]
  congr 1
  apply sum_congr rfl
  intro i _
  by_cases same : i = a
  · subst same
    simp
  · rw [update_of_ne same, update_of_ne same]

theorem tally_congr (same : ∀ i, i < n → P (g' i) = P (g i)) : tally n P g' = tally n P g := by
  apply sum_congr rfl
  intro i mem
  rw [same i (mem_range.mp mem)]

theorem tally_eq_zero : tally n P g = 0 ↔ ∀ i, i < n → P (g i) = false := by
  rw [tally, sum_eq_zero_iff]
  constructor
  · intro none i lt
    have here := none i (mem_range.mpr lt)
    simpa using here
  · intro none i mem
    simp [none i (mem_range.mp mem)]

theorem tally_pos (lt : a < n) (yes : P (g a) = true) : 0 < tally n P g := by
  apply Nat.pos_of_ne_zero
  intro zero
  rw [tally_eq_zero.mp zero a lt] at yes
  cases yes

theorem tally_succ : tally (n + 1) P g = tally n P g + if P (g n) then 1 else 0 := sum_range_succ _ _

theorem tally_eq_countP : tally n P g = (List.range n).countP fun i => P (g i) := by
  induction n with
  | zero => rfl
  | succ n ih =>
    rw [tally_succ, ih, List.range_succ, List.countP_append, List.countP_singleton]

end Tally
