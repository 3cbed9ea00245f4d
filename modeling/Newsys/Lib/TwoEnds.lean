import Mathlib.Data.List.Basic

/- An array that is filled from both ends, with empty slots between what is put at its front and what is put at its
   back, and one empty slot behind all of it. -/
namespace TwoEnds
open List

variable {α : Type}

def slots (front : List α) (gap : Nat) (back : List α) : List (Option α) :=
  front.map some ++ List.replicate gap none ++ back.map some ++ [none]

def entries (slots : List (Option α)) (a : Nat) : List α := ((slots.drop a).takeWhile Option.isSome).filterMap id

theorem slots_empty (n : Nat) : List.replicate (n + 1) none = slots ([] : List α) n [] := by
  simp [slots, replicate_succ']

section
variable (front : List α)
include front

theorem set_front (gap : Nat) (back : List α) (a : α) :
    (slots front (gap + 1) back).set front.length (some a) = slots (front ++ [a]) gap back := by
  simp [slots, replicate_succ]

theorem set_back (gap : Nat) (back : List α) (a : α) :
    (slots front (gap + 1) back).set (front.length + gap) (some a) = slots front gap (a :: back) := by
  simp [slots, replicate_succ']

theorem set_none (gap : Nat) (back : List α) :
    (slots front (gap + 1) back).set front.length none = slots front (gap + 1) back := by
  simp [slots, replicate_succ]

theorem entries_some (rest : List (Option α)) :
    entries (front.map some ++ none :: rest) 0 = front := by
  simp [entries, takeWhile_append_of_pos]

theorem entries_front (gap : Nat) (back : List α) :
    entries (slots front (gap + 1) back) 0 = front := by
  rw [slots, replicate_succ, append_assoc, append_assoc, cons_append]
  exact entries_some front _

theorem entries_back (gap : Nat) (back : List α) :
    entries (slots front gap back) (front.length + gap) = back := by
  have behind : (slots front gap back).drop (front.length + gap) = back.map some ++ [none] := by
    rw [slots, append_assoc, drop_left' (by simp)]
  have all := entries_some back []
  rw [entries, drop_zero] at all
  rw [entries, behind]
  exact all

theorem first (gap : Nat) (back : List α) :
    (slots front (gap + 1) back).headD none = front.head? := by
  cases front <;> rfl

end

end TwoEnds
