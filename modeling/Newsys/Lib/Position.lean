import Mathlib.Data.List.Induction

/- Lines and columns in a text: a position is given by the text before it. -/
namespace Position
open List

variable {α : Type} [DecidableEq α] {sep : α}

def line (sep : α) (s : List α) : Nat := s.count sep

def column (sep : α) (s : List α) : Nat := (s.reverse.takeWhile (· ≠ sep)).length

def walk (sep : α) (at' : Nat × Nat) (c : α) : Nat × Nat := if c = sep then (at'.1 + 1, 0) else (at'.1, at'.2 + 1)

theorem line_append (s t : List α) : line sep (s ++ t) = line sep s + line sep t := count_append

theorem column_sep (s : List α) : column sep (s ++ [sep]) = 0 := by
  simp [column]

theorem column_snoc (other : c ≠ sep) (s : List α) : column sep (s ++ [c]) = column sep s + 1 := by
  simp [column, other]

theorem column_line (s t : List α) : column sep (s ++ sep :: t) = column sep t := by
  induction t using List.reverseRecOn with
  | nil => exact column_sep s
  | append_singleton t c ih =>
    rw [← cons_append, ← append_assoc]
    by_cases same : c = sep
    · rw [same, column_sep, column_sep]
    · rw [column_snoc same, column_snoc same, ih]

theorem foldl_walk (s : List α) : s.foldl (walk sep) (0, 0) = (line sep s, column sep s) := by
  induction s using List.reverseRecOn with
  | nil => rfl
  | append_singleton s c ih =>
    rw [foldl_append, ih, foldl_cons, foldl_nil, walk, line_append]
    by_cases same : c = sep
    · rw [if_pos same, same, column_sep]
      simp [line]
    · rw [if_neg same, column_snoc same]
      simp [line, same]

end Position
