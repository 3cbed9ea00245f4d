import Mathlib.Data.List.Basic

/- Texts of lines that end in a separator, and the cutting of a line at a separator, over any characters. -/
namespace Text
open List

variable {α : Type}

def unlines (sep : α) (lines : List (List α)) : List α := lines.flatMap (· ++ [sep])

@[simp] theorem unlines_nil (sep : α) : unlines sep [] = [] := rfl

@[simp] theorem unlines_cons (sep : α) (line : List α) (lines : List (List α)) :
    unlines sep (line :: lines) = line ++ sep :: unlines sep lines := by
  rw [unlines, flatMap_cons, append_assoc]
  rfl

@[simp] theorem unlines_append (sep : α) (a b : List (List α)) : unlines sep (a ++ b) = unlines sep a ++ unlines sep b :=
  flatMap_append ..

theorem split_first (free : sep ∉ a) (eq : a ++ sep :: x = b ++ sep :: y) :
    a = b ∨ ∃ c, b = a ++ sep :: c ∧ x = c ++ sep :: y := by
  rcases append_eq_append_iff.1 eq with ⟨c, whole, rest⟩ | ⟨c, whole, rest⟩
  · cases c with
    | nil => exact .inl (by rw [whole, append_nil])
    | cons d c =>
      obtain ⟨rfl, behind⟩ := cons.inj rest
      exact .inr ⟨c, whole, behind⟩
  · cases c with
    | nil => exact .inl (by rw [whole, append_nil])
    | cons d c =>
      obtain ⟨rfl, _⟩ := cons.inj rest
      exact absurd (by rw [whole]; simp) free

section Cut
variable [DecidableEq α]

def cut (sep : α) : List α → Option (List α × List α)
  | [] => none
  | c :: cs => if c = sep then some ([], cs) else (cut sep cs).map fun (a, b) => (c :: a, b)

theorem cut_append (b : List α) (free : sep ∉ a) : cut sep (a ++ sep :: b) = some (a, b) := by
  induction a with
  | nil => exact if_pos rfl
  | cons c a ih =>
    rw [mem_cons, not_or] at free
    obtain ⟨other, rest⟩ := free
    rw [cons_append, cut, if_neg (Ne.symm other), ih rest]
    rfl

theorem split_unique {sep : α} {a b a' b' : List α} (free : sep ∉ a) (free' : sep ∉ a')
    (eq : a ++ sep :: b = a' ++ sep :: b') : a = a' ∧ b = b' := by
  have cuts := cut_append b free
  rw [eq, cut_append b' free'] at cuts
  cases cuts
  exact ⟨rfl, rfl⟩

theorem unlines_inj {sep : α} {a b : List (List α)} (freeA : ∀ l ∈ a, sep ∉ l) (freeB : ∀ l ∈ b, sep ∉ l)
    (eq : unlines sep a = unlines sep b) : a = b := by
  induction a generalizing b with
  | nil =>
    cases b with
    | nil => rfl
    | cons l b => simp at eq
  | cons l a ih =>
    cases b with
    | nil => simp at eq
    | cons l' b =>
      rw [unlines_cons, unlines_cons] at eq
      obtain ⟨first, rest⟩ := split_unique (freeA l (mem_cons_self ..)) (freeB l' (mem_cons_self ..)) eq
      have tails := ih (fun x mem => freeA x (mem_cons_of_mem l mem))
        (fun x mem => freeB x (mem_cons_of_mem l' mem)) rest
      rw [first, tails]

end Cut

end Text
