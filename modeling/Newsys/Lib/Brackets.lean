import Mathlib.Data.List.Basic

/- Brackets of several kinds: `par` gives the symbol that closes an opening one. -/
namespace Brackets
open List Nat Option
variable {τ : Type} (par : τ → Option τ)

def Closing (t : τ) : Prop := ∃ o, par o = some t

inductive Nested : List τ → Prop where
  | nil : Nested []
  | plain {t l} : par t = none → ¬ Closing par t → Nested l → Nested (t :: l)
  | group {o c a b} : par o = some c → Nested a → Nested b → Nested (o :: (a ++ c :: b))

/-- What stands between an opening symbol and the `c` that closes it, if closing symbols of another kind than the
    innermost open one are passed over; these are the second list. -/
inductive Inside : τ → List τ → List τ → Prop where
  | nil {c} : Inside c [] []
  | plain {c t l s} : par t = none → ¬ Closing par t → Inside c l s → Inside c (t :: l) s
  | stray {c t l s} : par t = none → Closing par t → t ≠ c → Inside c l s → Inside c (t :: l) (t :: s)
  | group {c o c' a b s s'} : par o = some c' → Inside c' a s → Inside c b s' →
      Inside c (o :: (a ++ c' :: b)) (s ++ s')

/-- The symbol at `j` closes the one at `i`; `stray` are the closing symbols between them that are passed over. -/
def Matches (l : List τ) (i j : Nat) (stray : List τ) : Prop :=
  ∃ front o a c back, l = front ++ o :: (a ++ c :: back) ∧ par o = some c ∧ Inside par c a stray ∧
    front.length = i ∧ i + a.length + 1 = j

/-- The symbol at `j` closes the one at `i`, and what is between them is properly nested. -/
def Pairs (l : List τ) (i j : Nat) : Prop :=
  ∃ front o a c back, l = front ++ o :: (a ++ c :: back) ∧ par o = some c ∧ Nested par a ∧
    front.length = i ∧ i + a.length + 1 = j

variable {par}

theorem Nested.inside (nested : Nested par l) (c : τ) : Inside par c l [] := by
  induction nested generalizing c with
  | nil => exact .nil
  | plain opens closes _ ih => exact .plain opens closes (ih c)
  | group opens _ _ ihA ihB => exact .group opens (ihA _) (ihB c)

theorem Inside.nested {c : τ} {l stray : List τ} (inside : Inside par c l stray) (clean : stray = []) :
    Nested par l := by
  induction inside with
  | nil => exact .nil
  | plain opens closes _ ih => exact .plain opens closes (ih clean)
  | stray => cases clean
  | group opens _ _ ihA ihB =>
    obtain ⟨noneA, noneB⟩ := List.append_eq_nil_iff.mp clean
    exact .group opens (ihA noneA) (ihB noneB)

theorem pairs_iff : Pairs par l i j ↔ Matches par l i j [] := by
  constructor
  · rintro ⟨front, o, a, c, back, split, opens, nested, places⟩
    exact ⟨front, o, a, c, back, split, opens, nested.inside c, places⟩
  · rintro ⟨front, o, a, c, back, split, opens, inside, places⟩
    exact ⟨front, o, a, c, back, split, opens, inside.nested rfl, places⟩

section Scanning
variable [DecidableEq τ] {c : τ} {st l rest : List τ}

def closeAt (par : τ → Option τ) : List τ → List τ → Option (List τ)
  | [], l => some l
  | _ :: _, [] => none
  | c :: st, t :: l =>
    if t = c then closeAt par st l
    else match par t with
      | some c' => closeAt par (c' :: c :: st) l
      | none => closeAt par (c :: st) l

@[simp] theorem closeAt_nil (l : List τ) : closeAt par [] l = some l := by
  cases l <;> rfl

theorem closeAt_append (s st l : List τ) :
    closeAt par (s ++ st) l = (closeAt par s l).bind (closeAt par st) := by
  induction l generalizing s with
  | nil => cases s <;> simp [closeAt]
  | cons t l ih =>
    cases s with
    | nil => simp [closeAt]
    | cons c s =>
      simp only [cons_append, closeAt]
      split
      · exact ih s
      · cases par t with
        | none => exact ih (c :: s)
        | some c' => exact ih (c' :: c :: s)

theorem closeAt_suffix (closed : closeAt par st l = some rest) :
    ∃ front, l = front ++ rest ∧ st.length ≤ front.length := by
  induction l generalizing st with
  | nil =>
    cases st with
    | nil => exact ⟨[], some.inj closed, Nat.le_refl _⟩
    | cons c st => cases closed
  | cons t l ih =>
    cases st with
    | nil => exact ⟨[], some.inj closed, Nat.le_refl _⟩
    | cons c st =>
      simp only [closeAt] at closed
      split at closed
      · obtain ⟨front, rfl, enough⟩ := ih closed
        exact ⟨t :: front, rfl, succ_le_succ enough⟩
      · cases opens : par t with
        | none =>
          rw [opens] at closed
          obtain ⟨front, rfl, enough⟩ := ih closed
          exact ⟨t :: front, rfl, le_succ_of_le enough⟩
        | some c' =>
          rw [opens] at closed
          obtain ⟨front, rfl, enough⟩ := ih closed
          exact ⟨t :: front, rfl, le_succ_of_le (le_of_succ_le enough)⟩

theorem inside_of_closeAt (n : Nat) (short : l.length ≤ n) (closed : closeAt par (c :: st) l = some rest) :
    ∃ a stray l', l = a ++ c :: l' ∧ Inside par c a stray ∧ closeAt par st l' = some rest := by
  induction n generalizing c st l with
  | zero =>
    rw [eq_nil_of_length_eq_zero (le_zero.mp short)] at closed
    cases closed
  | succ n ih =>
    cases l with
    | nil => cases closed
    | cons t l =>
      have shorter : l.length ≤ n := le_of_succ_le_succ short
      rw [closeAt] at closed
      by_cases eq : t = c
      · rw [if_pos eq] at closed
        exact ⟨[], [], l, by rw [eq]; rfl, .nil, closed⟩
      · rw [if_neg eq] at closed
        cases opens : par t with
        | none =>
          rw [opens] at closed
          obtain ⟨a, stray, l', rfl, inside, closed⟩ := ih shorter closed
          by_cases closing : Closing par t
          · exact ⟨t :: a, t :: stray, l', rfl, .stray opens closing eq inside, closed⟩
          · exact ⟨t :: a, stray, l', rfl, .plain opens closing inside, closed⟩
        | some c' =>
          -- first the bracket that opens here, then what follows it
          rw [opens] at closed
          obtain ⟨a, stray, l', rfl, inside, closed⟩ := ih shorter closed
          have rest : l'.length ≤ n := by
            rw [length_append, length_cons] at shorter
            omega
          obtain ⟨b, stray', l'', rfl, inside', closed⟩ := ih rest closed
          exact ⟨t :: (a ++ c' :: b), stray ++ stray', l'', by simp, .group opens inside inside', closed⟩

variable (apart : ∀ o c : τ, par o = some c → par c = none)
include apart

theorem closeAt_inside (inside : Inside par c a stray) (closing : Closing par c) :
    closeAt par (c :: st) (a ++ l) = closeAt par (c :: st) l := by
  induction inside generalizing st l with
  | nil => rfl
  | @plain c t _ _ opens ordinary _ ih =>
    have ne : t ≠ c := fun eq => ordinary (eq ▸ closing)
    rw [cons_append, closeAt, if_neg ne, opens]
    exact ih closing
  | stray opens _ ne _ ih =>
    rw [cons_append, closeAt, if_neg ne, opens]
    exact ih closing
  | @group c o c' a b _ _ opens _ _ ihA ihB =>
    obtain ⟨o', opens'⟩ := closing
    have ne : o ≠ c := by
      rintro rfl
      cases (apart _ _ opens').symm.trans opens
    have inner : closeAt par (c' :: c :: st) (c' :: (b ++ l)) = closeAt par (c :: st) (b ++ l) := if_pos rfl
    rw [cons_append, closeAt, if_neg ne, opens, append_assoc, cons_append]
    exact (ihA ⟨o, opens⟩).trans (inner.trans (ihB ⟨o', opens'⟩))

theorem matches_iff (front l : List τ) (opens : par o = some c) (j : Nat) :
    (∃ stray, Matches par (front ++ o :: l) front.length j stray) ↔
      ∃ rest, closeAt par [c] l = some rest ∧ j + 1 + rest.length = (front ++ o :: l).length := by
  constructor
  · rintro ⟨stray, front', o', a, c', back, split, opens', inside, here, there⟩
    obtain ⟨rfl, tail⟩ := append_inj split here.symm
    obtain ⟨rfl, rfl⟩ := List.cons_eq_cons.mp tail
    obtain rfl : c = c' := some.inj (opens.symm.trans opens')
    refine ⟨back, ?_, ?_⟩
    · rw [closeAt_inside apart inside ⟨o, opens⟩, closeAt, if_pos rfl, closeAt_nil]
    · simp only [length_append, length_cons]
      omega
  · rintro ⟨rest, closed, place⟩
    obtain ⟨a, stray, l', rfl, inside, closed⟩ := inside_of_closeAt _ (Nat.le_refl _) closed
    rw [closeAt_nil] at closed
    obtain rfl : l' = rest := some.inj closed
    refine ⟨stray, front, o, a, c, l', rfl, opens, inside, rfl, ?_⟩
    simp only [length_append, length_cons] at place
    omega

end Scanning
end Brackets
