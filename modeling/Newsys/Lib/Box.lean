import Mathlib.Data.Int.Order.Basic
import Mathlib.Tactic.Common

/- Half-open boxes of integer points, and what is left of one when others are cut out of it. A box whose
   edges are in the wrong order has no points. -/
namespace Boxes
open List

structure Box where
  x0 : Int
  y0 : Int
  x1 : Int
  y1 : Int
  deriving DecidableEq

namespace Box
variable {b c o : Box} {x y : Int}

def Has (b : Box) (x y : Int) : Prop := b.x0 ≤ x ∧ x < b.x1 ∧ b.y0 ≤ y ∧ y < b.y1

instance (b : Box) (x y : Int) : Decidable (b.Has x y) := inferInstanceAs (Decidable (_ ∧ _))

/-- No edge of one box is beyond the opposite edge of the other. -/
def Meets (b o : Box) : Prop := b.x0 < o.x1 ∧ b.y0 < o.y1 ∧ o.x0 < b.x1 ∧ o.y0 < b.y1

instance (b o : Box) : Decidable (b.Meets o) := inferInstanceAs (Decidable (_ ∧ _))

theorem not_has_of_not_meets (apart : ¬ b.Meets o) (here : b.Has x y) : ¬ o.Has x y := by
  intro there
  obtain ⟨x0, x1, y0, y1⟩ := here
  obtain ⟨x0', x1', y0', y1'⟩ := there
  exact apart ⟨by omega, by omega, by omega, by omega⟩

/-- All of the box is in the other one, edge by edge. -/
def Inside (b o : Box) : Prop := o.x0 ≤ b.x0 ∧ b.x1 ≤ o.x1 ∧ o.y0 ≤ b.y0 ∧ b.y1 ≤ o.y1

instance (b o : Box) : Decidable (b.Inside o) := inferInstanceAs (Decidable (_ ∧ _))

def Wide (b : Box) : Prop := b.x0 < b.x1 ∧ b.y0 < b.y1

instance (b : Box) : Decidable b.Wide := inferInstanceAs (Decidable (_ ∧ _))

theorem wide_of_has (here : b.Has x y) : b.Wide := by
  obtain ⟨x0, x1, y0, y1⟩ := here
  exact ⟨by omega, by omega⟩

theorem inside_iff (wide : b.Wide) : (∀ x y, b.Has x y → o.Has x y) ↔ b.Inside o := by
  obtain ⟨across, down⟩ := wide
  constructor
  · intro sub
    obtain ⟨x0, -, y0, -⟩ := sub b.x0 b.y0 ⟨le_refl _, across, le_refl _, down⟩
    obtain ⟨-, x1, -, y1⟩ := sub (b.x1 - 1) (b.y1 - 1) ⟨by omega, by omega, by omega, by omega⟩
    exact ⟨x0, by omega, y0, by omega⟩
  · rintro ⟨x0, x1, y0, y1⟩ x y ⟨here0, here1, here2, here3⟩
    exact ⟨by omega, by omega, by omega, by omega⟩

theorem apart_iff (wide : b.Wide) : (∀ x y, b.Has x y → ¬ o.Has x y) ↔ ¬ (o.Wide ∧ b.Meets o) := by
  obtain ⟨across, down⟩ := wide
  constructor
  · rintro apart ⟨⟨across', down'⟩, x0, y0, x1, y1⟩
    exact apart (max b.x0 o.x0) (max b.y0 o.y0) ⟨by omega, by omega, by omega, by omega⟩
      ⟨by omega, by omega, by omega, by omega⟩
  · intro apart x y here there
    refine apart ⟨wide_of_has there, ?_⟩
    obtain ⟨x0, x1, y0, y1⟩ := here
    obtain ⟨x0', x1', y0', y1'⟩ := there
    exact ⟨by omega, by omega, by omega, by omega⟩

def upper (b o : Box) : Box := { b with y1 := o.y0 }

def lower (b o : Box) : Box := { b with y0 := o.y1 }

def left (b o : Box) : Box := { b with x1 := o.x0, y0 := max b.y0 o.y0, y1 := min b.y1 o.y1 }

def right (b o : Box) : Box := { b with x0 := o.x1, y0 := max b.y0 o.y0, y1 := min b.y1 o.y1 }

/-- What is left of `b` around `o`, in pieces that do not overlap. -/
def around (b o : Box) : List Box :=
  (if b.y0 < o.y0 then [b.upper o] else []) ++ (if o.y1 < b.y1 then [b.lower o] else []) ++
    (if b.x0 < o.x0 then [b.left o] else []) ++ if o.x1 < b.x1 then [b.right o] else []

theorem mem_around : c ∈ b.around o ↔ (b.y0 < o.y0 ∧ c = b.upper o) ∨ (o.y1 < b.y1 ∧ c = b.lower o) ∨
    (b.x0 < o.x0 ∧ c = b.left o) ∨ (o.x1 < b.x1 ∧ c = b.right o) := by
  have one : ∀ {p : Prop} [Decidable p] {d : Box}, c ∈ (if p then [d] else []) ↔ p ∧ c = d := by
    intro p _ d
    by_cases h : p
    · simp [h]
    · simp [h]
  simp only [around, mem_append, one, or_assoc]

theorem has_around (meets : b.Meets o) : (∃ c ∈ b.around o, c.Has x y) ↔ b.Has x y ∧ ¬ o.Has x y := by
  obtain ⟨mx0, my0, mx1, my1⟩ := meets
  constructor
  · rintro ⟨c, mem, here⟩
    rcases mem_around.mp mem with ⟨lt, rfl⟩ | ⟨lt, rfl⟩ | ⟨lt, rfl⟩ | ⟨lt, rfl⟩ <;>
      simp only [Has, upper, lower, left, right] at here ⊢ <;> omega
  · rintro ⟨here, out⟩
    simp only [Has] at here out
    by_cases above : y < o.y0
    · exact ⟨b.upper o, mem_around.mpr (.inl ⟨by omega, rfl⟩), by simp only [Has, upper]; omega⟩
    by_cases below : o.y1 ≤ y
    · exact ⟨b.lower o, mem_around.mpr (.inr (.inl ⟨by omega, rfl⟩)), by simp only [Has, lower]; omega⟩
    by_cases before : x < o.x0
    · exact ⟨b.left o, mem_around.mpr (.inr (.inr (.inl ⟨by omega, rfl⟩))), by simp only [Has, left]; omega⟩
    · exact ⟨b.right o, mem_around.mpr (.inr (.inr (.inr ⟨by omega, rfl⟩))), by simp only [Has, right]; omega⟩

/-- `c` is a piece cut off `b`, and an edge on the far side is where it was or has not become negative. -/
structure Piece (b c : Box) : Prop where
  x0 : b.x0 ≤ c.x0
  y0 : b.y0 ≤ c.y0
  x1 : c.x1 = b.x1 ∨ 0 ≤ c.x1 ∧ c.x1 ≤ b.x1
  y1 : c.y1 = b.y1 ∨ 0 ≤ c.y1 ∧ c.y1 ≤ b.y1

theorem Piece.refl (b : Box) : Piece b b := ⟨le_refl _, le_refl _, .inl rfl, .inl rfl⟩

theorem Piece.trans (a : Piece b c) (a' : Piece c d) : Piece b d := by
  obtain ⟨x0, y0, x1, y1⟩ := a
  obtain ⟨x0', y0', x1', y1'⟩ := a'
  exact ⟨by omega, by omega, by omega, by omega⟩

theorem piece_of_around (meets : b.Meets o) (nonneg : 0 ≤ b.x0 ∧ 0 ≤ b.y0) (mem : c ∈ b.around o) : Piece b c := by
  obtain ⟨mx0, my0, mx1, my1⟩ := meets
  rcases mem_around.mp mem with ⟨lt, rfl⟩ | ⟨lt, rfl⟩ | ⟨lt, rfl⟩ | ⟨lt, rfl⟩
  · exact ⟨le_refl _, le_refl _, .inl rfl, .inr (by simp only [upper]; omega)⟩
  · exact ⟨le_refl _, by simp only [lower]; omega, .inl rfl, .inl rfl⟩
  · exact ⟨le_refl _, by simp only [left]; omega, .inr (by simp only [left]; omega), by simp only [left]; omega⟩
  · exact ⟨by simp only [right]; omega, by simp only [right]; omega, .inl rfl, by simp only [right]; omega⟩

/- Cutting out -/

/-- What is left of `b` when one box after the other is cut out of it. -/
def cut : List Box → Box → List Box
  | [], b => [b]
  | o :: os, b => if b.Meets o then (b.around o).flatMap (cut os) else cut os b

theorem has_cut (os : List Box) : ∀ b : Box, (∃ c ∈ cut os b, c.Has x y) ↔ b.Has x y ∧ ∀ o ∈ os, ¬ o.Has x y := by
  induction os with
  | nil =>
    intro b
    simp only [cut, mem_singleton, exists_eq_left, not_mem_nil, false_implies, implies_true, and_true]
  | cons o os ih =>
    intro b
    rw [cut, forall_mem_cons]
    split
    · rename_i meets
      have around := has_around (x := x) (y := y) meets
      simp only [mem_flatMap]
      constructor
      · rintro ⟨c, ⟨p, mem, mem'⟩, here⟩
        obtain ⟨in_p, uncovered⟩ := (ih p).mp ⟨c, mem', here⟩
        obtain ⟨in_b, out⟩ := around.mp ⟨p, mem, in_p⟩
        exact ⟨in_b, out, uncovered⟩
      · rintro ⟨in_b, out, uncovered⟩
        obtain ⟨p, mem, in_p⟩ := around.mpr ⟨in_b, out⟩
        obtain ⟨c, mem', here⟩ := (ih p).mpr ⟨in_p, uncovered⟩
        exact ⟨c, ⟨p, mem, mem'⟩, here⟩
    · rename_i apart
      rw [ih]
      constructor
      · rintro ⟨in_b, uncovered⟩
        exact ⟨in_b, not_has_of_not_meets apart in_b, uncovered⟩
      · rintro ⟨in_b, -, uncovered⟩
        exact ⟨in_b, uncovered⟩

theorem piece_of_cut (os : List Box) : ∀ {b c : Box}, 0 ≤ b.x0 ∧ 0 ≤ b.y0 → c ∈ cut os b → b.Piece c := by
  induction os with
  | nil =>
    intro b c _ mem
    rw [cut, mem_singleton] at mem
    exact mem ▸ Piece.refl b
  | cons o os ih =>
    intro b c nonneg mem
    rw [cut] at mem
    split at mem
    · rename_i meets
      obtain ⟨p, mem_p, mem⟩ := mem_flatMap.mp mem
      have piece := piece_of_around meets nonneg mem_p
      have := piece.x0
      have := piece.y0
      exact piece.trans (ih (by omega) mem)
    · exact ih nonneg mem

def Apart (b c : Box) : Prop := ∀ x y, b.Has x y → ¬ c.Has x y

theorem apart_of_points {d e : Box} (sub : ∀ x y, d.Has x y → b.Has x y) (sub' : ∀ x y, e.Has x y → c.Has x y)
    (apart : b.Apart c) : d.Apart e :=
  fun x y here there => apart x y (sub x y here) (sub' x y there)

def Straight (b : Box) : Prop := b.x0 ≤ b.x1 ∧ b.y0 ≤ b.y1

theorem pairwise_around (straight : o.Straight) : (b.around o).Pairwise Apart := by
  obtain ⟨across, down⟩ := straight
  have one : ∀ (p : Prop) [Decidable p] (c : Box), (if p then [c] else []).Sublist [c] := by
    intro p _ c
    split
    · exact List.Sublist.refl _
    · exact nil_sublist _
  have parts : (b.around o).Sublist ([b.upper o] ++ [b.lower o] ++ [b.left o] ++ [b.right o]) :=
    (((one _ _).append (one _ _)).append (one _ _)).append (one _ _)
  have upper_lower : (b.upper o).Apart (b.lower o) := by
    rintro x y ⟨_, _, _, high⟩ ⟨_, _, low, _⟩
    simp only [upper, lower] at high low
    omega
  have upper_left : (b.upper o).Apart (b.left o) := by
    rintro x y ⟨_, _, _, high⟩ ⟨_, _, low, _⟩
    simp only [upper, left] at high low
    omega
  have upper_right : (b.upper o).Apart (b.right o) := by
    rintro x y ⟨_, _, _, high⟩ ⟨_, _, low, _⟩
    simp only [upper, right] at high low
    omega
  have lower_left : (b.lower o).Apart (b.left o) := by
    rintro x y ⟨_, _, low, _⟩ ⟨_, _, _, high⟩
    simp only [lower, left] at high low
    omega
  have lower_right : (b.lower o).Apart (b.right o) := by
    rintro x y ⟨_, _, low, _⟩ ⟨_, _, _, high⟩
    simp only [lower, right] at high low
    omega
  have left_right : (b.left o).Apart (b.right o) := by
    rintro x y ⟨_, high, _, _⟩ ⟨low, _, _, _⟩
    simp only [left, right] at high low
    omega
  refine List.Pairwise.sublist parts ?_
  simp only [cons_append, nil_append, pairwise_cons, mem_cons, not_mem_nil, or_false, forall_eq_or_imp,
    forall_eq, List.Pairwise.nil, and_true, false_implies, implies_true]
  exact ⟨⟨upper_lower, upper_left, upper_right⟩, ⟨lower_left, lower_right⟩, left_right⟩

theorem pairwise_cut (os : List Box) : ∀ b : Box, (∀ o ∈ os, o.Straight ∨ o.x1 ≤ b.x0 ∨ o.y1 ≤ b.y0) →
    (cut os b).Pairwise Apart := by
  induction os with
  | nil => exact fun b _ => pairwise_singleton _ b
  | cons o os ih =>
    intro b order
    obtain ⟨here, order⟩ := forall_mem_cons.mp order
    rw [cut]
    split
    · rename_i meets
      obtain ⟨mx0, my0, mx1, my1⟩ := meets
      have straight : o.Straight := here.resolve_right (by omega)
      refine pairwise_flatMap.mpr ⟨fun p mem => ih p fun o' mem' => ?_, ?_⟩
      · refine (order o' mem').imp_right fun before => ?_
        rcases mem_around.mp mem with ⟨lt, rfl⟩ | ⟨lt, rfl⟩ | ⟨lt, rfl⟩ | ⟨lt, rfl⟩
        · exact before
        · simp only [lower]
          omega
        · simp only [left]
          omega
        · simp only [right]
          omega
      · refine (pairwise_around straight).imp fun {p q} apart c mem c' mem' => ?_
        exact apart_of_points (fun x y in_c => ((has_cut os p).mp ⟨c, mem, in_c⟩).1)
          (fun x y in_c => ((has_cut os q).mp ⟨c', mem', in_c⟩).1) apart
    · exact ih b order

end Box
end Boxes
