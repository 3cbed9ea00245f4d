import Mathlib.Algebra.Order.Ring.Nat
import Mathlib.Data.List.Pairwise
import Mathlib.Algebra.BigOperators.Group.List.Basic

/- An area that tiles cover from end to end, some of them free: taking a tile for a request, with neighbours that are
   free put together on the way, and giving it back. -/
namespace Tiling
open List Nat

structure Tile where
  size : Nat
  free : Bool
  deriving DecidableEq

def area (ts : List Tile) : Nat := (ts.map Tile.size).sum

def placed : Nat → List Tile → List (Nat × Tile)
  | _, [] => []
  | a, t :: ts => (a, t) :: placed (a + t.size) ts

def used : Nat → List Tile → List (Nat × Nat)
  | _, [] => []
  | a, t :: ts => if t.free then used (a + t.size) ts else (a, t.size) :: used (a + t.size) ts

/-- Looking for a free tile of the size, or for one that leaves at least `rest` behind it. The answer is how far from the
    start the tile is. -/
inductive Serves (rest want : Nat) : List Tile → List Tile → Option Nat → Prop where
  | fit (ts : List Tile) : Serves rest want (⟨want, true⟩ :: ts) (⟨want, false⟩ :: ts) (some 0)
  | split {n : Nat} (ts : List Tile) (room : want + rest ≤ n) :
    Serves rest want (⟨n, true⟩ :: ts) (⟨want, false⟩ :: ⟨n - want, true⟩ :: ts) (some 0)
  | join {n k : Nat} {ts us : List Tile} {off : Option Nat} (more : Serves rest want (⟨n + k, true⟩ :: ts) us off) :
    Serves rest want (⟨n, true⟩ :: ⟨k, true⟩ :: ts) us off
  | pass {t : Tile} {ts us : List Tile} {off : Option Nat} (more : Serves rest want ts us off) :
    Serves rest want (t :: ts) (t :: us) (off.map (t.size + ·))
  | stop : Serves rest want [] [] none

@[simp] theorem area_nil : area [] = 0 := rfl

@[simp] theorem area_cons (t : Tile) (ts : List Tile) : area (t :: ts) = t.size + area ts := sum_cons

@[simp] theorem area_append (ts us : List Tile) : area (ts ++ us) = area ts + area us := by
  rw [area, map_append, sum_append]
  rfl

variable {ts : List Tile}

theorem length_mul_le_area (sized : ∀ t ∈ ts, least ≤ t.size) : ts.length * least ≤ area ts := by
  induction ts with
  | nil => simp
  | cons t ts ih =>
    have here := sized t (mem_cons_self ..)
    have rest := ih fun u mem => sized u (mem_cons_of_mem t mem)
    rw [length_cons, succ_mul, area_cons]
    omega

theorem used_append (a : Nat) (ts us : List Tile) : used a (ts ++ us) = used a ts ++ used (a + area ts) us := by
  induction ts generalizing a with
  | nil => rfl
  | cons t ts ih =>
    rw [cons_append, used, used, ih, area_cons, ← add_assoc]
    split <;> rfl

/- Where tiles are -/

variable {a x : Nat} {t : Tile}

theorem placed_bounds (mem : (x, t) ∈ placed a ts) : a ≤ x ∧ x + t.size ≤ a + area ts := by
  induction ts generalizing a with
  | nil => cases mem
  | cons u ts ih =>
    rw [area_cons]
    rcases mem_cons.1 mem with eq | mem
    · cases eq
      omega
    · have := ih mem
      omega

theorem mem_of_placed (mem : (x, t) ∈ placed a ts) : t ∈ ts := by
  induction ts generalizing a with
  | nil => cases mem
  | cons u ts ih =>
    rcases mem_cons.1 mem with eq | mem
    · cases eq
      exact mem_cons_self ..
    · exact mem_cons_of_mem u (ih mem)

theorem mem_used : (x, n) ∈ used a ts ↔ (x, ⟨n, false⟩) ∈ placed a ts := by
  induction ts generalizing a with
  | nil => simp [used, placed]
  | cons t ts ih =>
    obtain ⟨size, free⟩ := t
    cases free with
    | true => simp [used, placed, ih]
    | false => simp [used, placed, ih]

theorem placed_apart (memT : (x, t) ∈ placed a ts) (memU : (y, u) ∈ placed a ts) :
    (x = y ∧ t = u) ∨ x + t.size ≤ y ∨ y + u.size ≤ x := by
  induction ts generalizing a with
  | nil => cases memT
  | cons v ts ih =>
    rcases mem_cons.1 memT with eqT | memT <;> rcases mem_cons.1 memU with eqU | memU
    · cases eqT
      cases eqU
      exact .inl ⟨rfl, rfl⟩
    · cases eqT
      exact .inr (.inl (placed_bounds memU).1)
    · cases eqU
      exact .inr (.inr (placed_bounds memT).1)
    · exact ih memT memU

/-- Places that do not overlap, in any order. -/
def Apart (x y : Nat × Nat) : Prop := x.1 + x.2 ≤ y.1 ∨ y.1 + y.2 ≤ x.1

def Covers (x : Nat × Nat) (k : Nat) : Prop := x.1 ≤ k ∧ k < x.1 + x.2

variable {y : Nat × Nat}

theorem Apart.not_covers {x : Nat × Nat} {k : Nat} (apart : Apart x y) (covers : Covers x k) : ¬ Covers y k := by
  rintro ⟨lo, hi⟩
  obtain ⟨lo', hi'⟩ := covers
  rcases apart with before | behind <;> omega

theorem apart_of_disjoint {x : Nat × Nat} (full : 0 < x.2) (full' : 0 < y.2) (disjoint : ∀ k, Covers x k → ¬ Covers y k) :
    Apart x y := by
  by_contra overlap
  have both := disjoint (max x.1 y.1)
  simp only [Apart, Covers] at overlap both
  omega

theorem Apart.shrink (apart : Apart (a, n) y) (le : k ≤ n) : Apart (a, k) y := by
  rcases apart with before | behind
  · exact .inl (Nat.le_trans (Nat.add_le_add_left le a) before)
  · exact .inr behind

theorem Apart.symm {x : Nat × Nat} (apart : Apart x y) : Apart y x := Or.symm apart

theorem apart_of_mem {α : Type} {place : α → Nat × Nat} {xs : List α} (apart : (xs.map place).Pairwise Apart) {x y : α}
    (memX : x ∈ xs) (memY : y ∈ xs) (ne : x ≠ y) : Apart (place x) (place y) := by
  have symm : Std.Symm fun x y => Apart (place x) (place y) := ⟨fun _ _ => Apart.symm⟩
  exact (pairwise_map.1 apart).forall memX memY ne

theorem used_apart (a : Nat) (ts : List Tile) : (used a ts).Pairwise Apart := by
  induction ts generalizing a with
  | nil => exact List.Pairwise.nil
  | cons t ts ih =>
    rw [used]
    split
    · exact ih _
    · refine List.Pairwise.cons ?_ (ih _)
      rintro ⟨x, n⟩ mem
      exact .inl (placed_bounds (mem_used.1 mem)).1

theorem placed_split (mem : (x, t) ∈ placed a ts) : ∃ pre post, ts = pre ++ t :: post ∧ x = a + area pre := by
  induction ts generalizing a with
  | nil => cases mem
  | cons u ts ih =>
    rcases mem_cons.1 mem with eq | mem
    · cases eq
      exact ⟨[], ts, rfl, rfl⟩
    · obtain ⟨pre, post, rfl, rfl⟩ := ih mem
      exact ⟨u :: pre, post, rfl, by rw [area_cons, add_assoc]⟩

theorem used_release (a n : Nat) (pre post : List Tile) :
    (used a (pre ++ ⟨n, false⟩ :: post)).Perm ((a + area pre, n) :: used a (pre ++ ⟨n, true⟩ :: post)) := by
  rw [used_append, used_append]
  exact perm_middle

/- What a search does -/

section Search
variable {rest want : Nat} {ts us : List Tile} {off : Option Nat} (serves : Serves rest want ts us off)
include serves

theorem serves_area : area us = area ts := by
  induction serves with
  | fit ts => rfl
  | split ts room =>
    simp only [area_cons]
    omega
  | join more ih =>
    simp only [area_cons] at ih ⊢
    omega
  | pass more ih => rw [area_cons, area_cons, ih]
  | stop => rfl

theorem serves_sized (le : rest ≤ want) (sized : ∀ t ∈ ts, rest ≤ t.size) : ∀ t ∈ us, rest ≤ t.size := by
  induction serves with
  | fit ts =>
    intro t mem
    rcases mem_cons.1 mem with rfl | mem
    · exact le
    · exact sized t (mem_cons_of_mem _ mem)
  | split ts room =>
    intro t mem
    rcases mem_cons.1 mem with rfl | mem
    · exact le
    · rcases mem_cons.1 mem with rfl | mem
      · exact le_sub_of_add_le (by omega)
      · exact sized t (mem_cons_of_mem _ mem)
  | @join n k ts us off more ih =>
    refine ih fun t mem => ?_
    rcases mem_cons.1 mem with rfl | mem
    · have := sized ⟨n, true⟩ (mem_cons_self ..)
      exact le_trans this (le_add_right _ _)
    · exact sized t (mem_cons_of_mem _ (mem_cons_of_mem _ mem))
  | @pass t ts us off more ih =>
    intro u mem
    rcases mem_cons.1 mem with rfl | mem
    · exact sized u (mem_cons_self ..)
    · exact ih (fun v inside => sized v (mem_cons_of_mem _ inside)) u mem
  | stop => exact sized

theorem serves_nil : us = [] ↔ ts = [] := by
  induction serves with
  | join more ih => simpa using ih
  | stop => exact Iff.rfl
  | _ => simp

theorem serves_used (a : Nat) : (used a us).Perm ((off.toList.map fun k => (a + k, want)) ++ used a ts) := by
  induction serves generalizing a with
  | fit ts => simp [used]
  | @split n ts room =>
    have whole : a + want + (n - want) = a + n := by omega
    simp [used, whole]
  | @join n k ts us off more ih =>
    have same := ih a
    simp only [used, if_true, add_assoc] at same ⊢
    exact same
  | @pass t ts us off more ih =>
    have shifted : (off.map (t.size + ·)).toList.map (fun k => (a + k, want)) =
        off.toList.map fun k => (a + t.size + k, want) := by
      cases off <;> simp [add_assoc]
    rw [used, used, shifted]
    split
    · exact ih _
    · exact ((ih _).cons _).trans perm_middle.symm
  | stop => rfl

end Search

/- Neighbours that are free put together -/

def coalesce : List Tile → List Tile
  | [] => []
  | t :: ts =>
    match coalesce ts with
    | [] => [t]
    | u :: us => if t.free = true ∧ u.free = true then ⟨t.size + u.size, true⟩ :: us else t :: u :: us

theorem coalesce_used (taken : t.free = false) (ts : List Tile) : coalesce (t :: ts) = t :: coalesce ts := by
  rw [coalesce]
  cases coalesce ts with
  | nil => rfl
  | cons u us =>
    dsimp only
    rw [if_neg (by simp [taken])]

theorem coalesce_join (n k : Nat) (ts : List Tile) :
    coalesce (⟨n, true⟩ :: ⟨k, true⟩ :: ts) = coalesce (⟨n + k, true⟩ :: ts) := by
  simp only [coalesce]
  cases coalesce ts with
  | nil => simp
  | cons u us =>
    dsimp only
    by_cases free : u.free = true
    · simp [free, add_assoc]
    · simp [free]

theorem coalesce_cons (settled : ∀ u ∈ ts.head?, ¬ (t.free = true ∧ u.free = true)) :
    coalesce (t :: ts) = t :: coalesce ts := by
  cases ts with
  | nil => rfl
  | cons u us =>
    cases taken : u.free with
    | false =>
      rw [coalesce, coalesce_used taken]
      dsimp only
      rw [if_neg (by simp [taken])]
    | true =>
      have not : t.free = false := by
        have not := settled u rfl
        simpa [taken] using not
      exact coalesce_used not _

theorem serves_self (rest want : Nat) (ts : List Tile) : Serves rest want ts ts none := by
  induction ts with
  | nil => exact .stop
  | cons t ts ih => exact .pass ih

end Tiling
