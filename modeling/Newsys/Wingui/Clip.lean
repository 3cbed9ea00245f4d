import Newsys.Wingui.Confine

/- What win_clip makes of its arguments (kern/wingui/paint.c): on each side it cuts the near edge off first, and then
   looks at the far one with the width that it has been given. -/
namespace Wingui
open Boxes

def Window.Admits (w : Window) (px py : Int) : Prop := w.clip.box.Has px py

section Side
variable {at' len limit : Int}

/-- The numbers of one side, and their sum, are numbers of an `int`. A window has no negative size. -/
structure SideInts (at' len limit : Int) : Prop where
  start : IsInt at'
  size : IsInt len
  far : IsInt (at' + len)
  least : 0 ≤ limit
  most : limit < 2 ^ 31

def Overshoots (at' len limit : Int) : Prop := at' < 0 ∧ at' + len < limit ∧ limit < len ∧ 0 < limit

instance (at' len limit : Int) : Decidable (Overshoots at' len limit) := inferInstanceAs (Decidable (_ ∧ _))

def Beyond (at' len limit : Int) : Prop := limit < at' ∧ limit < at' + len

instance (at' len limit : Int) : Decidable (Beyond at' len limit) := inferInstanceAs (Decidable (_ ∧ _))

def Crosses (at' len limit : Int) : Prop := max at' 0 < min (at' + len) limit

instance (at' len limit : Int) : Decidable (Crosses at' len limit) := inferInstanceAs (Decidable (_ < _))

theorem crosses_iff : (∃ p, (at' ≤ p ∧ p < at' + len) ∧ 0 ≤ p ∧ p < limit) ↔ Crosses at' len limit := by
  unfold Crosses
  constructor
  · rintro ⟨p, ⟨low, high⟩, low', high'⟩
    omega
  · intro less
    exact ⟨max at' 0, ⟨by omega, by omega⟩, by omega, by omega⟩

section
variable (ints : SideInts at' len limit)
include ints

theorem clipSide_cases :
    (at' < 0 ∧ clipSide at' len limit = (0, if limit < len then limit else max (at' + len) 0)) ∨
    (0 ≤ at' ∧ limit < at' + len ∧ clipSide at' len limit = (at', limit - at')) ∨
    (0 ≤ at' ∧ at' + len ≤ limit ∧ clipSide at' len limit = (at', max len 0)) := by
  obtain ⟨start, size, far, least, most⟩ := ints
  have raise : ∀ l : Int, (if l < 0 then 0 else l) = max l 0 := by
    intro l
    split <;> omega
  have cut : IsInt (limit - max at' 0) := by
    simp only [IsInt] at *
    omega
  by_cases before : at' < 0
  · left
    refine ⟨before, ?_⟩
    rw [max_eq_right (by omega)] at cut
    rw [clipSide, if_pos before, if_pos before, zero_add, i32_eq size, raise, add_comm len, i32_eq far, i32_eq cut,
      sub_zero]
  · right
    rw [max_eq_left (by omega)] at cut
    rw [clipSide, if_neg before, if_neg before, raise, i32_eq far, i32_eq cut]
    by_cases beyond : limit < at' + len
    · exact .inl ⟨by omega, beyond, by rw [if_pos beyond]⟩
    · exact .inr ⟨by omega, by omega, by rw [if_neg beyond]⟩

theorem clipSide_neg : (clipSide at' len limit).2 < 0 ↔ Beyond at' len limit := by
  have least := ints.least
  unfold Beyond
  rcases clipSide_cases ints with ⟨before, eq⟩ | ⟨start, beyond, eq⟩ | ⟨start, within', eq⟩
  · rw [eq]
    dsimp only
    split
    · omega
    · omega
  · rw [eq]
    dsimp only
    omega
  · rw [eq]
    dsimp only
    omega

theorem clipSide_points (exact : ¬ Overshoots at' len limit) (p : Int) :
    ((clipSide at' len limit).1 ≤ p ∧ p < (clipSide at' len limit).1 + (clipSide at' len limit).2) ↔
      (at' ≤ p ∧ p < at' + len) ∧ 0 ≤ p ∧ p < limit := by
  have least := ints.least
  unfold Overshoots at exact
  rcases clipSide_cases ints with ⟨before, eq⟩ | ⟨start, beyond, eq⟩ | ⟨start, within', eq⟩
  · rw [eq]
    dsimp only
    split
    · omega
    · omega
  · rw [eq]
    dsimp only
    omega
  · rw [eq]
    dsimp only
    omega

theorem clipSide_overshoots (beyond : Overshoots at' len limit) :
    clipSide at' len limit = (0, limit) := by
  obtain ⟨before, _, longer, _⟩ := beyond
  rcases clipSide_cases ints with ⟨_, eq⟩ | ⟨start, _⟩ | ⟨start, _⟩
  · rw [eq, if_pos longer]
  · omega
  · omega

end

end Side

theorem side_empty {α β : Type} {A A' : α → Prop} {B B' : β → Prop} (same : ∀ a b, A a ∧ B b ↔ A' a ∧ B' b) {a : α}
    (here : A a) (out : ¬ A' a) (b : β) : ¬ B b :=
  fun there => out ((same a b).mp ⟨here, there⟩).1

/-- The arguments are numbers of an `int` and their sums do not overflow. -/
structure Rect.ClipInts (r : Rect) (x y w h : Int) : Prop where
  across : SideInts x w r.w
  down : SideInts y h r.h

/-- No side begins behind the window and ends behind it; and a side that is cut wrongly does not matter, as there is
    nothing on the other side. -/
def Rect.ClipsWell (r : Rect) (x y w h : Int) : Prop :=
  ¬ Beyond x w r.w ∧ ¬ Beyond y h r.h ∧
  (Overshoots x w r.w → ¬ Overshoots y h r.h ∧ ¬ Crosses y h r.h) ∧
  (Overshoots y h r.h → ¬ Overshoots x w r.w ∧ ¬ Crosses x w r.w)

instance (r : Rect) (x y w h : Int) : Decidable (r.ClipsWell x y w h) := inferInstanceAs (Decidable (_ ∧ _))

theorem other_side {at' len limit at₁ len₁ limit₁ : Int} (ints : SideInts at' len limit)
    (ints' : SideInts at₁ len₁ limit₁) (beyond : Overshoots at' len limit)
    (same : ∀ p q : Int, ((clipSide at' len limit).1 ≤ p ∧ p < (clipSide at' len limit).1 + (clipSide at' len limit).2) ∧
      ((clipSide at₁ len₁ limit₁).1 ≤ q ∧ q < (clipSide at₁ len₁ limit₁).1 + (clipSide at₁ len₁ limit₁).2) ↔
      ((at' ≤ p ∧ p < at' + len) ∧ 0 ≤ p ∧ p < limit) ∧ (at₁ ≤ q ∧ q < at₁ + len₁) ∧ 0 ≤ q ∧ q < limit₁) :
    ¬ Overshoots at₁ len₁ limit₁ ∧ ¬ Crosses at₁ len₁ limit₁ := by
  have eq := clipSide_overshoots ints beyond
  obtain ⟨before, inside, longer, some⟩ := beyond
  -- the last point of the window is left, and is not one that has been asked for
  have empty := fun q => side_empty same (a := limit - 1) (by rw [eq]; dsimp only; omega) (by omega) q
  by_cases over' : Overshoots at₁ len₁ limit₁
  · have eq' := clipSide_overshoots ints' over'
    have first := empty 0
    rw [eq'] at first
    have some' := over'.2.2.2
    dsimp only at first
    omega
  · refine ⟨over', fun crosses => ?_⟩
    obtain ⟨q, here⟩ := crosses_iff.mpr crosses
    exact empty q ((clipSide_points ints' over' q).mpr here)

/-- The clip that `win_clip` stores has the pixels of the window that have been asked for, and no negative size. -/
def Clipped (rect : Rect) (x y w h : Int) (win : Window) : Prop :=
  (∀ px py, win.Admits px py ↔
    (Rect.mk x y w h).box.Has px py ∧ (Rect.mk 0 0 rect.w rect.h).box.Has px py) ∧ 0 ≤ win.clip.w ∧ 0 ≤ win.clip.h

theorem winClip_exact_iff {d d' : Desktop} {curr : Nat} {wd x y w h x0 y0 : Int}
    (ints : (d.window wd.toNat).rect.ClipInts x y w h) (done : winClip d curr wd x y w h x0 y0 = .ok d') :
    Clipped (d.window wd.toNat).rect x y w h (d'.window wd.toNat) ↔ (d.window wd.toNat).rect.ClipsWell x y w h := by
  obtain ⟨across, down⟩ := ints
  have clip : (d'.window wd.toNat).clip = ⟨(clipSide x w (d.window wd.toNat).rect.w).1,
      (clipSide y h (d.window wd.toNat).rect.h).1, (clipSide x w (d.window wd.toNat).rect.w).2,
      (clipSide y h (d.window wd.toNat).rect.h).2⟩ := by
    rw [winClip] at done
    split at done
    · cases done
    · cases done
      simp only [Function.update_self]
  generalize (d.window wd.toNat).rect = rect at *
  have negX := clipSide_neg across
  have negY := clipSide_neg down
  have product : (∀ px py, (d'.window wd.toNat).Admits px py ↔
        (Rect.mk x y w h).box.Has px py ∧ (Rect.mk 0 0 rect.w rect.h).box.Has px py) ↔
      ∀ p q : Int, ((clipSide x w rect.w).1 ≤ p ∧ p < (clipSide x w rect.w).1 + (clipSide x w rect.w).2) ∧
        ((clipSide y h rect.h).1 ≤ q ∧ q < (clipSide y h rect.h).1 + (clipSide y h rect.h).2) ↔
        ((x ≤ p ∧ p < x + w) ∧ 0 ≤ p ∧ p < rect.w) ∧ (y ≤ q ∧ q < y + h) ∧ 0 ≤ q ∧ q < rect.h := by
    refine forall_congr' fun p => forall_congr' fun q => ?_
    simp only [Window.Admits, clip, Rect.box, Box.Has, zero_add]
    constructor
    · intro same
      omega
    · intro same
      omega
  unfold Clipped Rect.ClipsWell
  rw [product, clip, ← negX, ← negY, not_lt, not_lt]
  constructor
  · rintro ⟨same, wide, high⟩
    refine ⟨wide, high, fun beyond => other_side across down beyond same, fun beyond => ?_⟩
    refine other_side down across beyond fun q p => ?_
    rw [and_comm, same p q, and_comm]
  · rintro ⟨wide, high, overX, overY⟩
    refine ⟨fun p q => ?_, wide, high⟩
    by_cases wrong : Overshoots x w rect.w
    · obtain ⟨right, empty⟩ := overX wrong
      have none : ¬ ((y ≤ q ∧ q < y + h) ∧ 0 ≤ q ∧ q < rect.h) := fun here => empty (crosses_iff.mp ⟨q, here⟩)
      rw [clipSide_points down right q, iff_false_intro none, and_false, and_false]
    by_cases wrong' : Overshoots y h rect.h
    · obtain ⟨_, empty⟩ := overY wrong'
      have none : ¬ ((x ≤ p ∧ p < x + w) ∧ 0 ≤ p ∧ p < rect.w) := fun here => empty (crosses_iff.mp ⟨p, here⟩)
      rw [clipSide_points across wrong p, iff_false_intro none, false_and, false_and]
    · rw [clipSide_points across wrong p, clipSide_points down wrong' q]

def clippedTo (clip : Rect) : Desktop := twoWindows ⟨10, 10, 50, 30⟩ ⟨40, 20, 40, 40⟩ clip

theorem winClip_clippedTo (x y w h : Int) (clip : Rect) : ∃ d', winClip (clippedTo clip) 1 0 x y w h 0 0 = .ok d' ∧
    (d'.window 0).clip = ⟨(clipSide x w 50).1, (clipSide y h 30).1, (clipSide x w 50).2, (clipSide y h 30).2⟩ :=
  ⟨_, rfl, rfl⟩

/-- What is asked for begins before the corner. -/
theorem winClip_exact_iff_corner :
    Clipped ⟨10, 10, 50, 30⟩ (-5) (-5) 20 100
      ⟨some 1, 0, 0, -1, true, ⟨0, 0, 15, 30⟩, ⟨10, 10, 50, 30⟩⟩ ↔ Rect.ClipsWell ⟨10, 10, 50, 30⟩ (-5) (-5) 20 100 :=
  @winClip_exact_iff (clippedTo ⟨0, 0, 0, 0⟩) _ 1 0 (-5) (-5) 20 100 0 0
    ⟨⟨by decide, by decide, by decide, by decide, by decide⟩, ⟨by decide, by decide, by decide, by decide, by decide⟩⟩
    rfl

/-- Ten pixels right of the window the width becomes negative; and from 20 pixels left of it to 40 in it all of the
    window is left. -/
theorem winClip_not_exact :
    (∃ d', winClip (clippedTo ⟨0, 0, 0, 0⟩) 1 0 60 0 5 5 0 0 = .ok d' ∧
      ¬ Clipped ⟨10, 10, 50, 30⟩ 60 0 5 5 (d'.window 0)) ∧
    ∃ d', winClip (clippedTo ⟨0, 0, 0, 0⟩) 1 0 (-20) 0 60 30 0 0 = .ok d' ∧
      ¬ Clipped ⟨10, 10, 50, 30⟩ (-20) 0 60 30 (d'.window 0) := by
  obtain ⟨d, done, clip⟩ := winClip_clippedTo 60 0 5 5 ⟨0, 0, 0, 0⟩
  obtain ⟨d', done', clip'⟩ := winClip_clippedTo (-20) 0 60 30 ⟨0, 0, 0, 0⟩
  refine ⟨⟨d, done, fun clipped => ?_⟩, d', done', fun clipped => ?_⟩
  · have wide := clipped.2.1
    rw [clip] at wide
    exact absurd wide (by decide)
  · have here := (clipped.1 45 0).mp (by rw [Window.Admits, clip']; decide)
    exact absurd here.1 (by decide)

end Wingui
