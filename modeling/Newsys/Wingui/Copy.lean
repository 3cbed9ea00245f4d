import Newsys.Wingui.Confine

/- What `win_copy` can read. The target of a copy is kept in the window by the clip, but its source is only moved
   to the place of the window on the display: what is copied may be the picture of another window. -/
namespace Wingui
open Boxes Bytes List

/-- The colours of the pixels, those outside of the display included: a copy may read there. -/
abbrev Screen := Int → Int → Nat

instance (x y : Int) : (dr : Draw) → Decidable (dr.Writes x y)
  | .putpix .. | .hline .. | .vline .. | .rect .. | .copy .. | .bmpHline .. => inferInstanceAs (Decidable (_ ∧ _))

def Draw.colour (s : Screen) (x y : Int) : Draw → Nat
  | .putpix _ _ c | .hline _ _ _ c | .vline _ _ _ c | .rect _ _ _ _ c => c
  | .copy x0 y0 x1 y1 _ _ => s (x - x0 + x1) (y - y0 + y1)
  | .bmpHline x0 _ _ data off bg fg =>
    let k := off + (x - x0).toNat
    if (data (k / 8)).getLsbD (k % 8) then fg else bg

def Draw.paint (s : Screen) (dr : Draw) : Screen :=
  fun x y => if dr.Writes x y then dr.colour s x y else s x y

def paintAll (draws : List Draw) (s : Screen) : Screen := draws.foldl Draw.paint s

/- The source of a copy -/

/-- Every copy reads from the visible part of window `wd`. -/
def SourceShown (d : Desktop) (wd : Nat) (p : Paint) : Prop :=
  ∀ x0 y0 x1 y1 w h, Draw.copy x0 y0 x1 y1 w h ∈ p.1 → ∀ x y, Box.Has ⟨x1, y1, x1 + w, y1 + h⟩ x y → d.Shown wd x y

/-- Screens that differ only outside of the visible part of window `wd` are given the same pixels in it. -/
def NoLeak (d : Desktop) (wd : Nat) (p : Paint) : Prop :=
  ∀ s t : Screen, (∀ x y, d.Shown wd x y → s x y = t x y) →
    ∀ x y, d.Shown wd x y → paintAll p.1 s x y = paintAll p.1 t x y

variable {d : Desktop}

theorem noLeak_of_sourceShown (source : SourceShown d wd p) : NoLeak d wd p := by
  obtain ⟨draws, err⟩ := p
  simp only [SourceShown, NoLeak] at source ⊢
  induction draws with
  | nil => exact fun _ _ same => same
  | cons dr draws ih =>
    intro s t same
    refine ih (fun x0 y0 x1 y1 w h mem => source x0 y0 x1 y1 w h (mem_cons_of_mem _ mem)) _ _ fun x y shown => ?_
    simp only [Draw.paint]
    split
    · rename_i writes
      cases dr with
      | copy x0 y0 x1 y1 w h =>
        obtain ⟨left, right, top, bottom⟩ := writes
        refine same _ _ (source x0 y0 x1 y1 w h (mem_cons_self ..) _ _ ?_)
        exact ⟨by dsimp only; omega, by dsimp only; omega, by dsimp only; omega, by dsimp only; omega⟩
      | putpix | hline | vline | rect | bmpHline => rfl
    · exact same x y shown

variable {dr : Draw}

theorem mem_iterate (ws : List Window) : ∀ rq : Request,
    dr ∈ (winAutoclipIterate proc ws rq).1 → ∃ c, dr ∈ (proc { rq with clip := c }).1 := by
  have split_andThen : ∀ {p q : Paint}, dr ∈ (p.andThen q).1 → dr ∈ p.1 ∨ dr ∈ q.1 := by
    rintro ⟨draws, _ | e⟩ q mem
    · exact List.mem_append.mp mem
    · exact .inl mem
  induction ws with
  | nil => exact fun rq mem => ⟨rq.clip, mem⟩
  | cons w ws ih =>
    intro rq mem
    have part : ∀ {c : Prop} [Decidable c] {b : Box},
        dr ∈ (if c then winAutoclipIterate proc ws { rq with clip := b } else (([], none) : Paint)).1 →
        ∃ c, dr ∈ (proc { rq with clip := c }).1 := by
      intro c _ b mem
      split at mem
      · exact ih { rq with clip := b } mem
      · exact absurd mem not_mem_nil
    rw [winAutoclipIterate] at mem
    split at mem
    · exact ih rq mem
    split at mem
    · exact ih rq mem
    split at mem
    · exact ih rq mem
    split at mem
    · exact ih rq mem
    split at mem
    · exact ih rq mem
    rcases split_andThen mem with upper | mem
    · exact part upper
    rcases split_andThen mem with lower | mem
    · exact part lower
    rcases split_andThen mem with left | right
    · exact part left
    · exact part right

theorem mem_unless {c : Prop} [Decidable c]
    (mem : dr ∈ (if c then (([], e) : Paint) else p).1) : dr ∈ p.1 := by
  split at mem
  · exact absurd mem not_mem_nil
  · exact mem

theorem mem_autoclipCopy (mem : dr ∈ (winAutoclipCopy rq).1) :
    dr = .copy rq.rect.x rq.rect.y rq.srcX rq.srcY rq.rect.w rq.rect.h :=
  List.mem_singleton.mp (mem_unless (mem_unless (mem_unless (mem_unless (mem_unless mem)))))

def sourceBox (w : Window) (sx sy cw ch : Int) : Box :=
  let x := i32 (i32 (sx + w.x0) + w.rect.x)
  let y := i32 (i32 (sy + w.y0) + w.rect.y)
  ⟨x, y, x + cw, y + ch⟩

theorem winCopy_source (mem : dr ∈ (winCopy d curr wd dx dy sx sy w h).1.1) : ∃ x0 y0 x1 y1,
    dr = .copy x0 y0 x1 y1 (if w < 0 then 0 else w) (if h < 0 then 0 else h) ∧
      x1 = (sourceBox (d.window wd.toNat) sx sy w h).x0 ∧ y1 = (sourceBox (d.window wd.toNat) sx sy w h).y0 := by
  rw [winCopy_draws, winAutoclip] at mem
  split at mem
  · exact absurd mem not_mem_nil
  dsimp only at mem
  split at mem
  · exact absurd mem not_mem_nil
  split at mem
  · exact absurd mem not_mem_nil
  obtain ⟨c, mem⟩ := mem_iterate _ _ mem
  exact ⟨_, _, _, _, mem_autoclipCopy mem, rfl, rfl⟩

/-- There is nothing to copy, or the source lies on the display and in the window and meets no visible window
    above it. -/
def SourceFits (d : Desktop) (wd : Nat) (sx sy w h : Int) : Prop :=
  let source := sourceBox (d.window wd) sx sy w h
  w ≤ 0 ∨ h ≤ 0 ∨ source.Inside ⟨0, 0, d.display.width, d.display.height⟩ ∧ source.Inside (d.window wd).rect.box ∧
    ∀ v ∈ d.above wd, v.visible = true → ¬ (v.rect.box.Wide ∧ source.Meets v.rect.box)

theorem shown_iff {wd : Nat} {b : Box} (wide : b.Wide) : (∀ x y, b.Has x y → d.Shown wd x y) ↔
    b.Inside ⟨0, 0, d.display.width, d.display.height⟩ ∧ b.Inside (d.window wd).rect.box ∧
      ∀ v ∈ d.above wd, v.visible = true → ¬ (v.rect.box.Wide ∧ b.Meets v.rect.box) := by
  constructor
  · intro shown
    refine ⟨(Box.inside_iff wide).mp fun x y here => ?_, (Box.inside_iff wide).mp fun x y here => ?_, ?_⟩
    · exact (shown x y here).display
    · exact (shown x y here).window
    · intro v mem visible
      exact (Box.apart_iff wide).mp fun x y here => (shown x y here).uncovered v mem visible
  · rintro ⟨display, window, uncovered⟩ x y here
    exact ⟨(Box.inside_iff wide).mpr display x y here, (Box.inside_iff wide).mpr window x y here,
      fun v mem visible => (Box.apart_iff wide).mpr (uncovered v mem visible) x y here⟩

theorem sourceShown_iff (reached : (winCopy d curr wd dx dy sx sy w h).1.1 ≠ []) :
    SourceShown d wd.toNat (winCopy d curr wd dx dy sx sy w h).1 ↔ SourceFits d wd.toNat sx sy w h := by
  rw [SourceFits]
  by_cases wide : 0 < w ∧ 0 < h
  · have width : (if w < 0 then 0 else w) = w := if_neg (by omega)
    have height : (if h < 0 then 0 else h) = h := if_neg (by omega)
    have wide_source : (sourceBox (d.window wd.toNat) sx sy w h).Wide :=
      ⟨by simp only [sourceBox]; omega, by simp only [sourceBox]; omega⟩
    rw [or_iff_right (by omega), or_iff_right (by omega), ← shown_iff wide_source]
    constructor
    · intro shown
      obtain ⟨dr, mem⟩ := exists_mem_of_ne_nil _ reached
      obtain ⟨x0, y0, x1, y1, rfl, rfl, rfl⟩ := winCopy_source mem
      rw [width, height] at mem
      exact shown _ _ _ _ _ _ mem
    · intro shown x0 y0 x1 y1 w' h' mem
      obtain ⟨_, _, _, _, eq, x1_eq, y1_eq⟩ := winCopy_source mem
      cases eq
      rw [width, height, x1_eq, y1_eq]
      exact shown
  · refine iff_of_true (fun x0 y0 x1 y1 w' h' mem x y here => ?_) (by omega)
    obtain ⟨_, _, _, _, eq, -, -⟩ := winCopy_source mem
    cases eq
    obtain ⟨left, right, top, bottom⟩ := here
    dsimp only at left right top bottom
    split at right <;> split at bottom <;> omega

theorem copy_keeps_secrets_iff {d : Desktop} {curr : Nat} {wd dx dy sx sy w h : Int}
    (reached : (winCopy d curr wd dx dy sx sy w h).1.1 ≠ []) :
    (SourceShown d wd.toNat (winCopy d curr wd dx dy sx sy w h).1 ∧
      NoLeak d wd.toNat (winCopy d curr wd dx dy sx sy w h).1) ↔ SourceFits d wd.toNat sx sy w h := by
  rw [← sourceShown_iff reached]
  constructor
  · rintro ⟨source, -⟩
    exact source
  · intro source
    exact ⟨source, noLeak_of_sourceShown source⟩

theorem copy_keeps_secrets_in_window :
    (SourceShown (twoWindows ⟨10, 10, 50, 30⟩ ⟨40, 20, 40, 40⟩ ⟨0, 0, 50, 30⟩) 0
        (winCopy (twoWindows ⟨10, 10, 50, 30⟩ ⟨40, 20, 40, 40⟩ ⟨0, 0, 50, 30⟩) 1 0 0 0 5 5 8 4).1 ∧
      NoLeak (twoWindows ⟨10, 10, 50, 30⟩ ⟨40, 20, 40, 40⟩ ⟨0, 0, 50, 30⟩) 0
        (winCopy (twoWindows ⟨10, 10, 50, 30⟩ ⟨40, 20, 40, 40⟩ ⟨0, 0, 50, 30⟩) 1 0 0 0 5 5 8 4).1) ↔
    SourceFits (twoWindows ⟨10, 10, 50, 30⟩ ⟨40, 20, 40, 40⟩ ⟨0, 0, 50, 30⟩) 0 5 5 8 4 :=
  @copy_keeps_secrets_iff _ 1 0 _ _ _ _ _ _ (cons_ne_nil _ _)

/-- The copy of a part of the window that is covered shows what covers it. -/
theorem copy_shows_other_window :
    ¬ SourceShown (twoWindows ⟨10, 10, 50, 30⟩ ⟨40, 20, 40, 40⟩ ⟨0, 0, 50, 30⟩) 0
        (winCopy (twoWindows ⟨10, 10, 50, 30⟩ ⟨40, 20, 40, 40⟩ ⟨0, 0, 50, 30⟩) 1 0 0 0 35 15 8 4).1 ∧
      ¬ NoLeak (twoWindows ⟨10, 10, 50, 30⟩ ⟨40, 20, 40, 40⟩ ⟨0, 0, 50, 30⟩) 0
        (winCopy (twoWindows ⟨10, 10, 50, 30⟩ ⟨40, 20, 40, 40⟩ ⟨0, 0, 50, 30⟩) 1 0 0 0 35 15 8 4).1 := by
  have covered : ∀ x y, (twoWindows ⟨10, 10, 50, 30⟩ ⟨40, 20, 40, 40⟩ ⟨0, 0, 50, 30⟩).Shown 0 x y →
      ¬ (x = 45 ∧ y = 25) := by
    rintro x y shown ⟨rfl, rfl⟩
    exact shown.uncovered _ (mem_cons_self ..) rfl (by decide)
  have target : (twoWindows ⟨10, 10, 50, 30⟩ ⟨40, 20, 40, 40⟩ ⟨0, 0, 50, 30⟩).Shown 0 10 10 :=
    ⟨by decide, by decide, by decide⟩
  constructor
  · intro source
    exact covered 45 25 (source 10 10 45 25 8 4 (mem_cons_self ..) 45 25 (by decide)) ⟨rfl, rfl⟩
  · intro quiet
    have same := quiet (fun _ _ => 0) (fun x y => if x = 45 ∧ y = 25 then 1 else 0)
      (fun x y shown => (if_neg (covered x y shown)).symm) 10 10 target
    exact absurd same (by decide)

end Wingui
