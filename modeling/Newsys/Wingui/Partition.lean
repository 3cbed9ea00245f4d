import Newsys.Wingui.Confine

/- Clipping takes the visible area apart (win_autoclip_iterate in kern/wingui/paint.c): every pixel of it is in one piece,
   unless the far edge of a window overflows. -/
namespace Wingui
open Boxes List

/-- The numbers of a rectangle are numbers of an `int`, and its size is not negative. -/
structure Rect.Ints (r : Rect) : Prop where
  x : IsInt r.x
  y : IsInt r.y
  w : 0 ≤ r.w ∧ r.w < 2 ^ 31
  h : 0 ≤ r.h ∧ r.h < 2 ^ 31

/-- The primitive runs for some pieces in turn, with the rest of the request as it is, until it fails; no two pieces have
    a pixel in common, and together they are the clip without the visible windows. -/
def Partitioned (ws : List Window) (clip : Box) : Prop :=
  ∃ cs : List Box, (∀ proc rq, rq.clip = clip → winAutoclipIterate proc ws rq = runPieces proc rq cs) ∧
    cs.Pairwise Box.Apart ∧
    ∀ x y, (∃ c ∈ cs, c.Has x y) ↔ clip.Has x y ∧ ∀ w ∈ ws, w.visible = true → ¬ w.rect.box.Has x y

/- The pieces can be told from what the iteration does. -/

def showClip (rq : Request) : Paint := ([.copy rq.clip.x0 rq.clip.y0 rq.clip.x1 rq.clip.y1 0 0], none)

theorem runPieces_showClip (rq : Request) (cs : List Box) :
    runPieces showClip rq cs = (cs.map fun c => .copy c.x0 c.y0 c.x1 c.y1 0 0, none) := by
  induction cs with
  | nil => rfl
  | cons c cs ih =>
    rw [runPieces, ih]
    rfl

theorem showClip_inj (rq : Request) (same : runPieces showClip rq cs = runPieces showClip rq cs') :
    cs = cs' := by
  rw [runPieces_showClip, runPieces_showClip] at same
  refine (map_inj_right fun c c' eq => ?_).mp (congrArg Prod.fst same)
  cases c
  cases eq
  rfl

def clipOnly (clip : Box) : Request :=
  ⟨clip, 0, 0, fun _ => 0, [], 0, ⟨0, 0, 0, 0⟩, ⟨fun _ => ⟨0, 0, 0⟩, Bytes.zero, 0⟩, ⟨0, 0, 0, false⟩, 0, 0⟩

theorem partitioned_iff (ws : List Window) (clip : Box) : Partitioned ws clip ↔
    (Box.cut (boxes Rect.seen ws) clip).Pairwise Box.Apart ∧
    ∀ x y, clip.Has x y → ((∀ w ∈ ws, w.visible = true → ¬ w.rect.seen.Has x y) ↔
      ∀ w ∈ ws, w.visible = true → ¬ w.rect.box.Has x y) := by
  have seen : ∀ x y, (∀ o ∈ boxes Rect.seen ws, ¬ o.Has x y) ↔ ∀ w ∈ ws, w.visible = true → ¬ w.rect.seen.Has x y := by
    intro x y
    constructor
    · exact fun out w mem visible => out _ (mem_boxes.mpr ⟨w, mem, visible, rfl⟩)
    · intro out o mem
      obtain ⟨w, here, visible, rfl⟩ := mem_boxes.mp mem
      exact out w here visible
  constructor
  · rintro ⟨cs, calls, apart, union⟩
    have shown := calls showClip (clipOnly clip) rfl
    rw [iterate_cut] at shown
    have eq : Box.cut (boxes Rect.seen ws) clip = cs := showClip_inj _ shown
    rw [eq]
    refine ⟨apart, fun x y here => ?_⟩
    have points := (Box.has_cut (x := x) (y := y) (boxes Rect.seen ws) clip).symm
    rw [eq, union x y, seen x y, and_congr_right_iff] at points
    exact points here
  · rintro ⟨apart, union⟩
    refine ⟨_, fun proc rq eq => ?_, apart, fun x y => ?_⟩
    · rw [iterate_cut, eq]
    · rw [Box.has_cut, seen x y, and_congr_right_iff]
      exact union x y

/- Edges that overflow -/

theorem Rect.seen_neg {r : Rect} (ints : r.Ints) (beyond : ¬ r.Fits) : r.seen.x1 < 0 ∨ r.seen.y1 < 0 := by
  obtain ⟨⟨lowX, highX⟩, ⟨lowY, highY⟩, ⟨leastW, mostW⟩, leastH, mostH⟩ := ints
  simp only [Rect.Fits, IsInt] at beyond
  simp only [Rect.seen, i32]
  omega

theorem Rect.box_straight {r : Rect} (ints : r.Ints) : r.box.Straight := by
  obtain ⟨_, _, ⟨leastW, _⟩, leastH, _⟩ := ints
  simp only [Box.Straight, Rect.box]
  omega

/-- The iteration takes the visible area apart if and only if every pixel of the clip that is in a visible window is in one
    whose edges do not overflow. The clip does not begin left of the display or above it, which `win_autoclip` sees to,
    or else no edge overflows. -/
theorem clip_partition_iff {ws : List Window} {clip : Box} (ints : ∀ w ∈ ws, w.visible = true → w.rect.Ints)
    (corner : (0 ≤ clip.x0 ∧ 0 ≤ clip.y0) ∨ ∀ w ∈ ws, w.visible = true → w.rect.Fits) :
    Partitioned ws clip ↔ ∀ x y, clip.Has x y → (∃ w ∈ ws, w.visible = true ∧ w.rect.box.Has x y) →
      ∃ w ∈ ws, w.visible = true ∧ w.rect.Fits ∧ w.rect.box.Has x y := by
  have order : ∀ o ∈ boxes Rect.seen ws, o.Straight ∨ o.x1 ≤ clip.x0 ∨ o.y1 ≤ clip.y0 := by
    intro o mem
    obtain ⟨w, here, visible, rfl⟩ := mem_boxes.mp mem
    by_cases fits : w.rect.Fits
    · rw [Rect.seen_eq fits]
      exact .inl (Rect.box_straight (ints w here visible))
    · rcases corner with ⟨left, top⟩ | all
      · have neg := Rect.seen_neg (ints w here visible) fits
        omega
      · exact absurd (all w here visible) fits
  have seen : ∀ {x y w}, clip.Has x y → w ∈ ws → w.visible = true →
      (w.rect.seen.Has x y ↔ w.rect.Fits ∧ w.rect.box.Has x y) := by
    intro x y w here mem visible
    by_cases fits : w.rect.Fits
    · rw [Rect.seen_eq fits]
      exact ⟨fun there => ⟨fits, there⟩, And.right⟩
    · refine ⟨fun there => ?_, fun there => absurd there.1 fits⟩
      rcases corner with ⟨left, top⟩ | all
      · obtain ⟨clip0, _, clip1, _⟩ := here
        obtain ⟨_, right, _, bottom⟩ := there
        have neg := Rect.seen_neg (ints w mem visible) fits
        omega
      · exact absurd (all w mem visible) fits
  rw [partitioned_iff, and_iff_right (Box.pairwise_cut _ _ order)]
  refine forall_congr' fun x => forall_congr' fun y => imp_congr_right fun here => ?_
  constructor
  · rintro same ⟨w, mem, visible, there⟩
    by_contra none
    refine same.mp (fun w' mem' visible' there' => none ?_) w mem visible there
    obtain ⟨fits, in_box⟩ := (seen here mem' visible').mp there'
    exact ⟨w', mem', visible', fits, in_box⟩
  · intro fitting
    constructor
    · intro out w mem visible there
      obtain ⟨w', mem', visible', fits, there'⟩ := fitting ⟨w, mem, visible, there⟩
      exact out w' mem' visible' ((seen here mem' visible').mpr ⟨fits, there'⟩)
    · intro out w mem visible there
      exact out w mem visible ((seen here mem visible).mp there).2

def overlapping : List Window :=
  [⟨some 1, 0, 0, -1, true, ⟨0, 0, 0, 0⟩, ⟨10, 10, 50, 30⟩⟩, ⟨some 2, 0, 0, -1, true, ⟨0, 0, 0, 0⟩, ⟨-5, 20, 30, 100⟩⟩]

theorem clip_partition_iff_overlapping : Partitioned overlapping ⟨0, 0, 40, 60⟩ ↔
    ∀ x y, Box.Has ⟨0, 0, 40, 60⟩ x y → (∃ w ∈ overlapping, w.visible = true ∧ w.rect.box.Has x y) →
      ∃ w ∈ overlapping, w.visible = true ∧ w.rect.Fits ∧ w.rect.box.Has x y := by
  refine clip_partition_iff (fun w mem _ => ?_) (.inl (by decide))
  rcases mem_cons.mp mem with rfl | mem
  · exact ⟨by decide, by decide, by decide, by decide⟩
  · rw [mem_singleton.mp mem]
    exact ⟨by decide, by decide, by decide, by decide⟩

/-- A window that reaches beyond the largest number is not there: what is under it is painted. -/
theorem clip_not_partitioned :
    ¬ Partitioned [⟨some 1, 0, 0, -1, true, ⟨0, 0, 0, 0⟩, ⟨10, 10, 2147483647, 30⟩⟩] ⟨0, 0, 640, 480⟩ := by
  rw [partitioned_iff]
  rintro ⟨_, same⟩
  have out := (same 20 20 (by decide)).mp (fun w mem _ => by
    rw [mem_singleton.mp mem]
    decide)
  exact absurd (out _ (mem_singleton_self _) rfl) (by decide)

end Wingui
