import Newsys.Wingui.Paint

/- Drawing stays in its window: what is written lies on the display, in the window and not under another
   window, as long as no sum of coordinates overflows and no glyph is taken to fit into a clip whose far edge
   is negative. -/
namespace Wingui
open Boxes Bytes List

/- Numbers that fit -/

def IsInt (n : Int) : Prop := -2 ^ 31 ≤ n ∧ n < 2 ^ 31

instance (n : Int) : Decidable (IsInt n) := inferInstanceAs (Decidable (_ ∧ _))

theorem i32_eq (fits : IsInt n) : i32 n = n := by
  obtain ⟨low, high⟩ := fits
  simp only [i32]
  omega

def Rect.box (r : Rect) : Box := ⟨r.x, r.y, r.x + r.w, r.y + r.h⟩

def Draw.Writes (x y : Int) : Draw → Prop
  | .putpix x' y' _ => x = x' ∧ y = y'
  | .hline x' y' len _ => x' ≤ x ∧ x < x' + len ∧ y = y'
  | .vline x' y' len _ => x = x' ∧ y' ≤ y ∧ y < y' + len
  | .rect x' y' w h _ => x' ≤ x ∧ x < x' + w ∧ y' ≤ y ∧ y < y' + h
  | .copy x' y' _ _ w h => x' ≤ x ∧ x < x' + w ∧ y' ≤ y ∧ y < y' + h
  | .bmpHline x' y' w _ _ _ _ => x' ≤ x ∧ x < x' + w ∧ y = y'

/-- The pixel is on the display, in window `wd`, and no visible window above has it. -/
structure Desktop.Shown (d : Desktop) (wd : Nat) (x y : Int) : Prop where
  display : 0 ≤ x ∧ x < d.display.width ∧ 0 ≤ y ∧ y < d.display.height
  window : (d.window wd).rect.box.Has x y
  uncovered : ∀ w ∈ d.above wd, w.visible = true → ¬ w.rect.box.Has x y

/-- Everything that is drawn is shown in window `wd`. -/
def Confined (d : Desktop) (wd : Nat) (p : Paint) : Prop :=
  ∀ dr ∈ p.1, ∀ x y, dr.Writes x y → d.Shown wd x y

/- The pieces of a clip -/

def pieces : List Window → Box → List Box
  | [], c => [c]
  | w :: ws, c =>
    if w.visible = true ∧ c.Meets w.rect.box then (c.around w.rect.box).flatMap (pieces ws) else pieces ws c

def Rect.Fits (r : Rect) : Prop := IsInt (r.x + r.w) ∧ IsInt (r.y + r.h)

instance (r : Rect) : Decidable r.Fits := inferInstanceAs (Decidable (_ ∧ _))

def runPieces (proc : Request → Paint) (rq : Request) : List Box → Paint
  | [] => ([], none)
  | c :: cs => Paint.andThen (proc { rq with clip := c }) (runPieces proc rq cs)

theorem andThen_none (p : Paint) : Paint.andThen p ([], none) = p := by
  obtain ⟨draws, _ | e⟩ := p
  · simp only [Paint.andThen, append_nil]
  · rfl

theorem andThen_assoc (p q r : Paint) : (p.andThen q).andThen r = p.andThen (q.andThen r) := by
  obtain ⟨draws, _ | e⟩ := p
  · obtain ⟨draws', _ | e⟩ := q
    · simp only [Paint.andThen, append_assoc]
    · rfl
  · rfl

theorem runPieces_clip (proc : Request → Paint) (rq : Request) (c : Box) (cs : List Box) :
    runPieces proc { rq with clip := c } cs = runPieces proc rq cs := by
  induction cs with
  | nil => rfl
  | cons c' cs ih => rw [runPieces, runPieces, ih]

theorem runPieces_append (proc : Request → Paint) (rq : Request) (cs cs' : List Box) :
    runPieces proc rq (cs ++ cs') = (runPieces proc rq cs).andThen (runPieces proc rq cs') := by
  induction cs with
  | nil => rfl
  | cons c cs ih => rw [cons_append, runPieces, runPieces, ih, andThen_assoc]

def boxes (box : Rect → Box) (ws : List Window) : List Box := (ws.filter Window.visible).map fun w => box w.rect

theorem mem_boxes : o ∈ boxes box ws ↔ ∃ w ∈ ws, w.visible = true ∧ box w.rect = o := by
  simp only [boxes, mem_map, mem_filter, and_assoc]

theorem boxes_visible (visible : w.visible = true) (box : Rect → Box) (ws : List Window) :
    boxes box (w :: ws) = box w.rect :: boxes box ws := by
  rw [boxes, filter_cons_of_pos visible, map_cons, boxes]

theorem boxes_hidden (hidden : w.visible = false) (box : Rect → Box) (ws : List Window) :
    boxes box (w :: ws) = boxes box ws := by
  have not : ¬ w.visible = true := by
    rw [hidden]
    exact Bool.false_ne_true
  rw [boxes, filter_cons_of_neg not, boxes]

theorem pieces_eq_cut (ws : List Window) : ∀ c : Box, pieces ws c = Box.cut (boxes Rect.box ws) c := by
  induction ws with
  | nil => exact fun _ => rfl
  | cons w ws ih =>
    intro c
    rw [pieces, funext ih]
    cases visible : w.visible with
    | false => rw [boxes_hidden visible, if_neg fun cut => Bool.false_ne_true cut.1]
    | true =>
      rw [boxes_visible visible, Box.cut]
      by_cases meets : c.Meets w.rect.box
      · rw [if_pos ⟨rfl, meets⟩, if_pos meets]
      · rw [if_neg fun cut => meets cut.2, if_neg meets]

def Rect.seen (r : Rect) : Box := ⟨r.x, r.y, i32 (r.x + r.w), i32 (r.y + r.h)⟩

theorem Rect.seen_eq {r : Rect} (fits : r.Fits) : r.seen = r.box := by
  rw [Rect.seen, Rect.box, i32_eq fits.1, i32_eq fits.2]

theorem iterate_cut (proc : Request → Paint) (ws : List Window) :
    ∀ rq, winAutoclipIterate proc ws rq = runPieces proc rq (Box.cut (boxes Rect.seen ws) rq.clip) := by
  induction ws with
  | nil =>
    intro rq
    rw [boxes, filter_nil, map_nil, Box.cut, runPieces, runPieces, andThen_none]
    rfl
  | cons w ws ih =>
    intro rq
    rw [winAutoclipIterate]
    cases visible : w.visible with
    | false => rw [boxes_hidden visible, Bool.not_false, if_pos rfl, ih]
    | true =>
      rw [boxes_visible visible, Box.cut, Bool.not_true, if_neg Bool.false_ne_true]
      by_cases meets : rq.clip.Meets w.rect.seen
      · obtain ⟨mx0, my0, mx1, my1⟩ := meets
        simp only [Rect.seen] at mx0 my0 mx1 my1
        rw [if_neg (by omega), if_neg (by omega), if_neg (by omega), if_neg (by omega),
          if_pos (show rq.clip.Meets w.rect.seen from ⟨mx0, my0, mx1, my1⟩)]
        have part : ∀ (p : Prop) [Decidable p] (b : Box),
            runPieces proc rq ((if p then [b] else []).flatMap (Box.cut (boxes Rect.seen ws))) =
              if p then runPieces proc rq (Box.cut (boxes Rect.seen ws) b) else ([], none) := by
          intro p _ b
          by_cases h : p
          · rw [if_pos h, if_pos h, flatMap_singleton]
          · rw [if_neg h, if_neg h]
            rfl
        have top : (if rq.clip.y0 < w.rect.y then w.rect.y else rq.clip.y0) = max rq.clip.y0 w.rect.y := by
          split <;> omega
        have bottom : (if rq.clip.y1 > i32 (w.rect.y + w.rect.h) then i32 (w.rect.y + w.rect.h) else rq.clip.y1) =
            min rq.clip.y1 (i32 (w.rect.y + w.rect.h)) := by
          split <;> omega
        rw [Box.around, flatMap_append, flatMap_append, flatMap_append, runPieces_append, runPieces_append,
          runPieces_append, part, part, part, part, andThen_assoc, andThen_assoc, top, bottom]
        simp only [ih, runPieces_clip]
        rfl
      · rw [if_neg meets]
        simp only [Box.Meets, Rect.seen] at meets
        simp only [ih]
        split
        · rfl
        split
        · rfl
        split
        · rfl
        split
        · rfl
        · omega

theorem iterate_eq (proc : Request → Paint) (ws : List Window) (fits : ∀ w ∈ ws, w.visible = true → w.rect.Fits)
    (rq : Request) : winAutoclipIterate proc ws rq = runPieces proc rq (pieces ws rq.clip) := by
  have same : boxes Rect.seen ws = boxes Rect.box ws := by
    refine map_congr_left fun w mem => ?_
    obtain ⟨mem, visible⟩ := mem_filter.mp mem
    exact Rect.seen_eq (fits w mem visible)
  rw [iterate_cut, same, pieces_eq_cut]

variable {x y : Int}

theorem has_pieces (ws : List Window) (c : Box) : (∃ p ∈ pieces ws c, p.Has x y) ↔
    c.Has x y ∧ ∀ w ∈ ws, w.visible = true → ¬ w.rect.box.Has x y := by
  rw [pieces_eq_cut, Box.has_cut]
  refine and_congr_right fun _ => ⟨fun out w mem visible => out _ (mem_boxes.mpr ⟨w, mem, visible, rfl⟩),
    fun out o mem => ?_⟩
  obtain ⟨w, here, visible, rfl⟩ := mem_boxes.mp mem
  exact out w here visible

variable {c : Box}

theorem piece_of_pieces (ws : List Window) (nonneg : 0 ≤ c.x0 ∧ 0 ≤ c.y0) (mem : p ∈ pieces ws c) :
    c.Piece p := by
  rw [pieces_eq_cut] at mem
  exact Box.piece_of_cut _ nonneg mem

variable {rq : Request}

theorem mem_runPieces (mem : dr ∈ (runPieces proc rq cs).1) : ∃ c ∈ cs, dr ∈ (proc { rq with clip := c }).1 := by
  induction cs with
  | nil => exact absurd mem not_mem_nil
  | cons c cs ih =>
    rw [runPieces, Paint.andThen] at mem
    split at mem
    · rcases mem_append.mp mem with here | later
      · exact ⟨c, mem_cons_self .., here⟩
      · obtain ⟨c', mem', here⟩ := ih later
        exact ⟨c', mem_cons_of_mem _ mem', here⟩
    · exact ⟨c, mem_cons_self .., mem⟩

/- The primitives draw in the clip of their request -/

def Within (c : Box) (draws : List Draw) : Prop := ∀ dr ∈ draws, ∀ x y, dr.Writes x y → c.Has x y

theorem within_nil (c : Box) : Within c [] := fun _ mem => absurd mem not_mem_nil

theorem within_singleton (here : ∀ x y, dr.Writes x y → c.Has x y) : Within c [dr] := by
  intro dr' mem
  rwa [mem_singleton.mp mem]

theorem within_flatMap {α : Type} {l : List α} {f : α → List Draw} (each : ∀ a ∈ l, Within c (f a)) :
    Within c (l.flatMap f) := by
  intro dr mem
  obtain ⟨a, mem_a, mem⟩ := mem_flatMap.mp mem
  exact each a mem_a dr mem

theorem within_append (first : Within c l) (second : Within c l') : Within c (l ++ l') := by
  intro dr mem
  rcases mem_append.mp mem with mem | mem
  · exact first dr mem
  · exact second dr mem

theorem within_unless {p : Prop} [Decidable p]
    (draws : ¬ p → Within c q.1) : Within c (if p then (([], e) : Paint) else q).1 := by
  split
  · exact within_nil c
  · exact draws ‹_›

theorem le_raised (c x : Int) : c ≤ if c > x then c else x := by
  split <;> omega

theorem lowered_le (c x : Int) : (if c < x then c else x) ≤ c := by
  split <;> omega

theorem within_pixel (rq : Request) : Within rq.clip (winAutoclipPixel rq).1 := by
  refine within_unless fun _ => within_unless fun _ => within_unless fun _ => within_unless fun _ => ?_
  refine within_singleton ?_
  rintro x y ⟨rfl, rfl⟩
  exact ⟨by omega, by omega, by omega, by omega⟩

theorem within_hline (rq : Request) : Within rq.clip (winAutoclipHline rq).1 := by
  refine within_unless fun _ => within_unless fun _ => within_unless fun _ => within_singleton ?_
  rintro x y ⟨low, high, rfl⟩
  have left := le_raised rq.clip.x0 rq.rect.x
  have right := lowered_le rq.clip.x1 (i32 (rq.rect.x + rq.rect.w))
  exact ⟨by omega, by omega, by omega, by omega⟩

theorem within_vline (rq : Request) : Within rq.clip (winAutoclipVline rq).1 := by
  refine within_unless fun _ => within_unless fun _ => within_unless fun _ => within_singleton ?_
  rintro x y ⟨rfl, low, high⟩
  have top := le_raised rq.clip.y0 rq.rect.y
  have bottom := lowered_le rq.clip.y1 (i32 (rq.rect.y + rq.rect.h))
  exact ⟨by omega, by omega, by omega, by omega⟩

theorem within_rect (rq : Request) : Within rq.clip (winAutoclipRect rq).1 := by
  refine within_unless fun _ => within_singleton ?_
  rintro x y ⟨lowX, highX, lowY, highY⟩
  have left := le_raised rq.clip.x0 rq.rect.x
  have right := lowered_le rq.clip.x1 (i32 (rq.rect.x + rq.rect.w))
  have top := le_raised rq.clip.y0 rq.rect.y
  have bottom := lowered_le rq.clip.y1 (i32 (rq.rect.y + rq.rect.h))
  exact ⟨by omega, by omega, by omega, by omega⟩

theorem within_copy (nonneg : 0 ≤ rq.clip.x0 ∧ 0 ≤ rq.clip.y0) (fits : rq.rect.x < 2 ^ 31 ∧ rq.rect.y < 2 ^ 31)
    (size : 0 ≤ rq.rect.w ∧ rq.rect.w < 2 ^ 31 ∧ 0 ≤ rq.rect.h ∧ rq.rect.h < 2 ^ 31) :
    Within rq.clip (winAutoclipCopy rq).1 := by
  refine within_unless fun _ => within_unless fun _ => within_unless fun _ => within_unless fun _ => ?_
  refine within_unless fun _ => within_singleton ?_
  rintro x y ⟨lowX, highX, lowY, highY⟩
  simp only [i32] at *
  exact ⟨by omega, by omega, by omega, by omega⟩

theorem within_skip (here : c.Has x y → Within c draws) :
    Within c (if x < c.x0 then [] else if y < c.y0 then [] else if x ≥ c.x1 then [] else if y ≥ c.y1 then [] else draws) := by
  split
  · exact within_nil _
  split
  · exact within_nil _
  split
  · exact within_nil _
  split
  · exact within_nil _
  · exact here ⟨by omega, by omega, by omega, by omega⟩

theorem within_putpix (here : c.Has x y) : Within c [.putpix x y colour] := by
  refine within_singleton ?_
  rintro x' y' ⟨rfl, rfl⟩
  exact here

theorem within_glyph (rq : Request) (x0 y0 : Int) (gl : Glyph) : Within rq.clip (winAutoclipGlyph rq x0 y0 gl) := by
  refine within_flatMap fun y _ => within_flatMap fun x _ => within_skip fun here => ?_
  split
  · exact within_putpix here
  · exact within_nil _

theorem within_bmpLoop (data : Mem) (bg fg : Nat) (y : Int) : ∀ (w : Nat) (x : Int) (p : Nat) (b : Byte)
    (nb : Nat), 0 ≤ x → x + w < 2 ^ 31 → (∀ k : Nat, k < w → c.Has (x + k) y) →
    Within c (bmpLoop data bg fg y w x p b nb) := by
  intro w
  induction w with
  | zero => exact fun _ _ _ _ _ _ _ => within_nil c
  | succ w ih =>
    intro x p b nb nonneg fits here
    have step : i32 (x + 1) = x + 1 := i32_eq ⟨by omega, by push_cast at fits; omega⟩
    have rest : ∀ p b nb, Within c (bmpLoop data bg fg y w (x + 1) p b nb) := by
      intro p b nb
      refine ih (x + 1) p b nb (by omega) (by push_cast at fits; omega) fun k lt => ?_
      have := here (k + 1) (by omega)
      rwa [show x + ((k + 1 : Nat) : Int) = x + 1 + k by push_cast; omega] at this
    have first : c.Has x y := by simpa using here 0 (by omega)
    rw [bmpLoop, step, ← singleton_append]
    refine within_append (within_putpix first) ?_
    split
    · exact rest _ _ _
    · exact rest _ _ _

def Ends (clip : Box) (x0 y0 : Int) (gl : Glyph) : Prop := x0 + gl.width ≤ clip.x1 ∧ y0 + gl.height ≤ clip.y1

instance (clip : Box) (x0 y0 : Int) (gl : Glyph) : Decidable (Ends clip x0 y0 gl) :=
  inferInstanceAs (Decidable (_ ∧ _))

variable {x0 y0 : Int} {gl : Glyph}

theorem within_bglyphFast (nonneg : 0 ≤ rq.clip.x0 ∧ 0 ≤ rq.clip.y0)
    (small : rq.clip.x1 < 2 ^ 31 ∧ rq.clip.y1 < 2 ^ 31) (starts : rq.clip.x0 ≤ x0 ∧ rq.clip.y0 ≤ y0)
    (ends : Ends rq.clip x0 y0 gl) : Within rq.clip (winAutoclipBglyphFast rq x0 y0 gl) := by
  obtain ⟨endX, endY⟩ := ends
  refine within_flatMap fun y mem => ?_
  have y_lt := mem_range.mp mem
  have row : i32 (y0 + y) = y0 + y := i32_eq ⟨by omega, by omega⟩
  rw [winBmpHline, row]
  split
  · refine within_singleton ?_
    rintro x' y' ⟨low, high, rfl⟩
    exact ⟨by omega, by omega, by omega, by omega⟩
  · exact within_bmpLoop _ _ _ _ _ _ _ _ _ (by omega) (by omega) fun k lt => ⟨by omega, by omega, by omega, by omega⟩

theorem within_bglyph (nonneg : 0 ≤ rq.clip.x0 ∧ 0 ≤ rq.clip.y0)
    (small : rq.clip.x1 < 2 ^ 31 ∧ rq.clip.y1 < 2 ^ 31) (ends : FitsClip rq.clip x0 y0 gl → Ends rq.clip x0 y0 gl) :
    Within rq.clip (winAutoclipBglyph rq x0 y0 gl) := by
  rw [winAutoclipBglyph]
  split
  · rename_i fits
    exact within_bglyphFast nonneg small ⟨fits.1, fits.2.1⟩ (ends fits)
  · refine within_flatMap fun y _ => within_flatMap fun x _ => within_skip fun here => ?_
    split
    · exact within_putpix here
    · exact within_putpix here

theorem ends_of_piece (piece : c.Piece p) (nonneg : 0 ≤ c.x0 ∧ 0 ≤ c.y0)
    (small : c.x1 < 2 ^ 31 ∧ c.y1 < 2 ^ 31) (ends : FitsClip c x0 y0 gl → Ends c x0 y0 gl)
    (fits : FitsClip p x0 y0 gl) : Ends p x0 y0 gl := by
  obtain ⟨px0, py0, px1, py1⟩ := piece
  obtain ⟨startX, startY, endX, endY⟩ := fits
  have whole : FitsClip c x0 y0 gl := by
    simp only [u32] at endX endY
    refine ⟨by omega, by omega, ?_, ?_⟩ <;> simp only [u32] <;> omega
  obtain ⟨cx1, cy1⟩ := ends whole
  simp only [u32] at endX endY
  exact ⟨by omega, by omega⟩

def layout (font : Font) (left : Int) : Int → Int → List Byte → List (Int × Int × Glyph)
  | _, _, [] => []
  | x, y, p :: ps =>
    if p = 10 then layout font left left (i32 (y + (font.glyph 0).height)) ps
    else if p = 13 then layout font left x y ps
    else (x, y, font.glyph p) :: layout font left (i32 (x + (font.glyph p).width)) y ps

theorem textLoop_eq (rq : Request) (glyph : Int → Int → Glyph → List Draw) (ps : List Byte) : ∀ x y,
    textLoop rq glyph x y ps = (layout rq.font rq.rect.x x y ps).flatMap fun g => glyph g.1 g.2.1 g.2.2 := by
  induction ps with
  | nil => exact fun _ _ => rfl
  | cons p ps ih =>
    intro x y
    simp only [textLoop, layout, ih]
    split
    · rfl
    split
    · rfl
    · rw [flatMap_cons]

theorem within_bitmap (rq : Request) : Within rq.clip (winAutoclipBitmap rq).1 := by
  refine within_flatMap fun r _ => within_flatMap fun c _ => ?_
  dsimp only
  split
  · rename_i inside
    obtain ⟨left, right, top, bottom, -⟩ := inside
    exact within_putpix ⟨left, right, top, bottom⟩
  · exact within_nil _

/- The clip of a window -/

/-- On one side of a window at `pos` that is `limit` wide, no sum overflows for a clip of `len` from `at'` on. -/
structure SideFits (at' len pos limit : Int) : Prop where
  start : IsInt at'
  size : IsInt len
  place : IsInt pos
  cut : at' < 0 → IsInt (len + at')
  far : IsInt (max at' 0 + len)
  rest : max at' 0 + len > limit → IsInt (limit - max at' 0)
  near : IsInt (max at' 0 + pos)
  edge : IsInt (pos + limit)

theorem clipSide_fits (fits : SideFits at' len pos limit) : let s := clipSide at' len limit
    i32 (s.1 + pos) = s.1 + pos ∧ i32 (i32 (s.1 + s.2) + pos) = s.1 + s.2 + pos ∧ 0 ≤ s.1 ∧
      (s.1 + s.2 ≤ limit ∨ s.2 ≤ 0) := by
  obtain ⟨start, size, place, cut, far, rest, near, edge⟩ := fits
  have pos_eq : (if at' < 0 then (0 : Int) else at') = max at' 0 := by split <;> omega
  simp only [clipSide, pos_eq, i32_eq far]
  obtain ⟨l, l_eq, cases⟩ : ∃ l, (if (if at' < 0 then i32 (len + at') else len) < 0 then 0
      else if at' < 0 then i32 (len + at') else len) = l ∧
      0 ≤ l ∧ (l = 0 ∨ l ≤ len ∧ (at' < 0 ∧ l = len + at' ∨ 0 ≤ at' ∧ l = len)) := by
    refine ⟨_, rfl, ?_⟩
    by_cases neg : at' < 0
    · rw [if_pos neg, i32_eq (cut neg)]
      split <;> omega
    · rw [if_neg neg]
      split <;> omega
  rw [l_eq]
  simp only [IsInt] at *
  split
  · rename_i wide
    have rest := rest wide
    rw [i32_eq (n := limit - max at' 0) rest, i32_eq (n := max at' 0 + pos) near]
    rw [i32_eq (n := max at' 0 + (limit - max at' 0)) ⟨by omega, by omega⟩,
      i32_eq ⟨by omega, by omega⟩]
    exact ⟨rfl, rfl, by omega, by omega⟩
  · rw [i32_eq (n := max at' 0 + pos) near]
    rw [i32_eq (n := max at' 0 + l) ⟨by omega, by omega⟩, i32_eq ⟨by omega, by omega⟩]
    exact ⟨rfl, rfl, by omega, by omega⟩

/-- The clip of window `wd` is the one that `win_clip` sets for these arguments. -/
def Desktop.ClipFrom (d : Desktop) (wd : Nat) (x y w h : Int) : Prop :=
  (d.window wd).clip = ⟨(clipSide x w (d.window wd).rect.w).1, (clipSide y h (d.window wd).rect.h).1,
    (clipSide x w (d.window wd).rect.w).2, (clipSide y h (d.window wd).rect.h).2⟩

/-- No sum of the coordinates of window `wd`, of its clip and of the windows above overflows. -/
structure Desktop.Fits (d : Desktop) (wd : Nat) (x y w h : Int) : Prop where
  across : SideFits x w (d.window wd).rect.x (d.window wd).rect.w
  down : SideFits y h (d.window wd).rect.y (d.window wd).rect.h
  above : ∀ w ∈ d.above wd, w.visible = true → w.rect.Fits

theorem i32_lt (n : Int) : i32 n < 2 ^ 31 := by
  simp only [i32]
  omega

theorem clipOnDisplay_edges (d : Desktop) (w : Window) : (0 ≤ (clipOnDisplay d w).x0 ∧ 0 ≤ (clipOnDisplay d w).y0) ∧
    (clipOnDisplay d w).x1 < 2 ^ 31 ∧ (clipOnDisplay d w).y1 < 2 ^ 31 := by
  have farX := i32_lt (i32 (w.clip.x + w.clip.w) + w.rect.x)
  have farY := i32_lt (i32 (w.clip.y + w.clip.h) + w.rect.y)
  simp only [clipOnDisplay]
  refine ⟨⟨?_, ?_⟩, ?_, ?_⟩ <;> split <;> omega

theorem has_clipOnDisplay (set : d.ClipFrom wd x y w h)
    (fits : d.Fits wd x y w h) (here : (clipOnDisplay d (d.window wd)).Has px py) :
    (0 ≤ px ∧ px < d.display.width ∧ 0 ≤ py ∧ py < d.display.height) ∧ (d.window wd).rect.box.Has px py := by
  obtain ⟨nearX, farX, startX, endX⟩ := clipSide_fits fits.across
  obtain ⟨nearY, farY, startY, endY⟩ := clipSide_fits fits.down
  rw [Desktop.ClipFrom] at set
  simp only [clipOnDisplay, set, nearX, nearY, farX, farY] at here
  obtain ⟨left, right, top, bottom⟩ := here
  simp only [Rect.box, Box.Has]
  revert left right top bottom
  dsimp only
  split <;> split <;> split <;> split <;> omega

inductive Call where
  | pixel (c : Nat) (x y : Int)
  | hline (c : Nat) (x y l : Int)
  | vline (c : Nat) (x y l : Int)
  | rect (c : Nat) (x y w h : Int)
  | copy (dx dy sx sy w h : Int)
  | text (c : Nat) (x y : Int) (s : List Byte)
  | btext (bg fg : Nat) (x y : Int) (s : List Byte)
  | chr (c : Nat) (x y : Int) (ch : Byte)
  | bchr (bg fg : Nat) (x y : Int) (ch : Byte)
  | bitmap (bmp : Nat → Nat) (x y w h : Int)

def Call.run (d : Desktop) (curr : Nat) (wd : Int) : Call → Paint
  | .pixel c x y => winPixel d curr wd c x y
  | .hline c x y l => winHline d curr wd c x y l
  | .vline c x y l => winVline d curr wd c x y l
  | .rect c x y w h => winRect d curr wd c x y w h
  | .copy dx dy sx sy w h => (winCopy d curr wd dx dy sx sy w h).1
  | .text c x y s => winText d curr wd c x y s
  | .btext bg fg x y s => winBtext d curr wd bg fg x y s
  | .chr c x y ch => winChr d curr wd c x y ch
  | .bchr bg fg x y ch => winBchr d curr wd bg fg x y ch
  | .bitmap bmp x y w h => winBitmap d curr wd bmp x y w h

def Call.ints : Call → List Int
  | .pixel _ x y | .text _ x y _ | .btext _ _ x y _ | .chr _ x y _ | .bchr _ _ x y _ => [x, y]
  | .hline _ x y l | .vline _ x y l => [x, y, l]
  | .rect _ x y w h | .bitmap _ x y w h => [x, y, w, h]
  | .copy dx dy sx sy w h => [dx, dy, sx, sy, w, h]

def Desktop.fontOf (d : Desktop) (w : Window) : Option Font :=
  d.winFont (if w.font = winFontDefault then defaultFtd else w.font.toNat)

/-- The glyphs that a call draws with their background, each with its place on the display. -/
def Call.glyphs (w : Window) (font : Font) : Call → List (Int × Int × Glyph)
  | .btext _ _ x y s =>
    let x := i32 (i32 (x + w.x0) + w.rect.x)
    layout font x x (i32 (i32 (y + w.y0) + w.rect.y)) s
  | .bchr _ _ x y ch => [(i32 (i32 (x + w.x0) + w.rect.x), i32 (i32 (y + w.y0) + w.rect.y), font.glyph ch)]
  | _ => []

/-- Every glyph that passes the test for one that needs no clipping ends in the clip. -/
def Call.GlyphsEnd (d : Desktop) (wd : Nat) (call : Call) : Prop :=
  ∀ font, d.fontOf (d.window wd) = some font → ∀ g ∈ call.glyphs (d.window wd) font,
    FitsClip (clipOnDisplay d (d.window wd)) g.1 g.2.1 g.2.2 → Ends (clipOnDisplay d (d.window wd)) g.1 g.2.1 g.2.2

theorem confined_of_within (set : d.ClipFrom wd.toNat x y w h) (fits : d.Fits wd.toNat x y w h)
    (within : ∀ font, d.fontOf (d.window wd.toNat) = some font → ∀ c, (clipOnDisplay d (d.window wd.toNat)).Piece c →
      Within c (proc { toDisplay (d.window wd.toNat) rq with font := font, display := d.display, clip := c }).1) :
    Confined d wd.toNat (winAutoclip d curr wd rq proc) := by
  have nothing : ∀ e, Confined d wd.toNat (([], e) : Paint) := fun _ _ mem => absurd mem not_mem_nil
  rw [winAutoclip]
  split
  · exact nothing _
  dsimp only
  split
  · exact nothing _
  split
  · exact nothing _
  rename_i font font_eq
  intro dr mem px py writes
  rw [iterate_eq proc (d.above wd.toNat) fits.above] at mem
  obtain ⟨c, mem_c, mem⟩ := mem_runPieces mem
  have piece := piece_of_pieces _ (clipOnDisplay_edges d (d.window wd.toNat)).1 mem_c
  have in_c : c.Has px py := within font font_eq c piece dr mem px py writes
  obtain ⟨in_clip, uncovered⟩ := (has_pieces _ _).mp ⟨c, mem_c, in_c⟩
  obtain ⟨on_display, in_window⟩ := has_clipOnDisplay set fits in_clip
  exact ⟨on_display, in_window, uncovered⟩

theorem winCopy_draws (d : Desktop) (curr : Nat) (wd dx dy sx sy w h : Int) :
    (winCopy d curr wd dx dy sx sy w h).1.1 = (winAutoclip d curr wd
      { noRequest d with rect := ⟨dx, dy, w, h⟩, srcX := sx, srcY := sy } winAutoclipCopy).1 := by
  simp only [winCopy]
  split
  · rfl
  split
  · rfl
  · rfl

theorem drawing_confined {d : Desktop} {curr : Nat} {wd x y w h : Int} {call : Call}
    (set : d.ClipFrom wd.toNat x y w h) (ints : ∀ n ∈ call.ints, IsInt n)
    (fits : d.Fits wd.toNat x y w h) (glyphs : call.GlyphsEnd d wd.toNat) :
    Confined d wd.toNat (call.run d curr wd) := by
  obtain ⟨nonneg, small⟩ := clipOnDisplay_edges d (d.window wd.toNat)
  have in_piece : ∀ {c : Box}, (clipOnDisplay d (d.window wd.toNat)).Piece c →
      (0 ≤ c.x0 ∧ 0 ≤ c.y0) ∧ c.x1 < 2 ^ 31 ∧ c.y1 < 2 ^ 31 := by
    rintro c ⟨x0, y0, x1, y1⟩
    omega
  cases call with
  | pixel c px py =>
    rw [Call.run, winPixel]
    exact confined_of_within set fits fun _ _ _ _ => within_pixel _
  | hline c px py l =>
    rw [Call.run, winHline]
    exact confined_of_within set fits fun _ _ _ _ => within_hline _
  | vline c px py l =>
    rw [Call.run, winVline]
    exact confined_of_within set fits fun _ _ _ _ => within_vline _
  | rect c px py pw ph =>
    rw [Call.run, winRect]
    exact confined_of_within set fits fun _ _ _ _ => within_rect _
  | copy dx dy sx sy cw ch =>
    have kept : Confined d wd.toNat (winAutoclip d curr wd
        { noRequest d with rect := ⟨dx, dy, cw, ch⟩, srcX := sx, srcY := sy } winAutoclipCopy) := by
      refine confined_of_within set fits fun font _ c piece => within_copy (in_piece piece).1 ⟨i32_lt _, i32_lt _⟩ ?_
      have wide : IsInt cw := ints cw (by simp [Call.ints])
      have high : IsInt ch := ints ch (by simp [Call.ints])
      simp only [IsInt] at wide high
      simp only [toDisplay]
      refine ⟨?_, ?_, ?_, ?_⟩ <;> split <;> omega
    intro dr mem
    rw [Call.run, winCopy_draws] at mem
    exact kept dr mem
  | text c px py s =>
    rw [Call.run, winText]
    refine confined_of_within set fits fun font _ c _ => ?_
    rw [winAutoclipText, textLoop_eq]
    exact within_flatMap fun g _ => within_glyph _ _ _ _
  | btext bg fg px py s =>
    rw [Call.run, winBtext]
    refine confined_of_within set fits fun font font_eq c piece => ?_
    rw [winAutoclipBtext, textLoop_eq]
    refine within_flatMap fun g mem => ?_
    exact within_bglyph (in_piece piece).1 (in_piece piece).2
      (ends_of_piece piece nonneg small (glyphs font font_eq g mem))
  | chr c px py ch =>
    rw [Call.run, winChr]
    refine confined_of_within set fits fun font _ c _ => ?_
    rw [winAutoclipChr]
    exact within_glyph _ _ _ _
  | bchr bg fg px py ch =>
    rw [Call.run, winBchr]
    refine confined_of_within set fits fun font font_eq c piece => ?_
    rw [winAutoclipBchr]
    exact within_bglyph (in_piece piece).1 (in_piece piece).2
      (ends_of_piece piece nonneg small (glyphs font font_eq _ (mem_singleton_self _)))
  | bitmap bmp px py pw ph =>
    rw [Call.run, winBitmap]
    exact confined_of_within set fits fun _ _ _ _ => within_bitmap _

def twoWindows (lower upper clip : Rect) : Desktop where
  display := ⟨640, 480, 0, false⟩
  window
    | 0 => ⟨some 1, 0, 0, -1, true, clip, lower⟩
    | _ => ⟨some 2, 0, 0, -1, true, ⟨0, 0, upper.w, upper.h⟩, upper⟩
  stack := [1, 0]
  winFont _ := some ⟨fun _ => ⟨0, 8, 8⟩, zero, 1⟩

theorem drawing_confined_btext : Confined (twoWindows ⟨10, 10, 50, 30⟩ ⟨40, 20, 40, 40⟩ ⟨0, 0, 50, 30⟩) 0
    ((Call.btext 0 1 20 4 [65, 10, 66]).run (twoWindows ⟨10, 10, 50, 30⟩ ⟨40, 20, 40, 40⟩ ⟨0, 0, 50, 30⟩) 1 0) := by
  refine @drawing_confined _ 1 0 0 0 50 30 _ rfl (by decide) ⟨?_, ?_, by decide⟩ ?_
  · constructor <;> decide
  · constructor <;> decide
  · rintro font ⟨⟩
    decide

/-- A glyph is drawn far outside of a window that has been moved off the left edge of the display; and a clip that
    starts at the largest number wraps around and leaves out nothing to the left of the window. -/
theorem drawing_not_confined :
    ((twoWindows ⟨-100, 10, 50, 30⟩ ⟨0, 400, 5, 5⟩ ⟨0, 0, 50, 30⟩).ClipFrom 0 0 0 50 30 ∧
      ¬ Confined (twoWindows ⟨-100, 10, 50, 30⟩ ⟨0, 400, 5, 5⟩ ⟨0, 0, 50, 30⟩) 0
        ((Call.bchr 0 1 150 0 65).run (twoWindows ⟨-100, 10, 50, 30⟩ ⟨0, 400, 5, 5⟩ ⟨0, 0, 50, 30⟩) 1 0)) ∧
    (twoWindows ⟨10, 10, 50, 30⟩ ⟨0, 400, 5, 5⟩ ⟨2147483647, 0, -2147483597, 30⟩).ClipFrom 0 2147483647 0 0 30 ∧
      ¬ Confined (twoWindows ⟨10, 10, 50, 30⟩ ⟨0, 400, 5, 5⟩ ⟨2147483647, 0, -2147483597, 30⟩) 0
        ((Call.rect 1 (-10) 0 60 30).run
          (twoWindows ⟨10, 10, 50, 30⟩ ⟨0, 400, 5, 5⟩ ⟨2147483647, 0, -2147483597, 30⟩) 1 0) := by
  refine ⟨⟨rfl, fun confined => ?_⟩, rfl, fun confined => ?_⟩
  · have shown := confined (.putpix 50 10 0) (mem_cons_self ..) 50 10 ⟨rfl, rfl⟩
    exact absurd shown.window (by decide)
  · have shown := confined (.rect 0 10 60 30 1) (mem_cons_self ..) 0 10 (by simp only [Draw.Writes]; omega)
    exact absurd shown.window (by decide)

end Wingui
