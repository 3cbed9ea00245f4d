import Newsys.Lib.Overwrite
import Newsys.Wingui.Copy

/- Glyphs with their background (win_autoclip_bglyph in kern/wingui/paint.c and what it uses): a row at a time where the
   glyph is taken to fit into the clip, and pixel by pixel elsewhere; and what a call draws in the pieces of a clip. The
   display has no function of its own for a row. -/
namespace Wingui
open Boxes Bytes Overwrite List

abbrev Pixel : Type := (Int × Int) × Nat

def put (p : Pixel) : Draw := .putpix p.1.1 p.1.2 p.2

theorem paintAll_put (ps : List Pixel) : ∀ (s : Screen) (x y : Int),
    paintAll (ps.map put) s x y = final (x, y) ps (s x y) := by
  induction ps with
  | nil => exact fun _ _ _ => rfl
  | cons p ps ih =>
    intro s x y
    have first : Draw.paint s (put p) x y = if p.1 = (x, y) then p.2 else s x y := by
      obtain ⟨⟨px, py⟩, c⟩ := p
      refine if_congr ⟨?_, ?_⟩ rfl rfl
      · rintro ⟨rfl, rfl⟩
        rfl
      · intro eq
        cases eq
        exact ⟨rfl, rfl⟩
    rw [map_cons, paintAll, foldl_cons, final_cons, ← first]
    exact ih _ x y

def glyphPixels (rq : Request) (x0 y0 : Int) (gl : Glyph) : List Pixel :=
  (range gl.height).flatMap fun (y : Nat) => (range gl.width).map fun (x : Nat) =>
    ((i32 (x + x0), i32 (y + y0)), if winRfont rq.font (gl.pos + x) y then rq.color else rq.bgColor)

variable {rq : Request} {y0 : Int} {gl : Glyph}

theorem mem_glyphPixels : p ∈ glyphPixels rq x0 y0 gl ↔ ∃ y < gl.height, ∃ x < gl.width,
      p = ((i32 (x + x0), i32 (y + y0)), if winRfont rq.font (gl.pos + x) y then rq.color else rq.bgColor) := by
  simp only [glyphPixels, mem_flatMap, mem_map, mem_range, eq_comm]

def inClip (c : Box) (p : Int × Int) : Bool := decide (c.Has p.1 p.2)

/- The slow path -/

def bglyphLoop (rq : Request) (x0 y0 : Int) (gl : Glyph) : List Draw :=
  (range gl.height).flatMap fun (y : Nat) => (range gl.width).flatMap fun (x : Nat) =>
    if i32 (x + x0) < rq.clip.x0 then []
    else if i32 (y + y0) < rq.clip.y0 then []
    else if i32 (x + x0) ≥ rq.clip.x1 then []
    else if i32 (y + y0) ≥ rq.clip.y1 then []
    else if winRfont rq.font (gl.pos + x) y then [.putpix (i32 (x + x0)) (i32 (y + y0)) rq.color]
    else [.putpix (i32 (x + x0)) (i32 (y + y0)) rq.bgColor]

theorem winAutoclipBglyph_eq (rq : Request) (x0 y0 : Int) (gl : Glyph) : winAutoclipBglyph rq x0 y0 gl =
    if FitsClip rq.clip x0 y0 gl then winAutoclipBglyphFast rq x0 y0 gl else bglyphLoop rq x0 y0 gl := rfl

theorem flatMap_eq_filter {α β γ : Type} (l : List α) (f : α → β) (keep : β → Bool) (g : β → γ) :
    l.flatMap (fun a => if keep (f a) then [g (f a)] else []) = ((l.map f).filter keep).map g := by
  induction l with
  | nil => rfl
  | cons a l ih =>
    rw [flatMap_cons, ih, map_cons, filter_cons]
    split
    · rfl
    · rfl

theorem bglyphLoop_eq (rq : Request) (x0 y0 : Int) (gl : Glyph) :
    bglyphLoop rq x0 y0 gl = ((glyphPixels rq x0 y0 gl).filter fun p => inClip rq.clip p.1).map put := by
  rw [bglyphLoop, glyphPixels, filter_flatMap, map_flatMap]
  refine flatMap_congr fun y _ => ?_
  rw [← flatMap_eq_filter]
  refine flatMap_congr fun x _ => ?_
  by_cases here : rq.clip.Has (i32 (x + x0)) (i32 (y + y0))
  · obtain ⟨left, right, top, bottom⟩ := here
    rw [if_neg (by omega), if_neg (by omega), if_neg (by omega), if_neg (by omega)]
    refine Eq.trans ?_ (if_pos (decide_eq_true ⟨left, right, top, bottom⟩)).symm
    rw [put]
    split
    · rfl
    · rfl
  · refine Eq.trans ?_ (if_neg fun keep => here (of_decide_eq_true keep)).symm
    simp only [Box.Has] at here
    split
    · rfl
    split
    · rfl
    split
    · rfl
    split
    · rfl
    · omega

/- The fast path -/

theorem i32_i32_add (m n : Int) : i32 (i32 m + n) = i32 (m + n) := by
  simp only [i32]
  omega

theorem bmpLoop_eq (data : Mem) (bg fg : Nat) (y : Int) : ∀ (w : Nat) (x : Int) (j : Nat), i32 x = x →
    bmpLoop data bg fg y w x (j / 8 + 1) (data (j / 8) >>> (j % 8)) (8 - j % 8) =
      (range w).map fun (k : Nat) =>
        .putpix (i32 (k + x)) y (if (data ((j + k) / 8)).getLsbD ((j + k) % 8) then fg else bg) := by
  intro w
  induction w with
  | zero => exact fun _ _ _ => rfl
  | succ w ih =>
    intro x j fits
    have bit : (data (j / 8) >>> (j % 8)).getLsbD 0 = (data (j / 8)).getLsbD (j % 8) := by
      rw [BitVec.getLsbD_ushiftRight, add_zero]
    have next : i32 (i32 (x + 1)) = i32 (x + 1) := by
      have same := i32_i32_add (x + 1) 0
      rwa [add_zero, add_zero] at same
    have rest : ∀ k : Nat, i32 (k + i32 (x + 1)) = i32 ((k + 1 : Nat) + x) := by
      intro k
      rw [add_comm, i32_i32_add]
      congr 1
      push_cast
      omega
    have start : i32 ((0 : Nat) + x) = x := (congrArg i32 (zero_add x)).trans fits
    have step : (if 8 - j % 8 = 1 then bmpLoop data bg fg y w (i32 (x + 1)) (j / 8 + 1 + 1) (data (j / 8 + 1)) 8
        else bmpLoop data bg fg y w (i32 (x + 1)) (j / 8 + 1) (data (j / 8) >>> (j % 8) >>> 1) (8 - j % 8 - 1)) =
        bmpLoop data bg fg y w (i32 (x + 1)) ((j + 1) / 8 + 1) (data ((j + 1) / 8) >>> ((j + 1) % 8))
          (8 - (j + 1) % 8) := by
      by_cases last : 8 - j % 8 = 1
      · rw [if_pos last, show (j + 1) / 8 = j / 8 + 1 by omega, show (j + 1) % 8 = 0 by omega, BitVec.ushiftRight_zero]
      · rw [if_neg last, show (j + 1) / 8 = j / 8 by omega, show (j + 1) % 8 = j % 8 + 1 by omega,
          BitVec.shiftRight_add, Nat.sub_sub]
    rw [bmpLoop, step, ih _ _ next, range_succ_eq_map, map_cons, map_map, bit, add_zero,
      start]
    congr 1
    refine map_congr_left fun k _ => ?_
    rw [Function.comp_apply, rest, Nat.succ_eq_add_one, add_right_comm, add_assoc]

theorem bglyphFast_eq (plain : rq.display.bmpHline = false) (fits : IsInt x0) (y0 : Int)
    (gl : Glyph) : winAutoclipBglyphFast rq x0 y0 gl = (glyphPixels rq x0 y0 gl).map put := by
  rw [winAutoclipBglyphFast, glyphPixels, map_flatMap]
  refine flatMap_congr fun y _ => ?_
  rw [winBmpHline, plain, if_neg Bool.false_ne_true, bmpLoop_eq _ _ _ _ _ _ _ (i32_eq fits), map_map]
  refine map_congr_left fun x _ => ?_
  rw [Function.comp_apply, put, winRfont, add_comm y0, add_comm (y * rq.font.linelen)]

/-- The test for the fast path is right, or there is nothing to draw. -/
def FitsWell (c : Box) (x0 y0 : Int) (gl : Glyph) : Prop :=
  gl.width = 0 ∨ gl.height = 0 ∨ (FitsClip c x0 y0 gl → Ends c x0 y0 gl)

instance (c : Box) (x0 y0 : Int) (gl : Glyph) : Decidable (FitsWell c x0 y0 gl) :=
  inferInstanceAs (Decidable (_ ∨ _ ∨ _))

theorem winAutoclipBglyph_pixels (plain : rq.display.bmpHline = false) {x0 : Int} (fits : IsInt x0)
    (y0 : Int) (gl : Glyph) : winAutoclipBglyph rq x0 y0 gl =
      (if FitsClip rq.clip x0 y0 gl then glyphPixels rq x0 y0 gl
        else (glyphPixels rq x0 y0 gl).filter fun p => inClip rq.clip p.1).map put := by
  rw [winAutoclipBglyph_eq, bglyphFast_eq plain fits, bglyphLoop_eq]
  split
  · rfl
  · rfl

variable {c : Box}

theorem has_of_ends (least : -2 ^ 31 ≤ x0 ∧ -2 ^ 31 ≤ y0)
    (most : c.x1 ≤ 2 ^ 31 ∧ c.y1 ≤ 2 ^ 31) (starts : FitsClip c x0 y0 gl) (ends : Ends c x0 y0 gl) :
    ∀ p ∈ glyphPixels rq x0 y0 gl, inClip c p.1 = true := by
  intro p mem
  obtain ⟨y, high, x, wide, rfl⟩ := mem_glyphPixels.mp mem
  obtain ⟨left, top, _, _⟩ := starts
  obtain ⟨right, bottom⟩ := ends
  have column : i32 (x + x0) = x + x0 := i32_eq ⟨by omega, by omega⟩
  have row : i32 (y + y0) = y + y0 := i32_eq ⟨by omega, by omega⟩
  refine decide_eq_true ?_
  rw [column, row]
  change c.Has (x + x0) (y + y0)
  exact ⟨by omega, by omega, by omega, by omega⟩

theorem filter_glyphPixels (fits : IsInt x0 ∧ IsInt y0)
    (most : c.x1 ≤ 2 ^ 31 ∧ c.y1 ≤ 2 ^ 31) (starts : FitsClip c x0 y0 gl) (well : FitsWell c x0 y0 gl) :
    (glyphPixels rq x0 y0 gl).filter (fun p => inClip c p.1) = glyphPixels rq x0 y0 gl := by
  have nothing : gl.width = 0 ∨ gl.height = 0 → glyphPixels rq x0 y0 gl = [] := by
    rintro (none | none)
    · refine flatMap_eq_nil_iff.mpr fun y _ => ?_
      rw [none]
      rfl
    · rw [glyphPixels, none]
      rfl
  rcases well with none | none | ends
  · rw [nothing (.inl none), filter_nil]
  · rw [nothing (.inr none), filter_nil]
  · exact filter_eq_self.mpr (has_of_ends ⟨fits.1.1, fits.2.1⟩ most starts (ends starts))

theorem pixel_outside (rq : Request) (fits : IsInt x0 ∧ IsInt y0)
    (far : IsInt c.x1 ∧ IsInt c.y1) (bad : ¬ FitsWell c x0 y0 gl) :
    ∃ p ∈ glyphPixels rq x0 y0 gl, ¬ inClip c p.1 = true := by
  obtain ⟨⟨lowX, highX⟩, lowY, highY⟩ := fits
  obtain ⟨⟨lowX', highX'⟩, lowY', highY'⟩ := far
  simp only [FitsWell, Ends, not_or, Classical.not_imp, not_and_or] at bad
  obtain ⟨wide, high, _, beyond⟩ := bad
  rcases beyond with right | bottom
  · have column : i32 ((max c.x1 x0 - x0).toNat + x0) = max c.x1 x0 := by
      rw [show ((max c.x1 x0 - x0).toNat : Int) + x0 = max c.x1 x0 by omega]
      exact i32_eq ⟨by omega, by omega⟩
    refine ⟨_, mem_glyphPixels.mpr ⟨0, by omega, (max c.x1 x0 - x0).toNat, by omega, rfl⟩, ?_⟩
    rw [column]
    intro here
    obtain ⟨_, less, _, _⟩ := of_decide_eq_true here
    dsimp only at less
    omega
  · have row : i32 ((max c.y1 y0 - y0).toNat + y0) = max c.y1 y0 := by
      rw [show ((max c.y1 y0 - y0).toNat : Int) + y0 = max c.y1 y0 by omega]
      exact i32_eq ⟨by omega, by omega⟩
    refine ⟨_, mem_glyphPixels.mpr ⟨(max c.y1 y0 - y0).toNat, by omega, 0, by omega, rfl⟩, ?_⟩
    rw [row]
    intro here
    obtain ⟨_, _, _, less⟩ := of_decide_eq_true here
    dsimp only at less
    omega

def otherColour (rq : Request) : Nat := rq.bgColor + rq.color + 1

theorem final_ne_other {ps : List Pixel} (colours : ∀ p ∈ ps, p.2 = rq.color ∨ p.2 = rq.bgColor)
    {p : Pixel} (mem : p ∈ ps) : final p.1 ps (otherColour rq) ≠ otherColour rq := by
  rcases final_cases p.1 ps with ⟨none, _⟩ | ⟨q, mem', _, eq⟩
  · exact absurd rfl (none p mem)
  · rw [eq, otherColour]
    rcases colours q mem' with colour | colour
    · rw [colour]
      omega
    · rw [colour]
      omega

theorem colour_glyphPixels : ∀ p ∈ glyphPixels rq x0 y0 gl, p.2 = rq.color ∨ p.2 = rq.bgColor := by
  intro p mem
  obtain ⟨y, _, x, _, rfl⟩ := mem_glyphPixels.mp mem
  dsimp only
  split
  · exact .inl rfl
  · exact .inr rfl

/-- The two paths leave the same screen, whatever was on it. -/
def PathsAgree (rq : Request) (x0 y0 : Int) (gl : Glyph) : Prop :=
  ∀ s, paintAll (winAutoclipBglyph rq x0 y0 gl) s = paintAll (bglyphLoop rq x0 y0 gl) s

theorem pathsAgree_iff (plain : rq.display.bmpHline = false) {x0 : Int}
    (fits : IsInt x0 ∧ IsInt y0) (far : IsInt rq.clip.x1 ∧ IsInt rq.clip.y1) :
    PathsAgree rq x0 y0 gl ↔ FitsWell rq.clip x0 y0 gl := by
  constructor
  · intro agree
    by_contra bad
    obtain ⟨p, mem, out⟩ := pixel_outside rq fits far bad
    have starts : FitsClip rq.clip x0 y0 gl := by
      by_contra not
      exact bad (.inr (.inr fun starts => absurd starts not))
    have same := congrFun (congrFun (agree fun _ _ => otherColour rq) p.1.1) p.1.2
    rw [winAutoclipBglyph_pixels plain fits.1, if_pos starts, bglyphLoop_eq, paintAll_put, paintAll_put, final_filter,
      if_neg out] at same
    exact final_ne_other colour_glyphPixels mem same
  · intro well s
    obtain ⟨⟨_, right⟩, _, bottom⟩ := far
    rw [winAutoclipBglyph_pixels plain fits.1, bglyphLoop_eq]
    split
    · rename_i starts
      rw [filter_glyphPixels fits ⟨by omega, by omega⟩ starts well]
    · rfl

/- A call, in the pieces of its clip -/

inductive GlyphCall where
  | btext | bchr

def GlyphCall.proc : GlyphCall → Request → Paint
  | .btext => winAutoclipBtext
  | .bchr => winAutoclipBchr

def GlyphCall.places (rq : Request) : GlyphCall → List (Int × Int × Glyph)
  | .btext => layout rq.font rq.rect.x rq.rect.x rq.rect.y rq.text
  | .bchr => [(rq.rect.x, rq.rect.y, rq.font.glyph rq.ch)]

def GlyphCall.unclipped (rq : Request) (call : GlyphCall) : List Draw :=
  (call.places rq).flatMap fun g => (glyphPixels rq g.1 g.2.1 g.2.2).map put

/-- A pixel in a piece gets what the call without a clip gives it, and all others are left alone. -/
def DrawsVisible (ws : List Window) (rq : Request) (call : GlyphCall) : Prop :=
  ∀ s x y, paintAll (winAutoclipIterate call.proc ws rq).1 s x y =
    if ∃ c ∈ Box.cut (boxes Rect.seen ws) rq.clip, inClip c (x, y) = true then paintAll (call.unclipped rq) s x y
    else s x y

/-- The numbers of the font are numbers of an `int`, in which the loops count. -/
def Font.Ints (font : Font) : Prop := ∀ b, (font.glyph b).width < 2 ^ 31 ∧ (font.glyph b).height < 2 ^ 31

variable {rq : Request}

theorem proc_eq (call : GlyphCall) (rq : Request) :
    call.proc rq = ((call.places rq).flatMap fun g => winAutoclipBglyph rq g.1 g.2.1 g.2.2, none) := by
  cases call with
  | btext => rw [GlyphCall.proc, winAutoclipBtext, textLoop_eq, GlyphCall.places]
  | bchr => rw [GlyphCall.proc, winAutoclipBchr, GlyphCall.places, flatMap_singleton]

theorem isInt_i32 (n : Int) : IsInt (i32 n) := by
  simp only [i32, IsInt]
  omega

theorem mem_layout (start : IsInt left) (ps : List Byte) :
    ∀ x y, IsInt x → IsInt y → g ∈ layout font left x y ps → (IsInt g.1 ∧ IsInt g.2.1) ∧ ∃ b, g.2.2 = font.glyph b := by
  induction ps with
  | nil => exact fun _ _ _ _ mem => absurd mem not_mem_nil
  | cons p ps ih =>
    intro x y column row mem
    rw [layout] at mem
    split at mem
    · exact ih _ _ start (isInt_i32 _) mem
    split at mem
    · exact ih _ _ column row mem
    rcases mem_cons.mp mem with rfl | mem
    · exact ⟨⟨column, row⟩, p, rfl⟩
    · exact ih _ _ (isInt_i32 _) row mem

theorem mem_places {call : GlyphCall} (place : IsInt rq.rect.x ∧ IsInt rq.rect.y) {g : Int × Int × Glyph}
    (mem : g ∈ call.places rq) : (IsInt g.1 ∧ IsInt g.2.1) ∧ ∃ b, g.2.2 = rq.font.glyph b := by
  cases call with
  | btext => exact mem_layout place.1 _ _ _ place.1 place.2 mem
  | bchr =>
    rw [mem_singleton.mp mem]
    exact ⟨place, _, rfl⟩

theorem runPieces_draws (call : GlyphCall) (rq : Request) (cs : List Box) :
    (runPieces call.proc rq cs).1 = cs.flatMap fun c =>
      (call.places rq).flatMap fun g => winAutoclipBglyph { rq with clip := c } g.1 g.2.1 g.2.2 := by
  have same : ∀ c, call.places { rq with clip := c } = call.places rq := by
    intro c
    cases call with
    | btext => rfl
    | bchr => rfl
  induction cs with
  | nil => rfl
  | cons c cs ih =>
    rw [runPieces, proc_eq, same, flatMap_cons, ← ih]
    rfl

theorem iterate_draws (plain : rq.display.bmpHline = false) {call : GlyphCall} (place : IsInt rq.rect.x ∧ IsInt rq.rect.y)
    (ws : List Window) : (winAutoclipIterate call.proc ws rq).1 =
      ((Box.cut (boxes Rect.seen ws) rq.clip).flatMap fun c => (call.places rq).flatMap fun g =>
        if FitsClip c g.1 g.2.1 g.2.2 then glyphPixels rq g.1 g.2.1 g.2.2
        else (glyphPixels rq g.1 g.2.1 g.2.2).filter fun p => inClip c p.1).map put := by
  rw [iterate_cut, runPieces_draws, map_flatMap]
  refine flatMap_congr fun c _ => ?_
  rw [map_flatMap]
  refine flatMap_congr fun g mem => ?_
  exact @winAutoclipBglyph_pixels { rq with clip := c } plain _ (mem_places place mem).1.1 g.2.1 g.2.2

theorem edge_neg (piece : c.Piece p) (corner : 0 ≤ c.x0 ∧ 0 ≤ c.y0)
    (most : x0 < 2 ^ 31 ∧ y0 < 2 ^ 31) (size : gl.width < 2 ^ 31 ∧ gl.height < 2 ^ 31)
    (far : p.x1 < 2 ^ 31 ∧ p.y1 < 2 ^ 31) (bad : ¬ FitsWell p x0 y0 gl) : c.x1 < 0 ∨ c.y1 < 0 := by
  obtain ⟨left, top, right, bottom⟩ := piece
  simp only [FitsWell, Ends, FitsClip, u32, not_or, Classical.not_imp] at bad
  omega

theorem inClip_of_piece (mem : c ∈ Box.cut (boxes Rect.seen ws) clip)
    (here : inClip c (x, y) = true) : clip.Has x y :=
  ((Box.has_cut _ _).mp ⟨c, mem, of_decide_eq_true here⟩).1

theorem drawsVisible_iff (plain : rq.display.bmpHline = false) (place : IsInt rq.rect.x ∧ IsInt rq.rect.y)
    (font : rq.font.Ints) (corner : 0 ≤ rq.clip.x0 ∧ 0 ≤ rq.clip.y0) (far : IsInt rq.clip.x1 ∧ IsInt rq.clip.y1)
    (ws : List Window) (call : GlyphCall) : DrawsVisible ws rq call ↔
      ∀ c ∈ Box.cut (boxes Rect.seen ws) rq.clip, ∀ g ∈ call.places rq, FitsWell c g.1 g.2.1 g.2.2 := by
  have edges : ∀ c ∈ Box.cut (boxes Rect.seen ws) rq.clip, rq.clip.Piece c ∧ IsInt c.x1 ∧ IsInt c.y1 := by
    intro c mem
    have piece := Box.piece_of_cut _ corner mem
    obtain ⟨_, _, right, bottom⟩ := piece
    obtain ⟨⟨lowX, highX⟩, lowY, highY⟩ := far
    exact ⟨Box.piece_of_cut _ corner mem, ⟨by omega, by omega⟩, by omega, by omega⟩
  unfold DrawsVisible
  rw [iterate_draws plain place]
  simp only [paintAll_put]
  constructor
  · intro visible c mem_c g mem_g
    by_contra bad
    obtain ⟨piece, far'⟩ := edges c mem_c
    obtain ⟨⟨fitsX, fitsY⟩, b, glyph⟩ := mem_places place mem_g
    have size := font b
    rw [← glyph] at size
    have neg := edge_neg piece corner ⟨fitsX.2, fitsY.2⟩ size ⟨far'.1.2, far'.2.2⟩ bad
    obtain ⟨p, mem_p, out⟩ := pixel_outside rq ⟨fitsX, fitsY⟩ far' bad
    have starts : FitsClip c g.1 g.2.1 g.2.2 := by
      by_contra not
      exact bad (.inr (.inr fun starts => absurd starts not))
    -- there is no pixel in the clip, and yet this one is drawn
    have same := visible (fun _ _ => otherColour rq) p.1.1 p.1.2
    rw [if_neg] at same
    · refine final_ne_other (fun q mem => ?_) (p := p) ?_ same
      · obtain ⟨c', _, mem⟩ := mem_flatMap.mp mem
        obtain ⟨g', _, mem⟩ := mem_flatMap.mp mem
        split at mem
        · exact colour_glyphPixels q mem
        · exact colour_glyphPixels q (mem_of_mem_filter mem)
      · refine mem_flatMap.mpr ⟨c, mem_c, mem_flatMap.mpr ⟨g, mem_g, ?_⟩⟩
        rw [if_pos starts]
        exact mem_p
    · rintro ⟨c', mem, here⟩
      obtain ⟨_, _, _, _⟩ := inClip_of_piece mem here
      omega
  · intro well s x y
    have filtered : ((Box.cut (boxes Rect.seen ws) rq.clip).flatMap fun c => (call.places rq).flatMap fun g =>
        if FitsClip c g.1 g.2.1 g.2.2 then glyphPixels rq g.1 g.2.1 g.2.2
        else (glyphPixels rq g.1 g.2.1 g.2.2).filter fun p => inClip c p.1) =
        (Box.cut (boxes Rect.seen ws) rq.clip).flatMap fun c =>
          ((call.places rq).flatMap fun g => glyphPixels rq g.1 g.2.1 g.2.2).filter fun p => inClip c p.1 := by
      refine flatMap_congr fun c mem_c => ?_
      rw [filter_flatMap]
      refine flatMap_congr fun g mem_g => ?_
      obtain ⟨_, ⟨_, right⟩, _, bottom⟩ := edges c mem_c
      split
      · rename_i starts
        rw [filter_glyphPixels (mem_places place mem_g).1 ⟨by omega, by omega⟩ starts (well c mem_c g mem_g)]
      · rfl
    have whole : call.unclipped rq = ((call.places rq).flatMap fun g => glyphPixels rq g.1 g.2.1 g.2.2).map put := by
      rw [GlyphCall.unclipped, map_flatMap]
    rw [filtered, final_flatMap, whole, paintAll_put]

/-- The two paths leave the same screen if and only if the test for the fast one is right, for any glyph and any clip; and
    a call leaves what it would leave without a clip in the pieces, and nothing elsewhere, if and only if the test is
    right for each of its glyphs in each piece. -/
theorem glyphs_drawn_iff {rq : Request} (plain : rq.display.bmpHline = false)
    (far : IsInt rq.clip.x1 ∧ IsInt rq.clip.y1) :
    (∀ x0 y0 gl, IsInt x0 ∧ IsInt y0 → (PathsAgree rq x0 y0 gl ↔ FitsWell rq.clip x0 y0 gl)) ∧
    (0 ≤ rq.clip.x0 ∧ 0 ≤ rq.clip.y0 → IsInt rq.rect.x ∧ IsInt rq.rect.y → rq.font.Ints → ∀ ws call,
      (DrawsVisible ws rq call ↔
        ∀ c ∈ Box.cut (boxes Rect.seen ws) rq.clip, ∀ g ∈ call.places rq, FitsWell c g.1 g.2.1 g.2.2)) :=
  ⟨fun _ _ _ fits => pathsAgree_iff plain fits far,
    fun corner place font ws call => drawsVisible_iff plain place font corner far ws call⟩

def charAt (clip : Box) (x : Int) : Request :=
  ⟨clip, 0, 1, fun _ => 0, [], 65, ⟨x, 12, 0, 0⟩, ⟨fun _ => ⟨3, 8, 8⟩, zero, 2⟩, ⟨640, 480, 0, false⟩, 0, 0⟩

theorem font_charAt (clip : Box) (x : Int) : (charAt clip x).font.Ints := by
  have small : 8 < 2 ^ 31 := by decide
  exact fun _ => ⟨small, small⟩

/-- Half of the glyph is in the window. -/
theorem glyphs_drawn_iff_half :
    (PathsAgree (charAt ⟨10, 10, 60, 40⟩ 56) 56 12 ⟨3, 8, 8⟩ ↔ FitsWell ⟨10, 10, 60, 40⟩ 56 12 ⟨3, 8, 8⟩) ∧
    (DrawsVisible [] (charAt ⟨10, 10, 60, 40⟩ 56) .bchr ↔
      ∀ c ∈ Box.cut (boxes Rect.seen []) ⟨10, 10, 60, 40⟩, ∀ g ∈ GlyphCall.bchr.places (charAt ⟨10, 10, 60, 40⟩ 56),
        FitsWell c g.1 g.2.1 g.2.2) := by
  obtain ⟨agree, visible⟩ := @glyphs_drawn_iff (charAt ⟨10, 10, 60, 40⟩ 56) rfl (by decide)
  exact ⟨agree 56 12 ⟨3, 8, 8⟩ (by decide), visible (by decide) (by decide) (font_charAt _ _) [] .bchr⟩

/-- In a window that has been moved off the left edge of the display no pixel is in the clip, and the whole glyph is
    drawn. -/
theorem glyphs_not_drawn : ¬ PathsAgree (charAt ⟨0, 10, -50, 40⟩ 50) 50 12 ⟨3, 8, 8⟩ ∧
    ¬ DrawsVisible [] (charAt ⟨0, 10, -50, 40⟩ 50) .bchr := by
  rw [pathsAgree_iff rfl (by decide) (by decide),
    drawsVisible_iff rfl (by decide) (font_charAt _ _) (by decide) (by decide)]
  refine ⟨by decide, fun well => ?_⟩
  exact absurd (well _ (mem_singleton_self _) _ (mem_singleton_self _)) (by decide)

end Wingui
