import Newsys.Lib.Box
import Newsys.Lib.Bytes

/- Drawing in windows (kern/wingui/paint.c): a call is clipped to its window and to what the windows above
   leave of it, and its primitive runs once for each piece. The numbers are 32-bit and wrap around. -/
namespace Wingui
open Boxes Bytes List

def i32 (n : Int) : Int := (n + 2 ^ 31) % 2 ^ 32 - 2 ^ 31

def u32 (n : Int) : Int := n % 2 ^ 32

inductive Errno where
  | EINVAL | EPERM
  deriving DecidableEq

structure Rect where
  x : Int
  y : Int
  w : Int
  h : Int
  deriving DecidableEq

structure Glyph where
  pos : Nat
  width : Nat
  height : Nat

structure Font where
  glyph : Byte → Glyph
  bitmap : Mem
  linelen : Nat

structure Display where
  width : Int
  height : Int
  transparent : Nat
  bmpHline : Bool

structure Window where
  task : Option Nat
  x0 : Int
  y0 : Int
  font : Int
  visible : Bool
  clip : Rect
  rect : Rect

/-- A desktop, with its windows from the topmost to the lowest, and the fonts that are loaded. -/
structure Desktop where
  display : Display
  window : Nat → Window
  stack : List Nat
  winFont : Nat → Option Font

abbrev winMax : Int := 64
abbrev winFontDefault : Int := -1
abbrev defaultFtd : Nat := 1

inductive Draw where
  | putpix (x y : Int) (c : Nat)
  | hline (x y len : Int) (c : Nat)
  | vline (x y len : Int) (c : Nat)
  | rect (x y w h : Int) (c : Nat)
  | copy (x0 y0 x1 y1 w h : Int)
  | bmpHline (x y : Int) (w : Nat) (data : Mem) (off : Nat) (bg fg : Nat)

structure Request where
  clip : Box
  bgColor : Nat
  color : Nat
  bitmap : Nat → Nat
  text : List Byte
  ch : Byte
  rect : Rect
  font : Font
  display : Display
  srcX : Int
  srcY : Int

abbrev Paint := List Draw × Option Errno

def Paint.andThen (p q : Paint) : Paint :=
  match p.2 with
  | none => (p.1 ++ q.1, q.2)
  | some e => (p.1, some e)

def winAutoclipIterate (proc : Request → Paint) : List Window → Request → Paint
  | [], rq => proc rq
  | w :: ws, rq =>
    if !w.visible then winAutoclipIterate proc ws rq
    else if rq.clip.x0 ≥ i32 (w.rect.x + w.rect.w) then winAutoclipIterate proc ws rq
    else if rq.clip.y0 ≥ i32 (w.rect.y + w.rect.h) then winAutoclipIterate proc ws rq
    else if rq.clip.x1 ≤ w.rect.x then winAutoclipIterate proc ws rq
    else if rq.clip.y1 ≤ w.rect.y then winAutoclipIterate proc ws rq
    else
      let y0 := if rq.clip.y0 < w.rect.y then w.rect.y else rq.clip.y0
      let y1 := if rq.clip.y1 > i32 (w.rect.y + w.rect.h) then i32 (w.rect.y + w.rect.h) else rq.clip.y1
      Paint.andThen
        (if w.rect.y > rq.clip.y0 then
          winAutoclipIterate proc ws { rq with clip := { rq.clip with y1 := w.rect.y } }
        else ([], none))
      (Paint.andThen
        (if i32 (w.rect.y + w.rect.h) < rq.clip.y1 then
          winAutoclipIterate proc ws { rq with clip := { rq.clip with y0 := i32 (w.rect.y + w.rect.h) } }
        else ([], none))
      (Paint.andThen
        (if w.rect.x > rq.clip.x0 then
          winAutoclipIterate proc ws { rq with clip := { rq.clip with x1 := w.rect.x, y0 := y0, y1 := y1 } }
        else ([], none))
        (if i32 (w.rect.x + w.rect.w) < rq.clip.x1 then
          winAutoclipIterate proc ws
            { rq with clip := { rq.clip with x0 := i32 (w.rect.x + w.rect.w), y0 := y0, y1 := y1 } }
        else ([], none))))

def winChkwd (d : Desktop) (curr : Nat) (wd : Int) : Option Errno :=
  if wd < 0 ∨ winMax ≤ wd then some .EINVAL
  else match (d.window wd.toNat).task with
    | none => some .EINVAL
    | some t => if curr ≠ t then some .EPERM else none

def Desktop.above (d : Desktop) (wd : Nat) : List Window :=
  ((d.stack.takeWhile (· ≠ wd)).reverse).map d.window

def clipOnDisplay (d : Desktop) (w : Window) : Box :=
  let x0 := i32 (w.clip.x + w.rect.x)
  let y0 := i32 (w.clip.y + w.rect.y)
  let x1 := i32 (i32 (w.clip.x + w.clip.w) + w.rect.x)
  let y1 := i32 (i32 (w.clip.y + w.clip.h) + w.rect.y)
  { x0 := if x0 < 0 then 0 else x0
    y0 := if y0 < 0 then 0 else y0
    x1 := if x1 > d.display.width then d.display.width else x1
    y1 := if y1 > d.display.height then d.display.height else y1 }

def toDisplay (w : Window) (rq : Request) : Request :=
  { rq with
      rect := { x := i32 (i32 (rq.rect.x + w.x0) + w.rect.x)
                y := i32 (i32 (rq.rect.y + w.y0) + w.rect.y)
                w := if rq.rect.w < 0 then 0 else rq.rect.w
                h := if rq.rect.h < 0 then 0 else rq.rect.h }
      srcX := i32 (i32 (rq.srcX + w.x0) + w.rect.x)
      srcY := i32 (i32 (rq.srcY + w.y0) + w.rect.y) }

def winAutoclip (d : Desktop) (curr : Nat) (wd : Int) (rq : Request) (proc : Request → Paint) : Paint :=
  match winChkwd d curr wd with
  | some e => ([], some e)
  | none =>
    let w := d.window wd.toNat
    if !w.visible then ([], none)
    else match d.winFont (if w.font = winFontDefault then defaultFtd else w.font.toNat) with
      | none => ([], some .EINVAL)
      | some font => winAutoclipIterate proc (d.above wd.toNat)
          { toDisplay w rq with font := font, display := d.display, clip := clipOnDisplay d w }

/-- What `win_clip` makes of one side of its arguments, in a window that is `limit` wide. -/
def clipSide (at' len limit : Int) : Int × Int :=
  let pos := if at' < 0 then 0 else at'
  let l := if at' < 0 then i32 (len + at') else len
  let l := if l < 0 then 0 else l
  (pos, if i32 (pos + len) > limit then i32 (limit - pos) else l)

def winClip (d : Desktop) (curr : Nat) (wd x y w h x0 y0 : Int) : Except Errno Desktop :=
  match winChkwd d curr wd with
  | some e => .error e
  | none =>
    let win := d.window wd.toNat
    let sx := clipSide x w win.rect.w
    let sy := clipSide y h win.rect.h
    let win := { win with x0 := x0, y0 := y0, clip := ⟨sx.1, sy.1, sx.2, sy.2⟩ }
    .ok { d with window := Function.update d.window wd.toNat win }

def winAutoclipPixel (rq : Request) : Paint :=
  if rq.clip.x0 > rq.rect.x then ([], none)
  else if rq.clip.y0 > rq.rect.y then ([], none)
  else if rq.clip.x1 ≤ rq.rect.x then ([], none)
  else if rq.clip.y1 ≤ rq.rect.y then ([], none)
  else ([.putpix rq.rect.x rq.rect.y rq.color], none)

def winAutoclipHline (rq : Request) : Paint :=
  let x1 := i32 (rq.rect.x + rq.rect.w)
  if rq.rect.y < rq.clip.y0 then ([], none)
  else if rq.rect.y ≥ rq.clip.y1 then ([], none)
  else
    let x0 := if rq.clip.x0 > rq.rect.x then rq.clip.x0 else rq.rect.x
    let x1 := if rq.clip.x1 < x1 then rq.clip.x1 else x1
    if x1 < x0 then ([], none) else ([.hline x0 rq.rect.y (x1 - x0) rq.color], none)

def winAutoclipVline (rq : Request) : Paint :=
  let y1 := i32 (rq.rect.y + rq.rect.h)
  if rq.rect.x < rq.clip.x0 then ([], none)
  else if rq.rect.x ≥ rq.clip.x1 then ([], none)
  else
    let y0 := if rq.clip.y0 > rq.rect.y then rq.clip.y0 else rq.rect.y
    let y1 := if rq.clip.y1 < y1 then rq.clip.y1 else y1
    if y1 < y0 then ([], none) else ([.vline rq.rect.x y0 (y1 - y0) rq.color], none)

def winAutoclipRect (rq : Request) : Paint :=
  let x1 := i32 (rq.rect.x + rq.rect.w)
  let y1 := i32 (rq.rect.y + rq.rect.h)
  let x0 := if rq.clip.x0 > rq.rect.x then rq.clip.x0 else rq.rect.x
  let y0 := if rq.clip.y0 > rq.rect.y then rq.clip.y0 else rq.rect.y
  let x1 := if rq.clip.x1 < x1 then rq.clip.x1 else x1
  let y1 := if rq.clip.y1 < y1 then rq.clip.y1 else y1
  if x1 < x0 ∨ y1 < y0 then ([], none) else ([.rect x0 y0 (x1 - x0) (y1 - y0) rq.color], none)

def winAutoclipCopy (rq : Request) : Paint :=
  let x1 := i32 (rq.rect.x + rq.rect.w)
  let y1 := i32 (rq.rect.y + rq.rect.h)
  if rq.clip.x0 > rq.rect.x then ([], some .EPERM)
  else if rq.clip.y0 > rq.rect.y then ([], some .EPERM)
  else if rq.clip.x1 < x1 then ([], some .EPERM)
  else if rq.clip.y1 < y1 then ([], some .EPERM)
  else if x1 < rq.rect.x ∨ y1 < rq.rect.y then ([], none)
  else ([.copy rq.rect.x rq.rect.y rq.srcX rq.srcY rq.rect.w rq.rect.h], none)

def winRfont (font : Font) (x y : Nat) : Bool := (font.bitmap (x / 8 + y * font.linelen)).getLsbD (x % 8)

def winAutoclipGlyph (rq : Request) (x0 y0 : Int) (gl : Glyph) : List Draw :=
  (range gl.height).flatMap fun (y : Nat) => (range gl.width).flatMap fun (x : Nat) =>
    if i32 (x + x0) < rq.clip.x0 then []
    else if i32 (y + y0) < rq.clip.y0 then []
    else if i32 (x + x0) ≥ rq.clip.x1 then []
    else if i32 (y + y0) ≥ rq.clip.y1 then []
    else if winRfont rq.font (gl.pos + x) y then [.putpix (i32 (x + x0)) (i32 (y + y0)) rq.color]
    else []

/-- The loop of `win_bmp_hline`, with the byte `b` of which `nb` bits are left, and the next one at `p`. -/
def bmpLoop (data : Mem) (bg fg : Nat) (y : Int) : Nat → Int → Nat → Byte → Nat → List Draw
  | 0, _, _, _, _ => []
  | w + 1, x, p, b, nb => .putpix x y (if b.getLsbD 0 then fg else bg) ::
      if nb = 1 then bmpLoop data bg fg y w (i32 (x + 1)) (p + 1) (data p) 8
      else bmpLoop data bg fg y w (i32 (x + 1)) p (b >>> 1) (nb - 1)

def winBmpHline (d : Display) (bg fg : Nat) (x y : Int) (w : Nat) (data : Mem) (off : Nat) : List Draw :=
  if d.bmpHline then [.bmpHline x y w data off bg fg]
  else bmpLoop data bg fg y w x (off / 8 + 1) (data (off / 8) >>> (off % 8)) (8 - off % 8)

def winAutoclipBglyphFast (rq : Request) (x0 y0 : Int) (gl : Glyph) : List Draw :=
  (range gl.height).flatMap fun (y : Nat) => winBmpHline rq.display rq.bgColor rq.color x0 (i32 (y0 + y)) gl.width
    (fun k => rq.font.bitmap (y * rq.font.linelen + k)) gl.pos

/-- The test for a glyph that needs no clipping. The sizes of a glyph are unsigned, and so are the sums and the
    comparisons with the edges on the far side. -/
def FitsClip (clip : Box) (x0 y0 : Int) (gl : Glyph) : Prop :=
  x0 ≥ clip.x0 ∧ y0 ≥ clip.y0 ∧ u32 (x0 + gl.width) ≤ u32 clip.x1 ∧ u32 (y0 + gl.height) ≤ u32 clip.y1

instance (clip : Box) (x0 y0 : Int) (gl : Glyph) : Decidable (FitsClip clip x0 y0 gl) :=
  inferInstanceAs (Decidable (_ ∧ _))

def winAutoclipBglyph (rq : Request) (x0 y0 : Int) (gl : Glyph) : List Draw :=
  if FitsClip rq.clip x0 y0 gl then winAutoclipBglyphFast rq x0 y0 gl
  else (range gl.height).flatMap fun (y : Nat) => (range gl.width).flatMap fun (x : Nat) =>
    if i32 (x + x0) < rq.clip.x0 then []
    else if i32 (y + y0) < rq.clip.y0 then []
    else if i32 (x + x0) ≥ rq.clip.x1 then []
    else if i32 (y + y0) ≥ rq.clip.y1 then []
    else if winRfont rq.font (gl.pos + x) y then [.putpix (i32 (x + x0)) (i32 (y + y0)) rq.color]
    else [.putpix (i32 (x + x0)) (i32 (y + y0)) rq.bgColor]

/-- The loop of `win_autoclip_text` and of `win_autoclip_btext` over the bytes before the NUL. -/
def textLoop (rq : Request) (glyph : Int → Int → Glyph → List Draw) : Int → Int → List Byte → List Draw
  | _, _, [] => []
  | x, y, p :: ps =>
    if p = 10 then textLoop rq glyph rq.rect.x (i32 (y + (rq.font.glyph 0).height)) ps
    else if p = 13 then textLoop rq glyph x y ps
    else glyph x y (rq.font.glyph p) ++ textLoop rq glyph (i32 (x + (rq.font.glyph p).width)) y ps

def winAutoclipText (rq : Request) : Paint :=
  (textLoop rq (winAutoclipGlyph rq) rq.rect.x rq.rect.y rq.text, none)

def winAutoclipBtext (rq : Request) : Paint :=
  (textLoop rq (winAutoclipBglyph rq) rq.rect.x rq.rect.y rq.text, none)

def winAutoclipChr (rq : Request) : Paint :=
  (winAutoclipGlyph rq rq.rect.x rq.rect.y (rq.font.glyph rq.ch), none)

def winAutoclipBchr (rq : Request) : Paint :=
  (winAutoclipBglyph rq rq.rect.x rq.rect.y (rq.font.glyph rq.ch), none)

def winAutoclipBitmap (rq : Request) : Paint :=
  let rows := (i32 (rq.rect.y + rq.rect.h) - rq.rect.y).toNat
  let cols := (i32 (rq.rect.x + rq.rect.w) - rq.rect.x).toNat
  ((range rows).flatMap fun (r : Nat) => (range cols).flatMap fun (c : Nat) =>
    let x := rq.rect.x + c
    let y := rq.rect.y + r
    let pixel := rq.bitmap (r * cols + c)
    if x ≥ rq.clip.x0 ∧ x < rq.clip.x1 ∧ y ≥ rq.clip.y0 ∧ y < rq.clip.y1 ∧ pixel ≠ rq.display.transparent then
      [.putpix x y pixel]
    else [], none)

def noRequest (d : Desktop) : Request :=
  ⟨⟨0, 0, 0, 0⟩, 0, 0, fun _ => 0, [], 0, ⟨0, 0, 0, 0⟩, ⟨fun _ => ⟨0, 0, 0⟩, zero, 0⟩, d.display, 0, 0⟩

def winPixel (d : Desktop) (curr : Nat) (wd : Int) (c : Nat) (x y : Int) : Paint :=
  winAutoclip d curr wd { noRequest d with rect := ⟨x, y, 1, 1⟩, color := c } winAutoclipPixel

def winHline (d : Desktop) (curr : Nat) (wd : Int) (c : Nat) (x y l : Int) : Paint :=
  winAutoclip d curr wd { noRequest d with rect := ⟨x, y, l, 1⟩, color := c } winAutoclipHline

def winVline (d : Desktop) (curr : Nat) (wd : Int) (c : Nat) (x y l : Int) : Paint :=
  winAutoclip d curr wd { noRequest d with rect := ⟨x, y, 1, l⟩, color := c } winAutoclipVline

def winRect (d : Desktop) (curr : Nat) (wd : Int) (c : Nat) (x y w h : Int) : Paint :=
  winAutoclip d curr wd { noRequest d with rect := ⟨x, y, w, h⟩, color := c } winAutoclipRect

structure Redraw where
  wd : Int
  rect : Rect
  deriving DecidableEq

/-- `win_copy`: when the copy is refused, the window is told to redraw the target. -/
def winCopy (d : Desktop) (curr : Nat) (wd dx dy sx sy w h : Int) : Paint × Option Redraw :=
  let p := winAutoclip d curr wd { noRequest d with rect := ⟨dx, dy, w, h⟩, srcX := sx, srcY := sy } winAutoclipCopy
  match p.2 with
  | none => (p, none)
  | some _ =>
    match winChkwd d curr wd with
    | some e => ((p.1, some e), none)
    | none => ((p.1, none), some ⟨wd, dx, dy, w, h⟩)

def winText (d : Desktop) (curr : Nat) (wd : Int) (c : Nat) (x y : Int) (text : List Byte) : Paint :=
  winAutoclip d curr wd { noRequest d with rect := ⟨x, y, 0, 0⟩, text := text, color := c } winAutoclipText

def winBtext (d : Desktop) (curr : Nat) (wd : Int) (bg fg : Nat) (x y : Int) (text : List Byte) : Paint :=
  winAutoclip d curr wd { noRequest d with rect := ⟨x, y, 0, 0⟩, text := text, bgColor := bg, color := fg }
    winAutoclipBtext

def winChr (d : Desktop) (curr : Nat) (wd : Int) (c : Nat) (x y : Int) (ch : Byte) : Paint :=
  winAutoclip d curr wd { noRequest d with rect := ⟨x, y, 0, 0⟩, ch := ch, color := c } winAutoclipChr

def winBchr (d : Desktop) (curr : Nat) (wd : Int) (bg fg : Nat) (x y : Int) (ch : Byte) : Paint :=
  winAutoclip d curr wd { noRequest d with rect := ⟨x, y, 0, 0⟩, ch := ch, bgColor := bg, color := fg } winAutoclipBchr

def winBitmap (d : Desktop) (curr : Nat) (wd : Int) (bmp : Nat → Nat) (x y w h : Int) : Paint :=
  winAutoclip d curr wd { noRequest d with rect := ⟨x, y, w, h⟩, bitmap := bmp } winAutoclipBitmap

end Wingui
