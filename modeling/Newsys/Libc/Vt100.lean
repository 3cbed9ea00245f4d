import Newsys.Lib.Cells
import Newsys.Libc.Strtol

/- The terminal emulator (lib/vt100/vt100.c). A result `none` stands for an access outside the cells, the flags of the
   lines or the members of the structure, and for a loop that does not stop. -/
namespace Vt100
open Bytes Cells Ints Kern List Option Int
open Libc (chr isdigit)

structure Cell where
  bg : Int
  fg : Int
  ch : Byte
  attr : BitVec 32
  deriving DecidableEq

inductive Vst where
  | character
  | esc
  | csi
  deriving DecidableEq

/-- `struct vt100`; `base` is the address of the cells, and `astray` says that an index outside `args` was used. -/
structure Vt where
  cells : List Cell
  base : Nat
  lineDirty : List Int
  w : Int
  h : Int
  x : Int
  y : Int
  bg : Int
  fg : Int
  attr : BitVec 32
  scrollBottom : Int
  scrollTop : Int
  args : List Int
  argc : Int
  st : Vst
  astray : Bool
  deriving DecidableEq

def bold : BitVec 32 := 1
def invert : BitVec 32 := 2
def underline : BitVec 32 := 4
def blink : BitVec 32 := 8

def dirty (vt : Vt) (i : Int) : Option Vt := do
  let lines ← store vt.lineDirty i fun _ => 1
  pure { vt with lineDirty := lines }

def dirtyTo (vt : Vt) (i stop : Int) : Option Vt := do
  let lines ← storeTo vt.lineDirty i stop fun _ => 1
  pure { vt with lineDirty := lines }

def paint (vt : Vt) (i stop : Int) (f : Cell → Cell) : Option Vt := do
  let cells ← storeTo vt.cells i stop f
  pure { vt with cells := cells }

def memmove (m : Machine) (vt : Vt) (dst src n : Int) : Option Vt := do
  let cells ← move vt.cells dst src ((n * 8 % m.word).toNat / 8)
  pure { vt with cells := cells }

def blank (vt : Vt) : Cell := { attr := vt.attr, bg := vt.bg, fg := vt.fg, ch := chr ' ' }

def arg (vt : Vt) (i : Int) : Option Int := if 0 ≤ i then vt.args[i.toNat]? else none

def count (vt : Vt) : Option Int := if vt.argc > 0 then arg vt 0 else some 1

def vt100Reset (vt : Vt) : Option Vt := do
  let vt ← paint vt 0 (int (vt.w * vt.h)) fun _ => { attr := 0, fg := 7, bg := 0, ch := chr ' ' }
  let vt ← dirtyTo vt 0 vt.h
  pure { vt with scrollBottom := vt.h, scrollTop := 0, st := .character, attr := 0, fg := 7, bg := 0, x := 0, y := 0 }

def vt100Scroll (m : Machine) (vt : Vt) : Option Vt := do
  let vt ← memmove m vt (vt.scrollTop * vt.w) ((vt.scrollTop + 1) * vt.w) ((vt.scrollBottom - vt.scrollTop - 1) * vt.w)
  let vt ← paint vt (vt.w * (vt.scrollBottom - 1)) (vt.w * (vt.scrollBottom - 1) + vt.w) fun _ => blank vt
  let vt ← dirtyTo vt 0 vt.h
  pure { vt with y := vt.y - 1 }

def vt100ScrollDown (m : Machine) (vt : Vt) (y0 y1 cnt : Int) : Option Vt := do
  let vt ← memmove m vt ((y0 + cnt) * vt.w) (y0 * vt.w) ((y1 - y0 - cnt) * vt.w)
  let vt ← paint vt ((y0 + cnt) * vt.w) (y0 * vt.w) fun _ => blank vt
  dirtyTo vt y0 y1

/-- `while (vt->y >= vt->scroll_bottom) vt100_scroll(vt)`, in a number of rounds. -/
def scrollRounds (m : Machine) : Nat → Vt → Option Vt
  | 0, _ => none
  | n + 1, vt => if vt.y ≥ vt.scrollBottom then vt100Scroll m vt >>= scrollRounds m n else some vt

def scrollIn (m : Machine) (vt : Vt) : Option Vt := scrollRounds m ((vt.y - vt.scrollBottom).toNat + 2) vt

def vt100DoPutc (m : Machine) (vt : Vt) (ch : Byte) : Option Vt :=
  if ch = 7 then some vt
  else if ch = chr '\r' then some { vt with x := 0 }
  else if ch = chr '\n' then do
    let vt ← dirty vt vt.y
    let vt ← scrollIn m { vt with y := vt.y + 1 }
    dirty vt vt.y
  else if ch = 8 then dirty { vt with x := if vt.x ≠ 0 then vt.x - 1 else vt.x } vt.y
  else if ch = chr '\t' then dirty { vt with x := int (vt.x - vt.x % 8 + 8) } vt.y
  else
    let ch := if ch = 0 then chr ' ' else ch
    if ch.toNat < 32 then some vt
    else do
      let vt ← scrollIn m (if vt.x ≥ vt.w then { vt with x := 0, y := vt.y + 1 } else vt)
      let vt ← dirty vt vt.y
      let vt ← paint vt (vt.x + vt.y * vt.w) (vt.x + vt.y * vt.w + 1) fun _ => { blank vt with ch := ch }
      pure { vt with x := vt.x + 1 }

/-- The colours and the attributes after one parameter of the command `m`. -/
def modeArg (vt : Vt) (a : Int) : Int × Int × BitVec 32 :=
  if 30 ≤ a ∧ a ≤ 37 then (a - 30, vt.bg, vt.attr)
  else if 40 ≤ a ∧ a ≤ 47 then (vt.fg, a - 40, vt.attr)
  else if a = 0 then (7, 0, 0)
  else if a = 1 then (vt.fg, vt.bg, vt.attr ||| bold)
  else if a = 4 then (vt.fg, vt.bg, vt.attr ||| underline)
  else if a = 5 then (vt.fg, vt.bg, vt.attr ||| blink)
  else if a = 7 then (vt.fg, vt.bg, vt.attr ||| invert)
  else if a = 22 then (vt.fg, vt.bg, vt.attr &&& ~~~bold)
  else if a = 24 then (vt.fg, vt.bg, vt.attr &&& ~~~underline)
  else if a = 25 then (vt.fg, vt.bg, vt.attr &&& ~~~blink)
  else if a = 27 then (vt.fg, vt.bg, vt.attr &&& ~~~invert)
  else if a = 39 then (7, vt.bg, vt.attr)
  else if a = 49 then (vt.fg, 0, vt.attr)
  else (vt.fg, vt.bg, vt.attr)

def modeArgs : Nat → Int → Vt → Option Vt
  | 0, _, vt => some vt
  | n + 1, i, vt => do
    let a ← arg vt i
    let (fg, bg, attr) := modeArg vt a
    modeArgs n (i + 1) { vt with fg := fg, bg := bg, attr := attr }

def doModeCmd (_ : Machine) (vt : Vt) : Option Vt := do
  let vt ← modeArgs vt.argc.toNat 0 vt
  pure { vt with st := .character }

def doHomeCmd (_ : Machine) (vt : Vt) : Option Vt := do
  let y ← (if vt.argc > 0 then (arg vt 0).map fun a => min (max (a - 1) 0) (vt.h - 1) else some 0)
  let x ← (if vt.argc > 1 then (arg vt 1).map fun a => min (max (a - 1) 0) (vt.w - 1) else some 0)
  let vt ← dirty vt vt.y
  dirty { vt with st := .character, x := x, y := y } y

def doClrCmd (m : Machine) (vt : Vt) : Option Vt := do
  let first := ((vt.base + 8 * (vt.x + vt.y * vt.w)) % m.word - vt.base) / 8
  let vt ← paint vt first (int (vt.w * vt.h)) fun _ => blank vt
  dirtyTo vt vt.y vt.h

def lowerMargin (h t a : Int) : Int :=
  let b := if a > h then h else a
  if b ≤ t then t + 1 else b

def doRegionCmd (_ : Machine) (vt : Vt) : Option Vt := do
  let t ← (if vt.argc > 0 then (arg vt 0).map fun a => if a - 1 ≥ vt.h - 1 then vt.h - 2 else a - 1 else some 0)
  let b ← (if vt.argc > 1 then (arg vt 1).map (lowerMargin vt.h t) else some vt.h)
  pure { vt with scrollBottom := b, scrollTop := t }

/-- `mode` is always 0. -/
def doEraseLineCmd (_ : Machine) (vt : Vt) : Option Vt := do
  let vt ← paint vt (vt.y * vt.w + vt.x) (vt.y * vt.w + vt.w) fun c => { c with ch := chr ' ' }
  dirty vt vt.y

def doMoveUpCmd (_ : Machine) (vt : Vt) : Option Vt := do
  let n ← count vt
  if n < 1 then pure vt
  else do
    let vt ← dirty vt vt.y
    let vt := { vt with y := if n > vt.y then 0 else vt.y - n }
    dirty vt vt.y

def doMoveDownCmd (_ : Machine) (vt : Vt) : Option Vt := do
  let n ← count vt
  if n < 1 then pure vt
  else do
    let vt ← dirty vt vt.y
    let vt := { vt with y := if int (vt.y + n) ≥ vt.h then vt.h - 1 else vt.y + n }
    dirty vt vt.y

def doMoveRightCmd (_ : Machine) (vt : Vt) : Option Vt := do
  let n ← count vt
  let x := int (vt.x + n)
  dirty { vt with x := if x ≥ vt.w then vt.w - 1 else x } vt.y

def doMoveLeftCmd (_ : Machine) (vt : Vt) : Option Vt := do
  let n ← count vt
  dirty { vt with x := if vt.x - n < 0 then 0 else vt.x - n } vt.y

def doSetCmd (_ : Machine) (vt : Vt) : Option Vt := some vt

def doResetCmd (_ : Machine) (vt : Vt) : Option Vt := some vt

/-- `do_insert_cmd` and `do_remove_cmd`, which differ in what they move and in what they paint then. -/
def lines (m : Machine) (insert : Bool) (vt : Vt) : Option Vt :=
  if vt.y < vt.scrollTop ∨ vt.y ≥ vt.scrollBottom then some vt
  else do
    let cnt ← count vt
    let vt ← (if int (vt.y + cnt) > vt.scrollBottom then
        paint vt (vt.y * vt.w) (vt.scrollBottom * vt.w) fun _ => blank vt
      else if insert then do
        let vt ← memmove m vt ((vt.y + cnt) * vt.w) (vt.y * vt.w) ((vt.scrollBottom - vt.y - cnt) * vt.w)
        paint vt (vt.y * vt.w) ((vt.y + cnt) * vt.w) fun _ => blank vt
      else memmove m vt (vt.y * vt.w) ((vt.y + cnt) * vt.w) ((vt.scrollBottom - vt.y - cnt) * vt.w))
    let vt ← dirtyTo vt vt.y vt.scrollBottom
    pure { vt with x := 0 }

def doInsertCmd (m : Machine) (vt : Vt) : Option Vt := lines m true vt

def doRemoveCmd (m : Machine) (vt : Vt) : Option Vt := lines m false vt

def clearedCell : Cell := { attr := 0, bg := 0, fg := 0, ch := chr ' ' }

def doInsertChrCmd (m : Machine) (vt : Vt) : Option Vt := do
  let cnt ← count vt
  let cnt := if cnt = 0 then 1 else cnt
  let cnt := if int (vt.x + cnt) > vt.w then vt.w - vt.x else cnt
  let vt ← memmove m vt (vt.y * vt.w + vt.x + cnt) (vt.y * vt.w + vt.x) (vt.w - vt.x - cnt)
  paint vt (vt.y * vt.w + vt.x) (vt.y * vt.w + (vt.x + cnt)) fun _ => clearedCell

def doDeleteChrCmd (m : Machine) (vt : Vt) : Option Vt := do
  let cnt ← count vt
  let cnt := if int (vt.x + cnt) > vt.w then vt.w - vt.x else cnt
  let vt ← memmove m vt (vt.y * vt.w + vt.x) (vt.y * vt.w + vt.x + cnt) (vt.w - vt.x - cnt)
  paint vt (vt.y * vt.w + (vt.w - cnt)) (vt.y * vt.w + vt.w) fun _ => clearedCell

def csiCmd : List (Byte × (Machine → Vt → Option Vt)) :=
  [(chr 'm', doModeCmd), (chr 'H', doHomeCmd), (chr 'J', doClrCmd), (chr 'r', doRegionCmd), (chr 'K', doEraseLineCmd),
    (chr 'A', doMoveUpCmd), (chr 'B', doMoveDownCmd), (chr 'C', doMoveRightCmd), (chr 'D', doMoveLeftCmd),
    (chr 'h', doSetCmd), (chr 'l', doResetCmd), (chr 'L', doInsertCmd), (chr 'M', doRemoveCmd),
    (chr '@', doInsertChrCmd), (chr 'P', doDeleteChrCmd)]

def doEsmM (m : Machine) (vt : Vt) : Option Vt :=
  if vt.y < vt.scrollTop then some vt
  else if vt.y > vt.scrollTop then do
    let vt ← dirty vt vt.y
    dirty { vt with y := vt.y - 1 } (vt.y - 1)
  else vt100ScrollDown m vt vt.scrollTop vt.scrollBottom 1

def esmCmd : List (Byte × (Machine → Vt → Option Vt)) := [(chr 'M', doEsmM)]

def dispatch (table : List (Byte × (Machine → Vt → Option Vt))) (m : Machine) (vt : Vt) (ch : Byte) : Option Vt :=
  match table.find? fun cmd => cmd.1 = ch with
  | some cmd => cmd.2 m vt
  | none => some vt

def putcCharacter (m : Machine) (vt : Vt) (ch : Byte) : Option Vt :=
  if ch = 27 then some { vt with st := .esc }
  else if ch = chr '[' + 0x40 then some { vt with st := .csi, args := vt.args.set 0 0, argc := 0 }
  else if ch = chr 'M' + 0x40 then doEsmM m vt
  else vt100DoPutc m vt ch

def controls : List Byte := [chr 'D', chr 'E', chr 'H', chr 'M', chr 'N', chr 'O', chr 'P', chr '[', chr '\\']

/-- Reads `args[argc - 1]`; the member in front of `args` is `scroll_top`. -/
def lastArg (vt : Vt) : Option (Int × Vt) :=
  if vt.argc = 0 then some (vt.scrollTop, { vt with astray := true })
  else do
    let a ← arg vt (vt.argc - 1)
    pure (a, vt)

def setArg (vt : Vt) (i a : Int) : Option Vt := do
  let args ← store vt.args i fun _ => a
  pure { vt with args := args }

def putcCsi (m : Machine) (vt : Vt) (ch : Byte) : Option Vt :=
  if isdigit ch then
    if vt.argc ≤ 8 then do
      let (last, vt) ← lastArg vt
      if last < 1000 then do
        let vt := { vt with argc := if vt.argc = 0 then 1 else vt.argc }
        let a ← arg vt (vt.argc - 1)
        setArg vt (vt.argc - 1) (a * 10 + (ch.toNat - (chr '0').toNat : Nat))
      else pure vt
    else some vt
  else if ch = chr ';' then
    if vt.argc ≤ 8 then setArg { vt with argc := vt.argc + 1 } vt.argc 0 else some vt
  else do
    let vt ← dispatch csiCmd m vt ch
    pure { vt with st := .character }

def vt100Putc (m : Machine) (vt : Vt) (ch : Byte) : Option Vt :=
  match vt.st with
  | .character => putcCharacter m vt ch
  | .esc =>
    if ch ∈ controls then putcCharacter m { vt with st := .character } (ch + 0x40)
    else do
      let vt ← dispatch esmCmd m vt ch
      pure { vt with st := .character }
  | .csi => putcCsi m vt ch

def vt100Puts (m : Machine) : Vt → List Byte → Option Vt
  | vt, [] => some vt
  | vt, ch :: rest => do
    let vt ← vt100Putc m vt ch
    vt100Puts m vt rest

def vt100Creat (vt : Vt) (w h : Int) : Option Vt := vt100Reset { vt with w := w, h := h }

def Malloced (m : Machine) (vt : Vt) (w h : Int) : Prop :=
  (vt.cells.length : Int) = 8 * w * h % m.word / 8 ∧ (vt.lineDirty.length : Int) = 4 * h % m.word / 4 ∧
    vt.args.length = 8 ∧ vt.astray = false

/- What holds of a terminal -/

structure Geometry (m : Machine) (vt : Vt) : Prop where
  cells : (vt.cells.length : Int) = vt.w * vt.h
  lines : (vt.lineDirty.length : Int) = vt.h
  width : 1 ≤ vt.w
  height : 1 ≤ vt.h
  int : vt.w * vt.h < 2 ^ 31
  size : 8 * (vt.w * vt.h) < m.word
  top : 0 ≤ vt.scrollTop
  region : vt.scrollTop < vt.scrollBottom
  bottom : vt.scrollBottom ≤ vt.h
  args : vt.args.length = 8

/-- While parameters are collected, those up to `argc` are small, and the first is 0 where there is none yet. -/
def ArgsOk (vt : Vt) : Prop :=
  0 ≤ vt.argc ∧ vt.argc ≤ 8 ∧ (∀ i, 0 ≤ i → i < vt.argc → ∃ a, arg vt i = some a ∧ 0 ≤ a ∧ a < 10000) ∧
    (vt.argc = 0 → arg vt 0 = some 0)

structure Placed (m : Machine) (vt : Vt) : Prop extends Geometry m vt where
  row : 0 ≤ vt.y ∧ vt.y < vt.h
  column : 0 ≤ vt.x
  params : vt.st = .csi → ArgsOk vt

/-- Margins can be set as well: a region has two lines. -/
structure Valid (m : Machine) (vt : Vt) : Prop extends Placed m vt where
  tall : 2 ≤ vt.h

def Ends (r : Option Vt) (Q : Vt → Prop) : Prop := ∃ vt, r = some vt ∧ Q vt

variable {Q : Vt → Prop}

theorem Ends.bind (ends : Ends r P) (next : ∀ vt, P vt → Ends (f vt) Q) : Ends (r >>= f) Q := by
  obtain ⟨vt, rfl, p⟩ := ends
  exact next vt p

variable {vt : Vt}

theorem Ends.pure (q : Q vt) : Ends (some vt) Q := ⟨vt, rfl, q⟩

theorem Ends.mono (ends : Ends r P) (imp : ∀ vt, P vt → Q vt) : Ends r Q := by
  obtain ⟨vt, eq, p⟩ := ends
  exact ⟨vt, eq, imp vt p⟩

def Redrawn (vt vt' : Vt) : Prop :=
  ∃ cells lines, vt' = { vt with cells := cells, lineDirty := lines } ∧ cells.length = vt.cells.length ∧
    lines.length = vt.lineDirty.length

variable {m : Machine} {vt' : Vt}

theorem Redrawn.geometry (redrawn : Redrawn vt vt') (g : Geometry m vt) : Geometry m vt' := by
  obtain ⟨cells, lines, rfl, same, same'⟩ := redrawn
  exact { g with cells := by rw [same]; exact g.cells, lines := by rw [same']; exact g.lines }

theorem Redrawn.valid (redrawn : Redrawn vt vt') (v : Valid m vt) : Valid m vt' := by
  obtain ⟨cells, lines, rfl, same, same'⟩ := redrawn
  exact { v with cells := by rw [same]; exact v.cells, lines := by rw [same']; exact v.lines }

theorem Redrawn.trans {a b c : Vt} (first : Redrawn a b) (second : Redrawn b c) : Redrawn a c := by
  obtain ⟨cells, lines, rfl, same, same'⟩ := first
  obtain ⟨cells', lines', rfl, eq, eq'⟩ := second
  exact ⟨cells', lines', rfl, eq.trans same, eq'.trans same'⟩

section Primitives
variable {m : Machine} {vt : Vt} (g : Geometry m vt)
include g

variable {i : Int}

theorem dirty_ends (low : 0 ≤ i) (high : i < vt.h) : Ends (dirty vt i) (Redrawn vt) := by
  obtain ⟨lines, eq, length⟩ := @store_some _ vt.lineDirty _ (fun _ => 1) low (by rw [g.lines]; exact high)
  exact ⟨_, by rw [dirty, eq]; rfl, vt.cells, lines, rfl, rfl, length⟩

theorem dirtyTo_ends (low : 0 ≤ i) (high : stop ≤ vt.h) : Ends (dirtyTo vt i stop) (Redrawn vt) := by
  obtain ⟨lines, eq, length⟩ := @storeTo_some _ vt.lineDirty i stop (fun _ => 1)
    fun _ => ⟨low, by rw [g.lines]; exact high⟩
  exact ⟨_, by rw [dirtyTo, eq]; rfl, vt.cells, lines, rfl, rfl, length⟩

theorem paint_ends (f : Cell → Cell) (inside : i < stop → 0 ≤ i ∧ stop ≤ vt.w * vt.h) :
    Ends (paint vt i stop f) (Redrawn vt) := by
  obtain ⟨cells, eq, length⟩ := @storeTo_some _ vt.cells i stop f
    (by rw [g.cells]; exact inside)
  exact ⟨_, by rw [paint, eq]; rfl, cells, vt.lineDirty, rfl, length, rfl⟩

theorem memmove_ends {dst src n : Int} (pos : 0 ≤ n)
    (inside : 0 < n → 0 ≤ src ∧ src + n ≤ vt.w * vt.h ∧ 0 ≤ dst ∧ dst + n ≤ vt.w * vt.h) :
    Ends (memmove m vt dst src n) (Redrawn vt) := by
  have size := g.size
  have whole : (n * 8 % m.word).toNat / 8 = n.toNat := by
    rw [emod_eq_of_lt (by omega)]
    · omega
    · have word := m.word_large
      by_cases none : n = 0
      · omega
      · have fits := inside (by omega)
        omega
  obtain ⟨cells, eq, length⟩ := @move_some _ vt.cells dst src n.toNat
    (by rw [g.cells]; intro more; have fits := inside (by omega); omega)
  exact ⟨_, by rw [memmove, whole, eq]; rfl, cells, vt.lineDirty, rfl, length, rfl⟩

theorem rows_inside (low : 0 ≤ a) (le : a ≤ b) (high : b ≤ vt.h) :
    0 ≤ a * vt.w ∧ a * vt.w ≤ b * vt.w ∧ b * vt.w ≤ vt.w * vt.h := by
  have width := g.width
  have first := mul_nonneg low (show 0 ≤ vt.w by omega)
  have second := mul_le_mul_of_nonneg_right le (show 0 ≤ vt.w by omega)
  have third := mul_le_mul_of_nonneg_right high (show 0 ≤ vt.w by omega)
  rw [mul_comm vt.h] at third
  exact ⟨first, second, third⟩

end Primitives

theorem vt100Scroll_ends (g : Geometry m vt) :
    Ends (vt100Scroll m vt) fun vt' => ∃ u, Redrawn vt u ∧ vt' = { u with y := vt.y - 1 } := by
  have top := g.top
  have region := g.region
  have upper := rows_inside g (a := vt.scrollTop) (b := vt.scrollTop + 1) (by omega) (by omega) (by have := g.bottom; omega)
  have lower := rows_inside g (a := vt.scrollBottom - 1) (b := vt.scrollBottom) (by omega) (by omega) g.bottom
  have gap := rows_inside g (a := 0) (b := vt.scrollBottom - vt.scrollTop - 1) (by omega) (by omega)
    (by have := g.bottom; omega)
  have sum : (vt.scrollTop + 1) * vt.w + (vt.scrollBottom - vt.scrollTop - 1) * vt.w = vt.scrollBottom * vt.w := by ring
  have last : (vt.scrollBottom - 1) * vt.w + vt.w = vt.scrollBottom * vt.w := by ring
  unfold vt100Scroll
  refine (memmove_ends g (by omega) fun _ => by omega).bind ?_
  intro a first
  have ga := first.geometry g
  obtain ⟨_, _, rfl, _, _⟩ := id first
  dsimp only
  rw [mul_comm vt.w]
  refine (paint_ends ga _ fun _ => by dsimp only; omega).bind ?_
  intro b second
  have gb := second.geometry ga
  obtain ⟨_, _, rfl, _, _⟩ := id second
  refine (dirtyTo_ends gb (le_refl _) (le_refl _)).bind ?_
  intro c third
  refine Ends.pure ⟨c, (first.trans second).trans third, ?_⟩
  obtain ⟨_, _, rfl, _, _⟩ := third
  rfl

theorem scrollRounds_ends (g : Geometry m vt) (n : Nat) (enough : vt.y - vt.scrollBottom + 1 < n) (pos : 0 < n) :
    Ends (scrollRounds m n vt) fun vt' =>
      ∃ u, Redrawn vt u ∧ vt' = { u with y := min vt.y (vt.scrollBottom - 1) } := by
  induction n generalizing vt with
  | zero => omega
  | succ n ih =>
    rw [scrollRounds]
    split
    · refine (vt100Scroll_ends g).bind ?_
      rintro _ ⟨u, redrawn, rfl⟩
      obtain ⟨cells, lines, rfl, same, same'⟩ := id redrawn
      have gu := redrawn.geometry g
      have rest := @ih { vt with cells := cells, lineDirty := lines, y := vt.y - 1 } { gu with }
        (by simp only; omega) (by omega)
      refine rest.mono ?_
      rintro _ ⟨v, again, rfl⟩
      obtain ⟨cells', lines', rfl, eq, eq'⟩ := again
      refine ⟨{ vt with cells := cells', lineDirty := lines' }, ⟨cells', lines', rfl, eq.trans same, eq'.trans same'⟩, ?_⟩
      simp only [Vt.mk.injEq, true_and, and_true]
      omega
    · refine Ends.pure ⟨vt, ⟨vt.cells, vt.lineDirty, rfl, rfl, rfl⟩, ?_⟩
      obtain eq : min vt.y (vt.scrollBottom - 1) = vt.y := by omega
      rw [eq]

theorem scrollIn_ends (g : Geometry m vt) :
    Ends (scrollIn m vt) fun vt' => ∃ u, Redrawn vt u ∧ vt' = { u with y := min vt.y (vt.scrollBottom - 1) } :=
  scrollRounds_ends g _ (by omega) (by omega)

/-- What a command leaves: a terminal that holds what it held, and no stray index. -/
def After (m : Machine) (vt vt' : Vt) : Prop := Valid m vt' ∧ vt'.astray = vt.astray

theorem After.redrawn (after : After m vt vt') (redrawn : Redrawn vt' vt'') : After m vt vt'' := by
  refine ⟨redrawn.valid after.1, ?_⟩
  obtain ⟨_, _, rfl, _, _⟩ := redrawn
  exact after.2

theorem Valid.after (v : Valid m vt) : After m vt vt := ⟨v, rfl⟩

theorem dirty_after (after : After m vt vt') (y : Int) (row : y = vt'.y) : Ends (dirty vt' y) (After m vt) := by
  rw [row]
  exact (dirty_ends after.1.toGeometry after.1.row.1 after.1.row.2).mono fun _ redrawn => after.redrawn redrawn

section Characters
variable {m : Machine} {vt : Vt} (v : Valid m vt)
include v

theorem placed (redrawn : Redrawn vt u) (x y : Int) (column : 0 ≤ x) (row : 0 ≤ y ∧ y < vt.h) :
    After m vt { u with x := x, y := y } := by
  have gu := redrawn.geometry v.toGeometry
  obtain ⟨_, _, rfl, _, _⟩ := redrawn
  exact ⟨{ gu with column, row, params := v.params, tall := v.tall }, rfl⟩

theorem moved (x y : Int) (column : 0 ≤ x) (row : 0 ≤ y ∧ y < vt.h) : After m vt { vt with x := x, y := y } :=
  placed v ⟨vt.cells, vt.lineDirty, rfl, rfl, rfl⟩ x y column row

theorem scrolled (x y : Int) (column : 0 ≤ x) (low : 0 ≤ y) :
    Ends (scrollIn m { vt with x := x, y := y }) fun vt' => After m vt vt' ∧ vt'.x = x ∧ vt'.w = vt.w ∧ vt'.h = vt.h := by
  have region := v.region
  have top := v.top
  have bottom := v.bottom
  have g : Geometry m { vt with x := x, y := y } := { v.toGeometry with }
  refine (scrollIn_ends g).mono ?_
  rintro _ ⟨u, redrawn, rfl⟩
  have gu := redrawn.geometry g
  obtain ⟨cells, lines, rfl, _, _⟩ := redrawn
  exact ⟨⟨{ gu with row := by dsimp only; omega, column, params := v.params, tall := v.tall }, rfl⟩, rfl, rfl, rfl⟩

theorem putc_after (ch : Byte) (tab : ch = chr '\t' → vt.x - vt.x % 8 + 8 < 2 ^ 31) :
    Ends (vt100DoPutc m vt ch) (After m vt) := by
  have row := v.row
  have column := v.column
  unfold vt100DoPutc
  split
  · exact Ends.pure v.after
  split
  · exact Ends.pure (moved v 0 vt.y (le_refl _) row)
  split
  · refine (dirty_ends v.toGeometry row.1 row.2).bind ?_
    intro a first
    have va := first.valid v
    obtain ⟨_, _, rfl, _, _⟩ := first
    refine (scrolled va vt.x (vt.y + 1) column (by omega)).bind ?_
    intro b second
    exact dirty_after second.1 _ rfl
  split
  · refine dirty_after (moved v _ vt.y ?_ row) _ rfl
    split <;> omega
  split
  · rename_i is
    refine dirty_after (moved v _ vt.y ?_ row) _ rfl
    rw [int_eq (by omega) (tab is)]
    omega
  generalize (if ch = 0 then chr ' ' else ch) = shown
  dsimp only
  split
  · exact Ends.pure v.after
  obtain ⟨x, y, eq, inside, low⟩ : ∃ x y, (if vt.x ≥ vt.w then { vt with x := 0, y := vt.y + 1 } else vt) =
      { vt with x := x, y := y } ∧ (0 ≤ x ∧ x < vt.w) ∧ 0 ≤ y := by
    have width := v.width
    split
    · exact ⟨0, vt.y + 1, rfl, by omega, by omega⟩
    · exact ⟨vt.x, vt.y, rfl, by omega, row.1⟩
  rw [eq]
  refine (scrolled v x y inside.1 low).bind ?_
  rintro a ⟨first, at_x, same_w, same_h⟩
  refine (dirty_ends first.1.toGeometry first.1.row.1 first.1.row.2).bind ?_
  intro b second
  have after := first.redrawn second
  obtain ⟨_, _, rfl, _, _⟩ := id second
  have rows := rows_inside first.1.toGeometry (a := a.y) (b := a.y + 1) first.1.row.1 (by omega)
    (by have := first.1.row.2; omega)
  rw [add_mul, one_mul] at rows
  refine (paint_ends after.1.toGeometry _ fun _ => by dsimp only; omega).bind ?_
  intro c third
  have last := after.redrawn third
  have column' := last.1.column
  exact Ends.pure ⟨{ last.1 with column := by dsimp only; omega }, last.2⟩

theorem esmM_after : Ends (doEsmM m vt) (After m vt) := by
  have row := v.row
  have column := v.column
  have top := v.top
  have region := v.region
  have bottom := v.bottom
  unfold doEsmM
  split
  · exact Ends.pure v.after
  split
  · refine (dirty_ends v.toGeometry row.1 row.2).bind ?_
    intro a first
    have va := first.valid v
    obtain ⟨_, _, rfl, _, _⟩ := first
    exact dirty_after (moved va vt.x (vt.y - 1) column (by dsimp only; omega)) _ rfl
  unfold vt100ScrollDown
  have upper := rows_inside v.toGeometry (a := vt.scrollTop) (b := vt.scrollTop + 1) top (by omega) (by omega)
  have gap := rows_inside v.toGeometry (a := 0) (b := vt.scrollBottom - vt.scrollTop - 1) (by omega) (by omega) (by omega)
  have lower := rows_inside v.toGeometry (a := vt.scrollTop) (b := vt.scrollBottom) top (by omega) bottom
  have sum : (vt.scrollTop + 1) * vt.w + (vt.scrollBottom - vt.scrollTop - 1) * vt.w = vt.scrollBottom * vt.w := by ring
  refine (memmove_ends v.toGeometry (by omega) fun _ => by omega).bind ?_
  intro a first
  have va := first.valid v
  obtain ⟨_, _, rfl, _, _⟩ := id first
  dsimp only
  refine (paint_ends va.toGeometry _ fun more => by dsimp only; omega).bind ?_
  intro b second
  refine (dirtyTo_ends (second.valid va).toGeometry top ?_).mono ?_
  · obtain ⟨_, _, rfl, _, _⟩ := second
    exact bottom
  · intro c third
    exact v.after.redrawn ((first.trans second).trans third)

end Characters

def param (vt : Vt) : Int := if vt.argc > 0 then vt.args.headD 0 else 1

section Commands
variable {m : Machine} {vt : Vt} (v : Valid m vt) (collects : vt.st = .csi)
include v

omit v in
theorem arg_some (eq : arg vt i = some a) (i_zero : i = 0) : vt.args.headD 0 = a := by
  subst i_zero
  rw [arg, if_pos (by decide)] at eq
  cases args : vt.args with
  | nil => simp [args] at eq
  | cons b rest =>
    rw [args] at eq
    exact some.inj eq

theorem blankRows (low : 0 ≤ a) (high : b ≤ vt.h) :
    Ends (paint vt (a * vt.w) (b * vt.w) fun _ => blank vt) (Redrawn vt) := by
  refine paint_ends v.toGeometry _ fun more => ?_
  by_cases le : a ≤ b
  · have rows := rows_inside v.toGeometry low le high
    omega
  · have width := v.width
    have back := mul_le_mul_of_nonneg_right (show b ≤ a by omega) (show 0 ≤ vt.w by omega)
    omega

theorem clr_after (fits : vt.base + 8 * (vt.x + vt.y * vt.w) < m.word) : Ends (doClrCmd m vt) (After m vt) := by
  have row := v.row
  have column := v.column
  have rows := rows_inside v.toGeometry (a := vt.y) (b := vt.h) row.1 (by omega) (le_refl _)
  unfold doClrCmd
  rw [emod_eq_of_lt (by omega) fits, int_eq (by omega) v.int]
  dsimp only
  refine (paint_ends v.toGeometry _ fun more => ?_).bind ?_
  · omega
  intro a first
  refine (dirtyTo_ends (first.geometry v.toGeometry) ?_ ?_).mono fun _ second => v.after.redrawn (first.trans second)
  · obtain ⟨_, _, rfl, _, _⟩ := first
    exact row.1
  · obtain ⟨_, _, rfl, _, _⟩ := first
    exact le_refl _

theorem eraseLine_after : Ends (doEraseLineCmd m vt) (After m vt) := by
  have column := v.column
  have rows := rows_inside v.toGeometry (a := vt.y) (b := vt.y + 1) v.row.1 (by omega) (by have := v.row; omega)
  rw [add_mul, one_mul] at rows
  unfold doEraseLineCmd
  refine (paint_ends v.toGeometry _ fun more => by omega).bind ?_
  intro a first
  exact dirty_after (v.after.redrawn first) _ rfl

theorem chars_moved (cnt dst src : Int) (clipped : vt.x + cnt ≤ vt.w)
    (ends : 0 < vt.w - vt.x - cnt → (vt.y * vt.w + vt.x ≤ dst ∧ dst ≤ vt.y * vt.w + vt.x + cnt) ∧
      vt.y * vt.w + vt.x ≤ src ∧ src ≤ vt.y * vt.w + vt.x + cnt) :
    Ends (memmove m vt dst src (vt.w - vt.x - cnt)) (Redrawn vt) := by
  have column := v.column
  have rows := rows_inside v.toGeometry (a := vt.y) (b := vt.y + 1) v.row.1 (by omega) (by have := v.row; omega)
  rw [add_mul, one_mul] at rows
  exact memmove_ends v.toGeometry (by omega) fun more => by have := ends more; omega

theorem chars_painted (f : Cell → Cell) (i stop : Int) (row : i < stop → vt.y * vt.w ≤ i ∧ stop ≤ vt.y * vt.w + vt.w) :
    Ends (paint vt i stop f) (Redrawn vt) := by
  have rows := rows_inside v.toGeometry (a := vt.y) (b := vt.y + 1) v.row.1 (by omega) (by have := v.row; omega)
  rw [add_mul, one_mul] at rows
  exact paint_ends v.toGeometry f fun more => by have := row more; omega

include collects

omit v collects in
theorem param_eq (params : vt.st = .csi → ArgsOk vt) (collects : vt.st = .csi) :
    count vt = some (param vt) ∧ 0 ≤ param vt ∧ param vt < 10000 := by
  obtain ⟨_, _, small, _⟩ := params collects
  rw [count, param]
  split
  · obtain ⟨a, eq, bound⟩ := small 0 (le_refl _) (by omega)
    rw [eq, arg_some eq rfl]
    exact ⟨rfl, bound⟩
  · exact ⟨rfl, by decide, by decide⟩

theorem moveUp_after : Ends (doMoveUpCmd m vt) (After m vt) := by
  have row := v.row
  obtain ⟨eq, low, _⟩ := param_eq v.params collects
  unfold doMoveUpCmd
  rw [eq, bind_eq_bind, bind_some]
  split
  · exact Ends.pure v.after
  refine (dirty_ends v.toGeometry row.1 row.2).bind ?_
  intro a first
  have va := first.valid v
  obtain ⟨_, _, rfl, _, _⟩ := first
  refine dirty_after (moved va vt.x _ v.column ?_) _ rfl
  dsimp only
  split <;> omega

theorem moveDown_after (fits : vt.y + param vt < 2 ^ 31) : Ends (doMoveDownCmd m vt) (After m vt) := by
  have row := v.row
  obtain ⟨eq, low, _⟩ := param_eq v.params collects
  unfold doMoveDownCmd
  rw [eq, bind_eq_bind, bind_some]
  split
  · exact Ends.pure v.after
  refine (dirty_ends v.toGeometry row.1 row.2).bind ?_
  intro a first
  have va := first.valid v
  obtain ⟨_, _, rfl, _, _⟩ := first
  refine dirty_after (moved va vt.x _ v.column ?_) _ rfl
  dsimp only
  rw [int_eq (by omega) fits]
  split <;> omega

theorem moveRight_after (fits : vt.x + param vt < 2 ^ 31) : Ends (doMoveRightCmd m vt) (After m vt) := by
  have column := v.column
  have width := v.width
  obtain ⟨eq, low, _⟩ := param_eq v.params collects
  unfold doMoveRightCmd
  rw [eq, bind_eq_bind, bind_some, int_eq (by omega) fits]
  refine dirty_after (moved v _ vt.y ?_ v.row) _ rfl
  split <;> omega

theorem moveLeft_after : Ends (doMoveLeftCmd m vt) (After m vt) := by
  obtain ⟨eq, low, _⟩ := param_eq v.params collects
  unfold doMoveLeftCmd
  rw [eq, bind_eq_bind, bind_some]
  refine dirty_after (moved v _ vt.y ?_ v.row) _ rfl
  split <;> omega

theorem home_after : Ends (doHomeCmd m vt) (After m vt) := by
  have width := v.width
  have height := v.height
  obtain ⟨low, high, small, _⟩ := v.params collects
  obtain ⟨y, eq_y, row⟩ : ∃ y, (if vt.argc > 0 then (arg vt 0).map fun a => min (max (a - 1) 0) (vt.h - 1)
      else some 0) = some y ∧ 0 ≤ y ∧ y < vt.h := by
    split
    · obtain ⟨a, eq, _⟩ := small 0 (le_refl _) (by omega)
      exact ⟨_, by rw [eq]; rfl, by dsimp only; omega, by dsimp only; omega⟩
    · exact ⟨0, rfl, by omega, by omega⟩
  obtain ⟨x, eq_x, column⟩ : ∃ x, (if vt.argc > 1 then (arg vt 1).map fun a => min (max (a - 1) 0) (vt.w - 1)
      else some 0) = some x ∧ 0 ≤ x := by
    split
    · obtain ⟨a, eq, _⟩ := small 1 (by decide) (by omega)
      exact ⟨_, by rw [eq]; rfl, by dsimp only; omega⟩
    · exact ⟨0, rfl, le_refl _⟩
  unfold doHomeCmd
  rw [eq_y, eq_x]
  refine (dirty_ends v.toGeometry v.row.1 v.row.2).bind ?_
  intro a first
  have va := first.valid v
  obtain ⟨cells, flags, rfl, _, _⟩ := first
  have after := moved va x y column row
  exact @dirty_after _ _ { vt with cells := cells, lineDirty := flags, st := .character, x := x, y := y }
    ⟨{ after.1 with params := nofun }, rfl⟩ _ rfl

theorem region_after (first : vt.argc > 0 → 1 ≤ param vt) : Ends (doRegionCmd m vt) (After m vt) := by
  have height := v.tall
  obtain ⟨low, high, small, _⟩ := v.params collects
  obtain ⟨t, eq_t, margin⟩ : ∃ t, (if vt.argc > 0 then
      (arg vt 0).map fun a => if a - 1 ≥ vt.h - 1 then vt.h - 2 else a - 1 else some 0) = some t ∧
        0 ≤ t ∧ t < vt.h - 1 := by
    split
    · rename_i more
      obtain ⟨a, eq, _⟩ := small 0 (le_refl _) (by omega)
      have one := first more
      rw [param, if_pos more, arg_some eq rfl] at one
      refine ⟨_, by rw [eq]; rfl, ?_⟩
      dsimp only
      split <;> omega
    · exact ⟨0, rfl, by omega, by omega⟩
  obtain ⟨b, eq_b, below⟩ : ∃ b, (if vt.argc > 1 then (arg vt 1).map (lowerMargin vt.h t) else some vt.h) =
      some b ∧ t < b ∧ b ≤ vt.h := by
    split
    · obtain ⟨a, eq, _⟩ := small 1 (by decide) (by omega)
      refine ⟨_, by rw [eq]; rfl, ?_⟩
      simp only [lowerMargin]
      split_ifs <;> omega
    · exact ⟨vt.h, rfl, by omega, by omega⟩
  unfold doRegionCmd
  rw [eq_t, bind_eq_bind, bind_some, eq_b]
  exact Ends.pure ⟨{ v with top := margin.1, region := below.1, bottom := below.2 }, rfl⟩

theorem mode_after : Ends (doModeCmd m vt) (After m vt) := by
  obtain ⟨low, high, small, _⟩ := v.params collects
  have args : ∀ (n : Nat) (i : Int) (u : Vt), 0 ≤ i → i + n ≤ vt.argc → After m vt u → u.args = vt.args →
      Ends (modeArgs n i u) (After m vt) := by
    intro n
    induction n with
    | zero => exact fun i u _ _ after _ => Ends.pure after
    | succ n ih =>
      intro i u pos below after same
      obtain ⟨a, eq, _⟩ := small i pos (by omega)
      have here : arg u i = some a := by rw [← eq, arg, arg, same]
      rw [modeArgs, here, bind_eq_bind, bind_some]
      exact ih (i + 1) _ (by omega) (by omega) ⟨{ after.1 with }, after.2⟩ same
  unfold doModeCmd
  refine (args _ 0 vt (le_refl _) (by omega) v.after rfl).bind ?_
  intro u after
  exact Ends.pure ⟨{ after.1 with params := nofun }, after.2⟩

theorem lines_after (insert : Bool) (fits : vt.scrollTop ≤ vt.y → vt.y < vt.scrollBottom → vt.y + param vt < 2 ^ 31) :
    Ends (lines m insert vt) (After m vt) := by
  have row := v.row
  have bottom := v.bottom
  obtain ⟨eq, low, _⟩ := param_eq v.params collects
  unfold lines
  split
  · exact Ends.pure v.after
  rename_i inside
  rw [eq, bind_eq_bind, bind_some, int_eq (by omega) (fits (by omega) (by omega))]
  have last : ∀ u, Redrawn vt u → Ends (do
      let vt ← dirtyTo u u.y u.scrollBottom
      pure { vt with x := 0 }) (After m vt) := by
    intro u redrawn
    refine (dirtyTo_ends (redrawn.geometry v.toGeometry) ?_ (redrawn.geometry v.toGeometry).bottom).bind ?_
    · obtain ⟨_, _, rfl, _, _⟩ := redrawn
      exact row.1
    · intro a second
      have after := v.after.redrawn (redrawn.trans second)
      exact Ends.pure ⟨{ after.1 with column := le_refl _ }, after.2⟩
  refine Ends.bind (P := Redrawn vt) ?_ last
  split
  · exact blankRows v row.1 bottom
  have rows := rows_inside v.toGeometry (a := vt.y) (b := vt.y + param vt) row.1 (by omega) (by omega)
  have gap := rows_inside v.toGeometry (a := 0) (b := vt.scrollBottom - vt.y - param vt) (by omega) (by omega) (by omega)
  have lower := rows_inside v.toGeometry (a := vt.y) (b := vt.scrollBottom) row.1 (by omega) bottom
  have sum : (vt.y + param vt) * vt.w + (vt.scrollBottom - vt.y - param vt) * vt.w = vt.scrollBottom * vt.w := by ring
  split
  · refine (memmove_ends v.toGeometry (by omega) fun _ => by omega).bind ?_
    intro a first
    have va := first.valid v
    refine Ends.mono ?_ fun _ second => first.trans second
    obtain ⟨_, _, rfl, _, _⟩ := first
    exact blankRows va row.1 (by dsimp only; omega)
  · exact memmove_ends v.toGeometry (by omega) fun _ => by omega

theorem insertChr_after (fits : vt.x + max (param vt) 1 < 2 ^ 31) : Ends (doInsertChrCmd m vt) (After m vt) := by
  have column := v.column
  obtain ⟨eq, low, _⟩ := param_eq v.params collects
  unfold doInsertChrCmd
  rw [eq, bind_eq_bind, bind_some]
  obtain ⟨cnt, count, pos⟩ : ∃ cnt, (if param vt = 0 then 1 else param vt) = cnt ∧ 0 < cnt ∧ cnt ≤ max (param vt) 1 := by
    split <;> exact ⟨_, rfl, by omega, by omega⟩
  dsimp only
  rw [count, int_eq (by omega) (by omega)]
  obtain ⟨n, clip, le⟩ : ∃ n, (if vt.x + cnt > vt.w then vt.w - vt.x else cnt) = n ∧ vt.x + n ≤ vt.w ∧
      (0 < n ∨ vt.w - vt.x - n = 0) := by
    split <;> exact ⟨_, rfl, by omega, by omega⟩
  rw [clip]
  refine (chars_moved v n _ _ le.1 (by omega)).bind ?_
  intro a moved
  have va := moved.valid v
  obtain ⟨_, _, rfl, _, _⟩ := id moved
  refine (chars_painted va _ _ _ ?_).mono fun _ painted => v.after.redrawn (moved.trans painted)
  dsimp only
  omega

theorem deleteChr_after (fits : vt.x + param vt < 2 ^ 31) : Ends (doDeleteChrCmd m vt) (After m vt) := by
  have column := v.column
  obtain ⟨eq, low, _⟩ := param_eq v.params collects
  unfold doDeleteChrCmd
  rw [eq, bind_eq_bind, bind_some, int_eq (by omega) fits]
  dsimp only
  obtain ⟨n, clip, le⟩ : ∃ n, (if vt.x + param vt > vt.w then vt.w - vt.x else param vt) = n ∧ vt.x + n ≤ vt.w ∧
      (0 ≤ n ∨ vt.w - vt.x - n = 0) := by
    split <;> exact ⟨_, rfl, by omega, by omega⟩
  rw [clip]
  refine (chars_moved v n _ _ le.1 (by omega)).bind ?_
  intro a moved
  have va := moved.valid v
  obtain ⟨_, _, rfl, _, _⟩ := id moved
  refine (chars_painted va _ _ _ ?_).mono fun _ painted => v.after.redrawn (moved.trans painted)
  dsimp only
  omega

/-- What a byte must not do: more than eight parameters, a margin in front of the first line, and a cursor or a count
    that is out of the range of an `int` or of the address space. -/
def Safe (m : Machine) (vt : Vt) (ch : Byte) : Prop :=
  match vt.st with
  | .character => ch = chr '\t' → vt.x - vt.x % 8 + 8 < 2 ^ 31
  | .esc => True
  | .csi =>
    (ch = chr ';' → vt.argc < 8) ∧
      (ch = chr 'r' → vt.argc > 0 → 1 ≤ param vt) ∧
      (ch = chr 'J' → vt.base + 8 * (vt.x + vt.y * vt.w) < m.word) ∧
      (ch = chr 'B' → vt.y + param vt < 2 ^ 31) ∧
      (ch = chr 'L' ∨ ch = chr 'M' → vt.scrollTop ≤ vt.y → vt.y < vt.scrollBottom → vt.y + param vt < 2 ^ 31) ∧
      (ch = chr 'C' ∨ ch = chr 'P' → vt.x + param vt < 2 ^ 31) ∧
      (ch = chr '@' → vt.x + max (param vt) 1 < 2 ^ 31)

theorem csiCmd_after (ch : Byte) (safe : Safe m vt ch) : Ends (dispatch csiCmd m vt ch) (After m vt) := by
  rw [Safe, collects] at safe
  obtain ⟨_, margin, address, down, rows, right, insert⟩ := safe
  rw [dispatch]
  split
  · rename_i cmd found
    have code : cmd.1 = ch := by simpa using find?_some found
    have mem := mem_of_find?_eq_some found
    subst code
    simp only [csiCmd, mem_cons, not_mem_nil, or_false] at mem
    rcases mem with rfl | rfl | rfl | rfl | rfl | rfl | rfl | rfl | rfl | rfl | rfl | rfl | rfl | rfl | rfl
    · exact mode_after v collects
    · exact home_after v collects
    · exact clr_after v (address rfl)
    · exact region_after v collects (margin rfl)
    · exact eraseLine_after v
    · exact moveUp_after v collects
    · exact moveDown_after v collects (down rfl)
    · exact moveRight_after v collects (right (Or.inl rfl))
    · exact moveLeft_after v collects
    · exact Ends.pure v.after
    · exact Ends.pure v.after
    · exact lines_after v collects true (rows (Or.inl rfl))
    · exact lines_after v collects false (rows (Or.inr rfl))
    · exact insertChr_after v collects (insert rfl)
    · exact deleteChr_after v collects (right (Or.inr rfl))
  · exact Ends.pure v.after

end Commands

/-- A digit that follows the start of the parameters: `args[-1]` is read. -/
def Leading (vt : Vt) (ch : Byte) : Prop := vt.st = .csi ∧ isdigit ch = true ∧ vt.argc = 0

theorem setArg_some (eight : vt.args.length = 8) {i : Int} (low : 0 ≤ i) (high : i < 8) (a : Int) :
    ∃ args, setArg vt i a = some { vt with args := args } ∧ args.length = 8 ∧
      ∀ u : Vt, u.args = args → arg u i = some a ∧ ∀ j, 0 ≤ j → j ≠ i → arg u j = arg vt j := by
  refine ⟨vt.args.modify i.toNat fun _ => a, ?_, by rw [length_modify, eight], ?_⟩
  · rw [setArg, store, if_pos (by omega)]
    rfl
  · intro u same
    have inside : i.toNat < vt.args.length := by omega
    refine ⟨?_, ?_⟩
    · rw [arg, if_pos low, same]
      simp [inside]
    · intro j pos ne
      have apart : i.toNat ≠ j.toNat := by omega
      rw [arg, arg, if_pos pos, if_pos pos, same]
      simp [apart]

theorem stored (v : Valid m vt) {n a : Int} (count : 1 ≤ n ∧ n ≤ 8)
    (fronts : ∀ i, 0 ≤ i → i < n - 1 → ∃ a, arg vt i = some a ∧ 0 ≤ a ∧ a < 10000) (bound : 0 ≤ a ∧ a < 10000)
    (stray : Bool) :
    Ends (setArg { vt with astray := stray, argc := n } (n - 1) a) fun vt' => Valid m vt' ∧ vt'.astray = stray := by
  obtain ⟨args, eq, length, get⟩ := @setArg_some { vt with astray := stray, argc := n } v.args (n - 1)
    (by omega) (by omega) a
  rw [eq]
  refine Ends.pure ⟨{ v with args := length, params := fun _ => ⟨?_, count.2, ?_, ?_⟩ }, rfl⟩
  · dsimp only
    omega
  · intro i pos below
    dsimp only at below
    obtain ⟨here, others⟩ := get { vt with astray := stray, argc := n, args := args } rfl
    by_cases last : i = n - 1
    · subst last
      exact ⟨a, here, bound⟩
    · obtain ⟨b, found, small⟩ := fronts i pos (by omega)
      exact ⟨b, (others i pos last).trans found, small⟩
  · dsimp only
    omega

theorem digit_valid (v : Valid m vt) (collects : vt.st = .csi) (digit : isdigit ch = true) :
    Ends (putcCsi m vt ch) fun vt' => Valid m vt' ∧ (vt'.astray = false ↔ vt.astray = false ∧ ¬ Leading vt ch) := by
  obtain ⟨low, high, small, first⟩ := v.params collects
  have value : (ch.toNat - (chr '0').toNat : Nat) < 10 := by
    have nine : ch ≤ chr '9' := by
      simp only [isdigit, Bool.and_eq_true, decide_eq_true_eq] at digit
      exact digit.2
    have le : ch.toNat ≤ 57 := nine
    have zero : (chr '0').toNat = 48 := rfl
    omega
  obtain ⟨d, eq⟩ : ∃ d, d = (ch.toNat - (chr '0').toNat : Nat) := ⟨_, rfl⟩
  rw [← eq] at value
  rw [putcCsi, if_pos digit, if_pos high, ← eq, lastArg]
  by_cases none : vt.argc = 0
  · have leads : Leading vt ch := ⟨collects, digit, none⟩
    have zero : arg { vt with astray := true, argc := 1 } 0 = some 0 := first none
    rw [if_pos none]
    simp only [bind_eq_bind, bind_some, if_pos none]
    split
    · rw [show (1 : Int) - 1 = 0 by decide, zero, bind_some]
      refine (stored v (n := 1) (by omega) (by omega) (by omega) true).mono ?_
      intro vt' after
      exact ⟨after.1, by simp [after.2, leads]⟩
    · exact Ends.pure ⟨{ v with }, by simp [leads]⟩
  · have follows : ¬ Leading vt ch := fun leads => none leads.2.2
    obtain ⟨a, found, bound⟩ := small (vt.argc - 1) (by omega) (by omega)
    rw [if_neg none, found]
    simp only [Option.bind_eq_bind, Option.bind_some, if_neg none, Option.pure_def]
    split
    · rw [show arg { vt with argc := vt.argc } (vt.argc - 1) = some a from found, Option.bind_some]
      refine (stored v (n := vt.argc) (by omega) (fun i pos below => small i pos (by omega)) (by omega) vt.astray).mono ?_
      intro vt' after
      exact ⟨after.1, by simp [after.2, follows]⟩
    · exact Ends.pure ⟨v, by simp [follows]⟩

theorem putcCharacter_after (v : Valid m vt) (ch : Byte)
    (tab : ch = chr '\t' → vt.x - vt.x % 8 + 8 < 2 ^ 31) : Ends (putcCharacter m vt ch) (After m vt) := by
  unfold putcCharacter
  split
  · exact Ends.pure ⟨{ v with params := nofun }, rfl⟩
  split
  · have zero : arg { vt with st := .csi, args := vt.args.set 0 0, argc := 0 } 0 = some 0 := by
      have eight := v.args
      simp [arg, eight]
    exact Ends.pure ⟨{ v with
      args := by rw [length_set]; exact v.args
      params := fun _ => ⟨le_refl _, le_of_lt (by decide : (0 : Int) < 8),
        fun i pos below => absurd pos (not_le.mpr below), fun _ => zero⟩ }, rfl⟩
  split
  · exact esmM_after v
  · exact putc_after v ch tab

theorem putc_valid (v : Valid m vt) (safe : Safe m vt ch) : Ends (vt100Putc m vt ch) fun vt' =>
      Valid m vt' ∧ (vt'.astray = false ↔ vt.astray = false ∧ ¬ Leading vt ch) := by
  have plain : ∀ vt', After m vt vt' → (∀ st, st ≠ .csi → Valid m { vt' with st := st }) := by
    intro vt' after st other
    exact { after.1 with params := fun csi => absurd csi other }
  unfold vt100Putc
  cases st : vt.st with
  | character =>
    rw [Safe, st] at safe
    refine (putcCharacter_after v ch safe).mono fun vt' after => ⟨after.1, ?_⟩
    simp [after.2, Leading, st]
  | esc =>
    simp only
    split
    · rename_i control
      have v' : Valid m { vt with st := .character } := { v with params := nofun }
      have visible : ∀ ch ∈ controls, ch + 0x40 ≠ chr '\t' := by decide
      refine (putcCharacter_after v' (ch + 0x40) fun tab => absurd tab (visible ch control)).mono fun vt' after =>
        ⟨after.1, ?_⟩
      simp [after.2, Leading, st]
    · have ran : Ends (dispatch esmCmd m vt ch) (After m vt) := by
        rw [dispatch]
        split
        · rename_i cmd found
          have mem := mem_of_find?_eq_some found
          simp only [esmCmd, mem_cons, not_mem_nil, or_false] at mem
          subst mem
          exact esmM_after v
        · exact Ends.pure v.after
      refine ran.bind fun vt' after => Ends.pure ⟨plain vt' after .character nofun, ?_⟩
      simp [after.2, Leading, st]
  | csi =>
    simp only
    by_cases digit : isdigit ch = true
    · exact digit_valid v st digit
    have follows : ¬ Leading vt ch := fun leads => digit leads.2.1
    rw [putcCsi, if_neg digit]
    split
    · rename_i semicolon
      rw [Safe, st] at safe
      have few := safe.1 semicolon
      obtain ⟨low, high, small, _⟩ := v.params st
      rw [if_pos high]
      have next := stored v (n := vt.argc + 1) (a := 0) (by omega) (fun i pos below => small i pos (by omega)) (by omega)
        vt.astray
      rw [show vt.argc + 1 - 1 = vt.argc by omega] at next
      refine next.mono fun vt' after => ⟨after.1, ?_⟩
      simp [after.2, follows]
    · refine (csiCmd_after v st ch safe).bind fun vt' after => Ends.pure ⟨plain vt' after .character nofun, ?_⟩
      simp [after.2, follows]

def Along (m : Machine) (P : Vt → Byte → Prop) : Vt → List Byte → Prop
  | _, [] => True
  | vt, ch :: rest => P vt ch ∧ ∀ vt', vt100Putc m vt ch = some vt' → Along m P vt' rest

theorem puts_valid (bytes : List Byte) (v : Valid m vt) (safe : Along m (Safe m) vt bytes) :
    Ends (vt100Puts m vt bytes) fun vt' =>
      Valid m vt' ∧ (vt'.astray = false ↔ vt.astray = false ∧ Along m (fun vt ch => ¬ Leading vt ch) vt bytes) := by
  induction bytes generalizing vt with
  | nil => exact Ends.pure ⟨v, by simp [Along]⟩
  | cons ch rest ih =>
    obtain ⟨here, later⟩ := safe
    obtain ⟨vt1, step, v1, stray1⟩ := putc_valid v here
    obtain ⟨vt2, run, v2, stray2⟩ := ih v1 (later vt1 step)
    refine ⟨vt2, by rw [vt100Puts, step]; exact run, v2, ?_⟩
    rw [stray2, stray1, Along, and_assoc]
    refine and_congr_right fun _ => and_congr_right fun _ => ?_
    constructor
    · intro all vt' eq
      rw [step] at eq
      cases eq
      exact all
    · exact fun all => all vt1 step

theorem creat_valid (fresh : Malloced m vt w h) (width : 1 ≤ w) (height : 2 ≤ h)
    (cells : w * h < 2 ^ 31) (size : 8 * (w * h) < m.word) :
    Ends (vt100Creat vt w h) fun s => Valid m s ∧ s.astray = false := by
  obtain ⟨array, lines, eight, stray⟩ := fresh
  have tall := mul_le_mul_of_nonneg_right width (show 0 ≤ h by omega)
  rw [one_mul] at tall
  rw [mul_assoc, emod_eq_of_lt (by omega) size] at array
  rw [emod_eq_of_lt (by omega) (by omega)] at lines
  have g : Geometry m { vt with w := w, h := h, scrollTop := 0, scrollBottom := h } :=
    { cells := by dsimp only; omega, lines := by dsimp only; omega, width, int := cells, size
      height := by dsimp only; omega
      top := le_refl _, region := by dsimp only; omega, bottom := le_refl _, args := eight }
  obtain ⟨painted, paint_eq, same⟩ := @storeTo_some _ vt.cells 0 (w * h)
    (fun _ => { attr := 0, fg := 7, bg := 0, ch := chr ' ' }) (by omega)
  obtain ⟨flags, flags_eq, same'⟩ := @storeTo_some _ vt.lineDirty 0 h (fun _ => (1 : Int)) (by omega)
  rw [vt100Creat, vt100Reset, paint, int_eq (by omega) cells, paint_eq]
  simp only [Option.bind_eq_bind, Option.bind_some, dirtyTo, flags_eq, Option.pure_def]
  refine Ends.pure ⟨{ g with
    cells := by dsimp only; omega
    lines := by dsimp only; omega
    row := by dsimp only; omega
    column := le_refl _
    params := nofun
    tall := height }, stray⟩

/-- A terminal survives every stream of safe bytes, and the index stays inside `args` exactly in the streams in which
    no digit follows the start of the parameters. -/
theorem survives {m : Machine} {vt : Vt} {w h : Int} (fresh : Malloced m vt w h) (width : 1 ≤ w) (height : 2 ≤ h)
    (cells : w * h < 2 ^ 31) (size : 8 * (w * h) < m.word) :
    ∃ s, vt100Creat vt w h = some s ∧ Valid m s ∧
      ∀ bytes, Along m (Safe m) s bytes → ∃ s', vt100Puts m s bytes = some s' ∧ Valid m s' ∧
        (s'.astray = false ↔ Along m (fun vt ch => ¬ Leading vt ch) s bytes) := by
  obtain ⟨s, created, v, stray⟩ := creat_valid fresh width height cells size
  refine ⟨s, created, v, ?_⟩
  intro bytes safe
  obtain ⟨s', run, v', inside⟩ := puts_valid bytes v safe
  exact ⟨s', run, v', by rw [inside, stray]; simp⟩

def smallVt : Vt :=
  { cells := replicate 2 { bg := 0, fg := 0, ch := 0, attr := 0 }, base := 4096, lineDirty := [0, 0], w := 0, h := 0
    x := 0, y := 0, bg := 0, fg := 0, attr := 0, scrollBottom := 0, scrollTop := 0, args := replicate 8 0
    argc := 0, st := .character, astray := false }

def smallStart : Vt :=
  { smallVt with cells := replicate 2 { bg := 0, fg := 7, ch := chr ' ', attr := 0 }, lineDirty := [1, 1], w := 1
                 h := 2, fg := 7, scrollBottom := 2 }

instance (m : Machine) (vt : Vt) (ch : Byte) : Decidable (Safe m vt ch) := by
  unfold Safe
  split <;> infer_instance

instance (vt : Vt) (ch : Byte) : Decidable (Leading vt ch) := inferInstanceAs (Decidable (_ ∧ _))

instance decidableAlong {P : Vt → Byte → Prop} [∀ vt ch, Decidable (P vt ch)] :
    ∀ vt bytes, Decidable (Along m P vt bytes)
  | _, [] => .isTrue trivial
  | vt, ch :: rest =>
    match eq : vt100Putc m vt ch with
    | none => decidable_of_iff (P vt ch) ⟨fun here => ⟨here, fun _ some => nomatch eq.symm.trans some⟩, And.left⟩
    | some vt' =>
      have : Decidable (Along m P vt' rest) := decidableAlong vt' rest
      decidable_of_iff (P vt ch ∧ Along m P vt' rest) <| and_congr_right' <|
        ⟨fun later _ step => some.inj (eq.symm.trans step) ▸ later, fun all => all vt' eq⟩

/-- A letter, and the cursor to the second line. -/
theorem survives_small : ∃ s, vt100Puts .i386 smallStart [chr 'A', 27, chr '[', chr ';', chr '2', chr 'H'] = some s ∧
    Valid .i386 s ∧ s.astray = false := by
  obtain ⟨s, created, _, all⟩ := @survives .i386 smallVt 1 2
    ⟨by decide, by decide, by decide, by decide⟩ (by decide) (by decide) (by decide) (by decide)
  obtain rfl : smallStart = s := some.inj ((by decide : some smallStart = vt100Creat smallVt 1 2).trans created)
  obtain ⟨s', run, v, inside⟩ := all [chr 'A', 27, chr '[', chr ';', chr '2', chr 'H'] (by decide +kernel)
  exact ⟨s', run, v, inside.mpr (by decide +kernel)⟩

/-- A digit behind the start of the parameters reads `args[-1]`; a margin of 0 is in front of the first line, and the
    next line feed writes in front of the cells. -/
theorem not_survives : Malloced .i386 smallVt 1 2 ∧
    ((vt100Creat smallVt 1 2).bind fun s => vt100Puts .i386 s [27, chr '[', chr '1']).map (·.astray) = some true ∧
    ((vt100Creat smallVt 1 2).bind fun s => vt100Puts .i386 s [27, chr '[', chr ';', chr 'r']).map (·.scrollTop) =
      some (-1) ∧
    ((vt100Creat smallVt 1 2).bind fun s =>
      vt100Puts .i386 s [27, chr '[', chr ';', chr ';', chr 'r', chr '\n']) = none := by
  refine ⟨⟨?_, ?_, ?_, ?_⟩, ?_, ?_, ?_⟩ <;> decide +kernel

end Vt100
