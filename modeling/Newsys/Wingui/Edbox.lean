import Mathlib.Algebra.Order.Ring.Int
import Newsys.Lib.Position
import Newsys.Wingui.Paint
import Mathlib.Data.List.DropRight

/- The edit box (lib/wingui/edbox.c). A function has no result when it reads or writes the text past its NUL. What the
   functions return is left out, no caller in the file looks at it but where `-1` is shown here by `none`. Memory is
   taken to be there, and the callbacks of the application to leave the box alone. -/
namespace Edbox
open Bytes Position Wingui List Nat Int Option

def nl : Byte := 10

/-- What the font and the form decide: the size of characters and of the box. -/
structure Look where
  chrW : Byte → Int
  lineHeight : Int
  lineHeight_pos : 0 < lineHeight
  w : Int
  h : Int

/-- The part of a `struct gadget` that belongs to an edit box; `text` is without its NUL. -/
structure Box where
  text : List Byte
  topmostLine : Int
  currColumn : Int
  currLine : Int
  curr : Int
  ptrDown : Int
  selStart : Int
  selEnd : Int
  newselStart : Int
  hpos : Int
  readOnly : Bool
  visible : Bool
  deriving DecidableEq

def creat (readOnly visible : Bool) : Box := ⟨[], 0, 0, 0, 0, 0, 0, 0, 0, 0, readOnly, visible⟩

def strchr (p : List Byte) : Option (List Byte) :=
  match p.dropWhile (· ≠ nl) with
  | [] => none
  | c :: cs => some (c :: cs)

def skipLines : Nat → List Byte → Option (List Byte)
  | 0, p => some p
  | cnt + 1, p =>
    match strchr p with
    | none => none
    | some p => skipLines cnt p.tail

def lcindex (text : List Byte) (column line : Int) : Option Nat :=
  if column < 0 ∨ line < 0 then none
  else match skipLines line.toNat text with
    | none => none
    | some p =>
      if column > (p.takeWhile (· ≠ nl)).length then none else some (text.length - p.length + column.toNat)

/-- Each `strchr` of `edbox_get_line_count` but the last finds the end of a line. -/
def lineCount (text : List Byte) : Nat := text.count nl + 1

def scanX (look : Look) (x : Int) : Int → List Byte → Nat
  | _, [] => 0
  | textW, c :: cs =>
    if textW + look.chrW c ≥ x ∨ c = nl then 0 else scanX look x (textW + look.chrW c) cs + 1

def pointLine (look : Look) (g : Box) (y : Int) : Int := i32 (y.tdiv look.lineHeight + g.topmostLine)

def xylcindex (look : Look) (g : Box) (x y : Int) : Option (Int × Int × Int) :=
  let x := i32 (x + g.hpos)
  let l := pointLine look g y
  let l := if l ≥ lineCount g.text then (lineCount g.text : Int) - 1 else l
  match lcindex g.text 0 l with
  -- `edbox_line_ptr` uses `i` although it is not set
  | none => none
  | some start =>
    let i := scanX look x 0 (g.text.drop start)
    some (i, l, start + i)

def indexl (text : List Byte) (i : Int) : Option Int :=
  if i < 0 ∨ text.length + 1 < i then none else some (((text ++ [0]).take i.toNat).foldl (walk nl) (0, 0)).1

def redrawLine (g : Box) (line : Int) : Option Unit :=
  if g.visible ∧ lcindex g.text 0 line = none then none else some ()

def vscroll (g : Box) (topmostLine : Int) : Box :=
  if g.topmostLine = topmostLine ∨ topmostLine < 0 ∨ topmostLine ≥ lineCount g.text then g
  else { g with topmostLine := topmostLine }

def hscroll (g : Box) (hpix : Int) : Box :=
  if g.hpos = hpix ∨ hpix < 0 then g else { g with hpos := hpix }

/-- The scrolling of `edbox_goto_index`: the cursor is to be in sight, and `cx` is how far in its line it is. -/
def reveal (look : Look) (g : Box) (cx : Int) : Box :=
  let vlc := look.h.tdiv look.lineHeight
  let g :=
    if g.currLine < g.topmostLine then vscroll g g.currLine
    else if g.currLine - g.topmostLine ≥ vlc then vscroll g (g.currLine - vlc + 1)
    else g
  if cx < g.hpos then hscroll g cx
  else if cx ≥ look.w + g.hpos then hscroll g (cx - look.w)
  else g

def gotoIndex (look : Look) (g : Box) (index : Int) : Option Box := do
  if index < 0 ∨ index > g.text.length then return g
  let pl := g.currLine
  let (line, column) := (g.text.take index.toNat).foldl (walk nl) (0, 0)
  let cx := (((g.text.take index.toNat).drop (index.toNat - column)).map look.chrW).sum
  let g := reveal look { g with curr := index, currLine := line, currColumn := column } cx
  if pl = g.currLine then redrawLine g pl
  return g

def goto (look : Look) (g : Box) (column line : Int) : Option Box :=
  match lcindex g.text column line with
  | none => some g
  | some i => gotoIndex look g i

/- The selection -/

def selSet (g : Box) (start stop : Int) : Option Box := do
  if start < 0 ∨ start > g.text.length ∨ stop < 0 ∨ stop > g.text.length then return g
  let (start, stop) := if stop < start then (stop, start) else (start, stop)
  let pstart := g.selStart
  let pend := g.selEnd
  let start0 ← indexl g.text pstart
  let end0 ← indexl g.text pend
  let start1 ← indexl g.text start
  let end1 ← indexl g.text stop
  let g := { g with selStart := start, selEnd := stop }
  if pstart ≠ pend then
    if start0 ≠ start1 ∨ end0 ≠ end1 then return g
  else if start1 ≠ end1 then return g
  if pstart ≠ start then redrawLine g start1
  if pend ≠ stop then redrawLine g end1
  return g

def selDelete (look : Look) (g : Box) : Option Box := do
  let ss := g.selStart
  let se := g.selEnd
  if ss = se then return g
  -- `memmove(text + ss, text + se, len - se + 1)`
  if ss < 0 ∨ se < ss ∨ g.text.length < se then none
  let g := { g with text := g.text.take ss.toNat ++ g.text.drop se.toNat, selStart := 0, selEnd := 0 }
  gotoIndex look g ss

def clear (look : Look) (g : Box) : Option Box := if g.selStart ≠ g.selEnd then selDelete look g else some g

def inschr (look : Look) (g : Box) (ch : Byte) : Option Box := do
  let g ← clear look g
  -- `memmove(ntext + curr + 1, ntext + curr, len - curr + 1)`
  if g.curr < 0 ∨ g.text.length < g.curr then none
  let g := { g with text := g.text.take g.curr.toNat ++ ch :: g.text.drop g.curr.toNat }
  gotoIndex look g (g.curr + 1)

def rmchr (look : Look) (g : Box) : Option Box := do
  if g.curr = 0 then return g
  let g := if g.selStart ≠ g.selEnd then { g with selStart := 0, selEnd := 0 } else g
  -- `memmove(text + curr - 1, text + curr, len - curr + 1)`
  if g.curr < 0 ∨ g.text.length < g.curr then none
  let g := { g with text := g.text.take (g.curr.toNat - 1) ++ g.text.drop g.curr.toNat }
  if g.currColumn = 0 then gotoIndex look g (g.curr - 1)
  else
    let g := { g with curr := g.curr - 1, currColumn := g.currColumn - 1 }
    redrawLine g g.currLine
    return g

def setText (g : Box) (text : List Byte) : Box :=
  { g with text := text, curr := 0, currLine := 0, currColumn := 0, topmostLine := 0, selStart := 0, selEnd := 0 }

def insert (look : Look) (g : Box) (text : List Byte) : Option Box := do
  let len := g.text.length
  let ntl := text.length
  let g ← clear look g
  -- `memmove(ntext + ntl + curr, ntext + curr, len - curr + 1)` reads up to the length there was at first
  if g.curr < 0 ∨ len < g.curr ∨ g.text.length < len then none
  let g := { g with
    text := g.text.take g.curr.toNat ++ text ++ g.text.drop g.curr.toNat, selStart := 0, selEnd := 0 }
  gotoIndex look g (g.curr + ntl)

/-- A key of the window system (include/wingui.h), `(unsigned) -n`. -/
def winKey (n : Nat) : Nat := 2 ^ 32 - n

def keyUp : Nat := winKey 1
def keyDown : Nat := winKey 2
def keyLeft : Nat := winKey 3
def keyRight : Nat := winKey 4
def keyPgup : Nat := winKey 5
def keyPgdn : Nat := winKey 6
def keyHome : Nat := winKey 7
def keyEnd : Nat := winKey 8
def keyIns : Nat := winKey 9
def keyDel : Nat := winKey 10
def keyShift : Nat := winKey 27
def backspace : Nat := 8

def isprint (c : Nat) : Bool := 0x20 ≤ c && c < 0x7f

def extend (g : Box) (shift : Bool) : Option Box :=
  if shift then selSet g g.newselStart g.curr else selSet g 0 0

def homeFrom (text : List Byte) : Nat → Nat
  | 0 => 0
  | i + 1 => if text.getD i 0 = nl then i + 1 else homeFrom text i

def endFrom (text : List Byte) (i : Nat) : Nat := i + ((text.drop i).takeWhile (· ≠ nl)).length

/-- `edbox_key_down`; `shift` is whether WIN_SHIFT_SHIFT is set. -/
def pressKey (look : Look) (g : Box) (ch : Nat) (shift : Bool) : Option Box := do
  if ch = keyUp then extend (← goto look g 0 (g.currLine - 1)) shift
  else if ch = keyDown then extend (← goto look g 0 (g.currLine + 1)) shift
  else if ch = keyLeft then extend (← gotoIndex look g (g.curr - 1)) shift
  else if ch = keyRight then extend (← gotoIndex look g (g.curr + 1)) shift
  else if ch = backspace then
    if g.readOnly then return g
    else if g.selStart ≠ g.selEnd then selDelete look g
    else rmchr look g
  else if ch = keyPgup ∨ ch = keyPgdn then return g
  else if ch = keyHome then
    if g.curr - 1 < 0 then return g
    else if g.text.length < g.curr - 1 then none
    else extend (← gotoIndex look g (homeFrom g.text g.curr.toNat)) shift
  else if ch = keyEnd then
    if g.curr < 0 then none
    else extend (← gotoIndex look g (endFrom g.text g.curr.toNat)) shift
  else if ch = keyIns then return g
  else if ch = keyDel then
    if g.readOnly then return g
    else if g.selStart ≠ g.selEnd then selDelete look g
    else if g.curr < g.text.length then rmchr look (← gotoIndex look g (g.curr + 1))
    else return g
  else if ch = keyShift then return { g with newselStart := g.curr }
  else if g.readOnly then return g
  else if isprint ch ∨ ch = 10 then inschr look g (BitVec.ofNat 8 ch)
  else return g

/-- `button` is whether it is one other than the first; its menu is left out. -/
def pressPtr (look : Look) (g : Box) (x y : Int) (button : Bool) : Option Box := do
  if button then return g
  let g := { g with ptrDown := g.ptrDown + 1 }
  if g.ptrDown = 1 then
    let (c, l, i) ← xylcindex look g x y
    let g := { g with newselStart := i }
    goto look (← selSet g i i) c l
  else return g

def drag (look : Look) (g : Box) (x y : Int) : Option Box := do
  let (c, l, i) ← xylcindex look g x y
  goto look (← selSet g g.newselStart i) c l

def releasePtr (look : Look) (g : Box) (x y : Int) (button : Bool) : Option Box :=
  if button then some g
  else
    let g := { g with ptrDown := g.ptrDown - 1 }
    if g.ptrDown = 0 then drag look g x y else some g

def movePtr (look : Look) (g : Box) (x y : Int) : Option Box :=
  if g.ptrDown ≠ 0 then drag look g x y else some g

abbrev Str := { s : List Byte // (0 : Byte) ∉ s }

inductive Op where
  | key (ch : Nat) (shift : Bool)
  | ptrDown (x y : Int) (button : Bool)
  | ptrUp (x y : Int) (button : Bool)
  | ptrMove (x y : Int)
  | setText (text : Str)
  | insert (text : Str)
  | selSet (start stop : Int)
  | selDelete
  | goto (column line : Int)
  | gotoIndex (index : Int)
  | vscroll (topmostLine : Int)
  | hscroll (hpix : Int)

def step (look : Look) (g : Box) : Op → Option Box
  | .key ch shift => pressKey look g ch shift
  | .ptrDown x y button => pressPtr look g x y button
  | .ptrUp x y button => releasePtr look g x y button
  | .ptrMove x y => movePtr look g x y
  | .setText text => some (setText g text.1)
  | .insert text => insert look g text.1
  | .selSet start stop => selSet g start stop
  | .selDelete => selDelete look g
  | .goto column line => goto look g column line
  | .gotoIndex index => gotoIndex look g index
  | .vscroll topmostLine => some (vscroll g topmostLine)
  | .hscroll hpix => some (hscroll g hpix)

def run (look : Look) (g : Box) (ops : List Op) : Option Box := ops.foldlM (step look) g

/- Consistent states -/

def Inside (text : List Byte) (a b : Int) : Prop := 0 ≤ a ∧ a ≤ b ∧ b ≤ text.length

def Top (text : List Byte) (t : Int) : Prop := 0 ≤ t ∧ t < lineCount text

structure Consistent (g : Box) : Prop where
  noNul : (0 : Byte) ∉ g.text
  curr : 0 ≤ g.curr ∧ g.curr ≤ g.text.length
  currLine : g.currLine = line nl (g.text.take g.curr.toNat)
  currColumn : g.currColumn = column nl (g.text.take g.curr.toNat)
  sel : Inside g.text g.selStart g.selEnd
  topmostLine : Top g.text g.topmostLine

def Ends {α : Type} (r : Option α) (Q : α → Prop) : Prop := ∃ a, r = some a ∧ Q a

section Rules
variable {α β : Type} {r : Option α} {P Q : α → Prop} {R : β → Prop}

theorem Ends.bind (ends : Ends r P) (next : ∀ a, P a → Ends (f a) R) : Ends (r >>= f) R := by
  obtain ⟨a, rfl, p⟩ := ends
  exact next a p

theorem Ends.pure (q : Q a) : Ends (some a) Q := ⟨a, rfl, q⟩

theorem Ends.mono (ends : Ends r P) (imp : ∀ a, P a → Q a) : Ends r Q := by
  obtain ⟨a, eq, p⟩ := ends
  exact ⟨a, eq, imp a p⟩

end Rules

/- What the box is for -/

structure Doc where
  text : List Byte
  cursor : Nat
  lo : Nat
  hi : Nat
  anchor : Int

def Doc.empty : Doc := ⟨[], 0, 0, 0, 0⟩

def Doc.goTo (d : Doc) (k : Int) : Doc := if k < 0 ∨ k > d.text.length then d else { d with cursor := k.toNat }

def Doc.goAt (d : Doc) (column line : Int) : Doc :=
  match lcindex d.text column line with
  | none => d
  | some k => d.goTo k

def Doc.select (d : Doc) (a b : Int) : Doc :=
  if a < 0 ∨ a > d.text.length ∨ b < 0 ∨ b > d.text.length then d
  else { d with lo := (min a b).toNat, hi := (max a b).toNat }

def Doc.mark (d : Doc) (shift : Bool) : Doc := if shift then d.select d.anchor d.cursor else d.select 0 0

def Doc.erase (d : Doc) : Doc :=
  if d.lo = d.hi then d
  else { d with text := d.text.take d.lo ++ d.text.drop d.hi, cursor := d.lo, lo := 0, hi := 0 }

def Doc.put (d : Doc) (s : List Byte) : Doc :=
  { d with text := d.text.take d.cursor ++ s ++ d.text.drop d.cursor, cursor := d.cursor + s.length }

def Doc.type (d : Doc) (s : List Byte) : Doc := d.erase.put s

def Doc.back (d : Doc) : Doc :=
  if d.lo ≠ d.hi then d.erase
  else if d.cursor = 0 then d
  else { d with text := d.text.take (d.cursor - 1) ++ d.text.drop d.cursor, cursor := d.cursor - 1 }

def Doc.del (d : Doc) : Doc :=
  if d.lo ≠ d.hi then d.erase
  else if d.cursor < d.text.length then { d with text := d.text.take d.cursor ++ d.text.drop (d.cursor + 1) }
  else d

def Doc.key (d : Doc) (readOnly : Bool) (ch : Nat) (shift : Bool) : Doc :=
  let l : Int := line nl (d.text.take d.cursor)
  if ch = keyUp then (d.goAt 0 (l - 1)).mark shift
  else if ch = keyDown then (d.goAt 0 (l + 1)).mark shift
  else if ch = keyLeft then (d.goTo (d.cursor - 1)).mark shift
  else if ch = keyRight then (d.goTo (d.cursor + 1)).mark shift
  else if ch = backspace then if readOnly then d else d.back
  else if ch = keyPgup ∨ ch = keyPgdn then d
  else if ch = keyHome then
    if d.cursor = 0 then d else (d.goTo (d.cursor - column nl (d.text.take d.cursor) : Nat)).mark shift
  else if ch = keyEnd then
    (d.goTo (d.cursor + ((d.text.drop d.cursor).takeWhile (· ≠ nl)).length : Nat)).mark shift
  else if ch = keyIns then d
  else if ch = keyDel then if readOnly then d else d.del
  else if ch = keyShift then { d with anchor := d.cursor }
  else if readOnly then d
  else if isprint ch ∨ ch = 10 then d.type [BitVec.ofNat 8 ch]
  else d

def hit (look : Look) (g : Box) (x y : Int) : Int := (xylcindex look g x y).elim 0 (·.2.2)

/-- What an event or a call is to do to the string. The box itself says whether it can be changed, whether a button is
    down and where a point is in the text. -/
def act (look : Look) (g : Box) (d : Doc) : Op → Doc
  | .key ch shift => d.key g.readOnly ch shift
  | .ptrDown x y button =>
    if button ∨ g.ptrDown ≠ 0 then d
    else
      let k := hit look g x y
      (Doc.select { d with anchor := k } k k).goTo k
  | .ptrUp x y button =>
    if button ∨ g.ptrDown ≠ 1 then d
    else (d.select d.anchor (hit look g x y)).goTo (hit look g x y)
  | .ptrMove x y =>
    if g.ptrDown = 0 then d
    else (d.select d.anchor (hit look g x y)).goTo (hit look g x y)
  | .setText text => ⟨text.1, 0, 0, 0, d.anchor⟩
  | .insert text => d.type text.1
  | .selSet start stop => d.select start stop
  | .selDelete => d.erase
  | .goto column line => d.goAt column line
  | .gotoIndex index => d.goTo index
  | .vscroll _ => d
  | .hscroll _ => d

/-- The box holds the string; where nothing is selected it may say so in another way. -/
structure Shows (g : Box) (d : Doc) : Prop where
  text : g.text = d.text
  curr : g.curr = d.cursor
  anchor : g.newselStart = d.anchor
  sel : (g.selStart = d.lo ∧ g.selEnd = d.hi) ∨ (g.selStart = g.selEnd ∧ d.lo = d.hi)

/- Where the functions find positions -/

theorem strchr_some (found : strchr p = some q) : ∃ a, p = a ++ q ∧ nl ∉ a ∧ ∃ cs, q = nl :: cs := by
  have split := takeWhile_append_dropWhile (p := (· ≠ nl)) (l := p)
  have stop := head?_dropWhile_not (· ≠ nl) p
  have free : nl ∉ p.takeWhile (· ≠ nl) := fun mem => by simpa using mem_takeWhile_imp mem
  rw [strchr] at found
  generalize p.dropWhile (· ≠ nl) = rest at *
  cases rest with
  | nil => nomatch found
  | cons c cs =>
    obtain rfl := some.inj found
    have same : c = nl := by simpa using stop
    exact ⟨_, split.symm, free, cs, by rw [same]⟩

theorem strchr_none (lost : strchr p = none) : nl ∉ p := by
  rw [strchr] at lost
  split at lost
  · rename_i empty
    intro mem
    simpa using dropWhile_eq_nil_iff.mp empty nl mem
  · cases lost

theorem skipLines_some (found : skipLines n p = some q) :
    ∃ a, p = a ++ q ∧ line nl a = n ∧ column nl a = 0 := by
  induction n generalizing p with
  | zero =>
    obtain rfl := some.inj found
    exact ⟨[], rfl, rfl, rfl⟩
  | succ n ih =>
    rw [skipLines] at found
    cases next : strchr p with
    | none => rw [next] at found; nomatch found
    | some p' =>
      rw [next] at found
      obtain ⟨a, rfl, free, cs, rfl⟩ := strchr_some next
      obtain ⟨b, eq, lines, start⟩ := ih found
      refine ⟨a ++ nl :: b, ?_, ?_, ?_⟩
      · rw [append_assoc, cons_append, ← eq]
        rfl
      · have none : count nl a = 0 := count_eq_zero.mpr free
        simp only [line] at lines ⊢
        rw [count_append, count_cons_self, none, lines]
        omega
      · rw [column_line, start]

theorem skipLines_isSome (le : n ≤ p.count nl) : ∃ q, skipLines n p = some q := by
  induction n generalizing p with
  | zero => exact ⟨p, rfl⟩
  | succ n ih =>
    rw [skipLines]
    cases next : strchr p with
    | none =>
      have none := count_eq_zero.mpr (strchr_none next)
      omega
    | some p' =>
      obtain ⟨a, rfl, free, cs, rfl⟩ := strchr_some next
      have none : count nl a = 0 := count_eq_zero.mpr free
      rw [count_append, count_cons_self, none] at le
      exact ih (by simp only [tail_cons]; omega)

theorem lcindex_isSome {text : List Byte} {l : Int} (low : 0 ≤ l) (high : l < lineCount text) :
    ∃ i, lcindex text 0 l = some i := by
  rw [lineCount] at high
  obtain ⟨p, skipped⟩ := skipLines_isSome (n := l.toNat) (p := text) (by omega)
  rw [lcindex, if_neg (by omega), skipped]
  dsimp only
  rw [if_neg (by omega)]
  exact ⟨_, rfl⟩

theorem redrawLine_eq {g : Box} {l : Int} (low : 0 ≤ l) (high : l < lineCount g.text) : redrawLine g l = some () := by
  obtain ⟨i, found⟩ := lcindex_isSome low high
  rw [redrawLine, found, if_neg nofun]

theorem line_lt (text : List Byte) (i : Nat) : line nl (text.take i) < lineCount text :=
  lt_succ_of_le ((take_sublist i text).count_le nl)

theorem indexl_eq (low : 0 ≤ i) (high : i ≤ text.length) :
    indexl text i = some (line nl (text.take i.toNat) : Int) := by
  have within : (text ++ [0]).take i.toNat = text.take i.toNat := take_append_of_le_length (by omega)
  rw [indexl, if_neg (by omega), within, foldl_walk]

/- What the functions do -/

variable {look : Look} {g : Box}

theorem vscroll_to (top : Top g.text t) : vscroll g t = { g with topmostLine := t } := by
  obtain ⟨low, high⟩ := top
  rw [vscroll]
  by_cases same : g.topmostLine = t
  · rw [if_pos (Or.inl same), ← same]
  · rw [if_neg (by omega)]

theorem vscroll_keeps (top : Top g.text g.topmostLine) (t : Int) :
    ∃ t', vscroll g t = { g with topmostLine := t' } ∧ Top g.text t' := by
  by_cases inside : Top g.text t
  · exact ⟨t, vscroll_to inside, inside⟩
  · refine ⟨g.topmostLine, ?_, top⟩
    rw [vscroll, if_pos]
    by_contra all
    exact inside ⟨by omega, by omega⟩

theorem hscroll_keeps (g : Box) (h : Int) : ∃ h', hscroll g h = { g with hpos := h' } := by
  rw [hscroll]
  split
  · exact ⟨g.hpos, rfl⟩
  · exact ⟨h, rfl⟩

theorem reveal_eq (line : Top g.text g.currLine) (low : 0 ≤ g.topmostLine) (cx : Int) :
    ∃ t h, reveal look g cx = { g with topmostLine := t, hpos := h } ∧ Top g.text t := by
  have scrolled : ∃ t, (if g.currLine < g.topmostLine then vscroll g g.currLine
      else if g.currLine - g.topmostLine ≥ look.h.tdiv look.lineHeight then
        vscroll g (g.currLine - look.h.tdiv look.lineHeight + 1)
      else g) = { g with topmostLine := t } ∧ Top g.text t := by
    split
    · exact ⟨_, vscroll_to line, line⟩
    · have top : Top g.text g.topmostLine := ⟨low, by have := line.2; omega⟩
      split
      · exact vscroll_keeps top _
      · exact ⟨_, rfl, top⟩
  obtain ⟨t, eq, top⟩ := scrolled
  rw [reveal, eq]
  dsimp only
  split
  · obtain ⟨h, eq⟩ := hscroll_keeps { g with topmostLine := t } cx
    exact ⟨t, h, eq, top⟩
  · split
    · obtain ⟨h, eq⟩ := hscroll_keeps { g with topmostLine := t } (cx - look.w)
      exact ⟨t, h, eq, top⟩
    · exact ⟨t, g.hpos, rfl, top⟩

def Box.moved (g : Box) (i : Nat) (t h : Int) : Box :=
  { g with curr := i, currLine := line nl (g.text.take i), currColumn := column nl (g.text.take i)
           topmostLine := t, hpos := h }

theorem top_line (text : List Byte) (i : Nat) : Top text (line nl (text.take i)) :=
  ⟨Int.natCast_nonneg _, Int.ofNat_lt.mpr (line_lt text i)⟩

theorem gotoIndex_ends {i : Nat} (high : i ≤ g.text.length) (low : 0 ≤ g.topmostLine) :
    Ends (gotoIndex look g i) fun g' => ∃ t h, g' = g.moved i t h ∧ Top g.text t := by
  have line := top_line g.text i
  rw [gotoIndex, if_neg (by omega)]
  simp only [toNat_natCast, foldl_walk]
  generalize (((g.text.take i).drop (i - column nl (g.text.take i))).map look.chrW).sum = cx
  obtain ⟨t, h, eq, top⟩ := reveal_eq (g := { g with
    curr := i, currLine := Position.line nl (g.text.take i), currColumn := column nl (g.text.take i) }) line low cx
  rw [eq]
  refine ⟨g.moved i t h, ?_, t, h, rfl, top⟩
  dsimp only
  split
  · rename_i same
    rw [redrawLine_eq (same ▸ line.1) (same ▸ line.2)]
    rfl
  · rfl

theorem selSet_refused {a b : Int} (out : a < 0 ∨ a > g.text.length ∨ b < 0 ∨ b > g.text.length) :
    selSet g a b = some g := by
  rw [selSet, if_pos out]
  rfl

theorem selSet_eq {a b : Int} (old : Inside g.text g.selStart g.selEnd)
    (inside : 0 ≤ a ∧ a ≤ g.text.length ∧ 0 ≤ b ∧ b ≤ g.text.length) :
    selSet g a b = some { g with selStart := min a b, selEnd := max a b } := by
  obtain ⟨first, order, last⟩ := old
  have sorted : (if b < a then (b, a) else (a, b)) = (min a b, max a b) := by
    split
    · rw [min_eq_right (by omega), max_eq_left (by omega)]
    · rw [min_eq_left (by omega), max_eq_right (by omega)]
  rw [selSet, if_neg (by omega), sorted]
  dsimp only
  generalize minEq : min a b = start
  generalize maxEq : max a b = stop
  rw [indexl_eq first (by omega), indexl_eq (i := g.selEnd) (by omega) last,
    indexl_eq (i := start) (by omega) (by omega),
    indexl_eq (i := stop) (by omega) (by omega)]
  have painted : ∀ i : Int, redrawLine { g with selStart := start, selEnd := stop } (line nl (g.text.take i.toNat)) =
      some () := fun i => redrawLine_eq (top_line _ _).1 (top_line _ _).2
  simp only [Option.bind_eq_bind, Option.bind_some, painted, Option.pure_def]
  split
  · split
    · rfl
    · split <;> split <;> rfl
  · split
    · rfl
    · split <;> split <;> rfl

/- Every call keeps the box -/

def Ok (g : Box) (d : Doc) : Prop := Consistent g ∧ Shows g d

variable {d : Doc}

theorem consistent_moved (noNul : (0 : Byte) ∉ g.text) (high : i ≤ g.text.length)
    (sel : Inside g.text g.selStart g.selEnd) (top : Top g.text t) : Consistent (g.moved i t h) where
  noNul := noNul
  curr := ⟨Int.natCast_nonneg _, Int.ofNat_le.mpr high⟩
  currLine := rfl
  currColumn := rfl
  sel := sel
  topmostLine := top

theorem gotoIndex_ok (ok : Ok g d) (k : Int) : Ends (gotoIndex look g k) fun g' => Ok g' (d.goTo k) := by
  obtain ⟨consistent, shows⟩ := ok
  by_cases out : k < 0 ∨ k > g.text.length
  · rw [gotoIndex, if_pos out, Doc.goTo, ← shows.text, if_pos out]
    exact .pure ⟨consistent, shows⟩
  · obtain ⟨i, rfl⟩ : ∃ i : Nat, k = i := ⟨k.toNat, by omega⟩
    have moved : d.goTo i = { d with cursor := i } := if_neg (by rwa [← shows.text])
    apply (gotoIndex_ends (i := i) (by omega) consistent.topmostLine.1).mono
    rintro g' ⟨t, h, rfl, top⟩
    rw [moved]
    exact ⟨consistent_moved consistent.noNul (by omega) consistent.sel top,
      ⟨shows.text, rfl, shows.anchor, shows.sel⟩⟩

theorem goto_ok (ok : Ok g d) (c l : Int) : Ends (goto look g c l) fun g' => Ok g' (d.goAt c l) := by
  rw [goto, Doc.goAt, ← ok.2.text]
  cases lcindex g.text c l with
  | none => exact .pure ok
  | some i => exact gotoIndex_ok ok i

theorem selSet_ok (ok : Ok g d) (a b : Int) : Ends (selSet g a b) fun g' => Ok g' (d.select a b) := by
  obtain ⟨consistent, shows⟩ := ok
  by_cases out : a < 0 ∨ a > g.text.length ∨ b < 0 ∨ b > g.text.length
  · rw [selSet_refused out, Doc.select, ← shows.text, if_pos out]
    exact .pure ⟨consistent, shows⟩
  · have selected : d.select a b = { d with lo := (min a b).toNat, hi := (max a b).toNat } :=
      if_neg (by rwa [← shows.text])
    rw [selSet_eq consistent.sel (by omega), selected]
    have sel : Inside g.text (min a b) (max a b) := ⟨by omega, by omega, by omega⟩
    have lo := toNat_of_nonneg (show 0 ≤ min a b by omega)
    have hi := toNat_of_nonneg (show 0 ≤ max a b by omega)
    exact .pure ⟨{ consistent with sel := sel },
      ⟨shows.text, shows.curr, shows.anchor, Or.inl ⟨lo.symm, hi.symm⟩⟩⟩

theorem extend_ok (ok : Ok g d) (shift : Bool) : Ends (extend g shift) fun g' => Ok g' (d.mark shift) := by
  cases shift with
  | false => exact selSet_ok ok 0 0
  | true =>
    simp only [extend, Doc.mark, if_true]
    rw [← ok.2.anchor, ← ok.2.curr]
    exact selSet_ok ok g.newselStart g.curr

theorem Shows.empty_iff (shows : Shows g d) : g.selStart = g.selEnd ↔ d.lo = d.hi := by
  have := shows.sel
  omega

theorem noNul_take_drop {s t : List Byte} (noNul : (0 : Byte) ∉ s) (noNul' : (0 : Byte) ∉ t) (i j : Nat) :
    (0 : Byte) ∉ s.take i ++ t ++ s.drop j := by
  simp only [mem_append, not_or]
  exact ⟨⟨fun mem => noNul (mem_of_mem_take mem), noNul'⟩, fun mem => noNul (mem_of_mem_drop mem)⟩

theorem selDelete_ok (ok : Ok g d) : Ends (selDelete look g) fun g' => Ok g' d.erase := by
  obtain ⟨consistent, shows⟩ := ok
  obtain ⟨low, order, high⟩ := consistent.sel
  by_cases empty : g.selStart = g.selEnd
  · rw [selDelete, if_pos empty, Doc.erase, if_pos (shows.empty_iff.mp empty)]
    exact .pure ⟨consistent, shows⟩
  · have ⟨lo, hi⟩ : g.selStart = d.lo ∧ g.selEnd = d.hi := by
      have := shows.sel
      omega
    rw [selDelete, if_neg empty, Doc.erase, if_neg (by omega), ← shows.text]
    dsimp only
    rw [if_neg (by omega), lo, hi, toNat_natCast, toNat_natCast]
    have short : d.lo ≤ (g.text.take d.lo ++ g.text.drop d.hi).length := by
      rw [length_append, length_take]
      omega
    have noNul : (0 : Byte) ∉ g.text.take d.lo ++ g.text.drop d.hi := by
      simpa using noNul_take_drop consistent.noNul (t := []) (by simp) d.lo d.hi
    have sel : Inside (g.text.take d.lo ++ g.text.drop d.hi) 0 0 := ⟨by omega, by omega, by omega⟩
    apply (gotoIndex_ends (i := d.lo)
      (g := { g with text := g.text.take d.lo ++ g.text.drop d.hi, selStart := 0, selEnd := 0 })
      short consistent.topmostLine.1).mono
    rintro g' ⟨t, h, rfl, top⟩
    exact ⟨consistent_moved noNul short sel top, ⟨rfl, rfl, shows.anchor, Or.inl ⟨rfl, rfl⟩⟩⟩

theorem put_ends {s : List Byte} {a b : Int} (ok : Ok g d) (noNul : (0 : Byte) ∉ s)
    (sel : (a = g.selStart ∧ b = g.selEnd) ∨ (a = 0 ∧ b = 0 ∧ g.selStart = g.selEnd)) :
    Ends (gotoIndex look { g with
        text := g.text.take g.curr.toNat ++ s ++ g.text.drop g.curr.toNat, selStart := a, selEnd := b }
      (g.curr + s.length)) fun g' => Ok g' (d.put s) := by
  obtain ⟨consistent, shows⟩ := ok
  obtain ⟨low, order, high⟩ := consistent.sel
  have curr := shows.curr
  have within := consistent.curr.2
  rw [show g.curr.toNat = d.cursor by omega, show g.curr + s.length = (d.cursor + s.length : Nat) by omega]
  have length : (g.text.take d.cursor ++ s ++ g.text.drop d.cursor).length = g.text.length + s.length := by
    simp only [length_append, length_take, length_drop]
    omega
  have inside : Inside (g.text.take d.cursor ++ s ++ g.text.drop d.cursor) a b := by
    refine ⟨?_, ?_, ?_⟩ <;> omega
  have noNul' := noNul_take_drop consistent.noNul noNul d.cursor d.cursor
  apply (gotoIndex_ends (i := d.cursor + s.length) (g := { g with
      text := g.text.take d.cursor ++ s ++ g.text.drop d.cursor, selStart := a, selEnd := b })
    (by dsimp only; omega) consistent.topmostLine.1).mono
  rintro g' ⟨t, h, rfl, top⟩
  refine ⟨consistent_moved noNul' (by dsimp only; omega) inside top, ⟨?_, rfl, shows.anchor, ?_⟩⟩
  · rw [Doc.put, ← shows.text]
    rfl
  · have := shows.sel
    dsimp only [Box.moved, Doc.put]
    omega

theorem clear_ok (ok : Ok g d) : Ends (clear look g) fun g' => Ok g' d.erase := by
  by_cases empty : g.selStart = g.selEnd
  · rw [clear, if_neg (not_not.mpr empty), Doc.erase, if_pos (ok.2.empty_iff.mp empty)]
    exact .pure ok
  · rw [clear, if_pos empty]
    exact selDelete_ok ok

theorem inschr_ok (ok : Ok g d) (nonzero : ch ≠ 0) :
    Ends (inschr look g ch) fun g' => Ok g' (d.type [ch]) := by
  rw [inschr]
  refine (clear_ok ok).bind ?_
  intro g' ok'
  have within := ok'.1.curr
  rw [if_neg (by omega)]
  have put := @put_ends look _ _ [ch] _ _ ok' (by simpa using nonzero.symm) (Or.inl ⟨rfl, rfl⟩)
  rw [append_assoc] at put
  exact put

theorem insert_ok (ok : Ok g d) (noNul : (0 : Byte) ∉ s) (empty : g.selStart = g.selEnd) :
    Ends (insert look g s) fun g' => Ok g' (d.type s) := by
  have within := ok.1.curr
  have erased : d.erase = d := if_pos (ok.2.empty_iff.mp empty)
  rw [insert, clear, if_neg (not_not.mpr empty), Doc.type, erased]
  simp only [bind_eq_bind, bind_some]
  rw [if_neg (by omega)]
  exact put_ends ok noNul (Or.inr ⟨rfl, rfl, empty⟩)

theorem take_snoc {s : List Byte} {i : Nat} (pos : 0 < i) (le : i ≤ s.length) :
    ∃ c, s.take i = s.take (i - 1) ++ [c] ∧ s.drop (i - 1) = c :: s.drop i := by
  obtain ⟨i, rfl⟩ : ∃ j, i = j + 1 := ⟨i - 1, by omega⟩
  refine ⟨s[i], ?_, drop_eq_getElem_cons le⟩
  rw [Nat.add_sub_cancel, take_add_one, getElem?_eq_getElem le]
  rfl

theorem rmchr_ok (ok : Ok g d) (empty : g.selStart = g.selEnd) (room : g.curr ≠ 0 → g.selEnd < g.text.length) :
    Ends (rmchr look g) fun g' => Ok g' d.back := by
  obtain ⟨consistent, shows⟩ := ok
  have curr := shows.curr
  have none := shows.empty_iff.mp empty
  by_cases first : g.curr = 0
  · rw [rmchr, if_pos first, Doc.back, if_neg (not_not.mpr none), if_pos (by omega)]
    exact .pure ⟨consistent, shows⟩
  obtain ⟨low, order, high⟩ := consistent.sel
  have within := consistent.curr
  have short := room first
  have back : d.back =
      ⟨g.text.take (d.cursor - 1) ++ g.text.drop d.cursor, d.cursor - 1, d.lo, d.hi, d.anchor⟩ := by
    rw [Doc.back, if_neg (not_not.mpr none), if_neg (by omega), shows.text]
  have toNat : g.curr.toNat = d.cursor := by omega
  rw [rmchr, if_neg first, if_neg (not_not.mpr empty), back]
  dsimp only
  rw [if_neg (by omega), toNat]
  have length : (g.text.take (d.cursor - 1) ++ g.text.drop d.cursor).length = g.text.length - 1 := by
    simp only [length_append, length_take, length_drop]
    omega
  have noNul : (0 : Byte) ∉ g.text.take (d.cursor - 1) ++ g.text.drop d.cursor := by
    simpa using noNul_take_drop consistent.noNul (t := []) (by simp) (d.cursor - 1) d.cursor
  have sel : Inside (g.text.take (d.cursor - 1) ++ g.text.drop d.cursor) g.selStart g.selEnd :=
    ⟨low, order, by rw [length]; omega⟩
  obtain ⟨c, taken, dropped⟩ := take_snoc (s := g.text) (i := d.cursor) (by omega) (by omega)
  have before : (g.text.take (d.cursor - 1) ++ g.text.drop d.cursor).take (d.cursor - 1) =
      g.text.take (d.cursor - 1) := by
    rw [take_left' (by rw [length_take]; omega)]
  by_cases column : g.currColumn = 0
  · rw [if_pos column, show g.curr - 1 = (d.cursor - 1 : Nat) by omega]
    apply (gotoIndex_ends (i := d.cursor - 1)
      (g := { g with text := g.text.take (d.cursor - 1) ++ g.text.drop d.cursor })
      (by dsimp only; omega) consistent.topmostLine.1).mono
    rintro g' ⟨t, h, rfl, top⟩
    exact ⟨consistent_moved noNul (by dsimp only; omega) sel top, ⟨rfl, rfl, shows.anchor, shows.sel⟩⟩
  · rw [if_neg column]
    have other : c ≠ nl := by
      rintro rfl
      rw [consistent.currColumn, toNat, taken, column_sep] at column
      exact column rfl
    have lines : g.currLine = line nl ((g.text.take (d.cursor - 1) ++ g.text.drop d.cursor).take (d.cursor - 1)) := by
      have kept : count nl [c] = 0 := count_eq_zero.mpr (by simpa using other.symm)
      rw [consistent.currLine, toNat, taken, before, line_append, line, line, kept]
      rfl
    have columns : g.currColumn - 1 =
        Position.column nl ((g.text.take (d.cursor - 1) ++ g.text.drop d.cursor).take (d.cursor - 1)) := by
      rw [consistent.currColumn, toNat, taken, before, column_snoc other]
      omega
    have count : lineCount (g.text.take (d.cursor - 1) ++ g.text.drop d.cursor) = lineCount g.text := by
      have kept : count nl (c :: g.text.drop d.cursor) = count nl (g.text.drop d.cursor) :=
        count_cons_of_ne other
      rw [lineCount, lineCount, count_append, ← kept, ← dropped, ← count_append, take_append_drop]
    have top : Top (g.text.take (d.cursor - 1) ++ g.text.drop d.cursor) g.currLine := by
      rw [lines]
      exact top_line _ _
    rw [redrawLine_eq top.1 top.2]
    refine .pure ⟨⟨noNul, ⟨?_, ?_⟩, ?_, ?_, sel, ?_⟩, ⟨rfl, ?_, shows.anchor, shows.sel⟩⟩
    · dsimp only
      omega
    · dsimp only
      omega
    · rw [show (g.curr - 1).toNat = d.cursor - 1 by omega]
      exact lines
    · rw [show (g.curr - 1).toNat = d.cursor - 1 by omega]
      exact columns
    · rw [Top, count]
      exact consistent.topmostLine
    · dsimp only
      omega

theorem homeFrom_eq {text : List Byte} {i : Nat} (le : i ≤ text.length) :
    homeFrom text i = i - column nl (text.take i) := by
  induction i with
  | zero => rfl
  | succ i ih =>
    obtain ⟨c, taken, dropped⟩ := take_snoc (s := text) (i := i + 1) (by omega) le
    rw [Nat.add_sub_cancel] at taken dropped
    have here : text.getD i 0 = c := by
      rw [getD_eq_getElem _ _ le]
      exact (cons.inj ((drop_eq_getElem_cons le).symm.trans dropped)).1
    rw [homeFrom, here, taken]
    by_cases same : c = nl
    · rw [if_pos same, same, column_sep]
      rfl
    · rw [if_neg same, column_snoc same, ih (by omega)]
      omega

theorem scanX_le (look : Look) (x w : Int) (p : List Byte) : scanX look x w p ≤ (p.takeWhile (· ≠ nl)).length := by
  induction p generalizing w with
  | nil => exact le_refl _
  | cons c cs ih =>
    rw [scanX]
    split
    · exact zero_le _
    · rename_i inside
      have other : c ≠ nl := fun same => inside (Or.inr same)
      rw [takeWhile_cons, decide_eq_true other]
      exact succ_le_succ (ih _)

theorem xylcindex_some {x y : Int} (low : 0 ≤ pointLine look g y) :
    ∃ c l i, xylcindex look g x y = some (c, l, Int.ofNat i) ∧ lcindex g.text c l = some i := by
  have some : 0 < lineCount g.text := succ_pos _
  rw [xylcindex]
  dsimp only
  generalize line : (if pointLine look g y ≥ lineCount g.text then (lineCount g.text : Int) - 1
    else pointLine look g y) = l
  have inside : 0 ≤ l ∧ l < lineCount g.text := by
    split at line <;> omega
  obtain ⟨start, found⟩ := lcindex_isSome inside.1 inside.2
  rw [found]
  refine ⟨_, l, _, rfl, ?_⟩
  have scan := scanX_le look (i32 (x + g.hpos)) 0 (g.text.drop start)
  generalize scanX look (i32 (x + g.hpos)) 0 (g.text.drop start) = i at scan
  rw [lcindex, if_neg (by omega)] at found ⊢
  cases skipped : skipLines l.toNat g.text with
  | none => rw [skipped] at found; nomatch found
  | some p =>
    rw [skipped] at found
    dsimp only at found ⊢
    split at found
    · nomatch found
    · have at_start := Option.some.inj found
      obtain ⟨a, eq, _, _⟩ := skipLines_some skipped
      have length : g.text.length = a.length + p.length := by rw [eq, length_append]
      have tail : g.text.drop start = p := by
        rw [eq, show start = a.length by omega, drop_left]
      rw [tail] at scan
      rw [if_neg (by omega)]
      congr 1
      omega

theorem hit_eq (eq : xylcindex look g x y = some (c, l, i)) : hit look g x y = i := by
  rw [hit, eq]
  rfl

theorem select_text (d : Doc) (a b : Int) : (d.select a b).text = d.text := by
  rw [Doc.select]
  split <;> rfl

theorem selGoto_ok (ok : Ok g d) (found : lcindex g.text c l = some i) :
    Ends (selSet g a b >>= fun g' => goto look g' c l) fun g' => Ok g' ((d.select a b).goTo i) := by
  refine (selSet_ok ok a b).bind ?_
  intro g' ok'
  have same : lcindex (d.select a b).text c l = some i := by rw [select_text, ← ok.2.text, found]
  have moved := @goto_ok look _ _ ok' c l
  rwa [Doc.goAt, same] at moved

theorem drag_ok (ok : Ok g d) (low : 0 ≤ pointLine look g y) :
    Ends (drag look g x y) fun g' => Ok g' ((d.select d.anchor (hit look g x y)).goTo (hit look g x y)) := by
  obtain ⟨c, l, i, eq, found⟩ := xylcindex_some (g := g) (x := x) low
  rw [drag, eq, hit_eq eq, ← ok.2.anchor]
  exact selGoto_ok ok found

theorem pressPtr_ok (ok : Ok g d) (low : button = false → g.ptrDown = 0 → 0 ≤ pointLine look g y) :
    Ends (pressPtr look g x y button) fun g' => Ok g' (act look g d (.ptrDown x y button)) := by
  rw [pressPtr, act]
  cases button with
  | true => exact .pure ok
  | false =>
    rw [if_neg nofun]
    dsimp only
    by_cases first : g.ptrDown = 0
    · obtain ⟨c, l, i, eq, found⟩ := xylcindex_some (g := g) (x := x) (low rfl first)
      have eq' : xylcindex look { g with ptrDown := g.ptrDown + 1 } x y = some (c, l, Int.ofNat i) := eq
      rw [if_pos (by omega), if_neg (by simpa using first), eq', hit_eq eq]
      have ok' : Ok { g with ptrDown := g.ptrDown + 1, newselStart := i } { d with anchor := i } :=
        ⟨{ ok.1 with }, ⟨ok.2.text, ok.2.curr, rfl, ok.2.sel⟩⟩
      exact selGoto_ok ok' found
    · rw [if_neg (by omega), if_pos (Or.inr first)]
      exact .pure ⟨{ ok.1 with }, { ok.2 with }⟩

theorem back_ok (ok : Ok g d) (room : g.selStart = g.selEnd → g.curr ≠ 0 → g.selEnd < g.text.length) :
    Ends (if g.selStart ≠ g.selEnd then selDelete look g else rmchr look g) fun g' => Ok g' d.back := by
  by_cases empty : g.selStart = g.selEnd
  · rw [if_neg (not_not.mpr empty)]
    exact rmchr_ok ok empty (room empty)
  · have erased : d.back = d.erase := if_pos fun same => empty (ok.2.empty_iff.mpr same)
    rw [if_pos empty, erased]
    exact selDelete_ok ok

theorem del_ok (ok : Ok g d)
    (room : g.selStart = g.selEnd → g.curr < g.text.length → g.selEnd < g.text.length) :
    Ends (if g.selStart ≠ g.selEnd then selDelete look g
      else if g.curr < g.text.length then (do rmchr look (← gotoIndex look g (g.curr + 1)))
      else some g) fun g' => Ok g' d.del := by
  by_cases empty : g.selStart = g.selEnd
  · have none := ok.2.empty_iff.mp empty
    rw [if_neg (not_not.mpr empty), Doc.del, if_neg (not_not.mpr none)]
    obtain ⟨consistent, shows⟩ := ok
    have curr := shows.curr
    by_cases behind : g.curr < g.text.length
    · have next : d.cursor + 1 ≤ g.text.length := by omega
      rw [if_pos behind, if_pos (by rw [← shows.text]; omega), show g.curr + 1 = (d.cursor + 1 : Nat) by omega]
      refine (gotoIndex_ends next consistent.topmostLine.1).bind ?_
      rintro g' ⟨t, h, rfl, top⟩
      have ok' : Ok (g.moved (d.cursor + 1) t h) { d with cursor := d.cursor + 1 } :=
        ⟨consistent_moved consistent.noNul next consistent.sel top, ⟨shows.text, rfl, shows.anchor, shows.sel⟩⟩
      have taken : Doc.back { d with cursor := d.cursor + 1 } =
          { d with text := d.text.take d.cursor ++ d.text.drop (d.cursor + 1) } := by
        rw [Doc.back, if_neg (not_not.mpr none), if_neg (succ_ne_zero _)]
        rfl
      rw [← taken]
      exact rmchr_ok ok' empty fun _ => room empty behind
    · rw [if_neg behind, if_neg (by rw [← shows.text]; omega)]
      exact .pure ⟨consistent, shows⟩
  · have erased : d.del = d.erase := if_pos fun same => empty (ok.2.empty_iff.mpr same)
    rw [if_pos empty, erased]
    exact selDelete_ok ok

theorem isprint_byte (print : isprint ch ∨ ch = 10) : BitVec.ofNat 8 ch ≠ 0 := by
  have small : 0 < ch ∧ ch < 256 := by
    rcases print with print | rfl
    · simp only [isprint, Bool.and_eq_true, decide_eq_true_eq] at print
      omega
    · decide
  intro zero
  have value := congrArg BitVec.toNat zero
  rw [BitVec.toNat_ofNat, mod_eq_of_lt small.2] at value
  exact absurd value (by simpa using small.1.ne')

theorem key_ok (ok : Ok g d) (room : g.readOnly = false → g.selStart = g.selEnd →
      ch = backspace ∧ g.curr ≠ 0 ∨ ch = keyDel ∧ g.curr < g.text.length → g.selEnd < g.text.length) :
    Ends (pressKey look g ch shift) fun g' => Ok g' (d.key g.readOnly ch shift) := by
  obtain ⟨consistent, shows⟩ := id ok
  have curr := shows.curr
  have within := consistent.curr
  have lines : g.currLine = line nl (d.text.take d.cursor) := by
    rw [consistent.currLine, curr, shows.text]
    rfl
  rw [pressKey, Doc.key, ← lines, ← curr]
  by_cases up : ch = keyUp
  · rw [if_pos up, if_pos up]
    exact (goto_ok ok _ _).bind fun g' ok' => extend_ok ok' shift
  rw [if_neg up, if_neg up]
  by_cases down : ch = keyDown
  · rw [if_pos down, if_pos down]
    exact (goto_ok ok _ _).bind fun g' ok' => extend_ok ok' shift
  rw [if_neg down, if_neg down]
  by_cases left : ch = keyLeft
  · rw [if_pos left, if_pos left]
    exact (gotoIndex_ok ok _).bind fun g' ok' => extend_ok ok' shift
  rw [if_neg left, if_neg left]
  by_cases right : ch = keyRight
  · rw [if_pos right, if_pos right]
    exact (gotoIndex_ok ok _).bind fun g' ok' => extend_ok ok' shift
  rw [if_neg right, if_neg right]
  by_cases back : ch = backspace
  · rw [if_pos back, if_pos back]
    cases readOnly : g.readOnly with
    | true => exact .pure ok
    | false => exact back_ok ok fun empty more => room readOnly empty (Or.inl ⟨back, more⟩)
  rw [if_neg back, if_neg back]
  by_cases page : ch = keyPgup ∨ ch = keyPgdn
  · rw [if_pos page, if_pos page]
    exact .pure ok
  rw [if_neg page, if_neg page]
  by_cases home : ch = keyHome
  · rw [if_pos home, if_pos home]
    by_cases first : d.cursor = 0
    · rw [if_pos first, if_pos (by omega)]
      exact .pure ok
    · rw [if_neg first, if_neg (by omega), if_neg (by omega), homeFrom_eq (by omega),
        show g.curr.toNat = d.cursor by omega, shows.text]
      exact (gotoIndex_ok ok _).bind fun g' ok' => extend_ok ok' shift
  rw [if_neg home, if_neg home]
  by_cases last : ch = keyEnd
  · rw [if_pos last, if_pos last, if_neg (by omega), endFrom, show g.curr.toNat = d.cursor by omega, shows.text]
    exact (gotoIndex_ok ok _).bind fun g' ok' => extend_ok ok' shift
  rw [if_neg last, if_neg last]
  by_cases ins : ch = keyIns
  · rw [if_pos ins, if_pos ins]
    exact .pure ok
  rw [if_neg ins, if_neg ins]
  by_cases del : ch = keyDel
  · rw [if_pos del, if_pos del]
    cases readOnly : g.readOnly with
    | true => exact .pure ok
    | false => exact del_ok ok fun empty more => room readOnly empty (Or.inr ⟨del, more⟩)
  rw [if_neg del, if_neg del]
  by_cases mark : ch = keyShift
  · rw [if_pos mark, if_pos mark]
    exact .pure ⟨{ consistent with }, ⟨shows.text, curr, rfl, shows.sel⟩⟩
  rw [if_neg mark, if_neg mark]
  cases readOnly : g.readOnly with
  | true => exact .pure ok
  | false =>
    by_cases print : isprint ch ∨ ch = 10
    · simp only [Bool.false_eq_true, if_false]
      rw [if_pos print, if_pos print]
      exact inschr_ok ok (isprint_byte print)
    · simp only [Bool.false_eq_true, if_false]
      rw [if_neg print, if_neg print]
      exact .pure ok

/-- An event or a call that the box is up to. A character is not taken out in front of an empty selection that stands at
    the end of the text, nothing is inserted over a selection, and no point lies above the first line. -/
def Allowed (look : Look) (g : Box) : Op → Prop
  | .key ch _ => g.readOnly = false → g.selStart = g.selEnd →
      ch = backspace ∧ g.curr ≠ 0 ∨ ch = keyDel ∧ g.curr < g.text.length → g.selEnd < g.text.length
  | .insert _ => g.selStart = g.selEnd
  | .ptrDown _ y button => button = false → g.ptrDown = 0 → 0 ≤ pointLine look g y
  | .ptrUp _ y button => button = false → g.ptrDown = 1 → 0 ≤ pointLine look g y
  | .ptrMove _ y => g.ptrDown ≠ 0 → 0 ≤ pointLine look g y
  | _ => True

theorem step_ok (ok : Ok g d) (allowed : Allowed look g op) :
    Ends (step look g op) fun g' => Ok g' (act look g d op) := by
  obtain ⟨consistent, shows⟩ := id ok
  cases op with
  | key ch shift => exact key_ok ok allowed
  | ptrDown x y button => exact pressPtr_ok ok allowed
  | ptrUp x y button =>
    rw [step, releasePtr, act]
    cases button with
    | true => exact .pure ok
    | false =>
      have ok' : Ok { g with ptrDown := g.ptrDown - 1 } d := ⟨{ consistent with }, { shows with }⟩
      by_cases last : g.ptrDown = 1
      · simp only [Bool.false_eq_true, if_false, false_or, last, ne_eq, not_true_eq_false]
        rw [last] at ok'
        exact drag_ok ok' (allowed rfl last)
      · have more : ¬ g.ptrDown - 1 = 0 := by omega
        simp only [Bool.false_eq_true, if_false, false_or, last, more, ne_eq, not_false_eq_true, if_true]
        exact .pure ok'
  | ptrMove x y =>
    rw [step, movePtr, act]
    by_cases up : g.ptrDown = 0
    · rw [if_neg (not_not.mpr up), if_pos up]
      exact .pure ok
    · rw [if_pos up, if_neg up]
      exact drag_ok ok (allowed up)
  | setText text =>
    exact .pure ⟨⟨text.2, ⟨le_refl _, natCast_nonneg _⟩, rfl, rfl,
      ⟨le_refl _, le_refl _, natCast_nonneg _⟩, top_line text.1 0⟩,
      ⟨rfl, rfl, shows.anchor, Or.inl ⟨rfl, rfl⟩⟩⟩
  | insert text => exact insert_ok ok text.2 allowed
  | selSet start stop => exact selSet_ok ok start stop
  | selDelete => exact selDelete_ok ok
  | goto column line => exact goto_ok ok column line
  | gotoIndex index => exact gotoIndex_ok ok index
  | vscroll t =>
    obtain ⟨t', eq, top⟩ := vscroll_keeps consistent.topmostLine t
    rw [step, eq]
    exact .pure ⟨{ consistent with topmostLine := top }, { shows with }⟩
  | hscroll h =>
    obtain ⟨h', eq⟩ := hscroll_keeps g h
    rw [step, eq]
    exact .pure ⟨{ consistent with }, { shows with }⟩

/-- Every step of the run is one that the box is up to. -/
def AllAllowed (look : Look) : Box → List Op → Prop
  | _, [] => True
  | g, op :: ops => Allowed look g op ∧ ∀ g' ∈ step look g op, AllAllowed look g' ops

instance : (g : Box) → (op : Op) → Decidable (Allowed look g op)
  | g, .key ch _ => inferInstanceAs (Decidable (g.readOnly = false → g.selStart = g.selEnd →
      ch = backspace ∧ g.curr ≠ 0 ∨ ch = keyDel ∧ g.curr < g.text.length → g.selEnd < g.text.length))
  | g, .insert _ => inferInstanceAs (Decidable (g.selStart = g.selEnd))
  | g, .ptrDown _ y button =>
    inferInstanceAs (Decidable (button = false → g.ptrDown = 0 → 0 ≤ pointLine look g y))
  | g, .ptrUp _ y button => inferInstanceAs (Decidable (button = false → g.ptrDown = 1 → 0 ≤ pointLine look g y))
  | g, .ptrMove _ y => inferInstanceAs (Decidable (g.ptrDown ≠ 0 → 0 ≤ pointLine look g y))
  | _, .setText _ | _, .selSet _ _ | _, .selDelete | _, .goto _ _ | _, .gotoIndex _ | _, .vscroll _
  | _, .hscroll _ => isTrue trivial

instance decidableAllAllowed : (g : Box) → (ops : List Op) → Decidable (AllAllowed look g ops)
  | _, [] => isTrue trivial
  | g, op :: ops =>
    have := fun g' => decidableAllAllowed g' ops
    inferInstanceAs (Decidable (Allowed look g op ∧ ∀ g' ∈ step look g op, AllAllowed look g' ops))

def acts (look : Look) : Box → Doc → List Op → Doc
  | _, d, [] => d
  | g, d, op :: ops =>
    match step look g op with
    | none => d
    | some g' => acts look g' (act look g d op) ops

theorem run_ok (ok : Ok g d) (allowed : AllAllowed look g ops) :
    Ends (run look g ops) fun g' => Ok g' (acts look g d ops) := by
  induction ops generalizing g d with
  | nil => exact .pure ok
  | cons op ops ih =>
    obtain ⟨g', eq, ok'⟩ := step_ok ok allowed.1
    rw [run, foldlM_cons, acts, eq]
    exact ih ok' (allowed.2 g' eq)

theorem creat_ok (readOnly visible : Bool) : Ok (creat readOnly visible) .empty :=
  ⟨⟨by simp [creat], by simp [creat], rfl, rfl, by simp [creat, Inside], by simp [creat, Top, lineCount]⟩,
    ⟨rfl, rfl, rfl, Or.inl ⟨rfl, rfl⟩⟩⟩

/-- A run of steps that the box is up to reads and writes nothing past the end of the text; it ends in a consistent box
    that holds the string the same insertions and deletions lead to. -/
theorem runs_consistent (look : Look) (readOnly visible : Bool) (ops : List Op)
    (allowed : AllAllowed look (creat readOnly visible) ops) :
    ∃ g, run look (creat readOnly visible) ops = some g ∧ Consistent g ∧
      Shows g (acts look (creat readOnly visible) .empty ops) :=
  run_ok (creat_ok readOnly visible) allowed

def sampleLook : Look := ⟨fun _ => 8, 16, by decide, 100, 100⟩

/-- Two lines are typed, the end of the first is clicked at and taken back. -/
theorem runs_consistent_sample :
    let ops : List Op := [.key 97 false, .key 98 false, .key 10 false, .key 99 false, .ptrDown 50 3 false,
      .ptrUp 50 3 false, .key backspace false, .key keyEnd false, .insert ⟨[100, 10], by decide⟩]
    ∃ g, run sampleLook (creat false true) ops = some g ∧ Consistent g ∧
      Shows g (acts sampleLook (creat false true) .empty ops) :=
  runs_consistent sampleLook false true _ (by decide)

/-- A character is taken out in front of an empty selection at the end, which then lies past the text. An insertion over
    a selection and a point above the first line read past the NUL. -/
theorem runs_not_consistent :
    (¬ ∃ g, run sampleLook (creat false true)
      [.insert ⟨[97, 98], by decide⟩, .selSet 2 2, .key backspace false] = some g ∧ Consistent g) ∧
    run sampleLook (creat false true)
      [.insert ⟨[97, 98], by decide⟩, .selSet 0 1, .insert ⟨[99], by decide⟩] = none ∧
    run sampleLook (creat false true) [.ptrDown 5 (-16) false] = none := by
  refine ⟨?_, by decide, by decide⟩
  rintro ⟨g, done, consistent⟩
  have state : run sampleLook (creat false true)
      [.insert ⟨[97, 98], by decide⟩, .selSet 2 2, .key backspace false] = some ⟨[97], 0, 1, 0, 1, 0, 2, 2, 0, 0, false, true⟩ := by decide
  obtain rfl := some.inj (done.symm.trans state)
  exact absurd consistent.sel.2.2 (by decide)

end Edbox
