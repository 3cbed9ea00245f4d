import Newsys.Libc.Csi

/- The commands that move lines: L, M, ESC M and the line feed at the lower margin (vt100_scroll, vt100_scroll_down,
   do_insert_cmd, do_remove_cmd and do_esm_M of lib/vt100/vt100.c). -/
namespace Scroll
open Bytes Cells Ints Kern Vt100 Option Int
open Libc (chr)

def cell (vt : Vt) (i j : Int) : Option Cell := vt.cells[(i * vt.w + j).toNat]?

structure Shift where
  down : Bool
  first : Int
  last : Int
  count : Int

/-- The line that comes to the line `i`; none comes to a line that is vacated. -/
def Shift.source (s : Shift) (i : Int) : Option Int :=
  if s.first ≤ i ∧ i < s.last then
    if s.down then if i < s.first + s.count then none else some (i - s.count)
    else if i + s.count < s.last then some (i + s.count) else none
  else some i

def Shift.cell (s : Shift) (vt : Vt) (i j : Int) : Option Cell :=
  (s.source i).elim (some (blank vt)) fun i => Scroll.cell vt i j

inductive Command where
  | insert
  | remove
  | reverseIndex
  | newline

namespace Command

def code : Command → Byte
  | insert => chr 'L'
  | remove => chr 'M'
  | reverseIndex => chr 'M'
  | newline => chr '\n'

def after : Command → Vst
  | insert => .csi
  | remove => .csi
  | reverseIndex => .esc
  | newline => .character

def moved (vt : Vt) : Int := if vt.scrollTop ≤ vt.y ∧ vt.y < vt.scrollBottom then param vt else 0

def shift (vt : Vt) : Command → Shift
  | insert => ⟨true, vt.y, vt.scrollBottom, moved vt⟩
  | remove => ⟨false, vt.y, vt.scrollBottom, moved vt⟩
  | reverseIndex => ⟨true, vt.scrollTop, vt.scrollBottom, if vt.y = vt.scrollTop then 1 else 0⟩
  | newline => ⟨false, vt.scrollTop, vt.scrollBottom, 1⟩

end Command

def Shows (vt : Vt) (f : Int → Int → Option Cell) (vt' : Vt) : Prop :=
  ∀ i j, 0 ≤ i → i < vt.h → 0 ≤ j → j < vt.w → cell vt' i j = f i j

def Moves (m : Machine) (vt : Vt) (c : Command) : Prop :=
  Ends (vt100Putc m vt c.code) (Shows vt ((c.shift vt).cell vt))

def BlankRows (vt : Vt) (a b : Int) : Prop :=
  ∀ i j, a ≤ i → i < b → 0 ≤ j → j < vt.w → cell vt i j = some (blank vt)

/-- The command blanks the lines that it vacates, or they are blank; and the count is not too large for an `int`. -/
def Right (vt : Vt) : Command → Prop
  | .insert => vt.scrollTop ≤ vt.y → vt.y < vt.scrollBottom → vt.y + param vt < 2 ^ 31
  | .remove => vt.scrollTop ≤ vt.y → vt.y < vt.scrollBottom → vt.y + param vt < 2 ^ 31 ∧
    (vt.y + param vt ≤ vt.scrollBottom → BlankRows vt (vt.scrollBottom - param vt) vt.scrollBottom)
  | .reverseIndex => vt.y = vt.scrollTop → BlankRows vt vt.scrollTop (vt.scrollTop + 1)
  | .newline => True

def Drawn (vt : Vt) (f : Int → Int → Option Cell) (vt' : Vt) : Prop := Redrawn vt vt' ∧ Shows vt f vt'

theorem Shift.cell_down (vt : Vt) (a b n i j : Int) : Shift.cell ⟨true, a, b, n⟩ vt i j =
    if a ≤ i ∧ i < b then if i < a + n then some (blank vt) else Scroll.cell vt (i - n) j else Scroll.cell vt i j := by
  simp only [Shift.cell, Shift.source, if_true]
  split_ifs <;> rfl

theorem Shift.cell_up (vt : Vt) (a b n i j : Int) : Shift.cell ⟨false, a, b, n⟩ vt i j =
    if a ≤ i ∧ i < b then if i + n < b then Scroll.cell vt (i + n) j else some (blank vt) else Scroll.cell vt i j := by
  simp only [Shift.cell, Shift.source, Bool.false_eq_true, if_false]
  split_ifs <;> rfl

section Rows
variable {m : Machine} {vt : Vt} (g : Geometry m vt)
include g

variable {a : Int}

omit g in
theorem row_le (low : 0 ≤ j) (high : j < w) : a * w ≤ i * w + j ↔ a ≤ i := by
  constructor
  · intro le
    by_contra less
    have next := mul_le_mul_of_nonneg_right (show i + 1 ≤ a by omega) (show 0 ≤ w by omega)
    rw [add_mul, one_mul] at next
    omega
  · intro le
    have := mul_le_mul_of_nonneg_right le (show 0 ≤ w by omega)
    omega

omit g in
theorem row_lt (low : 0 ≤ j) (high : j < w) : i * w + j < a * w ↔ i < a := by
  rw [← not_le, row_le low high, not_le]

theorem paintRows (drawn : Drawn vt f vt') (low : 0 ≤ a)
    (le : a ≤ b) (high : b ≤ vt.h) : Ends (paint vt' (a * vt'.w) (b * vt'.w) fun _ => blank vt')
      (Drawn vt fun i j => if a ≤ i ∧ i < b then some (blank vt) else f i j) := by
  obtain ⟨redrawn, shows⟩ := drawn
  have g' := redrawn.geometry g
  obtain ⟨cells, lines, rfl, _⟩ := id redrawn
  have rows := rows_inside g low le high
  obtain ⟨vt'', ran, again⟩ := @paint_ends _ _ g' (a * vt.w) (b * vt.w) (fun _ => blank vt)
    fun _ => by dsimp only; omega
  refine ⟨vt'', ran, redrawn.trans again, ?_⟩
  intro i j row height column inside
  have there := shows i j row height column inside
  have at_place := mul_nonneg row (show 0 ≤ vt.w by omega)
  simp only [paint, bind_eq_bind, bind_eq_some_iff] at ran
  obtain ⟨cells', stored, eq⟩ := ran
  obtain rfl := some.inj eq
  have place : ((i * vt.w + j).toNat : Int) = i * vt.w + j := toNat_of_nonneg (by omega)
  unfold cell at there ⊢
  simp only [storeTo_get stored, place, row_le column inside, row_lt column inside, there]

theorem moveRows (pos : 0 ≤ n) (dst : 0 ≤ d ∧ d + n ≤ vt.h) (src : 0 ≤ s ∧ s + n ≤ vt.h) :
    Ends (memmove m vt (d * vt.w) (s * vt.w) (n * vt.w))
      (Drawn vt fun i j => if d ≤ i ∧ i < d + n then cell vt (i - d + s) j else cell vt i j) := by
  have from_rows := rows_inside g src.1 (show s ≤ s + n by omega) src.2
  have to_rows := rows_inside g dst.1 (show d ≤ d + n by omega) dst.2
  have all := rows_inside g (le_refl 0) pos (by omega)
  rw [add_mul] at from_rows to_rows
  obtain ⟨vt', ran, redrawn⟩ := @memmove_ends _ _ g (d * vt.w) (s * vt.w) (n * vt.w) (by omega)
    fun _ => by omega
  refine ⟨vt', ran, redrawn, ?_⟩
  intro i j row _ column inside
  have at_place := mul_nonneg row (show 0 ≤ vt.w by omega)
  have size := g.size
  have whole : ((n * vt.w * 8 % m.word).toNat / 8 : Nat) = (n * vt.w).toNat := by
    rw [emod_eq_of_lt (by omega) (by omega)]
    omega
  simp only [memmove, whole, bind_eq_bind, bind_eq_some_iff] at ran
  obtain ⟨cells, shifted, eq⟩ := ran
  obtain rfl := some.inj eq
  have place : ((i * vt.w + j).toNat : Int) = i * vt.w + j := toNat_of_nonneg (by omega)
  have all_of : ((n * vt.w).toNat : Int) = n * vt.w := toNat_of_nonneg (by omega)
  have origin : i * vt.w + j - d * vt.w + s * vt.w = (i - d + s) * vt.w + j := by ring
  simp only [cell, move_get shifted, place, all_of, origin, ← add_mul, row_le column inside, row_lt column inside]

end Rows

variable {vt vt' : Vt} {f : Int → Int → Option Cell}

theorem Drawn.flagged {lines : List Int} (drawn : Drawn vt f vt')
    (same : lines.length = vt'.lineDirty.length) : Drawn vt f { vt' with lineDirty := lines } :=
  ⟨drawn.1.trans ⟨vt'.cells, lines, rfl, rfl, same⟩, drawn.2⟩

theorem Drawn.dirtyTo (g : Geometry m vt)
    (drawn : Drawn vt f vt') (low : 0 ≤ a) (high : b ≤ vt.h) : Ends (Vt100.dirtyTo vt' a b) (Drawn vt f) := by
  have same := (drawn.1.geometry g).lines
  have height : vt'.h = vt.h := by
    obtain ⟨⟨_, _, rfl, _⟩, _⟩ := drawn
    rfl
  obtain ⟨lines, stored, length⟩ := @storeTo_some _ vt'.lineDirty a b (fun _ => 1) fun _ => ⟨low, by omega⟩
  exact ⟨_, by rw [Vt100.dirtyTo, stored]; rfl, drawn.flagged length⟩

theorem Drawn.refl (vt : Vt) : Drawn vt (cell vt) vt :=
  ⟨⟨vt.cells, vt.lineDirty, rfl, rfl, rfl⟩, fun _ _ _ _ _ _ => rfl⟩

theorem Drawn.mono (drawn : Drawn vt f vt')
    (same : ∀ i j, 0 ≤ i → i < vt.h → f i j = f' i j) : Drawn vt f' vt' :=
  ⟨drawn.1, fun i j row height column inside => (drawn.2 i j row height column inside).trans (same i j row height)⟩

section Commands
variable {m : Machine} {vt : Vt}

theorem scroll_drawn (g : Geometry m vt) :
    Ends (vt100Scroll m vt) fun vt' => ∃ u,
      Drawn vt (Shift.cell ⟨false, vt.scrollTop, vt.scrollBottom, 1⟩ vt) u ∧ vt' = { u with y := vt.y - 1 } := by
  have top := g.top
  have region := g.region
  have bottom := g.bottom
  unfold vt100Scroll
  refine (moveRows g (by omega) (by omega) (by omega)).bind ?_
  intro a first
  have last : a.w * (a.scrollBottom - 1) + a.w = a.scrollBottom * a.w := by ring
  have margin : a.scrollBottom = vt.scrollBottom ∧ a.h = vt.h ∧ a.y = vt.y := by
    obtain ⟨⟨_, _, rfl, _⟩, _⟩ := first
    exact ⟨rfl, rfl, rfl⟩
  rw [last, mul_comm a.w, margin.1]
  refine (paintRows g first (by omega) (by omega) bottom).bind ?_
  intro b second
  have same : b.h = vt.h ∧ b.y = vt.y := by
    obtain ⟨⟨_, _, rfl, _⟩, _⟩ := second
    exact ⟨rfl, rfl⟩
  rw [same.1]
  refine (second.dirtyTo g (le_refl 0) (le_refl _)).bind ?_
  intro c third
  have row : c.y = vt.y := by
    obtain ⟨⟨_, _, rfl, _⟩, _⟩ := third
    rfl
  refine Ends.pure ⟨c, third.mono ?_, by rw [row]⟩
  intro i j _ _
  rw [Shift.cell_up]
  split_ifs <;> first | rfl | omega | (congr 1; omega)

theorem lines_drawn (v : Placed m vt) (collects : vt.st = .csi) (insert : Bool)
    (inside : vt.scrollTop ≤ vt.y ∧ vt.y < vt.scrollBottom) (fits : vt.y + param vt < 2 ^ 31) :
    Ends (lines m insert vt) (Shows vt fun i j =>
      if (insert = false ∧ vt.y + param vt ≤ vt.scrollBottom) ∧ vt.scrollBottom - param vt ≤ i ∧ i < vt.scrollBottom then
        cell vt i j
      else Shift.cell ⟨insert, vt.y, vt.scrollBottom, param vt⟩ vt i j) := by
  obtain ⟨read, low, _⟩ := param_eq v.params collects
  have g := v.toGeometry
  have row := v.row
  have bottom := v.bottom
  unfold lines
  rw [if_neg (by omega), read, bind_eq_bind, bind_some, int_eq (by omega) fits]
  refine Ends.bind (P := Drawn vt fun i j =>
      if (insert = false ∧ vt.y + param vt ≤ vt.scrollBottom) ∧ vt.scrollBottom - param vt ≤ i ∧ i < vt.scrollBottom then
        cell vt i j
      else Shift.cell ⟨insert, vt.y, vt.scrollBottom, param vt⟩ vt i j) ?_ ?_
  · split
    · refine (paintRows g (Drawn.refl vt) row.1 (by omega) bottom).mono fun vt' drawn => drawn.mono ?_
      intro i j _ _
      have all : ¬ ((insert = false ∧ vt.y + param vt ≤ vt.scrollBottom) ∧ vt.scrollBottom - param vt ≤ i ∧
          i < vt.scrollBottom) := fun some => by omega
      rw [if_neg all]
      cases insert
      · rw [Shift.cell_up]
        split_ifs <;> first | rfl | omega
      · rw [Shift.cell_down]
        split_ifs <;> first | rfl | omega
    cases insert
    · refine (moveRows g (by omega) (by omega) (by omega)).mono fun vt' drawn => drawn.mono ?_
      intro i j _ _
      rw [Shift.cell_up]
      simp only [true_and]
      split_ifs <;> first | rfl | omega | (congr 1; omega)
    · refine (moveRows g (by omega) (by omega) (by omega)).bind ?_
      intro a first
      have same : a.y = vt.y := by
        obtain ⟨⟨_, _, rfl, _⟩, _⟩ := first
        rfl
      rw [same]
      refine (paintRows g first row.1 (by omega) (by omega)).mono fun vt' drawn => drawn.mono ?_
      intro i j _ _
      rw [Shift.cell_down]
      simp only [Bool.true_eq_false, false_and, if_false]
      split_ifs <;> first | rfl | omega | (congr 1; omega)
  · intro a first
    have same : a.y = vt.y ∧ a.scrollBottom = vt.scrollBottom := by
      obtain ⟨⟨_, _, rfl, _⟩, _⟩ := first
      exact ⟨rfl, rfl⟩
    rw [same.1, same.2]
    refine (first.dirtyTo g row.1 bottom).bind ?_
    intro b second
    exact Ends.pure second.2

theorem lines_overflow (v : Placed m vt) (collects : vt.st = .csi) (insert : Bool)
    (inside : vt.scrollTop ≤ vt.y ∧ vt.y < vt.scrollBottom) (large : ¬ vt.y + param vt < 2 ^ 31) :
    lines m insert vt = none := by
  obtain ⟨read, low, high⟩ := param_eq v.params collects
  have row := v.row
  have bottom := v.bottom
  have width := v.width
  have screen := v.int
  have size := v.size
  have length := v.cells
  have narrow : vt.w = 1 := by
    by_contra wide
    have more := mul_le_mul_of_nonneg_right (show 2 ≤ vt.w by omega) (show 0 ≤ vt.h by omega)
    omega
  have long : m = .amd64 := by
    cases m
    · rw [narrow] at size
      simp only [Machine.word] at size
      omega
    · rfl
  rw [narrow, one_mul] at screen length
  have wraps : int (vt.y + param vt) = vt.y + param vt - 2 ^ 32 := by
    unfold Ints.int signed
    omega
  have whole : ((vt.scrollBottom - vt.y - param vt) * vt.w * 8 % (m.word : Int)).toNat / 8 =
      (vt.scrollBottom - vt.y - param vt + 2 ^ 61).toNat := by
    rw [long, narrow]
    simp only [Machine.word]
    omega
  unfold lines
  rw [if_neg (by omega), read, bind_eq_bind, bind_some, wraps, if_neg (by omega)]
  have refused : ∀ dst src, memmove m vt dst src ((vt.scrollBottom - vt.y - param vt) * vt.w) = none := by
    intro dst src
    unfold memmove move
    rw [whole, if_neg (by omega), if_neg (by omega)]
    rfl
  cases insert <;> simp [refused]

theorem reverse_drawn (g : Geometry m vt) (first : vt.y = vt.scrollTop) :
    Ends (doEsmM m vt) (Shows vt fun i j =>
      if vt.scrollTop ≤ i ∧ i < vt.scrollTop + 1 then cell vt i j
      else Shift.cell ⟨true, vt.scrollTop, vt.scrollBottom, 1⟩ vt i j) := by
  have top := g.top
  have region := g.region
  have bottom := g.bottom
  unfold doEsmM vt100ScrollDown
  rw [if_neg (by omega), if_neg (by omega)]
  refine (moveRows g (by omega) (by omega) (by omega)).bind ?_
  intro a moved
  have width : 0 ≤ a.w := by
    have := g.width
    obtain ⟨⟨_, _, rfl, _⟩, _⟩ := moved
    exact (by omega : (0 : Int) ≤ vt.w)
  have none : paint a ((vt.scrollTop + 1) * a.w) (vt.scrollTop * a.w) (fun _ => blank a) = some a := by
    rw [add_mul, one_mul]
    unfold paint storeTo
    rw [show (vt.scrollTop * a.w - (vt.scrollTop * a.w + a.w)).toNat = 0 by omega]
    rfl
  rw [none, bind_eq_bind, bind_some]
  refine (moved.dirtyTo g top bottom).mono fun b drawn => (drawn.mono ?_).2
  intro i j _ _
  rw [Shift.cell_down]
  split_ifs <;> first | rfl | omega | (congr 1; omega)

theorem newline_drawn (v : Placed m vt) (margin : vt.y = vt.scrollBottom - 1) :
    Ends (vt100DoPutc m vt (chr '\n'))
      (Shows vt (Shift.cell ⟨false, vt.scrollTop, vt.scrollBottom, 1⟩ vt)) := by
  have g := v.toGeometry
  have row := v.row
  unfold vt100DoPutc
  rw [if_neg (by decide), if_neg (by decide), if_pos rfl]
  obtain ⟨lines, stored, length⟩ := @store_some _ vt.lineDirty vt.y (fun _ => 1) row.1 (by rw [g.lines]; exact row.2)
  have marked : dirty vt vt.y = some { vt with lineDirty := lines } := by
    rw [dirty, stored]
    rfl
  have g' : Geometry m { vt with lineDirty := lines, y := vt.y + 1 } := { g with lines := by rw [length]; exact g.lines }
  rw [marked, bind_eq_bind, bind_some]
  have rounds : (vt.y + 1 - vt.scrollBottom).toNat + 2 = 2 := by omega
  unfold scrollIn
  rw [rounds, scrollRounds, if_pos (by dsimp only; omega), bind_eq_bind, bind_assoc]
  refine (scroll_drawn g').bind ?_
  rintro _ ⟨a, scrolled, rfl⟩
  have same : a.scrollBottom = vt.scrollBottom ∧ a.h = vt.h := by
    obtain ⟨⟨_, _, rfl, _⟩, _⟩ := scrolled
    exact ⟨rfl, rfl⟩
  rw [scrollRounds, if_neg (by dsimp only; omega), bind_some]
  obtain ⟨again, stored', _⟩ := @store_some _ a.lineDirty (vt.y + 1 - 1) (fun _ => 1) (by omega)
    (by rw [(scrolled.1.geometry g').lines]; omega)
  refine ⟨_, by rw [dirty, stored']; rfl, ?_⟩
  exact scrolled.2

theorem moves_of_drawn
    (ends : Ends (vt100Putc m vt c.code) (Shows vt fun i j => if a ≤ i ∧ i < b then cell vt i j else (c.shift vt).cell vt i j))
    (vacated : ∀ i, a ≤ i → i < b → (c.shift vt).source i = none) (inside : 0 ≤ a ∧ b ≤ vt.h) :
    Moves m vt c ↔ BlankRows vt a b := by
  obtain ⟨vt', ran, shows⟩ := ends
  constructor
  · rintro ⟨vt'', ran', meant⟩ i j low high column right
    cases ran.symm.trans ran'
    have is := shows i j (by omega) (by omega) column right
    have wanted := meant i j (by omega) (by omega) column right
    dsimp only at is
    rw [if_pos ⟨low, high⟩] at is
    rw [← is, wanted, Shift.cell, vacated i low high]
    rfl
  · intro blanks
    refine ⟨vt', ran, fun i j low high column right => ?_⟩
    rw [shows i j low high column right]
    dsimp only
    by_cases left : a ≤ i ∧ i < b
    · rw [if_pos left, blanks i j left.1 left.2 column right, Shift.cell, vacated i left.1 left.2]
      rfl
    · rw [if_neg left]

theorem shift_none {s : Shift} (none : s.count = 0) : s.cell vt = cell vt := by
  obtain ⟨down, a, b, n⟩ := s
  obtain rfl := none
  funext i j
  cases down
  · rw [Shift.cell_up]
    split_ifs <;> first | omega | simp
  · rw [Shift.cell_down]
    split_ifs <;> first | omega | simp

theorem putc_lines (collects : vt.st = .csi) (insert : Bool) :
    vt100Putc m vt (if insert then chr 'L' else chr 'M') =
      (lines m insert vt).map fun vt => { vt with st := .character } := by
  cases insert
  · exact Csi.command_run m collects (by decide) (by decide)
  · exact Csi.command_run m collects (by decide) (by decide)

theorem lines_iff (v : Placed m vt) (collects : vt.st = .csi) (insert : Bool)
    (code : c.code = if insert then chr 'L' else chr 'M')
    (shift : c.shift vt = ⟨insert, vt.y, vt.scrollBottom, Command.moved vt⟩) :
    Moves m vt c ↔ (vt.scrollTop ≤ vt.y → vt.y < vt.scrollBottom → vt.y + param vt < 2 ^ 31 ∧
      (insert = false → vt.y + param vt ≤ vt.scrollBottom →
        BlankRows vt (vt.scrollBottom - param vt) vt.scrollBottom)) := by
  have run := putc_lines (m := m) collects insert
  rw [← code] at run
  have bottom := v.bottom
  have row := v.row
  obtain ⟨_, low, _⟩ := param_eq v.params collects
  by_cases inside : vt.scrollTop ≤ vt.y ∧ vt.y < vt.scrollBottom
  · rw [Command.moved, if_pos inside] at shift
    by_cases fits : vt.y + param vt < 2 ^ 31
    · have ends : Ends (vt100Putc m vt c.code) (Shows vt fun i j =>
          if (insert = false ∧ vt.y + param vt ≤ vt.scrollBottom) ∧ vt.scrollBottom - param vt ≤ i ∧
            i < vt.scrollBottom then cell vt i j
          else (c.shift vt).cell vt i j) := by
        obtain ⟨vt', ran, shows⟩ := lines_drawn (m := m) v collects insert inside fits
        rw [run, ran, shift]
        exact ⟨_, rfl, shows⟩
      by_cases leaves : insert = false ∧ vt.y + param vt ≤ vt.scrollBottom
      · simp only [leaves, and_self, true_and] at ends
        rw [moves_of_drawn ends ?_ (by omega)]
        · exact ⟨fun blanks _ _ => ⟨fits, fun _ _ => blanks⟩, fun right => (right inside.1 inside.2).2 leaves.1 leaves.2⟩
        · intro i low' high'
          rw [shift, leaves.1]
          simp only [Shift.source, Bool.false_eq_true, if_false]
          rw [if_pos (by omega), if_neg (by omega)]
      · simp only [leaves, false_and, if_false] at ends
        exact iff_of_true ends fun _ _ => ⟨fits, fun is few => absurd ⟨is, few⟩ leaves⟩
    · refine iff_of_false ?_ fun right => fits (right inside.1 inside.2).1
      rintro ⟨vt', ran, _⟩
      rw [run, lines_overflow v collects insert inside fits] at ran
      cases ran
  · rw [Command.moved, if_neg inside] at shift
    refine iff_of_true ?_ fun top less => absurd ⟨top, less⟩ inside
    have still : lines m insert vt = some vt := by
      unfold lines
      rw [if_pos (by omega)]
    unfold Moves
    rw [run, still, shift, shift_none rfl]
    exact ⟨_, rfl, fun _ _ _ _ _ _ => rfl⟩

theorem putc_esmM (escaped : vt.st = .esc) : vt100Putc m vt (chr 'M') = doEsmM m { vt with st := .character } := by
  unfold vt100Putc
  rw [escaped]
  rfl

theorem reverse_iff (v : Placed m vt) (escaped : vt.st = .esc) :
    Moves m vt .reverseIndex ↔ (vt.y = vt.scrollTop → BlankRows vt vt.scrollTop (vt.scrollTop + 1)) := by
  have run := putc_esmM (m := m) escaped
  have row := v.row
  have top := v.top
  have region := v.region
  by_cases first : vt.y = vt.scrollTop
  · have ends := @reverse_drawn m { vt with st := .character } { v.toGeometry with } first
    rw [← run] at ends
    have shift : Command.reverseIndex.shift vt = ⟨true, vt.scrollTop, vt.scrollBottom, 1⟩ := by
      rw [Command.shift, if_pos first]
    rw [moves_of_drawn (a := vt.scrollTop) (b := vt.scrollTop + 1) ?_ ?_ (by omega)]
    · exact ⟨fun blanks _ => blanks, fun right => right first⟩
    · rw [shift]
      exact ends
    · intro i low high
      rw [shift]
      simp only [Shift.source, if_true]
      rw [if_pos (by omega), if_pos (by omega)]
  · refine iff_of_true ?_ fun is => absurd is first
    have none : (Command.reverseIndex.shift vt).count = 0 := by
      simp only [Command.shift]
      rw [if_neg first]
    unfold Moves Command.code
    rw [shift_none none, run]
    unfold doEsmM
    split
    · exact ⟨_, rfl, fun _ _ _ _ _ _ => rfl⟩
    rw [if_pos (by dsimp only at *; omega)]
    obtain ⟨lines, stored, length⟩ := @store_some _ vt.lineDirty vt.y (fun _ => 1) row.1 (by rw [v.lines]; exact row.2)
    obtain ⟨again, stored', _⟩ := @store_some _ lines (vt.y - 1) (fun _ => 1) (by dsimp only at *; omega)
      (by rw [length, v.lines]; omega)
    refine ⟨{ vt with st := .character, lineDirty := again, y := vt.y - 1 }, ?_, fun _ _ _ _ _ _ => rfl⟩
    simp only [dirty, stored, stored', bind_eq_bind, bind_some, pure_def]

end Commands

/-- The command M leaves the lines that it vacates at the bottom of the region, and ESC M the line at the top. -/
theorem moves_iff (m : Machine) (vt : Vt) (c : Command) (v : Placed m vt) (pending : vt.st = c.after)
    (margin : c = .newline → vt.y = vt.scrollBottom - 1) : Moves m vt c ↔ Right vt c := by
  cases c with
  | insert => simpa [Right] using lines_iff v pending true rfl rfl
  | remove => simpa [Right] using lines_iff v pending false rfl rfl
  | reverseIndex => exact reverse_iff v pending
  | newline =>
    refine iff_of_true ?_ trivial
    have run : vt100Putc m vt (chr '\n') = vt100DoPutc m vt (chr '\n') := by
      unfold vt100Putc
      rw [pending]
      rfl
    unfold Moves Command.code
    rw [run]
    exact newline_drawn v (margin rfl)

def letters (st : Vst) : Vt :=
  { smallStart with cells := [chr 'A', chr 'B'].map fun c => { bg := 0, fg := 7, ch := c, attr := 0 }, st := st }

theorem letters_placed (st : Vst) : Placed .i386 (letters st) := by
  have g : Geometry .i386 (letters .character) := by
    constructor <;> decide
  have none : ArgsOk (letters .character) :=
    ⟨by decide, by decide, fun i low less => absurd (low.trans_lt less) (by decide), fun _ => rfl⟩
  exact { g with row := (by decide : (0 : Int) ≤ 0 ∧ (0 : Int) < 2), column := le_refl 0, params := fun _ => none }

theorem moves_iff_newline : Moves .i386 { letters .character with y := 1 } .newline :=
  (moves_iff .i386 { letters .character with y := 1 } .newline
    { letters_placed .character with row := by decide } rfl fun _ => rfl).mpr trivial

/-- B is then in both lines after M, and A is in both lines after ESC M. -/
theorem not_moves : Placed .i386 (letters .csi) ∧ ¬ Moves .i386 (letters .csi) .remove ∧
    Placed .i386 (letters .esc) ∧ ¬ Moves .i386 (letters .esc) .reverseIndex := by
  refine ⟨letters_placed _, ?_, letters_placed _, ?_⟩
  · rintro ⟨vt, ran, shows⟩
    have wanted := shows 1 0 (by decide) (by decide) (by decide) (by decide)
    have read : ((vt100Putc .i386 (letters .csi) Command.remove.code).bind fun vt => cell vt 1 0) =
        some { bg := 0, fg := 7, ch := chr 'B', attr := 0 } := by decide
    rw [ran, bind_some, wanted] at read
    exact absurd read (by decide)
  · rintro ⟨vt, ran, shows⟩
    have wanted := shows 0 0 (by decide) (by decide) (by decide) (by decide)
    have read : ((vt100Putc .i386 (letters .esc) Command.reverseIndex.code).bind fun vt => cell vt 0 0) =
        some { bg := 0, fg := 7, ch := chr 'A', attr := 0 } := by decide
    rw [ran, bind_some, wanted] at read
    exact absurd read (by decide)

end Scroll
