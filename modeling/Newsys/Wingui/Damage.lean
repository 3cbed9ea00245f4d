import Mathlib.Data.List.Induction
import Newsys.Wingui.Confine
import Newsys.Wingui.Runs

/- What the calls that change the stack have redrawn (kern/wingui/window.c). A desktop goes with the list of the events
   with a rectangle and of the copies on the display; the other events are left out, and the queues are not full. -/
namespace Damage
open Function Layers Boxes List
open Desktops (Desktop Window Display zeroWindow winMax winLayerSecure winLayerApp apart covered offDisplay)
open Wingui (Rect i32 IsInt i32_eq)

/-- `WIN_E_REDRAW` for a rectangle of a window, and `display->copy` to (x, y) from (x0, y0). -/
inductive Act where
  | redraw (wd : Nat) (r : Rect)
  | copy (x y x0 y0 w h : Int)

/-- The task that calls, and `sec_locked` of the desktop. -/
structure Caller where
  task : Nat
  euid : Nat
  secLocked : Bool

def winChkwd (d : Desktop) (c : Caller) (wd : Int) : Prop :=
  0 ≤ wd ∧ wd < winMax ∧ (d.window wd.toNat).task = some c.task

instance (d : Desktop) (c : Caller) (wd : Int) : Decidable (winChkwd d c wd) := inferInstanceAs (Decidable (_ ∧ _))

def winRedraw (d : Desktop) (wd : Nat) : List Act :=
  if (d.window wd).visible then [.redraw wd ⟨0, 0, (d.window wd).rect.w, (d.window wd).rect.h⟩] else []

/-- One direction of a rectangle that starts at `x` and is `w` long, in a window at `pos` that is `size` long. -/
def clipSide (x w pos size : Int) : Int × Int :=
  let at' := i32 (x - pos)
  let len := if at' < 0 then i32 (w + at') else w
  let at' := if at' < 0 then 0 else at'
  (at', if i32 (at' + len) > size then i32 (size - at') else len)

def clip (q r : Rect) : Rect :=
  let across := clipSide r.x r.w q.x q.w
  let down := clipSide r.y r.h q.y q.h
  ⟨across.1, down.1, across.2, down.2⟩

def winRedrawRect (d : Desktop) (r : Rect) (start : Option Nat) : List Act :=
  (d.downFrom start).filterMap fun wd =>
    let wp := d.window wd
    if wp.task.isNone then none
    else if !wp.visible then none
    else if apart wp.rect r then none
    else some (.redraw wd (clip wp.rect r))

/-- Whether a window that moves from `old` to `r` has to be drawn anew. -/
def fullRedraw (d : Desktop) (wd : Nat) (old r : Rect) : Bool :=
  covered d wd old || covered d wd r || offDisplay d.display r || offDisplay d.display old || decide (r.w ≠ old.w) ||
    decide (r.h ≠ old.h) || d.display.slowcopy

def newRect (x y w h : Int) : Rect := if w < 0 ∨ h < 0 then ⟨x, y, 0, 0⟩ else ⟨x, y, w, h⟩

def winChange (d : Desktop) (wd : Nat) (visible x y w h : Int) : Desktop × List Act :=
  let r := newRect x y w h
  let wp := d.window wd
  if wp.visible ∧ visible = 0 then
    let hidden := d.setWindow wd fun wp => { wp with visible := false }
    (hidden, winRedrawRect hidden wp.rect (d.behind wd).head?)
  else if !wp.visible ∧ visible ≠ 0 then
    let shown := d.setWindow wd fun wp => { wp with visible := true, rect := r }
    (shown, winRedraw shown wd)
  else if visible = 0 then (d, [])
  else if wp.rect ≠ r then
    let moved := d.setWindow wd fun wp => { wp with rect := r }
    (moved, winRedrawRect d wp.rect (d.behind wd).head? ++
      if fullRedraw d wd wp.rect r then winRedraw moved wd else [.copy r.x r.y wp.rect.x wp.rect.y r.w r.h])
  else (d, [])

/-- The loop of `win_raise`: `none` as long as `rs` is 0. -/
def join (b : Option Box) (r : Rect) : Option Box :=
  match b with
  | none => some ⟨r.x, r.y, i32 (r.x + r.w), i32 (r.y + r.h)⟩
  | some b => some
    { x0 := if r.x < b.x0 then r.x else b.x0
      y0 := if r.y < b.y0 then r.y else b.y0
      x1 := if i32 (r.x + r.w) > b.x1 then i32 (r.x + r.w) else b.x1
      y1 := if i32 (r.y + r.h) > b.y1 then i32 (r.y + r.h) else b.y1 }

def bounds (rs : List Rect) : Option Box := rs.foldl join none

/-- One direction of the part from `lo` to `hi` of a window at `pos` that is `size` long. -/
def partSide (lo hi pos size : Int) : Int × Int :=
  let lo := i32 (lo - pos)
  let hi := i32 (hi - pos)
  let lo := if lo < 0 then 0 else lo
  let hi := if hi > size then size else hi
  (lo, i32 (hi - lo))

def part (q : Rect) (b : Box) : Rect :=
  let across := partSide b.x0 b.x1 q.x q.w
  let down := partSide b.y0 b.y1 q.y q.h
  ⟨across.1, down.1, across.2, down.2⟩

/-- The rectangles of the visible windows above `wd` that have something in common with it. -/
def covers (d : Desktop) (wd : Nat) : List Rect :=
  ((d.above wd).filter fun above => (d.window above).visible && !apart (d.window above).rect (d.window wd).rect).map
    fun above => (d.window above).rect

/-- `none` where the loop that looks for the place runs off the list. -/
def winRaise (d : Desktop) (wd : Nat) : Option (Desktop × List Act) :=
  match place d.layer wd d.stack with
  | none => none
  | some wpp =>
    if wpp = wd then some (d, [])
    else
      some ({ d with stack := insertBefore wpp wd (d.stack.erase wd) },
        if (d.window wd).visible then
          match bounds (covers d wd) with
          | none => []
          | some b => [.redraw wd (part (d.window wd).rect b)]
        else [])

def winClose (d : Desktop) (c : Caller) (wd : Nat) : Desktop × List Act :=
  let w := d.window wd
  let nw := (d.behind wd).find? fun i => (d.window i).visible
  let focus :=
    if d.focus = wd then
      match nw with
      | none => -1
      | some i => if c.secLocked ∧ c.euid ≠ 0 then -1 else i
    else d.focus
  let closed : Desktop :=
    { d with
      stack := d.stack.erase wd, window := update d.window wd zeroWindow, windowCount := d.windowCount - 1
      focus := focus }
  (closed, if w.visible then winRedrawRect closed w.rect nw else [])

/-- `none` where the list of the windows is found inconsistent. -/
def winCreat (d : Desktop) (c : Caller) (visible x y w h : Int) : Option (Desktop × List Act) :=
  if (winMax : Int) ≤ d.windowCount then some (d, [])
  else
    match (range winMax).find? fun i => (d.window i).task.isNone with
    | none => none
    | some i =>
      let layer := if c.euid = 0 ∧ c.secLocked then winLayerSecure else winLayerApp
      let opened : Desktop :=
        { d with
          window := update d.window i { zeroWindow with task := some c.task, layer := layer }, stack := d.stack ++ [i] }
      let changed := winChange opened i visible x y w h
      some ({ changed.1 with windowCount := changed.1.windowCount + 1 }, changed.2)

inductive Op where
  | change (wd visible x y w h : Int)
  | raise (wd : Int)
  | close (wd : Int)
  | creat (visible x y w h : Int)

def Op.run (c : Caller) (d : Desktop) : Op → Option (Desktop × List Act)
  | .change wd visible x y w h => some (if winChkwd d c wd then winChange d wd.toNat visible x y w h else (d, []))
  | .raise wd =>
    if wd < 0 ∨ (winMax : Int) ≤ wd ∨ (d.window wd.toNat).task.isNone then some (d, []) else winRaise d wd.toNat
  | .close wd => some (if winChkwd d c wd then winClose d c wd.toNat else (d, []))
  | .creat visible x y w h => winCreat d c visible x y w h

/- The pixels of the display -/

def Shows (d : Desktop) (x y : Int) (wd : Nat) : Prop := (d.window wd).visible = true ∧ (d.window wd).rect.box.Has x y

instance (d : Desktop) (x y : Int) (wd : Nat) : Decidable (Shows d x y wd) := inferInstanceAs (Decidable (_ ∧ _))

def first (d : Desktop) (x y : Int) (l : List Nat) : Option Nat := l.find? fun wd => decide (Shows d x y wd)

def owner (d : Desktop) (x y : Int) : Option Nat := first d x y d.stack

def Changed (d d' : Desktop) (x y : Int) : Prop :=
  owner d' x y ≠ owner d x y ∨ ∃ wd, owner d' x y = some wd ∧
    ((d'.window wd).rect.x ≠ (d.window wd).rect.x ∨ (d'.window wd).rect.y ≠ (d.window wd).rect.y)

def OnDisplay (d : Desktop) (x y : Int) : Prop := 0 ≤ x ∧ x < d.display.width ∧ 0 ≤ y ∧ y < d.display.height

def Redrawn (d' : Desktop) (acts : List Act) (wd : Nat) (x y : Int) : Prop :=
  ∃ r, Act.redraw wd r ∈ acts ∧ r.box.Has (x - (d'.window wd).rect.x) (y - (d'.window wd).rect.y)

def Copied (d d' : Desktop) (acts : List Act) (wd : Nat) (x y : Int) : Prop :=
  ∃ tx ty sx sy w h, Act.copy tx ty sx sy w h ∈ acts ∧ Box.Has ⟨tx, ty, tx + w, ty + h⟩ x y ∧
    OnDisplay d (sx + (x - tx)) (sy + (y - ty)) ∧ owner d (sx + (x - tx)) (sy + (y - ty)) = some wd ∧
    sx + (x - tx) - (d.window wd).rect.x = x - (d'.window wd).rect.x ∧
    sy + (y - ty) - (d.window wd).rect.y = y - (d'.window wd).rect.y

structure Complete (d d' : Desktop) (acts : List Act) : Prop where
  exposed : ∀ x y wd, OnDisplay d x y → Changed d d' x y → owner d' x y = some wd →
    Redrawn d' acts wd x y ∨ Copied d d' acts wd x y
  inside : ∀ wd r, Act.redraw wd r ∈ acts → r.box.Inside ⟨0, 0, (d'.window wd).rect.w, (d'.window wd).rect.h⟩

structure Sound (d : Desktop) : Prop where
  nodup : d.stack.Nodup
  listed : ∀ i ∈ d.stack, i < winMax ∧ (d.window i).task.isSome = true
  complete : ∀ i, (d.window i).task.isSome = true → i ∈ d.stack
  count : d.windowCount = d.stack.length

def Op.rects : Op → List Rect
  | .change _ visible x y w h => if visible = 0 then [] else [newRect x y w h]
  | .raise _ => []
  | .close _ => []
  | .creat visible x y w h => if visible = 0 then [] else [newRect x y w h]

def InPlay (d : Desktop) (new : List Rect) (r : Rect) : Prop :=
  (∃ wd ∈ d.stack, (d.window wd).visible = true ∧ (d.window wd).rect = r) ∨ r ∈ new

/-- The far edges are numbers, on the display and as seen from the near edges of each rectangle. -/
structure Fits (r q : Rect) : Prop where
  x : IsInt (r.x + r.w)
  y : IsInt (r.y + r.h)
  across : IsInt (r.x + r.w - q.x)
  down : IsInt (r.y + r.h - q.y)

def Sums (d : Desktop) (new : List Rect) : Prop := ∀ r q, InPlay d new r → InPlay d new q → Fits r q

section Rects
variable {d : Desktop} {r q : Rect} {x y : Int}

theorem apart_eq_false_iff (fits : Fits r q) (fits' : Fits q r) : apart r q = false ↔ r.box.Meets q.box := by
  simp only [apart, i32_eq fits.x, i32_eq fits.y, i32_eq fits'.x, i32_eq fits'.y, Bool.or_eq_false_iff,
    decide_eq_false_iff_not, Box.Meets, Rect.box]
  omega

theorem meets_of_has (here : r.box.Has x y) (there : q.box.Has x y) : r.box.Meets q.box := by
  by_contra apart
  exact Box.not_has_of_not_meets apart here there

theorem clipSide_eq (width : IsInt w) (size' : IsInt size) (far : IsInt (x + w - pos))
    (starts : pos < x + w) (ends : x < pos + size) :
    clipSide x w pos size = (max 0 (x - pos), min size (x + w - pos) - max 0 (x - pos)) := by
  obtain ⟨width0, width1⟩ := width
  obtain ⟨size0, size1⟩ := size'
  obtain ⟨far0, far1⟩ := far
  have at' : i32 (x - pos) = x - pos := i32_eq ⟨by omega, by omega⟩
  simp only [clipSide, at']
  by_cases before : x - pos < 0
  · have len : i32 (w + (x - pos)) = w + (x - pos) := i32_eq ⟨by omega, by omega⟩
    have end' : i32 (0 + (w + (x - pos))) = w + (x - pos) := by rw [i32_eq ⟨by omega, by omega⟩]; omega
    have rest : i32 (size - 0) = size := by rw [i32_eq ⟨by omega, by omega⟩]; omega
    rw [if_pos before, if_pos before, len, end', rest, max_eq_left (by omega)]
    refine Prod.ext rfl ?_
    show (if w + (x - pos) > size then size else w + (x - pos)) = _
    split <;> omega
  · have end' : i32 (x - pos + w) = x - pos + w := i32_eq ⟨by omega, by omega⟩
    have rest : i32 (size - (x - pos)) = size - (x - pos) := i32_eq ⟨by omega, by omega⟩
    rw [if_neg before, if_neg before, end', rest, max_eq_right (by omega)]
    refine Prod.ext rfl ?_
    show (if x - pos + w > size then size - (x - pos) else w) = _
    split <;> omega

theorem partSide_eq {lo hi pos size : Int} (size' : IsInt size) (near : IsInt (lo - pos)) (far : IsInt (hi - pos))
    (starts : pos < hi) (ends : lo < pos + size) :
    partSide lo hi pos size = (max 0 (lo - pos), min size (hi - pos) - max 0 (lo - pos)) := by
  obtain ⟨size0, size1⟩ := size'
  obtain ⟨far0, far1⟩ := far
  have low : (if lo - pos < 0 then 0 else lo - pos) = max 0 (lo - pos) := by split <;> omega
  have high : (if hi - pos > size then size else hi - pos) = min size (hi - pos) := by split <;> omega
  simp only [partSide, i32_eq near, i32_eq ⟨far0, far1⟩, low, high]
  rw [i32_eq ⟨by omega, by omega⟩]

theorem Fits.size (fits : Fits r r) : IsInt r.w ∧ IsInt r.h := by
  have across := fits.across
  have down := fits.down
  rw [show r.x + r.w - r.x = r.w by omega] at across
  rw [show r.y + r.h - r.y = r.h by omega] at down
  exact ⟨across, down⟩

theorem clip_box (fits : Fits r q) (self : Fits r r) (self' : Fits q q) (meets : q.box.Meets r.box) :
    (clip q r).box = ⟨max 0 (r.x - q.x), max 0 (r.y - q.y), min q.w (r.x + r.w - q.x), min q.h (r.y + r.h - q.y)⟩ := by
  obtain ⟨left, top, right, bottom⟩ := meets
  have across := clipSide_eq self.size.1 self'.size.1 fits.across left right
  have down := clipSide_eq self.size.2 self'.size.2 fits.down top bottom
  simp only [clip, Rect.box, across, down]
  rw [Box.mk.injEq]
  exact ⟨rfl, rfl, by omega, by omega⟩

end Rects

/- Events with a rectangle -/

section Events
variable {d : Desktop} {P : Rect → Prop} {r s : Rect} {start : Option Nat} {k : Nat} {x y : Int}

theorem mem_winRedrawRect : Act.redraw k s ∈ winRedrawRect d r start ↔ k ∈ d.downFrom start ∧
    (d.window k).task.isSome = true ∧ (d.window k).visible = true ∧ apart (d.window k).rect r = false ∧
    s = clip (d.window k).rect r := by
  simp only [winRedrawRect, mem_filterMap]
  constructor
  · rintro ⟨wd, mem, eq⟩
    split at eq
    · cases eq
    split at eq
    · cases eq
    split at eq
    · cases eq
    rename_i task visible meets
    obtain ⟨rfl, rfl⟩ := Act.redraw.inj (Option.some.inj eq)
    refine ⟨mem, ?_, by simpa using visible, Bool.eq_false_of_not_eq_true meets, rfl⟩
    rw [Option.isNone_iff_eq_none] at task
    exact Option.isSome_iff_ne_none.mpr task
  · rintro ⟨mem, task, visible, meets, rfl⟩
    refine ⟨k, mem, ?_⟩
    rw [if_neg (by simp [Option.isSome_iff_ne_none.mp task]), if_neg (by simp [visible]), if_neg (by simp [meets])]

variable (sums : ∀ r q, P r → P q → Fits r q) (known : P r)
  (known' : ∀ k ∈ d.downFrom start, (d.window k).visible = true → P (d.window k).rect)
include sums known known'

theorem winRedrawRect_inside (sent : Act.redraw k s ∈ winRedrawRect d r start) :
    s.box.Inside ⟨0, 0, (d.window k).rect.w, (d.window k).rect.h⟩ := by
  obtain ⟨mem, -, visible, meets, rfl⟩ := mem_winRedrawRect.mp sent
  have there := known' k mem visible
  have meets := (apart_eq_false_iff (sums _ _ there known) (sums _ _ known there)).mp meets
  rw [clip_box (sums _ _ known there) (sums _ _ known known) (sums _ _ there there) meets]
  exact ⟨le_max_left _ _, min_le_left _ _, le_max_left _ _, min_le_left _ _⟩

theorem winRedrawRect_covers (mem : k ∈ d.downFrom start) (task : (d.window k).task.isSome = true)
    (shows : Shows d x y k) (here : r.box.Has x y) : Redrawn d (winRedrawRect d r start) k x y := by
  obtain ⟨visible, there⟩ := shows
  have known' := known' k mem visible
  have meets := meets_of_has there here
  have common := (apart_eq_false_iff (sums _ _ known' known) (sums _ _ known known')).mpr meets
  refine ⟨_, mem_winRedrawRect.mpr ⟨mem, task, visible, common, rfl⟩, ?_⟩
  rw [clip_box (sums _ _ known known') (sums _ _ known known) (sums _ _ known' known') meets]
  simp only [Box.Has, Rect.box] at here there ⊢
  omega

end Events

/- The windows behind one -/

section Behind
variable {d : Desktop} {wd : Nat} {above below : List Nat}

theorem behind_eq (nodup : d.stack.Nodup) (split : d.stack = above ++ wd :: below) : d.behind wd = below := by
  rw [split] at nodup
  rw [Desktop.behind, split]
  exact behind_append fun mem => (nodup_append.mp nodup).2.2 wd mem wd (mem_cons_self ..) rfl

theorem downFrom_head (nodup : d.stack.Nodup) (split : d.stack = above ++ wd :: below) :
    d.downFrom (d.behind wd).head? = below := by
  rw [behind_eq nodup split]
  cases below with
  | nil => rfl
  | cons b rest =>
    have deeper : d.stack = (above ++ [wd]) ++ b :: rest := by rw [split, append_assoc]; rfl
    rw [head?_cons, Desktop.downFrom, behind_eq nodup deeper]

theorem mem_of_mem_downFrom (listed : ∀ i, start = some i → i ∈ d.stack)
    (mem : k ∈ d.downFrom start) : k ∈ d.stack := by
  cases start with
  | none => cases mem
  | some i =>
    rcases mem_cons.mp mem with rfl | mem
    · exact listed k rfl
    · exact mem_of_mem_behind mem

theorem mem_downFrom_find (nodup : d.stack.Nodup) (split : d.stack = above ++ below)
    (mem : k ∈ below) (here : p k = true) : k ∈ d.downFrom (below.find? p) := by
  cases found : below.find? p with
  | none => exact absurd here (find?_eq_none.mp found k mem)
  | some nw =>
    obtain ⟨-, front, back, rfl, skipped⟩ := find?_eq_some_iff_append.mp found
    have split' : d.stack = (above ++ front) ++ nw :: back := by rw [split, append_assoc]
    rw [Desktop.downFrom, behind_eq nodup split']
    rcases mem_append.mp mem with mem | mem
    · have missed := skipped k mem
      rw [here] at missed
      cases missed
    · exact mem

end Behind

/- The owners of the pixels -/

section Owners
variable {d d' : Desktop} {x y : Int} {k wd : Nat} {above below l l' : List Nat}

theorem first_append : first d x y (l ++ l') = (first d x y l).or (first d x y l') := find?_append

theorem first_cons_of_pos (shows : Shows d x y wd) : first d x y (wd :: l) = some wd :=
  find?_cons_of_pos (decide_eq_true shows)

theorem first_cons_of_neg (hidden : ¬ Shows d x y wd) : first d x y (wd :: l) = first d x y l :=
  find?_cons_of_neg (by simpa using hidden)

theorem first_some (found : first d x y l = some k) : k ∈ l ∧ Shows d x y k :=
  ⟨mem_of_find?_eq_some found, of_decide_eq_true (find?_some found :)⟩

theorem first_congr (same : ∀ j ∈ l, d'.window j = d.window j) : first d' x y l = first d x y l := by
  induction l with
  | nil => rfl
  | cons j rest ih =>
    have here : Shows d' x y j ↔ Shows d x y j := by rw [Shows, Shows, same j (mem_cons_self ..)]
    have ih := ih fun j mem => same j (mem_cons_of_mem _ mem)
    by_cases shows : Shows d x y j
    · rw [first_cons_of_pos shows, first_cons_of_pos (here.mpr shows)]
    · rw [first_cons_of_neg shows, first_cons_of_neg (mt here.mp shows), ih]

theorem not_changed (own : owner d' x y = some k) (own' : owner d x y = some k) (same : d'.window k = d.window k) :
    ¬ Changed d d' x y := by
  rintro (differs | ⟨j, eq, moved⟩)
  · exact differs (own.trans own'.symm)
  · obtain rfl := Option.some.inj (eq.symm.trans own)
    rw [same] at moved
    rcases moved with moved | moved
    · exact moved rfl
    · exact moved rfl

variable (split : d.stack = above ++ l) (split' : d'.stack = above ++ l')
  (same : ∀ j ∈ above, d'.window j = d.window j)
include split split' same

theorem changed_below (changed : Changed d d' x y) (own : owner d' x y = some k) :
    first d x y above = none ∧ first d' x y l' = some k := by
  have own1 := own
  rw [owner, split', first_append, first_congr same] at own1
  cases top : first d x y above with
  | none =>
    rw [top, Option.none_or] at own1
    exact ⟨rfl, own1⟩
  | some j =>
    rw [top, Option.some_or] at own1
    obtain rfl := Option.some.inj own1
    have own' : owner d x y = some j := by rw [owner, split, first_append, top, Option.some_or]
    exact absurd changed (not_changed own own' (same j (first_some top).1))

theorem uncovered (under : l = wd :: below) (same' : ∀ j ∈ below, d'.window j = d.window j)
    (changed : Changed d d' x y) (own : owner d' x y = some k) (own' : first d' x y below = some k) :
    Shows d x y wd := by
  by_contra hidden
  obtain ⟨top, -⟩ := changed_below split split' same changed own
  refine not_changed own ?_ (same' k (first_some own').1) changed
  rw [owner, split, first_append, top, Option.none_or, under, first_cons_of_neg hidden, ← first_congr same', own']

end Owners

/- Showing, hiding and moving -/

section Change
variable {d : Desktop} {wd : Nat} {above below : List Nat} {new : List Rect} {f : Window → Window} {r : Rect}

theorem setWindow_self : (d.setWindow wd f).window wd = f (d.window wd) := update_self ..

theorem setWindow_other (other : j ≠ wd) : (d.setWindow wd f).window j = d.window j := update_of_ne other ..

variable {d' : Desktop} {k : Nat} {x y : Int}

theorem Redrawn.mono (redrawn : Redrawn d acts k x y)
    (same : d'.window k = d.window k) (sub : acts ⊆ acts') : Redrawn d' acts' k x y := by
  obtain ⟨s, sent, here⟩ := redrawn
  refine ⟨s, sub sent, ?_⟩
  rw [same]
  exact here

theorem Copied.mono (copied : Copied d d' acts k x y) (sub : acts ⊆ acts') : Copied d d' acts' k x y := by
  obtain ⟨tx, ty, sx, sy, w, h, sent, rest⟩ := copied
  exact ⟨tx, ty, sx, sy, w, h, sub sent, rest⟩

theorem winRedraw_covers (shows : Shows d x y wd) : Redrawn d (winRedraw d wd) wd x y := by
  obtain ⟨visible, left, right, top, bottom⟩ := shows
  refine ⟨_, by rw [winRedraw, if_pos visible]; exact mem_singleton_self _, ?_⟩
  simp only [Box.Has, Rect.box] at left right top bottom ⊢
  omega

theorem winRedraw_inside (sent : Act.redraw k s ∈ winRedraw d wd) :
    s.box.Inside ⟨0, 0, (d.window k).rect.w, (d.window k).rect.h⟩ := by
  rw [winRedraw] at sent
  split at sent
  · obtain ⟨rfl, rfl⟩ := Act.redraw.inj (mem_singleton.mp sent)
    simp only [Box.Inside, Rect.box]
    omega
  · cases sent

variable (nodup : d.stack.Nodup) (split : d.stack = above ++ wd :: below)
include nodup split

theorem others (f : Window → Window) : (∀ j ∈ above, (d.setWindow wd f).window j = d.window j) ∧
    ∀ j ∈ below, (d.setWindow wd f).window j = d.window j := by
  rw [split] at nodup
  obtain ⟨-, rest, apart'⟩ := nodup_append.mp nodup
  refine ⟨fun j mem => setWindow_other ?_, fun j mem => setWindow_other ?_⟩
  · exact apart' j mem wd (mem_cons_self ..)
  · rintro rfl
    exact (nodup_cons.mp rest).1 mem

theorem complete_show (hidden : (d.window wd).visible = false) :
    let shown := d.setWindow wd fun wp => { wp with visible := true, rect := r }
    Complete d shown (winRedraw shown wd) := by
  intro shown
  have split' : shown.stack = above ++ wd :: below := split
  obtain ⟨same, same'⟩ := others nodup split fun wp => { wp with visible := true, rect := r }
  refine ⟨fun x y k _ changed own => .inl ?_, fun k s sent => winRedraw_inside sent⟩
  obtain ⟨-, found⟩ := changed_below split split' same changed own
  by_cases shows : Shows shown x y wd
  · rw [first_cons_of_pos shows] at found
    obtain rfl := Option.some.inj found
    exact winRedraw_covers shows
  · rw [first_cons_of_neg shows] at found
    have shown' := uncovered split split' same rfl same' changed own found
    rw [Shows, hidden] at shown'
    exact absurd shown'.1 Bool.false_ne_true

omit nodup in
theorem inPlay_below (new : List Rect) (same : ∀ j ∈ below, d'.window j = d.window j) :
    ∀ k ∈ below, (d'.window k).visible = true → InPlay d new (d'.window k).rect := by
  intro k mem visible
  rw [same k mem] at visible ⊢
  refine .inl ⟨k, ?_, visible, rfl⟩
  rw [split]
  exact mem_append_right _ (mem_cons_of_mem _ mem)

theorem complete_hide (listed : ∀ i ∈ d.stack, i < winMax ∧ (d.window i).task.isSome = true)
    (sums : Sums d new) (visible : (d.window wd).visible = true) :
    let hidden := d.setWindow wd fun wp => { wp with visible := false }
    Complete d hidden (winRedrawRect hidden (d.window wd).rect (d.behind wd).head?) := by
  intro hidden
  have split' : hidden.stack = above ++ wd :: below := split
  obtain ⟨same, same'⟩ := others nodup split fun wp => { wp with visible := false }
  have known : InPlay d new (d.window wd).rect :=
    .inl ⟨wd, by rw [split]; exact mem_append_right _ (mem_cons_self ..), visible, rfl⟩
  have down : hidden.downFrom (d.behind wd).head? = below := downFrom_head (d := hidden) nodup split
  have known' := inPlay_below split new same'
  rw [← down] at known'
  refine ⟨fun x y k _ changed own => .inl ?_, fun k s sent => winRedrawRect_inside sums known known' sent⟩
  obtain ⟨-, found⟩ := changed_below split split' same changed own
  have gone : ¬ Shows hidden x y wd := by
    rw [Shows, setWindow_self]
    exact fun shows => Bool.false_ne_true shows.1
  rw [first_cons_of_neg gone] at found
  have here := (uncovered split split' same rfl same' changed own found).2
  obtain ⟨mem, shows⟩ := first_some found
  refine winRedrawRect_covers sums known known' (by rw [down]; exact mem) ?_ shows here
  rw [same' k mem]
  exact (listed k (by rw [split]; exact mem_append_right _ (mem_cons_of_mem _ mem))).2

theorem first_above_of_not_covered (sums : ∀ j ∈ above, (d.window j).visible = true →
    Fits (d.window j).rect r ∧ Fits r (d.window j).rect) (free : covered d wd r = false) (here : r.box.Has x y) :
    first d x y above = none := by
  rw [split] at nodup
  have top : d.above wd = above.reverse := by
    rw [Desktop.above, split, takeWhile_append fun mem => ?_]
    exact (nodup_append.mp nodup).2.2 wd mem wd (mem_cons_self ..) rfl
  rw [covered, top, any_reverse, any_eq_false] at free
  refine find?_eq_none.mpr fun j mem shows => ?_
  obtain ⟨visible, there⟩ := of_decide_eq_true shows
  obtain ⟨fits, fits'⟩ := sums j mem visible
  have clear := free j mem
  rw [visible, (apart_eq_false_iff fits fits').mpr (meets_of_has there here)] at clear
  exact clear rfl

theorem copied (sums : Sums d [r]) (visible : (d.window wd).visible = true)
    (part' : fullRedraw d wd (d.window wd).rect r = false) (here : r.box.Has x y) :
    Copied d (d.setWindow wd fun wp => { wp with rect := r })
      [.copy r.x r.y (d.window wd).rect.x (d.window wd).rect.y r.w r.h] wd x y := by
  have known : InPlay d [r] (d.window wd).rect :=
    .inl ⟨wd, by rw [split]; exact mem_append_right _ (mem_cons_self ..), visible, rfl⟩
  have fits := sums _ _ known known
  simp only [fullRedraw, Bool.or_eq_false_iff, decide_eq_false_iff_not, ne_eq, not_not, offDisplay, i32_eq fits.x,
    i32_eq fits.y] at part'
  obtain ⟨⟨⟨⟨⟨⟨free, -⟩, -⟩, ⟨⟨right, bottom⟩, left⟩, top⟩, width⟩, height⟩, -⟩ := part'
  obtain ⟨x0, x1, y0, y1⟩ := here
  simp only [Rect.box] at x0 x1 y0 y1
  have source : (d.window wd).rect.box.Has ((d.window wd).rect.x + (x - r.x)) ((d.window wd).rect.y + (y - r.y)) := by
    simp only [Box.Has, Rect.box]
    omega
  have clear : ∀ j ∈ above, (d.window j).visible = true →
      Fits (d.window j).rect (d.window wd).rect ∧ Fits (d.window wd).rect (d.window j).rect := by
    intro j mem visible
    have known' : InPlay d [r] (d.window j).rect :=
      .inl ⟨j, by rw [split]; exact mem_append_left _ mem, visible, rfl⟩
    exact ⟨sums _ _ known' known, sums _ _ known known'⟩
  refine ⟨_, _, _, _, _, _, mem_singleton_self _, ⟨x0, x1, y0, y1⟩, ?_, ?_, ?_, ?_⟩
  · exact ⟨by omega, by omega, by omega, by omega⟩
  · rw [owner, split, first_append, first_above_of_not_covered nodup split clear free source, Option.none_or]
    exact first_cons_of_pos ⟨visible, source⟩
  · rw [setWindow_self]
    dsimp only
    omega
  · rw [setWindow_self]
    dsimp only
    omega

theorem complete_move (listed : ∀ i ∈ d.stack, i < winMax ∧ (d.window i).task.isSome = true) (sums : Sums d [r])
    (visible : (d.window wd).visible = true) :
    let moved := d.setWindow wd fun wp => { wp with rect := r }
    let old := (d.window wd).rect
    Complete d moved (winRedrawRect d old (d.behind wd).head? ++
      if fullRedraw d wd old r then winRedraw moved wd else [.copy r.x r.y old.x old.y r.w r.h]) := by
  intro moved old
  have split' : moved.stack = above ++ wd :: below := split
  obtain ⟨same, same'⟩ := others nodup split fun wp => { wp with rect := r }
  have play : ∀ j ∈ d.stack, (d.window j).visible = true → InPlay d [r] (d.window j).rect :=
    fun j mem visible => .inl ⟨j, mem, visible, rfl⟩
  have here : wd ∈ d.stack := by rw [split]; exact mem_append_right _ (mem_cons_self ..)
  have known : InPlay d [r] old := play wd here visible
  have down : d.downFrom (d.behind wd).head? = below := downFrom_head nodup split
  have known' := inPlay_below split [r] fun _ _ => rfl
  rw [← down] at known'
  have moved_rect : (moved.window wd).rect = r := by rw [setWindow_self]
  constructor
  · intro x y k pixel changed own
    obtain ⟨top, found⟩ := changed_below split split' same changed own
    by_cases shows : Shows moved x y wd
    · rw [first_cons_of_pos shows] at found
      obtain rfl := Option.some.inj found
      split_ifs with full
      · exact .inl ((winRedraw_covers shows).mono rfl (subset_append_right _ _))
      · have here := shows.2
        rw [moved_rect] at here
        have copied := copied nodup split sums visible (Bool.eq_false_of_not_eq_true full) here
        exact .inr (copied.mono (subset_append_right _ _))
    · rw [first_cons_of_neg shows] at found
      have there := (uncovered split split' same rfl same' changed own found).2
      obtain ⟨mem, shows'⟩ := first_some found
      have mem' : k ∈ d.stack := by rw [split]; exact mem_append_right _ (mem_cons_of_mem _ mem)
      rw [Shows, same' k mem] at shows'
      have covers := winRedrawRect_covers sums known known' (by rw [down]; exact mem) (listed k mem').2 shows' there
      exact .inl (covers.mono (same' k mem) (subset_append_left _ _))
  · intro k s sent
    rcases mem_append.mp sent with sent | sent
    · have mem := (mem_winRedrawRect.mp sent).1
      rw [down] at mem
      rw [same' k mem]
      exact winRedrawRect_inside sums known known' sent
    · split_ifs at sent
      · exact winRedraw_inside sent
      · cases mem_singleton.mp sent

end Change

theorem complete_refl (d : Desktop) : Complete d d [] := by
  refine ⟨fun x y k _ changed own => ?_, fun _ _ sent => by cases sent⟩
  exact absurd changed (not_changed own own rfl)

structure Frame (d e : Desktop) : Prop where
  stack : e.stack = d.stack
  windowCount : e.windowCount = d.windowCount
  task : ∀ i, (e.window i).task = (d.window i).task

variable {d : Desktop}

theorem Frame.sound (frame : Frame d e) (sound : Sound d) : Sound e := by
  refine ⟨?_, fun i mem => ?_, fun i some => ?_, ?_⟩
  · rw [frame.stack]
    exact sound.nodup
  · rw [frame.stack] at mem
    rw [frame.task]
    exact sound.listed i mem
  · rw [frame.task] at some
    rw [frame.stack]
    exact sound.complete i some
  · rw [frame.windowCount, frame.stack]
    exact sound.count

theorem frame_winChange (d : Desktop) (wd : Nat) (visible x y w h : Int) :
    Frame d (winChange d wd visible x y w h).1 := by
  have set : ∀ f : Window → Window, (∀ w, (f w).task = w.task) → Frame d (d.setWindow wd f) :=
    fun f task => ⟨rfl, rfl, Interrupts.setWindow_field Window.task d wd task⟩
  have same : Frame d d := ⟨rfl, rfl, fun _ => rfl⟩
  dsimp only [winChange]
  split
  · dsimp only
    refine set _ fun w => ?_
    rfl
  split
  · dsimp only
    refine set _ fun w => ?_
    rfl
  split
  · exact same
  split
  · dsimp only
    refine set _ fun w => ?_
    rfl
  · exact same

theorem complete_winChange (nodup : d.stack.Nodup)
    (listed : ∀ i ∈ d.stack, i < winMax ∧ (d.window i).task.isSome = true) (mem : wd ∈ d.stack)
    (sums : Sums d (Op.rects (.change wd visible x y w h))) :
    Complete d (winChange d wd visible x y w h).1 (winChange d wd visible x y w h).2 := by
  obtain ⟨above, below, split⟩ := append_of_mem mem
  dsimp only [winChange]
  split
  · rename_i hide
    exact complete_hide nodup split listed sums hide.1
  rename_i stays
  split
  · rename_i shows
    exact complete_show nodup split (by simpa using shows.1)
  rename_i stays'
  split
  · exact complete_refl d
  rename_i drawn
  split
  · rw [Op.rects, if_neg drawn] at sums
    have visible' : (d.window wd).visible = true := by
      by_contra hidden
      exact stays' ⟨by simpa using hidden, drawn⟩
    exact complete_move nodup split listed sums visible'
  · exact complete_refl d

section Close
variable {d : Desktop} {wd : Nat} {above below : List Nat}

theorem complete_takeOff (sound : Sound d) (split : d.stack = above ++ wd :: below) (sums : Sums d [])
    (stack : e.stack = d.stack.erase wd) (window : e.window = update d.window wd zeroWindow) :
    Complete d e (if (d.window wd).visible then
      winRedrawRect e (d.window wd).rect ((d.behind wd).find? fun i => (d.window i).visible) else []) := by
  have nodup := sound.nodup
  rw [split] at nodup
  obtain ⟨-, rest, apart'⟩ := nodup_append.mp nodup
  have out : wd ∉ above := fun mem => apart' wd mem wd (mem_cons_self ..) rfl
  have split' : e.stack = above ++ below := by rw [stack, split, erase_append out]
  have same : ∀ j ∈ above, e.window j = d.window j := by
    intro j mem
    rw [window, update_of_ne (apart' j mem wd (mem_cons_self ..))]
  have same' : ∀ j ∈ below, e.window j = d.window j := by
    intro j mem
    rw [window, update_of_ne]
    rintro rfl
    exact (nodup_cons.mp rest).1 mem
  have kept : ∀ j ∈ e.stack, e.window j = d.window j ∧ j ∈ d.stack := by
    intro j mem
    rw [split'] at mem
    rw [split]
    rcases mem_append.mp mem with mem | mem
    · exact ⟨same j mem, mem_append_left _ mem⟩
    · exact ⟨same' j mem, mem_append_right _ (mem_cons_of_mem _ mem)⟩
  have nodup' : e.stack.Nodup := by
    rw [stack]
    exact sound.nodup.erase wd
  rw [behind_eq sound.nodup split]
  have known' : ∀ k ∈ e.downFrom (below.find? fun i => (d.window i).visible), (e.window k).visible = true →
      InPlay d [] (e.window k).rect := by
    intro k mem visible
    have here : k ∈ e.stack := by
      refine mem_of_mem_downFrom (fun i found => ?_) mem
      rw [split']
      exact mem_append_right _ (mem_of_find?_eq_some found)
    obtain ⟨eq, mem'⟩ := kept k here
    rw [eq] at visible ⊢
    exact .inl ⟨k, mem', visible, rfl⟩
  have known : (d.window wd).visible = true → InPlay d [] (d.window wd).rect := by
    intro visible
    exact .inl ⟨wd, by rw [split]; exact mem_append_right _ (mem_cons_self ..), visible, rfl⟩
  constructor
  · intro x y k _ changed own
    obtain ⟨-, found⟩ := changed_below split split' same changed own
    obtain ⟨visible, here⟩ := uncovered split split' same rfl same' changed own found
    obtain ⟨mem, shows⟩ := first_some found
    have shows' := shows.1
    rw [same' k mem] at shows'
    rw [if_pos visible]
    have reached := mem_downFrom_find (p := fun i => (d.window i).visible) nodup' split' mem shows'
    refine .inl (winRedrawRect_covers sums (known visible) known' reached ?_ shows here)
    rw [same' k mem]
    exact (sound.listed k (by rw [split]; exact mem_append_right _ (mem_cons_of_mem _ mem))).2
  · intro k s sent
    split_ifs at sent with visible
    · exact winRedrawRect_inside sums (known visible) known' sent
    · cases sent

theorem complete_winClose (sound : Sound d) (mem : wd ∈ d.stack) (sums : Sums d []) :
    Complete d (winClose d c wd).1 (winClose d c wd).2 := by
  obtain ⟨above, below, split⟩ := append_of_mem mem
  exact complete_takeOff sound split sums rfl rfl

theorem sound_winClose (sound : Sound d) (mem : wd ∈ d.stack) : Sound (winClose d c wd).1 := by
  have task : ∀ i, i ≠ wd → (update d.window wd zeroWindow i).task = (d.window i).task := by
    intro i other
    rw [update_of_ne other]
  refine ⟨sound.nodup.erase wd, fun i mem' => ?_, fun i some => ?_, ?_⟩
  · obtain ⟨other, mem'⟩ := sound.nodup.mem_erase_iff.mp mem'
    show i < winMax ∧ (update d.window wd zeroWindow i).task.isSome = true
    rw [task i other]
    exact sound.listed i mem'
  · have other : i ≠ wd := by
      rintro rfl
      change (update d.window i zeroWindow i).task.isSome = true at some
      rw [update_self] at some
      cases some
    change (update d.window wd zeroWindow i).task.isSome = true at some
    rw [task i other] at some
    exact sound.nodup.mem_erase_iff.mpr ⟨other, sound.complete i some⟩
  · show d.windowCount - 1 = ((d.stack.erase wd).length : Int)
    have pos := length_pos_of_mem mem
    rw [length_erase_of_mem mem, sound.count]
    omega

end Close

structure Bounding (rs : List Rect) (b : Box) : Prop where
  x0 : ∃ r ∈ rs, b.x0 = r.x
  y0 : ∃ r ∈ rs, b.y0 = r.y
  x1 : ∃ r ∈ rs, b.x1 = i32 (r.x + r.w)
  y1 : ∃ r ∈ rs, b.y1 = i32 (r.y + r.h)
  around : ∀ r ∈ rs, b.x0 ≤ r.x ∧ b.y0 ≤ r.y ∧ i32 (r.x + r.w) ≤ b.x1 ∧ i32 (r.y + r.h) ≤ b.y1

theorem bounding_singleton (r : Rect) : Bounding [r] ⟨r.x, r.y, i32 (r.x + r.w), i32 (r.y + r.h)⟩ := by
  have mem : r ∈ [r] := mem_singleton_self r
  refine ⟨⟨r, mem, rfl⟩, ⟨r, mem, rfl⟩, ⟨r, mem, rfl⟩, ⟨r, mem, rfl⟩, fun q here => ?_⟩
  obtain rfl := mem_singleton.mp here
  exact ⟨le_rfl, le_rfl, le_rfl, le_rfl⟩

theorem edge_snoc {rs : List Rect} {r : Rect} {edge : Rect → Int} {e : Int} {p : Prop} [Decidable p]
    (known : ∃ q ∈ rs, e = edge q) : ∃ q ∈ rs ++ [r], (if p then edge r else e) = edge q := by
  split
  · exact ⟨r, mem_append_right _ (mem_singleton_self r), rfl⟩
  · obtain ⟨q, mem, eq⟩ := known
    exact ⟨q, mem_append_left _ mem, eq⟩

theorem bounds_spec (rs : List Rect) : bounds rs = none ∧ rs = [] ∨ ∃ b, bounds rs = some b ∧ Bounding rs b := by
  induction rs using reverseRecOn with
  | nil => exact .inl ⟨rfl, rfl⟩
  | append_singleton rs r ih =>
    have step : bounds (rs ++ [r]) = join (bounds rs) r := foldl_concat ..
    rcases ih with ⟨none', rfl⟩ | ⟨b, some', known⟩
    · exact .inr ⟨_, by rw [step, none']; rfl, bounding_singleton r⟩
    · refine .inr ⟨_, by rw [step, some']; rfl, ?_⟩
      refine ⟨edge_snoc known.x0, edge_snoc known.y0, edge_snoc known.x1, edge_snoc known.y1, fun q mem => ?_⟩
      dsimp only
      rcases mem_append.mp mem with mem | mem
      · obtain ⟨left, top, right, bottom⟩ := known.around q mem
        refine ⟨?_, ?_, ?_, ?_⟩ <;> split <;> omega
      · obtain rfl := mem_singleton.mp mem
        refine ⟨?_, ?_, ?_, ?_⟩ <;> split <;> omega

theorem part_box {q : Rect} {b : Box} {rs : List Rect} (around : Bounding rs b) (self : Fits q q)
    (fits : ∀ r ∈ rs, Fits r r ∧ Fits r q ∧ r.box.Meets q.box) :
    (part q b).box = ⟨max 0 (b.x0 - q.x), max 0 (b.y0 - q.y), min q.w (b.x1 - q.x), min q.h (b.y1 - q.y)⟩ := by
  have near : ∀ {a w pos size : Int}, IsInt w → IsInt size → pos < a + w → a < pos + size → IsInt (a - pos) := by
    intro a w pos size width size' starts ends
    obtain ⟨w0, w1⟩ := width
    obtain ⟨size0, size1⟩ := size'
    exact ⟨by omega, by omega⟩
  obtain ⟨l, mem_l, x0⟩ := around.x0
  obtain ⟨t, mem_t, y0⟩ := around.y0
  obtain ⟨r, mem_r, x1⟩ := around.x1
  obtain ⟨u, mem_u, y1⟩ := around.y1
  obtain ⟨self_l, -, ⟨left_l, -, right_l, -⟩⟩ := fits l mem_l
  obtain ⟨self_t, -, ⟨-, top_t, -, bottom_t⟩⟩ := fits t mem_t
  obtain ⟨self_r, cross_r, ⟨left_r, -, right_r, -⟩⟩ := fits r mem_r
  obtain ⟨self_u, cross_u, ⟨-, top_u, -, bottom_u⟩⟩ := fits u mem_u
  rw [i32_eq self_r.x] at x1
  rw [i32_eq self_u.y] at y1
  simp only [Rect.box] at left_l right_l top_t bottom_t left_r right_r top_u bottom_u
  have across := @partSide_eq b.x0 b.x1 _ _ self.size.1
    (by rw [x0]; exact near self_l.size.1 self.size.1 right_l left_l) (by rw [x1]; exact cross_r.across)
    (by rw [x1]; exact right_r) (by rw [x0]; exact left_l)
  have down := @partSide_eq b.y0 b.y1 _ _ self.size.2
    (by rw [y0]; exact near self_t.size.2 self.size.2 bottom_t top_t) (by rw [y1]; exact cross_u.down)
    (by rw [y1]; exact bottom_u) (by rw [y0]; exact top_t)
  simp only [part, Rect.box, across, down]
  rw [Box.mk.injEq]
  exact ⟨rfl, rfl, by omega, by omega⟩

section Raise
variable {d : Desktop} {wd wpp : Nat}

theorem mem_covers : r ∈ covers d wd ↔ ∃ j ∈ d.above wd, (d.window j).visible = true ∧
    apart (d.window j).rect (d.window wd).rect = false ∧ (d.window j).rect = r := by
  simp only [covers, mem_map, mem_filter, Bool.and_eq_true, Bool.not_eq_true', and_assoc]

theorem raise_stack (nodup : d.stack.Nodup) (mem : wd ∈ d.stack) (found : place d.layer wd d.stack = some wpp)
    (other : wpp ≠ wd) : ∃ above between below, d.stack = (above ++ between) ++ wd :: below ∧
      insertBefore wpp wd (d.stack.erase wd) = above ++ wd :: (between ++ below) := by
  obtain ⟨reach, above, post, split, smaller⟩ := find?_eq_some_iff_append.mp found
  rw [split] at nodup mem
  obtain ⟨-, -, apart'⟩ := nodup_append.mp nodup
  have out : wd ∉ above := by
    intro here
    have no := smaller wd here
    simp at no
  rcases mem_append.mp mem with here | here
  · exact absurd here out
  rcases mem_cons.mp here with eq | later
  · exact absurd eq.symm other
  obtain ⟨between, below, rfl⟩ := append_of_mem later
  refine ⟨above, wpp :: between, below, by rw [split, append_assoc]; rfl, ?_⟩
  have behind' : wd ∉ wpp :: between := by
    rw [← cons_append] at nodup
    obtain ⟨-, rest, -⟩ := nodup_append.mp nodup
    exact fun here => (nodup_append.mp rest).2.2 wd here wd (mem_cons_self ..) rfl
  have erased : d.stack.erase wd = above ++ wpp :: (between ++ below) := by
    rw [split, erase_append_right _ out, ← cons_append, erase_append behind', cons_append]
  rw [erased, insertBefore_append fun here => apart' wpp here wpp (mem_cons_self ..) rfl]
  rfl

theorem sound_perm (sound : Sound d) (perm : stack.Perm d.stack) : Sound { d with stack := stack } where
  nodup := perm.nodup_iff.mpr sound.nodup
  listed := fun i mem => sound.listed i (perm.mem_iff.mp mem)
  complete := fun i some => perm.mem_iff.mpr (sound.complete i some)
  count := by rw [perm.length_eq]; exact sound.count

theorem complete_restack (sound : Sound d) (sums : Sums d [])
    (split : d.stack = (above ++ between) ++ wd :: below) : Complete d { d with stack := above ++ wd :: (between ++ below) } (if (d.window wd).visible then
      match bounds (covers d wd) with
      | none => []
      | some b => [.redraw wd (part (d.window wd).rect b)]
    else []) := by
  have nodup := sound.nodup
  rw [split] at nodup
  have out : wd ∉ above ++ between := fun here =>
    (nodup_append.mp nodup).2.2 wd here wd (mem_cons_self ..) rfl
  have beyond : d.above wd = (above ++ between).reverse := by rw [Desktop.above, split, takeWhile_append out]
  have mem : wd ∈ d.stack := by rw [split]; exact mem_append_right _ (mem_cons_self ..)
  have known : ∀ j ∈ d.stack, (d.window j).visible = true → InPlay d [] (d.window j).rect :=
    fun j mem visible => .inl ⟨j, mem, visible, rfl⟩
  have inFront : ∀ j ∈ d.above wd, j ∈ d.stack := by
    intro j here
    rw [beyond, mem_reverse] at here
    rw [split]
    exact mem_append_left _ here
  have fits : (d.window wd).visible = true → ∀ r ∈ covers d wd, Fits r r ∧ Fits r (d.window wd).rect ∧
      r.box.Meets (d.window wd).rect.box := by
    intro visible r listed
    obtain ⟨j, front, visible', common, rfl⟩ := mem_covers.mp listed
    have known_j := known j (inFront j front) visible'
    have known_wd := known wd mem visible
    have fits := sums _ _ known_j known_wd
    exact ⟨sums _ _ known_j known_j, fits, (apart_eq_false_iff fits (sums _ _ known_wd known_j)).mp common⟩
  constructor
  · intro x y k _ changed own
    rw [append_assoc] at split
    have restacked : ({ d with stack := above ++ wd :: (between ++ below) } : Desktop).stack =
        above ++ wd :: (between ++ below) := rfl
    obtain ⟨top, found⟩ := changed_below split restacked (fun _ _ => rfl) changed own
    have found : first d x y (wd :: (between ++ below)) = some k := found
    have own' : owner d x y = (first d x y between).or (first d x y (wd :: below)) := by
      rw [owner, split, first_append, top, Option.none_or, first_append]
    by_cases shows : Shows d x y wd
    · rw [first_cons_of_pos shows] at found
      obtain rfl := Option.some.inj found
      cases front : first d x y between with
      | none =>
        rw [front, Option.none_or, first_cons_of_pos shows] at own'
        exact absurd changed (not_changed own own' rfl)
      | some j =>
        obtain ⟨mem_j, shows_j⟩ := first_some front
        obtain ⟨visible, here⟩ := shows
        have mem_j : j ∈ d.above wd := by
          rw [beyond, mem_reverse]
          exact mem_append_right _ mem_j
        have known_j := known j (inFront j mem_j) shows_j.1
        have known_wd := known wd mem visible
        have common := (apart_eq_false_iff (sums _ _ known_j known_wd) (sums _ _ known_wd known_j)).mpr
          (meets_of_has shows_j.2 here)
        have listed := mem_covers.mpr ⟨j, mem_j, shows_j.1, common, rfl⟩
        rw [if_pos visible]
        rcases bounds_spec (covers d wd) with ⟨-, none'⟩ | ⟨b, some', around⟩
        · rw [none'] at listed
          cases listed
        · rw [some']
          refine .inl ⟨_, mem_singleton_self _, ?_⟩
          rw [part_box around (sums _ _ known_wd known_wd) (fits visible)]
          have edges := around.around _ listed
          have self_j := sums _ _ known_j known_j
          rw [i32_eq self_j.x, i32_eq self_j.y] at edges
          have there := shows_j.2
          simp only [Box.Has, Rect.box] at here there ⊢
          omega
    · rw [first_cons_of_neg shows, first_append] at found
      rw [first_cons_of_neg shows, found] at own'
      exact absurd changed (not_changed own own' rfl)
  · intro k s sent
    split_ifs at sent with visible
    · rcases bounds_spec (covers d wd) with ⟨none', -⟩ | ⟨b, some', around⟩
      · rw [none'] at sent
        cases sent
      · rw [some'] at sent
        obtain ⟨rfl, rfl⟩ := Act.redraw.inj (mem_singleton.mp sent)
        have known_wd := known k mem visible
        rw [part_box around (sums _ _ known_wd known_wd) (fits visible)]
        exact ⟨le_max_left _ _, min_le_left _ _, le_max_left _ _, min_le_left _ _⟩
    · cases sent

theorem complete_winRaise (sound : Sound d) (mem : wd ∈ d.stack) (sums : Sums d []) :
    ∃ d' acts, winRaise d wd = some (d', acts) ∧ Complete d d' acts ∧ Sound d' := by
  cases found : place d.layer wd d.stack with
  | none => exact absurd (decide_eq_true le_rfl) (find?_eq_none.mp found wd mem)
  | some wpp =>
    rw [winRaise, found]
    dsimp only
    split
    · exact ⟨d, [], rfl, complete_refl d, sound⟩
    · rename_i other
      obtain ⟨above, between, below, split, stack⟩ := raise_stack sound.nodup mem found other
      refine ⟨_, _, rfl, ?_, ?_⟩
      · rw [stack]
        exact complete_restack sound sums split
      · refine sound_perm sound ?_
        rw [stack, split, append_assoc]
        exact (perm_middle.symm.trans (by rfl)).append_left above

end Raise

section Creat
variable {d o e : Desktop} {i : Nat} {new : Window} {rects : List Rect}

theorem mem_winMax_of_free (sound : Sound d) (room : ¬ (winMax : Int) ≤ d.windowCount) :
    ∃ i, ((range winMax).find? fun i => (d.window i).task.isNone) = some i ∧ i < winMax ∧
      (d.window i).task = none := by
  cases found : (range winMax).find? fun i => (d.window i).task.isNone with
  | none =>
    refine absurd ?_ room
    have all : ∀ i ∈ range winMax, i ∈ d.stack := by
      intro i mem
      have taken := find?_eq_none.mp found i mem
      rw [Option.isNone_iff_eq_none] at taken
      exact sound.complete i (Option.isSome_iff_ne_none.mpr taken)
    have few := nodup_range.length_le_of_subset all
    rw [length_range] at few
    rw [sound.count]
    omega
  | some i =>
    have free := find?_some found
    exact ⟨i, rfl, mem_range.mp (mem_of_find?_eq_some found), Option.isNone_iff_eq_none.mp free⟩

variable (fresh : i ∉ d.stack) (stack : o.stack = d.stack ++ [i]) (window : o.window = update d.window i new)
  (hidden : new.visible = false)
include fresh stack window hidden

omit stack hidden in
theorem opened_window (mem : j ∈ d.stack) : o.window j = d.window j := by
  rw [window, update_of_ne]
  rintro rfl
  exact fresh mem

theorem owner_opened (x y : Int) : owner o x y = owner d x y := by
  have out : ¬ Shows o x y i := by
    rw [Shows, window, update_self, hidden]
    exact fun shows => Bool.false_ne_true shows.1
  rw [owner, stack, first_append, first_cons_of_neg out,
    first_congr fun j mem => opened_window fresh window mem]
  exact Option.or_none

theorem sums_opened (sums : Sums d rects) : Sums o rects := by
  have known : ∀ r, InPlay o rects r → InPlay d rects r := by
    rintro r (⟨j, mem, visible, rfl⟩ | new)
    · rw [stack] at mem
      rcases mem_append.mp mem with mem | mem
      · rw [opened_window fresh window mem] at visible ⊢
        exact .inl ⟨j, mem, visible, rfl⟩
      · obtain rfl := mem_singleton.mp mem
        rw [window, update_self, hidden] at visible
        cases visible
    · exact .inr new
  exact fun r q here there => sums r q (known r here) (known q there)

theorem complete_opened (display : o.display = d.display) (complete : Complete o e acts) :
    Complete d e acts := by
  refine ⟨fun x y k pixel changed own => ?_, complete.inside⟩
  have owners := owner_opened fresh stack window hidden
  have changed' : Changed o e x y := by
    by_cases differs : owner e x y = owner d x y
    · rcases changed with differs' | ⟨j, own', moved⟩
      · exact absurd differs differs'
      · refine .inr ⟨j, own', ?_⟩
        rw [own'] at differs
        rw [opened_window fresh window (first_some differs.symm).1]
        exact moved
    · refine .inl ?_
      rw [owners]
      exact differs
  rw [OnDisplay, ← display] at pixel
  refine (complete.exposed x y k pixel changed' own).imp_right fun copied => ?_
  obtain ⟨tx, ty, sx, sy, w, h, sent, here, on', own', across, down⟩ := copied
  rw [owners] at own'
  rw [opened_window fresh window (first_some own').1] at across down
  rw [OnDisplay, display] at on'
  exact ⟨tx, ty, sx, sy, w, h, sent, here, on', own', across, down⟩

end Creat

theorem complete_winCreat (sound : Sound d) (sums : Sums d (Op.rects (.creat visible x y w h))) :
    ∃ d' acts, winCreat d c visible x y w h = some (d', acts) ∧ Complete d d' acts ∧ Sound d' := by
  rw [winCreat]
  split
  · exact ⟨d, [], rfl, complete_refl d, sound⟩
  rename_i room
  obtain ⟨i, found, bound, free⟩ := mem_winMax_of_free sound room
  rw [found]
  dsimp only
  generalize (if c.euid = 0 ∧ c.secLocked = true then winLayerSecure else winLayerApp) = layer
  let new : Window := { zeroWindow with task := some c.task, layer := layer }
  let opened : Desktop := { d with window := update d.window i new, stack := d.stack ++ [i] }
  have fresh : i ∉ d.stack := by
    intro mem
    have taken := (sound.listed i mem).2
    rw [free] at taken
    cases taken
  have here : (opened.window i).task = some c.task := by
    show (update d.window i new i).task = some c.task
    rw [update_self]
  have nodup : opened.stack.Nodup := by
    refine nodup_append.mpr ⟨sound.nodup, pairwise_singleton _ i, ?_⟩
    rintro a mem b mem' rfl
    rw [mem_singleton.mp mem'] at mem
    exact fresh mem
  have listed : ∀ j ∈ opened.stack, j < winMax ∧ (opened.window j).task.isSome = true := by
    intro j mem
    rcases mem_append.mp mem with mem | mem
    · rw [opened_window (o := opened) fresh rfl mem]
      exact sound.listed j mem
    · obtain rfl := mem_singleton.mp mem
      rw [here]
      exact ⟨bound, rfl⟩
  have mem : i ∈ opened.stack := mem_append_right _ (mem_singleton_self i)
  have counted : Sound { opened with windowCount := d.windowCount + 1 } := by
    refine ⟨nodup, listed, fun j some => ?_, ?_⟩
    · by_cases eq : j = i
      · rw [eq]
        exact mem
      · refine mem_append_left _ (sound.complete j ?_)
        change (update d.window i new j).task.isSome = true at some
        rwa [update_of_ne eq] at some
    · show d.windowCount + 1 = ((d.stack ++ [i]).length : Int)
      rw [length_append, sound.count]
      rfl
  have frame := frame_winChange opened i visible x y w h
  refine ⟨_, _, rfl, ?_, ?_⟩
  · have sums' := sums_opened (o := opened) fresh rfl rfl rfl sums
    have complete := complete_winChange nodup listed mem sums'
    have complete' : Complete d (winChange opened i visible x y w h).1 (winChange opened i visible x y w h).2 :=
      complete_opened (o := opened) fresh rfl rfl rfl rfl complete
    exact ⟨complete'.exposed, complete'.inside⟩
  · refine Frame.sound (d := { opened with windowCount := d.windowCount + 1 }) ⟨frame.stack, ?_, frame.task⟩ counted
    show (winChange opened i visible x y w h).1.windowCount + 1 = d.windowCount + 1
    rw [frame.windowCount]

theorem mem_of_winChkwd (sound : Sound d) (own : winChkwd d c wd) : wd.toNat ∈ d.stack :=
  sound.complete _ (Option.isSome_iff_exists.mpr ⟨_, own.2.2⟩)

/- The windows are those of the calls with their events and handlers -/

theorem reach_sound {s : Desktops.State} (reach : Desktops.Reach s) : Sound s.d := by
  have good := Runs.reach_good reach
  exact ⟨good.nodup, good.safe.listed, good.complete, good.count⟩

section Connects
open Cmds Cmd Interrupts
open Desktops (State point gap quietly doIf)
variable {v : Desktop} {s : State} {curr : Nat}

/-- All but the focus, which `win_focus` may be refused to move. -/
def windows (d : Desktop) : Desktop := { d with focus := -1 }

def Lies (v : Desktop) (s : State) : Prop := windows s.d = v

theorem shielded_lies (v : Desktop) : Shielded (Lies v) := ⟨fun _ _ here => here, fun _ _ _ _ here => here⟩

theorem lies_handlers (v : Desktop) (now : List Desktops.Irq) :
    Stable (Lies v) (forEach now fun irq => quietly (Desktops.serve irq)) := by
  refine (shielded_lies v).handlers now fun _ => stable_bind stable_get fun _ => ?_
  refine stable_bind (stable_doIf (stable_modify fun _ here => here)) fun _ => ?_
  refine stable_bind (stable_modify fun _ here => here) fun _ => stable_bind stable_get fun _ => ?_
  exact (shielded_lies v).event _

theorem lies_point (v : Desktop) : Stable (Lies v) point := by
  refine stable_bind stable_get fun s => ?_
  cases s.irqs.points with
  | nil => exact stable_pure ()
  | cons now later => exact stable_bind (stable_modify fun _ here => here) fun _ => lies_handlers v now

theorem lies_gap (v : Desktop) : Stable (Lies v) gap := by
  refine stable_bind stable_get fun s => ?_
  cases s.irqs.gaps with
  | nil => exact stable_pure ()
  | cons now later => exact stable_bind (stable_modify fun _ here => here) fun _ => lies_handlers v now

theorem lies_setWindow (here : Lies v s) (wd : Nat) (f : Window → Window) :
    windows (s.d.setWindow wd f) = v.setWindow wd f := congrArg (fun d => d.setWindow wd f) here

theorem wp_lies_set {α : Type} {m : Desktops.Call α} {P : α → State → Prop} (all : Stable (Lies v) m)
    (eq : windows (f s.d) = v) (imp : ∀ b t, Lies v t → P b t) :
    wp (Desktops.setDesktop f >>= fun _ => m) (fun r t => ∀ b, r = .ok b → P b t) s := by
  rw [Desktops.setDesktop, wp_bind, wp_modify, after_ok]
  exact wp_of_stable all eq fun _ t here b _ => imp b t here

theorem winChange_windows (curr : Nat) (wd visible x y w h : Int) (here : Lies v s) :
    wp (Desktops.winChange curr wd visible x y w h)
      (fun r t => ∀ b, r = .ok b → Lies (winChange v wd.toNat visible x y w h).1 t) s := by
  have shield := shielded_lies v
  rw [Desktops.winChange]
  refine wp_ok_of_stable (stable_winChkwd curr wd) here fun _ s1 here => ?_
  rw [wp_bind, wp_get, after_ok]
  have same : windows s1.d = v := here
  subst same
  refine wp_ok_of_stable (stable_doIf (stable_quietly shield.sendTaskbar)) here fun _ s2 here => ?_
  refine wp_ok_of_stable (lies_point _) here fun _ s3 here => ?_
  unfold winChange newRect windows
  generalize (if w < 0 ∨ h < 0 then (⟨x, y, 0, 0⟩ : Rect) else ⟨x, y, w, h⟩) = r
  dsimp only
  split
  · exact wp_lies_set (stable_bind (lies_point _) fun _ => (shielded_lies _).winRedrawRect (lies_point _) _ _)
      (lies_setWindow here _ _) fun _ _ => id
  split
  · exact wp_lies_set (stable_bind (lies_point _) fun _ => (shielded_lies _).winRedraw _) (lies_setWindow here _ _)
      fun _ _ => id
  split
  · exact fun _ _ => here
  split
  · refine wp_ok_of_stable (shield.winRedrawRect (lies_point _) _ _) here fun _ s4 here => ?_
    refine wp_ok_of_stable (lies_point _) here fun _ s5 here => ?_
    exact wp_lies_set (stable_bind (lies_point _) fun _ => stable_doIf ((shielded_lies _).winRedraw _))
      (lies_setWindow here _ _) fun _ _ => id
  · exact fun _ _ => here

theorem winRaise_windows (curr : Nat) (wd : Int) (here : Lies v s) :
    wp (Desktops.winRaise curr wd)
      (fun r t => ∀ b, r = .ok b → ∃ d acts, winRaise v wd.toNat = some (d, acts) ∧ Lies d t) s := by
  have shield := shielded_lies v
  rw [Desktops.winRaise, wp_bind, wp_get, after_ok]
  refine wp_ok_of_stable (stable_failIf _) here fun _ s1 here' => ?_
  refine wp_ok_of_stable (stable_failIf _) here' fun _ s2 here' => ?_
  refine wp_ok_of_stable (stable_failIf _) here' fun _ s3 here' => ?_
  have same : windows s.d = v := here
  have found : place v.layer wd.toNat v.stack = place s.d.layer wd.toNat s.d.stack := by rw [← same]; rfl
  unfold winRaise
  dsimp only
  rw [found]
  cases place s.d.layer wd.toNat s.d.stack with
  | none => rintro b ⟨⟩
  | some wpp =>
    dsimp only
    by_cases same : wpp = wd.toNat
    · rw [if_pos same, if_pos same]
      exact fun _ _ => ⟨v, [], rfl, here'⟩
    · rw [if_neg same, if_neg same]
      refine wp_ok_of_stable (stable_quietly (shield.winEvent wd)) here' fun _ s4 here => ?_
      refine wp_ok_of_stable (lies_point v) here fun _ s5 here => ?_
      refine wp_lies_set (v := { v with stack := insertBefore wpp wd.toNat (v.stack.erase wd.toNat) }) ?_ ?_
        fun _ _ here => ⟨_, _, rfl, here⟩
      · exact stable_bind (lies_point _) fun _ => stable_doIf ((shielded_lies _).winEvent _)
      · exact congrArg (fun d : Desktop => { d with stack := insertBefore wpp wd.toNat (d.stack.erase wd.toNat) }) here

theorem lies_winFocus (curr : Nat) (wd : Int) : Stable (Lies v) (Desktops.winFocus curr wd) := by
  have shield := shielded_lies v
  refine stable_bind stable_get fun s => stable_bind (stable_failIf _) fun _ => ?_
  refine stable_bind (stable_failIf _) fun _ => stable_bind (stable_failIf _) fun _ => ?_
  refine stable_bind (stable_failIf _) fun _ => stable_ite (stable_pure _) ?_
  refine stable_bind (stable_doIf (stable_quietly (shield.winEvent _))) fun _ => ?_
  refine stable_bind (lies_point v) fun _ => stable_bind (stable_quietly (shield.winEvent _)) fun _ => ?_
  refine stable_bind (lies_point v) fun _ => stable_bind (stable_modify fun _ here => here) fun _ => ?_
  exact stable_bind (lies_point v) fun _ => stable_quietly shield.sendTaskbar

theorem winClose_windows (c : Caller) (curr : Nat) (wd : Int) (here : Lies v s) :
    wp (Desktops.winClose curr wd) (fun r t => ∀ b, r = .ok b → Lies (windows (winClose v c wd.toNat).1) t) s := by
  rw [Desktops.winClose]
  refine wp_ok_of_stable (stable_winChkwd curr wd) here fun _ s1 here => ?_
  rw [wp_bind, wp_get, after_ok]
  refine wp_ok_of_stable (lies_point v) here fun _ s2 here => ?_
  refine wp_ok_of_stable (stable_doIf ?_) here fun _ s3 here => ?_
  · refine stable_bind (stable_modify fun _ here => here) fun _ => stable_bind (lies_point v) fun _ => ?_
    split
    · exact stable_pure _
    · exact stable_quietly (lies_winFocus curr _)
  refine wp_ok_of_stable (lies_point v) here fun _ s4 here => ?_
  refine wp_ok_of_stable (stable_modify fun _ here => here) here fun _ s5 here => ?_
  refine wp_ok_of_stable (lies_gap v) here fun _ s6 here => ?_
  rw [Desktops.takeOff, Desktops.setDesktop, wp_bind, wp_modify, after_ok]
  refine wp_lies_set (stable_bind (lies_point _) fun _ => stable_bind (stable_doIf ?_) fun _ =>
    stable_quietly (shielded_lies _).sendTaskbar) ?_ fun _ _ => id
  · exact (shielded_lies _).winRedrawRect (lies_point _) _ _
  · subst here
    rfl

theorem winCreat_changed (curr i : Nat) (visible x y w h : Int) (here : Lies v s) :
    wp (do
      Desktops.sendTaskbar
      point
      Desktops.winChange curr i visible x y w h
      point) (fun r t => ∀ b, r = .ok b → Lies (winChange v i visible x y w h).1 t) s := by
  refine wp_ok_of_stable (shielded_lies v).sendTaskbar here fun _ s1 here => ?_
  refine wp_ok_of_stable (lies_point v) here fun _ s2 here => ?_
  rw [wp_bind]
  refine wp_mono (winChange_windows curr i visible x y w h here) fun r t done => ?_
  rcases r with a | e | _
  · rw [after_ok]
    exact wp_of_stable (lies_point _) (done a rfl) fun _ _ here _ _ => here
  · rintro b ⟨⟩
  · rintro b ⟨⟩

theorem winCreat_windows (curr : Nat) (visible x y w h : Int) (s : State) :
    wp (Desktops.winCreat curr visible x y w h) (fun r t => ∀ b, r = .ok b → ∃ d acts,
      winCreat (windows s.d) ⟨curr, s.euid curr, s.input.secLocked⟩ visible x y w h = some (d, acts) ∧ Lies d t) s := by
  rw [Desktops.winCreat, wp_bind, wp_get, after_ok]
  refine wp_ok_of_stable (I := fun t => t = s) (stable_failIf _) rfl fun _ s1 here => ?_
  subst here
  by_cases full : (winMax : Int) ≤ s1.d.windowCount
  · rw [Desktops.failIf, if_pos full]
    rintro b ⟨⟩
  have found : ((range winMax).find? fun i => ((windows s1.d).window i).task.isNone) =
    (range winMax).find? fun i => (s1.d.window i).task.isNone := rfl
  unfold winCreat
  rw [Desktops.failIf, if_neg full, if_neg (show ¬ (winMax : Int) ≤ (windows s1.d).windowCount from full), found]
  rw [wp_bind, wp_pure, after_ok]
  cases (range winMax).find? fun i => (s1.d.window i).task.isNone with
  | none => rintro b ⟨⟩
  | some i =>
    dsimp only
    rw [wp_bind, wp_modify, after_ok]
    refine wp_ok_of_stable (lies_point _) (Eq.refl (windows _)) fun _ s2 here => ?_
    rw [wp_bind, wp_onError]
    refine wp_mono (winCreat_changed curr i visible x y w h here) fun r t done => ?_
    rcases r with a | e | _
    · rw [recovered_ok, after_ok]
      have here : windows t.d = _ := done a rfl
      refine wp_lies_set (stable_pure i) ?_ fun _ _ here => ⟨_, _, rfl, here⟩
      exact congrArg (fun d : Desktop => { d with windowCount := d.windowCount + 1 }) here
    · rw [recovered_err]
      refine wp_of_stable (I := fun _ => True) (fun _ _ => trivial) trivial fun r u _ => ?_
      rcases r with _ | _ | _ <;> rintro b ⟨⟩
    · rintro b ⟨⟩

end Connects

/-- Each call has redrawn or copied what it uncovers or moves, and leaves the stack sound. -/
theorem damage_complete {d : Desktop} (sound : Sound d) (c : Caller) (op : Op) (sums : Sums d op.rects) :
    ∃ d' acts, op.run c d = some (d', acts) ∧ Complete d d' acts ∧ Sound d' := by
  have same : Complete d d [] ∧ Sound d := ⟨complete_refl d, sound⟩
  cases op with
  | change wd visible x y w h =>
    rw [Op.run]
    split
    · rename_i own
      have frame := frame_winChange d wd.toNat visible x y w h
      exact ⟨_, _, rfl, complete_winChange sound.nodup sound.listed (mem_of_winChkwd sound own) sums,
        frame.sound sound⟩
    · exact ⟨d, [], rfl, same⟩
  | raise wd =>
    rw [Op.run]
    split
    · exact ⟨d, [], rfl, same⟩
    · rename_i own
      have some' : (d.window wd.toNat).task.isSome = true := by
        rw [not_or, not_or, Option.isNone_iff_eq_none] at own
        exact Option.isSome_iff_ne_none.mpr own.2.2
      exact complete_winRaise sound (sound.complete _ some') sums
  | close wd =>
    rw [Op.run]
    split
    · rename_i own
      have mem := mem_of_winChkwd sound own
      exact ⟨_, _, rfl, complete_winClose sound mem sums, sound_winClose sound mem⟩
    · exact ⟨d, [], rfl, same⟩
  | creat visible x y w h => exact complete_winCreat sound sums

def overlapping : Desktop where
  display := ⟨100, 100, false⟩
  window := fun i =>
    if i = 0 then ⟨some 0, true, 5, ⟨10, 10, 50, 40⟩, false⟩
    else if i = 1 then ⟨some 0, true, 5, ⟨30, 30, 40, 40⟩, false⟩
    else zeroWindow
  stack := [1, 0]
  windowCount := 2
  focus := -1
  taskbar := none

theorem damage_complete_move : ∃ d' acts, (Op.change 1 1 50 45 40 40).run ⟨0, 0, false⟩ overlapping = some (d', acts) ∧
    Complete overlapping d' acts ∧ Sound d' := by
  refine damage_complete ⟨by decide, by decide, fun i some => ?_, rfl⟩ _ _ fun r q here there => ?_
  · by_contra out
    have first : i ≠ 0 := fun eq => out (by rw [eq]; decide)
    have second : i ≠ 1 := fun eq => out (by rw [eq]; decide)
    have none' : (overlapping.window i).task = none := by
      rw [show overlapping.window i = zeroWindow from (if_neg first).trans (if_neg second)]
      rfl
    rw [none'] at some
    cases some
  · have near : ∀ r, InPlay overlapping (Op.rects (.change 1 1 50 45 40 40)) r →
        (0 ≤ r.x ∧ r.x ≤ 100) ∧ (0 ≤ r.y ∧ r.y ≤ 100) ∧ (0 ≤ r.w ∧ r.w ≤ 100) ∧ 0 ≤ r.h ∧ r.h ≤ 100 := by
      rintro r (⟨wd, mem, -, rfl⟩ | mem)
      · revert wd
        decide
      · rw [mem_singleton.mp mem]
        decide
    have here := near r here
    have there := near q there
    refine ⟨?_, ?_, ?_, ?_⟩
    all_goals
      simp only [IsInt]
      omega

end Damage
