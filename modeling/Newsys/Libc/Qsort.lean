import Mathlib.Data.List.Nodup
import Newsys.Lib.Bytes
import Newsys.Lib.Cmd
import Newsys.Lib.Compare
import Newsys.Kern.Machine

/- Sorting an array (lib/stdlib/qsort.c). The pivot is the first element; the part that is sorted next may be the whole
   array again, but only once. Pointers wrap around at the end of the address space. One that is used outside the array
   is a crash, and loops and calls are counted: a run that has not come to its end after so many rounds is an error. -/
namespace Qsort
open Bytes Cmds Cmd Compare List

structure Args where
  m : Kern.Machine
  data : Nat
  cnt : Nat
  size : Nat
  cmp : List Byte → List Byte → Int

abbrev SortM := Cmd Unit Mem

namespace Args

def Element (g : Args) (p : Nat) : Prop := ∃ i, i < g.cnt ∧ p = g.data + i * g.size

instance (g : Args) (p : Nat) : Decidable (g.Element p) := inferInstanceAs (Decidable (∃ i, i < _ ∧ _))

def compare (g : Args) (a b : Nat) : SortM Int := do
  let mem ← get
  if g.Element a ∧ g.Element b then pure (g.cmp (slice mem a g.size) (slice mem b g.size)) else crash

def swapBytes (mem : Mem) : Nat → Nat → Nat → Mem
  | _, _, 0 => mem
  | p0, p1, size + 1 => swapBytes (put (put mem p0 (mem p1)) p1 (mem p0)) (p0 + 1) (p1 + 1) size

def swap (g : Args) (p0 p1 : Nat) : SortM Unit :=
  if g.Element p0 ∧ g.Element p1 then modify fun mem => swapBytes mem p0 p1 g.size else crash

def next (g : Args) (p : Nat) : Nat := (p + g.size) % g.m.word

def back (g : Args) (p : Nat) : Nat := (p + g.m.word - g.size) % g.m.word

def scanUp (g : Args) (start end' : Nat) : Nat → Nat → SortM Nat
  | 0, _ => fail ()
  | n + 1, p0 => do
    let r ← g.compare p0 start
    if r ≤ 0 ∧ p0 < end' then g.scanUp start end' n (g.next p0) else pure p0

def scanDown (g : Args) (start : Nat) : Nat → Nat → SortM Nat
  | 0, _ => fail ()
  | n + 1, p1 => do
    let r ← g.compare p1 start
    if 0 ≤ r ∧ start < p1 then g.scanDown start n (g.back p1) else pure p1

def split (g : Args) (start end' : Nat) : Nat → Nat → Nat → SortM Nat
  | 0, _, _ => fail ()
  | n + 1, p0, p1 =>
    if p0 < p1 then do
      let p0 ← g.scanUp start end' n p0
      let p1 ← g.scanDown start n p1
      (if p0 < p1 then g.swap p0 p1 else pure ())
      g.split start end' n p0 p1
    else pure p1

def subSort (g : Args) : Nat → Nat → Nat → SortM Unit
  | 0, _, _ => fail ()
  | n + 1, start, end' =>
    if start > g.back end' then pure ()
    else do
      let p1 ← g.split start end' n start end'
      g.swap start p1
      g.subSort n start p1
      g.subSort n (g.next p1) end'

def qsort (g : Args) (n : Nat) : SortM Unit :=
  if g.cnt = 0 then pure () else g.subSort n g.data ((g.data + (g.cnt - 1) * g.size) % g.m.word)

/-- There is an address behind the array's end. -/
def Addressed (g : Args) : Prop := g.data + g.cnt * g.size < g.m.word

def place (g : Args) (i : Nat) : Nat := g.data + i * g.size

def elem (g : Args) (mem : Mem) (i : Nat) : List Byte := slice mem (g.place i) g.size

/- Moving elements -/

/-- The elements from `lo` to `hi` have been put into another order, and nothing else has changed. -/
structure Moved (g : Args) (lo hi : Nat) (mem mem' : Mem) : Prop where
  elems : ∃ σ : Equiv.Perm Nat, (∀ k, k < lo ∨ hi < k → σ k = k) ∧ ∀ k, g.elem mem' k = g.elem mem (σ k)
  others : ∀ x, x < g.place lo ∨ g.place (hi + 1) ≤ x → mem' x = mem x

variable {g : Args} {mem mem' mem'' : Mem} {lo hi : Nat}

theorem swapBytes_outside (size : Nat) : ∀ (mem : Mem) {p0 p1 x : Nat}, (x < p0 ∨ p0 + size ≤ x) →
    (x < p1 ∨ p1 + size ≤ x) → swapBytes mem p0 p1 size x = mem x := by
  induction size with
  | zero =>
    intros
    rfl
  | succ size ih =>
    intro mem p0 p1 x out out'
    rw [swapBytes, ih _ (by omega) (by omega), put, if_neg (by omega), put, if_neg (by omega)]

theorem swapBytes_apart (size : Nat) : ∀ (mem : Mem) {p0 p1 : Nat}, (p0 + size ≤ p1 ∨ p1 + size ≤ p0) → ∀ k, k < size →
    swapBytes mem p0 p1 size (p0 + k) = mem (p1 + k) ∧ swapBytes mem p0 p1 size (p1 + k) = mem (p0 + k) := by
  induction size with
  | zero => exact fun _ _ _ _ _ lt => absurd lt (by omega)
  | succ size ih =>
    intro mem p0 p1 apart k lt
    rw [swapBytes]
    cases k with
    | zero =>
      constructor
      · rw [swapBytes_outside _ _ (by omega) (by omega), put, if_neg (by omega), put]
        exact if_pos rfl
      · rw [swapBytes_outside _ _ (by omega) (by omega), put]
        exact if_pos rfl
    | succ k =>
      obtain ⟨first, second⟩ := @ih (put (put mem p0 (mem p1)) p1 (mem p0)) (p0 + 1) (p1 + 1) (by omega) k
        (by omega)
      rw [show p0 + (k + 1) = p0 + 1 + k by omega, show p1 + (k + 1) = p1 + 1 + k by omega, first, second]
      constructor
      · rw [put, if_neg (by omega), put, if_neg (by omega)]
      · rw [put, if_neg (by omega), put, if_neg (by omega)]

theorem swapBytes_self (size : Nat) : ∀ (mem : Mem) (p : Nat), swapBytes mem p p size = mem := by
  induction size with
  | zero => exact fun _ _ => rfl
  | succ size ih =>
    intro mem p
    rw [swapBytes, ih]
    funext x
    rw [put]
    split
    · rename_i eq
      rw [eq]
    · rename_i ne
      exact if_neg ne

variable {i j : Nat}

theorem place_apart (lt : i < j) : g.place i + g.size ≤ g.place j := by
  have le := Nat.mul_le_mul_right g.size (show i + 1 ≤ j from lt)
  rw [Nat.succ_mul] at le
  unfold place
  omega

theorem elem_congr (same : ∀ x, g.place i ≤ x → x < g.place i + g.size → mem' x = mem x) :
    g.elem mem' i = g.elem mem i := by
  apply map_congr_left
  intro k lt
  have lt := mem_range.mp lt
  exact same _ (by omega) (by omega)

theorem elem_swap (i j k : Nat) : g.elem (swapBytes mem (g.place i) (g.place j) g.size) k =
    g.elem mem (Equiv.swap i j k) := by
  by_cases same : i = j
  · rw [same, swapBytes_self, Equiv.swap_self]
    rfl
  have apart : g.place i + g.size ≤ g.place j ∨ g.place j + g.size ≤ g.place i :=
    (Nat.lt_or_gt_of_ne same).imp place_apart place_apart
  have both := swapBytes_apart g.size mem apart
  by_cases first : k = i
  · rw [first, Equiv.swap_apply_left]
    exact map_congr_left fun l lt => (both l (mem_range.mp lt)).1
  by_cases second : k = j
  · rw [second, Equiv.swap_apply_right]
    exact map_congr_left fun l lt => (both l (mem_range.mp lt)).2
  rw [Equiv.swap_apply_of_ne_of_ne first second]
  have off := (Nat.lt_or_gt_of_ne first).imp (place_apart (g := g)) (place_apart (g := g))
  have off' := (Nat.lt_or_gt_of_ne second).imp (place_apart (g := g)) (place_apart (g := g))
  exact elem_congr fun x low high => swapBytes_outside _ _ (by omega) (by omega)

theorem Moved.refl : g.Moved lo hi mem mem := ⟨⟨Equiv.refl _, fun _ _ => rfl, fun _ => rfl⟩, fun _ _ => rfl⟩

theorem Moved.trans (first : g.Moved lo hi mem mem') (second : g.Moved lo hi mem' mem'') : g.Moved lo hi mem mem'' := by
  obtain ⟨⟨σ, fixed, elems⟩, others⟩ := first
  obtain ⟨⟨τ, fixed', elems'⟩, others'⟩ := second
  refine ⟨⟨τ.trans σ, fun k out => ?_, fun k => ?_⟩, fun x out => (others' x out).trans (others x out)⟩
  · rw [Equiv.trans_apply, fixed' k out, fixed k out]
  · rw [elems', elems, Equiv.trans_apply]

theorem Moved.mono (moved : g.Moved lo hi mem mem') (low : lo' ≤ lo) (high : hi ≤ hi') :
    g.Moved lo' hi' mem mem' := by
  obtain ⟨⟨σ, fixed, elems⟩, others⟩ := moved
  have le : g.place lo' ≤ g.place lo := Nat.add_le_add_left (Nat.mul_le_mul_right _ low) _
  have le' : g.place (hi + 1) ≤ g.place (hi' + 1) := Nat.add_le_add_left (Nat.mul_le_mul_right _ (by omega)) _
  exact ⟨⟨σ, fun k out => fixed k (by omega), elems⟩, fun x out => others x (by omega)⟩

theorem moved_swap (mem : Mem) (low : lo ≤ i) (high : i ≤ hi) (low' : lo ≤ j) (high' : j ≤ hi) :
    g.Moved lo hi mem (swapBytes mem (g.place i) (g.place j) g.size) := by
  have start : ∀ {k}, lo ≤ k → g.place lo ≤ g.place k := fun le => Nat.add_le_add_left (Nat.mul_le_mul_right _ le) _
  have stop : ∀ {k}, k ≤ hi → g.place k + g.size ≤ g.place (hi + 1) := fun le => place_apart (Nat.lt_succ_of_le le)
  have s := start low
  have s' := start low'
  have t := stop high
  have t' := stop high'
  refine ⟨⟨Equiv.swap i j, fun k out => ?_, elem_swap i j⟩, fun x out => ?_⟩
  · exact Equiv.swap_apply_of_ne_of_ne (by omega) (by omega)
  exact swapBytes_outside _ _ (by omega) (by omega)

theorem Moved.forall (moved : g.Moved lo hi mem mem') {P : List Byte → Prop}
    (all : ∀ k, lo ≤ k → k ≤ hi → P (g.elem mem k)) : ∀ k, lo ≤ k → k ≤ hi → P (g.elem mem' k) := by
  obtain ⟨⟨σ, fixed, elems⟩, -⟩ := moved
  intro k low high
  rw [elems]
  -- an element of the range stays in it
  have inside : lo ≤ σ k ∧ σ k ≤ hi := by
    by_contra out
    have same := σ.injective (fixed (σ k) (by omega))
    omega
  exact all _ inside.1 inside.2

theorem Moved.elem_outside (moved : g.Moved lo hi mem mem') (out : k < lo ∨ hi < k) :
    g.elem mem' k = g.elem mem k := by
  obtain ⟨⟨σ, fixed, elems⟩, -⟩ := moved
  rw [elems, fixed k out]

theorem element_place (inside : i < g.cnt) : g.Element (g.place i) := ⟨i, inside, rfl⟩

theorem wp_compare (inside : i < g.cnt) (inside' : j < g.cnt)
    (post : Q (.ok (g.cmp (g.elem mem i) (g.elem mem j))) mem) : wp (g.compare (g.place i) (g.place j)) Q mem := by
  rw [compare, wp_bind, wp_get, after_ok, if_pos ⟨element_place inside, element_place inside'⟩]
  exact post

theorem wp_swap (inside : i < g.cnt) (inside' : j < g.cnt)
    (post : Q (.ok ()) (swapBytes mem (g.place i) (g.place j) g.size)) : wp (g.swap (g.place i) (g.place j)) Q mem := by
  rw [swap, if_pos ⟨element_place inside, element_place inside'⟩]
  exact post

theorem place_lt (pos : 0 < g.size) : g.place i < g.place j ↔ i < j := by
  constructor
  · intro lt
    by_contra le
    have back := Nat.mul_le_mul_right g.size (Nat.not_lt.mp le)
    unfold place at lt
    omega
  · intro lt
    have apart := place_apart (g := g) lt
    omega

theorem place_succ (g : Args) (i : Nat) : g.place (i + 1) = g.place i + g.size := by
  rw [place, Nat.succ_mul, ← add_assoc, place]

section
variable (addressed : g.Addressed)
include addressed

theorem next_place (inside : i < g.cnt) : g.next (g.place i) = g.place (i + 1) := by
  have le := Nat.mul_le_mul_right g.size inside
  rw [next, ← place_succ, Nat.mod_eq_of_lt]
  exact Nat.lt_of_le_of_lt (Nat.add_le_add_left le _) addressed

theorem back_place (inside : i < g.cnt) : g.back (g.place (i + 1)) = g.place i := by
  have le := Nat.mul_le_mul_right g.size inside
  have lt : g.place (i + 1) < g.m.word := Nat.lt_of_le_of_lt (Nat.add_le_add_left le _) addressed
  rw [place_succ] at lt
  rw [back, place_succ, show g.place i + g.size + g.m.word - g.size = g.place i + g.m.word by omega, Nat.add_mod_right,
    Nat.mod_eq_of_lt (by omega)]

def rel (g : Args) (mem : Mem) (lo k : Nat) : Int := g.cmp (g.elem mem k) (g.elem mem lo)

theorem scanUp_spec (pos : 0 < g.size) (inside : hi < g.cnt) (n : Nat) : ∀ {i : Nat}, lo ≤ i → i ≤ hi → hi < n + i →
    wp (g.scanUp (g.place lo) (g.place hi) n (g.place i)) (fun r mem' => mem' = mem ∧ ∃ j, r = .ok (g.place j) ∧ i ≤ j ∧
      j ≤ hi ∧ (∀ k, i ≤ k → k < j → g.rel mem lo k ≤ 0) ∧ (j = hi ∨ 0 < g.rel mem lo j)) mem := by
  induction n with
  | zero => exact fun _ le enough => absurd enough (by omega)
  | succ n ih =>
    intro i low le enough
    rw [scanUp, wp_bind]
    refine wp_compare (by omega) (by omega) ?_
    rw [after_ok]
    change wp (if g.rel mem lo i ≤ 0 ∧ g.place i < g.place hi then _ else _) _ mem
    by_cases more : g.rel mem lo i ≤ 0 ∧ i < hi
    · have cond : g.rel mem lo i ≤ 0 ∧ g.place i < g.place hi := ⟨more.1, (place_lt pos).mpr more.2⟩
      rw [if_pos cond, next_place addressed (by omega)]
      refine wp_mono (ih (i := i + 1) (by omega) (by omega) (by omega)) ?_
      rintro r mem' ⟨rfl, j, rfl, from', upto, small, stop⟩
      refine ⟨rfl, j, rfl, by omega, upto, fun k ge lt => ?_, stop⟩
      rcases eq_or_lt_of_le ge with rfl | gt
      · exact more.1
      · exact small k gt lt
    · have cond : ¬ (g.rel mem lo i ≤ 0 ∧ g.place i < g.place hi) := fun h => more ⟨h.1, (place_lt pos).mp h.2⟩
      rw [if_neg cond]
      exact ⟨rfl, i, rfl, le_refl _, le, fun k ge lt => absurd lt (by omega), by omega⟩

theorem scanDown_spec (pos : 0 < g.size) (inside : hi < g.cnt) (n : Nat) : ∀ {i : Nat}, lo ≤ i → i ≤ hi → i < n + lo →
    wp (g.scanDown (g.place lo) n (g.place i)) (fun r mem' => mem' = mem ∧ ∃ j, r = .ok (g.place j) ∧ lo ≤ j ∧
      j ≤ i ∧ (∀ k, j < k → k ≤ i → 0 ≤ g.rel mem lo k) ∧ (j = lo ∨ g.rel mem lo j < 0)) mem := by
  induction n with
  | zero => exact fun _ le enough => absurd enough (by omega)
  | succ n ih =>
    intro i low le enough
    rw [scanDown, wp_bind]
    refine wp_compare (by omega) (by omega) ?_
    rw [after_ok]
    change wp (if 0 ≤ g.rel mem lo i ∧ g.place lo < g.place i then _ else _) _ mem
    by_cases more : 0 ≤ g.rel mem lo i ∧ lo < i
    · have cond : 0 ≤ g.rel mem lo i ∧ g.place lo < g.place i := ⟨more.1, (place_lt pos).mpr more.2⟩
      obtain ⟨i, rfl⟩ : ∃ i', i = i' + 1 := ⟨i - 1, by omega⟩
      rw [if_pos cond, back_place addressed (by omega)]
      refine wp_mono (ih (i := i) (by omega) (by omega) (by omega)) ?_
      rintro r mem' ⟨rfl, j, rfl, from', upto, large, stop⟩
      refine ⟨rfl, j, rfl, from', by omega, fun k gt le' => ?_, stop⟩
      rcases eq_or_lt_of_le le' with rfl | lt
      · exact more.1
      · exact large k gt (by omega)
    · have cond : ¬ (0 ≤ g.rel mem lo i ∧ g.place lo < g.place i) := fun h => more ⟨h.1, (place_lt pos).mp h.2⟩
      rw [if_neg cond]
      exact ⟨rfl, i, rfl, low, le_refl _, fun k gt le' => absurd gt (by omega), by omega⟩

end

/-- The elements up to the place `p` are not behind the pivot `v`, and the others are not in front of it. -/
structure Halves (g : Args) (v : List Byte) (lo hi : Nat) (mem : Mem) (p : Nat) : Prop where
  low : ∀ k, lo ≤ k → k ≤ p → g.cmp (g.elem mem k) v ≤ 0
  high : ∀ k, p < k → k ≤ hi → 0 ≤ g.cmp (g.elem mem k) v

/-- Between two rounds of the outer loop. The last element stays in its half only if it was in front of the pivot before
    the first round and nothing has moved since. -/
structure Between (g : Args) (lo hi : Nat) (mem₀ mem : Mem) (i j : Nat) : Prop where
  low : ∀ k, lo ≤ k → k ≤ i → g.rel mem lo k ≤ 0
  high : ∀ k, j < k → k ≤ hi → 0 ≤ g.rel mem lo k
  last : j = hi → (mem = mem₀ ∧ (i = lo ∨ g.rel mem lo hi < 0)) ∨ 0 < g.rel mem lo j

theorem rel_swap (low : lo < i) (low' : lo < j) (k : Nat) :
    g.rel (swapBytes mem (g.place i) (g.place j) g.size) lo k = g.rel mem lo (Equiv.swap i j k) := by
  rw [rel, rel, elem_swap, elem_swap, Equiv.swap_apply_of_ne_of_ne (ne_of_lt low) (ne_of_lt low')]

structure Scanned (g : Args) (lo : Nat) (mem : Mem) (i j i' j' : Nat) : Prop where
  small : ∀ k, i ≤ k → k < i' → g.rel mem lo k ≤ 0
  large : ∀ k, j' < k → k ≤ j → 0 ≤ g.rel mem lo k
  stop : j' = lo ∨ g.rel mem lo j' < 0

variable {mem₀ : Mem}

theorem Between.crossed (orders : Orders g.cmp) (between : g.Between lo hi mem₀ mem i j)
    (scanned : g.Scanned lo mem i j i' j') (low : lo ≤ i) (more : i < j) (upto : j ≤ hi) (back : j' ≤ j)
    (crossed : j' ≤ i') : g.Halves (g.elem mem lo) lo hi mem j' ∧ (j' = hi → mem = mem₀ ∧ g.rel mem lo hi < 0) := by
  obtain ⟨small, large, stop⟩ := scanned
  have self : g.rel mem lo lo = 0 := orders.refl _
  refine ⟨⟨fun k ge le => ?_, fun k gt le => ?_⟩, fun all => ?_⟩
  · change g.rel mem lo k ≤ 0
    rcases eq_or_lt_of_le le with rfl | before
    · rcases stop with rfl | neg <;> omega
    by_cases old : k ≤ i
    · exact between.low k ge old
    · exact small k (by omega) (by omega)
  · by_cases old : k ≤ j
    · exact large k gt old
    · exact between.high k (by omega) le
  · obtain rfl : j = hi := by omega
    subst all
    rcases stop with rfl | neg
    · omega
    rcases between.last rfl with ⟨same, -⟩ | pos
    · exact ⟨same, neg⟩
    · omega

theorem Between.swapped (between : g.Between lo hi mem₀ mem i j)
    (scanned : g.Scanned lo mem i j i' j') (low : lo < i') (lt : i' < j') (behind : 0 < g.rel mem lo i') :
    g.Between lo hi mem₀ (swapBytes mem (g.place i') (g.place j') g.size) i' j' := by
  obtain ⟨small, large, stop⟩ := scanned
  have stop := stop.resolve_left (by omega)
  have moved : ∀ k, g.rel (swapBytes mem (g.place i') (g.place j') g.size) lo k = g.rel mem lo (Equiv.swap i' j' k) :=
    rel_swap low (lt_trans low lt)
  constructor
  · intro k ge le
    rw [moved]
    rcases eq_or_lt_of_le le with rfl | before
    · rw [Equiv.swap_apply_left]
      exact Int.le_of_lt stop
    · rw [Equiv.swap_apply_of_ne_of_ne (by omega) (by omega)]
      by_cases old : k ≤ i
      · exact between.low k ge old
      · exact small k (by omega) before
  · intro k gt le
    rw [moved, Equiv.swap_apply_of_ne_of_ne (by omega) (by omega)]
    by_cases old : k ≤ j
    · exact large k gt old
    · exact between.high k (by omega) le
  · intro _
    right
    rw [moved, Equiv.swap_apply_right]
    exact behind

theorem split_spec (addressed : g.Addressed) (orders : Orders g.cmp) (pos : 0 < g.size) (inside : hi < g.cnt) (n : Nat) :
    ∀ {mem : Mem} {i j : Nat}, lo ≤ i → i < j → j ≤ hi → 2 * hi + 3 ≤ n + lo + i → g.Between lo hi mem₀ mem i j →
    wp (g.split (g.place lo) (g.place hi) n (g.place i) (g.place j)) (fun r mem' => ∃ p, r = .ok (g.place p) ∧ lo ≤ p ∧
      p ≤ hi ∧ g.Moved lo hi mem mem' ∧ g.elem mem' lo = g.elem mem lo ∧ g.Halves (g.elem mem lo) lo hi mem' p ∧
      (p = hi → mem' = mem₀ ∧ g.rel mem' lo hi < 0)) mem := by
  induction n with
  | zero => exact fun _ _ _ enough => absurd enough (by omega)
  | succ n ih =>
    intro mem i j low more upto enough between
    rw [split, if_pos ((place_lt pos).mpr more), wp_bind]
    refine wp_mono (scanUp_spec addressed pos inside n low (by omega) (by omega)) ?_
    rintro r mem ⟨rfl, i', rfl, from', upto', small, stop⟩
    rw [after_ok, wp_bind]
    refine wp_mono (scanDown_spec addressed pos inside n (i := j) (by omega) upto (by omega)) ?_
    rintro r mem ⟨rfl, j', rfl, low', down, large, stop'⟩
    rw [after_ok, wp_bind]
    have scanned : g.Scanned lo mem i j i' j' := ⟨small, large, stop'⟩
    by_cases lt : i' < j'
    · rw [if_pos ((place_lt pos).mpr lt)]
      refine wp_swap (by omega) (by omega) ?_
      rw [after_ok]
      -- the scan from below passes at least the element it starts from
      have first := between.low i low (le_refl _)
      have stop : 0 < g.rel mem lo i' := stop.resolve_left (by omega)
      have next : i < i' := lt_of_le_of_ne from' (by rintro rfl; omega)
      refine wp_mono (ih (by omega) lt (by omega) (by omega) (between.swapped scanned (by omega) lt stop)) ?_
      rintro r mem' ⟨p, rfl, ge, le, moved, pivot, halves, last⟩
      have first : g.elem (swapBytes mem (g.place i') (g.place j') g.size) lo = g.elem mem lo := by
        rw [elem_swap, Equiv.swap_apply_of_ne_of_ne (by omega) (by omega)]
      rw [first] at pivot halves
      exact ⟨p, rfl, ge, le, (moved_swap mem (by omega) upto' low' (by omega)).trans moved, pivot, halves, last⟩
    · rw [if_neg (mt (place_lt pos).mp lt), wp_pure, after_ok]
      obtain ⟨n, rfl⟩ : ∃ n', n = n' + 1 := ⟨n - 1, by omega⟩
      rw [split, if_neg (mt (place_lt pos).mp lt), wp_pure]
      obtain ⟨halves, last⟩ := between.crossed orders scanned low more upto down (not_lt.mp lt)
      exact ⟨j', rfl, low', by omega, Moved.refl, rfl, halves, last⟩

/- The recursion -/

section Recursion
variable {v : List Byte} {p : Nat}

section
variable (halves : g.Halves v lo hi mem p)
include halves

theorem Halves.swap (low : lo ≤ p) :
    g.Halves v lo hi (swapBytes mem (g.place lo) (g.place p) g.size) p := by
  constructor
  · intro k ge le
    rw [elem_swap]
    by_cases first : k = lo
    · rw [first, Equiv.swap_apply_left]
      exact halves.low p low (le_refl _)
    by_cases last : k = p
    · rw [last, Equiv.swap_apply_right]
      exact halves.low lo (le_refl _) low
    · rw [Equiv.swap_apply_of_ne_of_ne first last]
      exact halves.low k ge le
  · intro k gt le
    rw [elem_swap, Equiv.swap_apply_of_ne_of_ne (by omega) (by omega)]
    exact halves.high k gt le

theorem Halves.moved_low (moved : g.Moved lo p mem mem') :
    g.Halves v lo hi mem' p := by
  constructor
  · exact moved.forall (P := fun e => g.cmp e v ≤ 0) halves.low
  · intro k gt le
    rw [moved.elem_outside (.inr gt)]
    exact halves.high k gt le

theorem Halves.moved_high (moved : g.Moved (p + 1) hi mem mem') :
    g.Halves v lo hi mem' p := by
  constructor
  · intro k ge le
    rw [moved.elem_outside (.inl (Nat.lt_succ_of_le le))]
    exact halves.low k ge le
  · exact moved.forall (P := fun e => 0 ≤ g.cmp e v) halves.high

end

theorem Halves.sorted (orders : Orders g.cmp) (halves : g.Halves v lo hi mem p) (left : Sorted g.cmp (g.elem mem) lo p)
    (right : Sorted g.cmp (g.elem mem) (p + 1) hi) : Sorted g.cmp (g.elem mem) lo hi := by
  intro i j ge lt le
  by_cases before : j ≤ p
  · exact left i j ge lt before
  by_cases behind : p < i
  · exact right i j behind lt le
  · have small := halves.low i ge (not_lt.mp behind)
    have large := halves.high j (not_le.mp before) le
    exact orders.trans _ v _ small ((orders.swap _ _).mpr large)

theorem short_iff (addressed : g.Addressed) (pos : 0 < g.size) (inside : hi < g.cnt) (roomy : g.size ≤ g.data ∨ 0 < hi) :
    g.place lo > g.back (g.place hi) ↔ hi ≤ lo := by
  cases hi with
  | succ hi =>
    rw [back_place addressed (by omega)]
    exact place_lt pos
  | zero =>
    have le : g.size ≤ g.data := roomy.resolve_right (lt_irrefl 0)
    have lt : g.data + g.size < g.m.word := by
      have least := Nat.mul_le_mul_right g.size inside
      rw [Nat.succ_mul, zero_mul, zero_add] at least
      exact Nat.lt_of_le_of_lt (Nat.add_le_add_left least _) addressed
    have start : g.place 0 = g.data := by rw [place, zero_mul, add_zero]
    have above : g.data ≤ g.place lo := Nat.le_add_right ..
    rw [back, start, show g.data + g.m.word - g.size = g.data - g.size + g.m.word by omega, Nat.add_mod_right,
      Nat.mod_eq_of_lt (by omega)]
    omega

def again (g : Args) (mem : Mem) (lo hi : Nat) : Nat := if g.rel mem lo hi < 0 then 1 else 0

theorem again_le (mem : Mem) (lo hi : Nat) : g.again mem lo hi ≤ 1 := by
  unfold again
  split <;> omega

theorem again_swap (orders : Orders g.cmp) (before : g.rel mem lo hi < 0) :
    g.again (swapBytes mem (g.place lo) (g.place hi) g.size) lo hi = 0 := by
  have swap := orders.swap (g.elem mem lo) (g.elem mem hi)
  have behind : ¬ g.rel (swapBytes mem (g.place lo) (g.place hi) g.size) lo hi < 0 := by
    rw [rel, elem_swap, elem_swap, Equiv.swap_apply_left, Equiv.swap_apply_right]
    unfold rel at before
    omega
  exact if_neg behind

theorem between_start (orders : Orders g.cmp) (mem : Mem) (lo hi : Nat) : g.Between lo hi mem mem lo hi := by
  refine ⟨fun k ge le => ?_, fun k gt le => absurd gt (by omega), fun _ => .inl ⟨rfl, .inl rfl⟩⟩
  obtain rfl : k = lo := by omega
  exact Int.le_of_eq (orders.refl _)

/-- The left part is shorter, or it is the whole range with the pivot at its end. -/
theorem again_left (orders : Orders g.cmp) (upto : p ≤ hi) (last : p = hi → mem' = mem ∧ g.rel mem' lo hi < 0) :
    2 * p + g.again (swapBytes mem' (g.place lo) (g.place p) g.size) lo p + 1 ≤ 2 * hi + g.again mem lo hi := by
  rcases eq_or_lt_of_le upto with rfl | shorter
  · obtain ⟨rfl, before⟩ := last rfl
    have first : g.again mem' lo p = 1 := if_pos before
    rw [again_swap orders before]
    omega
  · have one := again_le (g := g) (swapBytes mem' (g.place lo) (g.place p) g.size) lo p
    omega

theorem subSort_spec (addressed : g.Addressed) (orders : Orders g.cmp) (pos : 0 < g.size) (roomy : g.size ≤ g.data)
    (n : Nat) : ∀ {mem : Mem} {lo hi : Nat}, lo ≤ hi + 1 →
    hi < g.cnt → 2 * hi + g.again mem lo hi + 4 ≤ n + 2 * lo → wp (g.subSort n (g.place lo) (g.place hi))
      (fun r mem' => r = .ok () ∧ g.Moved lo hi mem mem' ∧ Sorted g.cmp (g.elem mem') lo hi) mem := by
  induction n with
  | zero => exact fun _ _ enough => absurd enough (by omega)
  | succ n ih =>
    intro mem lo hi le inside enough
    rw [subSort]
    by_cases short : hi ≤ lo
    · rw [if_pos ((short_iff addressed pos inside (.inl roomy)).mpr short), wp_pure]
      exact ⟨rfl, Moved.refl, fun i j ge lt le' => absurd lt (by omega)⟩
    rw [if_neg (mt (short_iff addressed pos inside (.inl roomy)).mp short), wp_bind]
    refine wp_mono (split_spec addressed orders pos inside n (le_refl _) (by omega) (le_refl _) (by omega)
      (between_start orders mem lo hi)) ?_
    rintro r mem₁ ⟨p, rfl, ge, upto, moved, pivot, halves, last⟩
    rw [after_ok, wp_bind]
    refine wp_swap (by omega) (by omega) ?_
    rw [after_ok, wp_bind]
    have fuel := again_left orders upto last
    refine wp_mono (ih (by omega) (by omega) (by omega)) ?_
    rintro r mem₂ ⟨rfl, moved', left⟩
    rw [after_ok, next_place addressed (by omega)]
    have one := again_le (g := g) mem₂ (p + 1) hi
    refine wp_mono (ih (by omega) inside (by omega)) ?_
    rintro r mem₃ ⟨rfl, moved'', right⟩
    refine ⟨rfl, ?_, ?_⟩
    · refine (moved.trans (moved_swap mem₁ (le_refl _) (by omega) ge upto)).trans ?_
      exact (moved'.mono (le_refl _) upto).trans (moved''.mono (by omega) (le_refl _))
    · refine (((halves.swap ge).moved_low moved').moved_high moved'').sorted orders ?_ right
      intro i j ge' lt le'
      rw [moved''.elem_outside (.inl (by omega)), moved''.elem_outside (.inl (by omega))]
      exact left i j ge' lt le'

/-- `end - size` wraps around in front of the first element: the call for that element alone makes itself again, and
    every call for a part that begins with it comes to that one. -/
theorem subSort_stuck (addressed : g.Addressed) (orders : Orders g.cmp) (pos : 0 < g.size) (wraps : g.data < g.size)
    (n : Nat) : ∀ {mem : Mem} {hi : Nat}, hi < g.cnt → (hi = 0 ∨ 2 * hi + g.again mem 0 hi + 4 ≤ n) →
      wp (g.subSort n (g.place 0) (g.place hi)) (fun r _ => r ≠ .ok ()) mem := by
  induction n with
  | zero => exact fun _ _ => nofun
  | succ n ih =>
    intro mem hi inside enough
    have long : ¬ g.place 0 > g.back (g.place hi) := by
      cases hi with
      | succ hi =>
        rw [back_place addressed (by omega), place]
        exact Nat.not_lt.mpr (Nat.add_le_add_left (Nat.mul_le_mul_right _ (Nat.zero_le _)) _)
      | zero =>
        have lt : g.place 0 + g.size < g.m.word := by
          have least := Nat.mul_le_mul_right g.size inside
          rw [Nat.succ_mul, zero_mul, zero_add] at least
          rw [place, zero_mul, add_zero]
          exact Nat.lt_of_le_of_lt (Nat.add_le_add_left least _) addressed
        have start : g.place 0 = g.data := by rw [place, zero_mul, add_zero]
        rw [back, Nat.mod_eq_of_lt (by omega)]
        omega
    rw [subSort, if_neg long, wp_bind]
    cases hi with
    | zero =>
      cases n with
      | zero => exact nofun
      | succ n =>
        rw [split, if_neg (lt_irrefl _), wp_pure, after_ok, wp_bind]
        refine wp_swap inside inside ?_
        rw [after_ok, wp_bind]
        refine wp_mono (ih inside (.inl rfl)) ?_
        rintro (_ | _ | _) mem' never
        · exact absurd rfl never
        · exact nofun
        · exact nofun
    | succ hi =>
      have enough := enough.resolve_left (Nat.succ_ne_zero hi)
      refine wp_mono (split_spec addressed orders pos inside n (le_refl _) (by omega) (le_refl _) (by omega)
        (between_start orders mem 0 (hi + 1))) ?_
      rintro r mem₁ ⟨p, rfl, ge, upto, -, -, -, last⟩
      rw [after_ok, wp_bind]
      refine wp_swap (by omega) (by omega) ?_
      rw [after_ok, wp_bind]
      have fuel := again_left orders upto last
      refine wp_mono (ih (by omega) (.inr (by omega))) ?_
      rintro (_ | _ | _) mem' never
      · exact absurd rfl never
      · exact nofun
      · exact nofun

end Recursion

theorem Moved.perm {cnt : Nat} (moved : g.Moved 0 (cnt - 1) mem mem') :
    ((range cnt).map (g.elem mem')).Perm ((range cnt).map (g.elem mem)) := by
  obtain ⟨⟨σ, fixed, elems⟩, -⟩ := moved
  have same : (range cnt).map (g.elem mem') = ((range cnt).map σ).map (g.elem mem) := by
    rw [map_map]
    exact map_congr_left fun k _ => elems k
  rw [same]
  refine List.Perm.map _ ((perm_ext_iff_of_nodup (List.Nodup.map σ.injective nodup_range)
    nodup_range).mpr ?_)
  intro k
  rw [mem_map, mem_range]
  have back := σ.apply_symm_apply k
  constructor
  · rintro ⟨l, lt, rfl⟩
    have lt := mem_range.mp lt
    by_contra out
    have eq := σ.injective (fixed (σ l) (by omega))
    omega
  · intro lt
    refine ⟨σ.symm k, mem_range.mpr ?_, back⟩
    by_contra out
    have eq := fixed (σ.symm k) (by omega)
    omega

/-- After enough rounds the array is sorted, and no pointer has been used outside it. -/
def Sorts (g : Args) (mem : Mem) : Prop := ∃ N, ∀ n, N ≤ n → wp (g.qsort n) (fun r mem' => r = .ok () ∧
  ((range g.cnt).map (g.elem mem')).Perm ((range g.cnt).map (g.elem mem)) ∧
  (∀ i j, i < j → j < g.cnt → g.cmp (g.elem mem' i) (g.elem mem' j) ≤ 0) ∧
  ∀ x, x < g.data ∨ g.data + g.cnt * g.size ≤ x → mem' x = mem x) mem

theorem qsort_eq (addressed : g.Addressed) (some : g.cnt ≠ 0) (n : Nat) :
    g.qsort n = g.subSort n (g.place 0) (g.place (g.cnt - 1)) := by
  have le := Nat.mul_le_mul_right g.size (Nat.sub_le g.cnt 1)
  rw [qsort, if_neg some, Nat.mod_eq_of_lt (Nat.lt_of_le_of_lt (Nat.add_le_add_left le _) addressed), place, place,
    Nat.zero_mul, Nat.add_zero]

theorem sorts_of_roomy (addressed : g.Addressed) (orders : Orders g.cmp) (pos : 0 < g.size) (mem : Mem)
    (roomy : g.cnt = 0 ∨ g.size ≤ g.data) : g.Sorts mem := by
  refine ⟨2 * g.cnt + 3, fun n enough => ?_⟩
  by_cases none : g.cnt = 0
  · rw [qsort, if_pos none, wp_pure]
    exact ⟨rfl, List.Perm.refl _, fun i j _ lt => absurd lt (by omega), fun _ _ => rfl⟩
  rw [qsort_eq addressed none]
  have one := again_le (g := g) mem 0 (g.cnt - 1)
  refine wp_mono (subSort_spec addressed orders pos (roomy.resolve_left none) n (by omega) (by omega) (by omega)) ?_
  rintro r mem' ⟨rfl, moved, sorted⟩
  refine ⟨rfl, moved.perm, fun i j lt lt' => sorted i j (Nat.zero_le _) lt (by omega), fun x out => ?_⟩
  refine moved.others x (out.imp (fun lt => Nat.lt_of_lt_of_le lt (Nat.le_add_right ..)) fun le => ?_)
  rw [show g.cnt - 1 + 1 = g.cnt by omega, place]
  exact le

theorem not_sorts (addressed : g.Addressed) (orders : Orders g.cmp) (pos : 0 < g.size) (mem : Mem)
    (some : g.cnt ≠ 0) (wraps : g.data < g.size) : ¬ g.Sorts mem := by
  rintro ⟨N, sorts⟩
  have one := again_le (g := g) mem 0 (g.cnt - 1)
  have done := sorts (N + 2 * g.cnt + 5) (by omega)
  rw [qsort_eq addressed some] at done
  exact subSort_stuck addressed orders pos wraps (N + 2 * g.cnt + 5) (by omega) (.inr (by omega)) done.1

/-- `qsort` sorts every array that is not empty if and only if an element is not larger than the array's address. -/
theorem qsort_sorts_iff (addressed : g.Addressed) (orders : Orders g.cmp) (pos : 0 < g.size) (mem : Mem) :
    g.Sorts mem ↔ g.cnt = 0 ∨ g.size ≤ g.data := by
  refine ⟨fun sorts => ?_, sorts_of_roomy addressed orders pos mem⟩
  by_contra wraps
  obtain ⟨some, wraps⟩ := not_or.mp wraps
  exact not_sorts addressed orders pos mem some (not_le.mp wraps) sorts

end Args

def byteArgs : Args := ⟨.i386, 0x50000000, 3, 1, byKey fun bytes => (bytes.headD 0).toNat⟩

theorem qsort_sorts_bytes : byteArgs.Sorts (blit zero 0x50000000 [7, 2, 5]) :=
  (Args.qsort_sorts_iff (g := byteArgs) (by decide : _ < 2 ^ 32) (byKey_orders _) (by decide) _).mpr (.inr (by decide))

/-- One element of 1.5 GB. -/
def largeArgs : Args := ⟨.i386, 0x50000000, 1, 0x60000000, byKey fun bytes => (bytes.headD 0).toNat⟩

theorem qsort_not_sorts : ¬ ∀ (g : Args) (mem : Mem), g.Addressed → Orders g.cmp → 0 < g.size → g.Sorts mem :=
  fun all => Args.not_sorts (g := largeArgs) (by decide : _ < 2 ^ 32) (byKey_orders _) (by decide) zero (by decide)
    (by decide) (all largeArgs zero (by decide : _ < 2 ^ 32) (byKey_orders _) (by decide))

end Qsort
