import Newsys.Libc.Heap

/- What malloc, calloc and realloc (lib/stdlib/malloc.c) deliver: a block that holds what was asked for, or nothing, with
   the heap as it was. -/
namespace Deliver
open Bytes Cmds Cmd Kern Tiling Malloc Heap List

variable (m : Machine)

def request : Op → Option Nat
  | .malloc _ size => some size
  | .realloc _ _ size => some size
  | .calloc _ n k => some (n * k)
  | .free _ => none
  | .write _ _ => none

def moves : Op → Option Nat
  | .realloc _ ptr _ => ptr
  | _ => none

def Usable (mem : Mem) (p n : Nat) : Prop :=
  (∃ ts x k, Tiled m mem (smallHeap m) ts ∧ area ts = smallBytes ∧ (x, k) ∈ used (smallHeap m) ts ∧
    x + sizeofHead m ≤ p ∧ p + n ≤ x + k) ∨
  ∃ start count, firstPage m ≤ start ∧ start + count ≤ pageHeapEnd m ∧
    (∀ i, start ≤ i → i < start + count → mem (pageMap m + (i - firstPage m)) ≠ 0) ∧
    start * 4096 + sizeT m ≤ p ∧ p + n ≤ (start + count) * 4096

/-- A block for the program: it is apart from everything else in the heap, and what is moved to it is in it. -/
structure Gave (s : State) (op : Op) (n q : Nat) (mem : Mem) : Prop where
  sane : Sane m ⟨mem, blocks op (some q) s.live⟩
  block : ⟨q, n⟩ ∈ blocks op (some q) s.live
  usable : Usable m mem q n
  moved : Moved (moves op) n s.live s.mem mem q

/-- `page_map`, the list of the chunks and the blocks of the program are as they were. -/
structure Unchanged (s : State) (mem : Mem) : Prop where
  map : SameMap m s.mem mem
  chunks : ∃ ts, area ts = smallBytes ∧ Tiled m s.mem (smallHeap m) ts ∧ Tiled m mem (smallHeap m) ts
  blocks : ∀ b ∈ s.live, ∀ k < b.size, mem (b.ptr + k) = s.mem (b.ptr + k)

/-- A call returns a block, or nothing and leaves the heap alone. -/
def Delivers (s : State) (op : Op) : Prop :=
  ∀ n, request op = some n → match call m op s.mem with
    | (.ok (some q), mem) => Gave m s op n q mem
    | (.ok none, mem) => Unchanged m s mem
    | (.err _, _) => False
    | (.crash, _) => False

/-- There is a chunk for the size, or there are pages for it that `_pg_alloc` does not refuse. Otherwise the search comes to
    the end of `page_map`, which is not there as a whole on the amd64, and has put no neighbours together. -/
def Ready (grant : Bool) (mem : Mem) (size : Nat) : Prop :=
  ∀ ts, area ts = smallBytes → Tiled m mem (smallHeap m) ts →
    Served m ts size ∨ grant = true ∧ Roomy m mem (alignSize m size) ∨
      m = .i386 ∧ ¬ Roomy m mem (alignSize m size) ∧ (alignSize m size < 4092 → coalesce ts = ts)

/-- Rounding up does not lose the size, the heap is ready for it, and the block that ends the small area with its header is
    not given back. -/
def Met (s : State) : Op → Prop
  | .malloc grant size => Fits m size ∧ Ready m grant s.mem size
  | .free ptr => ptr ≠ some (firstPage m * 4096)
  | .realloc grant ptr size => Fits m size ∧ ptr ≠ some (firstPage m * 4096) ∧
    ((∃ b ∈ s.live, ptr = some b.ptr ∧ alignSize m b.size = alignSize m size) ∨ Ready m grant s.mem size)
  | .calloc grant n k => m.word ≤ n * k ∨ Fits m (n * k) ∧ Ready m grant s.mem (n * k)
  | .write _ _ => True

section Calls
variable {m : Machine} {mem mem' : Mem} {live : List Block} {ts : List Tile} {p n : Nat}

theorem held_usable (held : Held m mem (⟨p, n⟩ :: live) ts) : Usable m mem p n := by
  have inside : (⟨p, n⟩ : Block) ∈ (⟨p, n⟩ : Block) :: live := mem_cons_self ..
  have enough := (alignSize_bounds (held.fits _ inside)).1
  by_cases here : small m ⟨p, n⟩
  · have bounds := held.small_bounds inside here
    refine .inl ⟨ts, _, _, held.tiled, held.whole, mem_used.2 (held.placed inside here), ?_, ?_⟩
    · exact le_of_eq bounds.2.1
    · dsimp only at bounds enough ⊢
      omega
  · have large := held.larges _ inside here
    have bounds := large.bounds
    refine .inr ⟨_, _, large.low, large.high, ?_, le_of_eq large.start.symm, ?_⟩
    · intro i lo hi
      have run := mem_pageRuns.2 ⟨_, inside, here, rfl⟩
      exact (held.map i (le_trans large.low lo) (lt_of_lt_of_le hi large.high)).2 ⟨_, run, lo, hi⟩
    · exact Nat.le_trans (Nat.add_le_add_left enough _) bounds.2.2.1

theorem held_unchanged (held : Held m mem live ts) (held' : Held m mem' live ts) (same : Same m live mem mem')
    (map : SameMap m mem mem') : Unchanged m ⟨mem, live⟩ mem' := by
  refine ⟨map, ⟨ts, held.whole, held.tiled, held'.tiled⟩, fun b inside k less => ?_⟩
  have enough := (alignSize_bounds (held.fits b inside)).1
  exact same b inside _ (Nat.le_add_right _ _) (Nat.add_lt_add_left (Nat.lt_of_lt_of_le less enough) _)

theorem ready_answer (held : Held m mem live ts)
    (ready : Ready m grant mem n) (answer : Answer m grant n live rest ts mem r mem') :
    (r = .ok none ∧ Held m mem' live ts ∧ Unchanged m ⟨mem, live⟩ mem') ∨
      ∃ q us, r = .ok (some q) ∧ Held m mem' (⟨q, n⟩ :: rest) us := by
  have ready := ready ts held.whole held.tiled
  rcases r with (_ | q) | e | _
  · left
    rcases answer with ⟨refused, roomy, unserved⟩ | ⟨us, held', same, map, rfl | ⟨rfl, few, full, unserved⟩⟩
    · rcases ready with served | ⟨granted, _⟩ | ⟨_, full, _⟩
      · exact absurd served unserved
      · rw [refused] at granted
        cases granted
      · exact absurd roomy full
    · exact ⟨rfl, held', held_unchanged held held' same map⟩
    · rcases ready with served | ⟨_, roomy⟩ | ⟨_, _, settled⟩
      · exact absurd served unserved
      · exact absurd roomy full
      · rw [settled few] at held'
        exact ⟨rfl, held', held_unchanged held held' same map⟩
  · obtain ⟨us, held', _⟩ := answer
    exact .inr ⟨q, us, rfl, held'⟩
  · obtain ⟨_, rfl, full, unserved⟩ := answer
    rcases ready with served | ⟨_, roomy⟩ | ⟨amd, _, _⟩
    · exact absurd served unserved
    · exact absurd roomy full
    · cases amd
  · exact answer.elim

def Outcome (m : Machine) (s : State) (op : Op) (n : Nat) (r : Res Stop (Option Nat)) (mem' : Mem) : Prop :=
  (r = .ok none ∧ Unchanged m s mem' ∧ ∃ us, Held m mem' s.live us) ∨
    ∃ q us, r = .ok (some q) ∧ Moved (moves op) n s.live s.mem mem' q ∧ ∃ rest, blocks op (some q) s.live = ⟨q, n⟩ :: rest ∧
      Held m mem' (⟨q, n⟩ :: rest) us

theorem outcome_delivers (asks : request op = some n)
    (ends : wp (call m op) (Outcome m s op n) s.mem) : Delivers m s op := by
  intro k same
  rw [asks] at same
  cases same
  rw [wp] at ends
  generalize call m op s.mem = result at ends ⊢
  obtain ⟨r, mem'⟩ := result
  obtain ⟨rfl, unchanged, _⟩ | ⟨q, us, rfl, moved, rest, is, held⟩ := ends
  · exact unchanged
  · refine ⟨?_, ?_, held_usable held, moved⟩
    · rw [is]
      exact held.sane
    · rw [is]
      exact mem_cons_self ..

theorem call_outcome (held : Held m s.mem s.live ts) (allowed : Allowed m s op) (met : Met m s op)
    (asks : request op = some n) : wp (call m op) (Outcome m s op n) s.mem := by
  cases op with
  | malloc grant size =>
    cases asks
    refine wp_mono (malloc_answer grant held met.1) fun r mem' answer => ?_
    obtain ⟨rfl, held', unchanged⟩ | ⟨q, us, rfl, held'⟩ := ready_answer held met.2 answer
    · exact .inl ⟨rfl, unchanged, ts, held'⟩
    · refine .inr ⟨q, us, rfl, ?_, _, rfl, held'⟩
      exact fun b _ is => by cases is
  | realloc grant ptr size =>
    cases asks
    obtain ⟨fits, ne, met⟩ := met
    have answered := realloc_answer grant held fits allowed.2 ne
    rcases met with ⟨b, inside, rfl, same⟩ | ready
    · refine wp_mono (wp_and answered (realloc_same held inside ne same)) fun r mem' post => ?_
      obtain ⟨⟨answer, moved⟩, rfl⟩ := post
      obtain ⟨us, held', _⟩ := answer
      exact .inr ⟨_, us, rfl, moved _ rfl, _, rfl, held'⟩
    · refine wp_mono answered fun r mem' post => ?_
      obtain ⟨answer, moved⟩ := post
      obtain ⟨rfl, held', unchanged⟩ | ⟨q, us, rfl, held'⟩ := ready_answer held ready answer
      · exact .inl ⟨rfl, unchanged, ts, held'⟩
      · exact .inr ⟨q, us, rfl, moved q rfl, _, rfl, held'⟩
  | calloc grant k l =>
    cases asks
    rcases met with beyond | ⟨fits, ready⟩
    · rw [call, calloc, if_pos (product_lost allowed.1 beyond), wp_pure]
      refine .inl ⟨rfl, ?_, ts, held⟩
      exact held_unchanged held held (fun _ _ _ _ _ => rfl) fun _ _ _ => rfl
    · refine wp_mono (calloc_answer grant held (.inl fits) allowed.1) fun r mem' answer => ?_
      obtain ⟨rfl, held', unchanged⟩ | ⟨q, us, rfl, held'⟩ := ready_answer held ready answer
      · exact .inl ⟨rfl, unchanged, ts, held'⟩
      · refine .inr ⟨q, us, rfl, ?_, _, rfl, held'⟩
        exact fun b _ is => by cases is
  | free ptr => cases asks
  | write addr byte => cases asks

theorem step_keeps (held : Held m s.mem s.live ts) (allowed : Allowed m s op) (met : Met m s op)
    (eq : step m op s = (.ok (), t)) : ∃ us, Held m t.mem t.live us := by
  cases asks : request op with
  | some n =>
    have ends := call_outcome held allowed met asks
    rw [wp] at ends
    rw [step] at eq
    generalize call m op s.mem = result at ends eq
    obtain ⟨r, mem'⟩ := result
    obtain ⟨rfl, _, us, held'⟩ | ⟨q, us, rfl, _, rest, is, held'⟩ := ends
    · cases eq
      cases op with
      | free ptr => cases asks
      | write addr byte => cases asks
      | _ => exact ⟨us, held'⟩
    · cases eq
      rw [← is] at held'
      exact ⟨us, held'⟩
  | none =>
    have sound : Sound m op := by
      cases op with
      | free ptr => exact met
      | write addr byte => trivial
      | _ => cases asks
    obtain ⟨_, kept⟩ | ⟨fault, _⟩ := step_held held allowed sound eq
    · exact kept
    · cases fault

theorem run_delivers (held : Held m s.mem s.live ts) (allowed : Along m (Allowed m) s ops)
    (met : Along m (Met m) s ops) : Along m (Delivers m) s ops := by
  induction ops generalizing s ts with
  | nil => trivial
  | cons op ops ih =>
    obtain ⟨here, next⟩ := allowed
    obtain ⟨meets, next'⟩ := met
    refine ⟨fun n asks => ?_, fun t eq => ?_⟩
    · exact outcome_delivers asks (call_outcome held here meets asks) n asks
    · obtain ⟨us, held'⟩ := step_keeps held here meets eq
      exact ih held' (next t eq) (next' t eq)

end Calls

theorem calls_deliver (ops : List Op) (allowed : Along m (Allowed m) (start m) ops) (met : Along m (Met m) (start m) ops) :
    Along m (Delivers m) (start m) ops :=
  run_delivers start_held allowed met

/-- A block of 100 bytes, which grows by a byte in its place and is given back. -/
theorem calls_deliver_hundred : Along .i386 (Delivers .i386) (start .i386)
    [.malloc true 100, .realloc true (some (smallHeap .i386 + 16)) 101, .free (some (smallHeap .i386 + 16))] := by
  have first : (step .i386 (.malloc true 100) (start .i386)).2.live = [⟨smallHeap .i386 + 16, 100⟩] := by decide +kernel
  have narrow : 100 < Machine.i386.word ∧ 101 < Machine.i386.word := by decide
  have fits : Fits .i386 100 ∧ Fits .i386 101 := by decide
  have inside : some (smallHeap .i386 + 16) ≠ some (firstPage .i386 * 4096) := by decide +kernel
  have next : ∀ t u, step .i386 (.malloc true 100) (start .i386) = (.ok (), t) →
      step .i386 (.realloc true (some (smallHeap .i386 + 16)) 101) t = (.ok (), u) →
      u.live = [⟨smallHeap .i386 + 16, 101⟩] := by
    have second : (step .i386 (.realloc true (some (smallHeap .i386 + 16)) 101)
      (step .i386 (.malloc true 100) (start .i386)).2).2.live = [⟨smallHeap .i386 + 16, 101⟩] := by decide +kernel
    intro t u eq eq'
    obtain rfl : (step .i386 (.malloc true 100) (start .i386)).2 = t := congrArg Prod.snd eq
    exact (congrArg (·.2.live) eq').symm.trans second
  apply calls_deliver
  · refine ⟨narrow.1, fun t eq => ⟨⟨narrow.2, ?_⟩, fun u eq' => ⟨?_, fun _ _ => trivial⟩⟩⟩
    · rintro p ⟨⟩
      rw [eq] at first
      exact ⟨_, by rw [first]; exact mem_singleton_self _, rfl⟩
    · rintro p ⟨⟩
      exact ⟨_, by rw [next t u eq eq']; exact mem_singleton_self _, rfl⟩
  · refine ⟨⟨fits.1, fun ts _ _ => .inr (.inl ⟨rfl, ?_⟩)⟩, fun t eq => ⟨⟨fits.2, inside, .inl ?_⟩, fun _ _ =>
      ⟨inside, fun _ _ => trivial⟩⟩⟩
    · refine ⟨firstPage .i386, 1, le_refl _, by decide, by decide +kernel, by decide, fun i lo hi => ?_⟩
      obtain rfl := le_antisymm (Nat.le_of_lt_succ hi) lo
      decide +kernel
    · rw [eq] at first
      exact ⟨_, by rw [first]; exact mem_singleton_self _, rfl, by decide⟩

/-- The pages that `_pg_alloc` refuses stay marked. -/
theorem refused_marked : Along .i386 (Allowed .i386) (start .i386) [.malloc false 4096] ∧
    ¬ Along .i386 (Delivers .i386) (start .i386) [.malloc false 4096] := by
  constructor
  · have narrow : 4096 < Machine.i386.word := by decide
    exact ⟨narrow, fun _ _ => trivial⟩
  · rintro ⟨delivers, _⟩
    have ended : (call .i386 (.malloc false 4096) (start .i386).mem).1 = .ok none := by decide +kernel
    have marked : (call .i386 (.malloc false 4096) (start .i386).mem).2 (pageMap .i386) = 1 := by decide +kernel
    have clear : (start .i386).mem (pageMap .i386) = 0 := by decide +kernel
    have left := delivers 4096 rfl
    generalize call .i386 (.malloc false 4096) (start .i386).mem = result at left ended marked
    obtain ⟨r, mem⟩ := result
    cases ended
    dsimp only at marked
    have same := left.map (firstPage .i386) (le_refl _) (by decide)
    rw [Nat.sub_self, Nat.add_zero, clear] at same
    rw [same] at marked
    cases marked

end Deliver
