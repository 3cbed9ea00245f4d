import Newsys.Libc.Malloc

/- A program that uses its heap: the blocks that it was given and that it has not given back, with the sizes it asked
   for. It gives back only such blocks, and it writes only in them. -/
namespace Heap
open Bytes Cmds Cmd Kern Tiling Malloc List Nat Option

structure Block where
  ptr : Nat
  size : Nat
  deriving DecidableEq

structure State where
  mem : Mem
  live : List Block

inductive Op where
  | malloc (grant : Bool) (size : Nat)
  | free (ptr : Option Nat)
  | realloc (grant : Bool) (ptr : Option Nat) (size : Nat)
  | calloc (grant : Bool) (n k : Nat)
  | write (addr : Nat) (b : Byte)

variable (m : Machine)

def call : Op → Cmd Stop Mem (Option Nat)
  | .malloc grant size => malloc m grant size
  | .free ptr => do
    Malloc.free m ptr
    pure none
  | .realloc grant ptr size => realloc m grant ptr size
  | .calloc grant n k => calloc m grant n k
  | .write addr b => do
    modify fun mem => put mem addr b
    pure none

def give (size : Nat) : Option Nat → List Block → List Block
  | none, live => live
  | some p, live => ⟨p, size⟩ :: live

def drop : Option Nat → List Block → List Block
  | none, live => live
  | some p, live => live.eraseP (·.ptr == p)

def blocks : Op → Option Nat → List Block → List Block
  | .malloc _ size, p, live => give size p live
  | .free ptr, _, live => drop ptr live
  | .realloc _ ptr size, some p, live => ⟨p, size⟩ :: drop ptr live
  | .realloc _ _ _, none, live => live
  | .calloc _ n k, p, live => give (n * k) p live
  | .write _ _, _, live => live

def step (op : Op) : Cmd Stop State Unit := fun s =>
  match call m op s.mem with
  | (.ok p, mem) => (.ok (), ⟨mem, blocks op p s.live⟩)
  | (.err e, mem) => (.err e, ⟨mem, s.live⟩)
  | (.crash, mem) => (.crash, ⟨mem, s.live⟩)

def run (ops : List Op) : Cmd Stop State Unit := forEach ops (step m)

def start : State := ⟨init m, []⟩

/-- The program gives back what it owns and stays inside its blocks. -/
def Allowed (s : State) : Op → Prop
  | .malloc _ size => size < m.word
  | .free ptr => ∀ p, ptr = some p → ∃ b ∈ s.live, b.ptr = p
  | .realloc _ ptr size => size < m.word ∧ ∀ p, ptr = some p → ∃ b ∈ s.live, b.ptr = p
  | .calloc _ n k => n < m.word ∧ k < m.word
  | .write addr _ => ∃ b ∈ s.live, b.ptr ≤ addr ∧ addr < b.ptr + b.size

/-- The kernel has the pages that are asked for, rounding up does not lose the size, and the block that ends the small area
    with its header is not given back. -/
def Sound : Op → Prop
  | .malloc grant size => grant = true ∧ Fits m size
  | .free ptr => ptr ≠ some (firstPage m * 4096)
  | .realloc grant ptr size => grant = true ∧ Fits m size ∧ ptr ≠ some (firstPage m * 4096)
  | .calloc grant n k => grant = true ∧ (Fits m (n * k) ∨ m.word ≤ n * k)
  | .write _ _ => True

def Along (P : State → Op → Prop) (s : State) : List Op → Prop
  | [] => True
  | op :: ops => P s op ∧ ∀ t, step m op s = (.ok (), t) → Along P t ops

/- What a heap is -/

def small (b : Block) : Prop := b.ptr ≤ firstPage m * 4096

instance (b : Block) : Decidable (small m b) := inferInstanceAs (Decidable (_ ≤ _))

def chunk (b : Block) : Nat × Nat := (b.ptr - sizeofHead m, alignSize m b.size + sizeofHead m)

def pages (b : Block) : Nat × Nat := ((b.ptr - sizeT m) / 4096, (alignSize m b.size + sizeT m + 4095) / 4096)

def payload (b : Block) : Nat × Nat := (b.ptr, b.size)

def chunks (live : List Block) : List (Nat × Nat) := (live.filter (small m ·)).map (chunk m)

def pageRuns (live : List Block) : List (Nat × Nat) := (live.filter (¬ small m ·)).map (pages m)

/-- The chunks tile the small area and the last one is marked, `page_map` marks the pages of the large blocks, and the
    payloads are apart from each other, from the headers of all chunks, from the sizes of the large blocks and from
    `page_map`. -/
structure Sane (s : State) : Prop where
  tiled : ∃ ts, ts ≠ [] ∧ Tiled m s.mem (smallHeap m) ts ∧ area ts = smallBytes ∧
    ∀ b ∈ s.live, ∀ x t, (x, t) ∈ placed (smallHeap m) ts → Apart (payload b) (x, sizeofHead m)
  map : ∀ i, firstPage m ≤ i → i < pageHeapEnd m →
    (s.mem (pageMap m + (i - firstPage m)) ≠ 0 ↔ ∃ r ∈ pageRuns m s.live, Covers r i)
  payloads : s.live.Pairwise fun b c => Apart (payload b) (payload c)
  sizes : ∀ b ∈ s.live, ∀ c ∈ s.live, ¬ small m c → Apart (payload b) (c.ptr - sizeT m, sizeT m)
  above : ∀ b ∈ s.live, pageMap m + (pageHeapEnd m - firstPage m) ≤ b.ptr ∧ b.ptr + b.size ≤ pageHeapEnd m * 4096

/-- How a run may end: the heap is as it should be, or, on the amd64, the search for pages has left `page_map`. -/
def Safe (ops : List Op) : Prop :=
  match run m ops (start m) with
  | (.ok (), s) => Sane m s
  | (.err e, _) => e = .fault ∧ m = .amd64
  | (.crash, _) => False

section Blocks
variable {m : Machine} {b : Block} {live live' : List Block}

theorem chunks_cons_small (here : small m b) : chunks m (b :: live) = chunk m b :: chunks m live := by
  simp [chunks, here]

theorem chunks_cons_large (here : ¬ small m b) : chunks m (b :: live) = chunks m live := by
  simp [chunks, here]

theorem pageRuns_cons_small (here : small m b) : pageRuns m (b :: live) = pageRuns m live := by
  simp [pageRuns, here]

theorem pageRuns_cons_large (here : ¬ small m b) : pageRuns m (b :: live) = pages m b :: pageRuns m live := by
  simp [pageRuns, here]

theorem mem_chunks (mem : b ∈ live) (here : small m b) : chunk m b ∈ chunks m live :=
  mem_map_of_mem (mem_filter.2 ⟨mem, by simpa using here⟩)

theorem mem_pageRuns : r ∈ pageRuns m live ↔ ∃ b ∈ live, ¬ small m b ∧ pages m b = r := by
  simp [pageRuns, and_assoc]

theorem chunks_perm (perm : live.Perm live') : (chunks m live).Perm (chunks m live') := (perm.filter _).map _

theorem pageRuns_perm (perm : live.Perm live') : (pageRuns m live).Perm (pageRuns m live') := (perm.filter _).map _

theorem drop_perm {p : Nat} (owned : ∃ b ∈ live, b.ptr = p) : ∃ b, b.ptr = p ∧ live.Perm (b :: drop (some p) live) := by
  obtain ⟨c, inside, rfl⟩ := owned
  obtain ⟨b, before, behind, -, same, rfl, erased⟩ := exists_of_eraseP (p := (·.ptr == c.ptr)) inside (by simp)
  refine ⟨b, by simpa using same, ?_⟩
  rw [drop, erased]
  exact perm_middle

end Blocks

def Same (m : Machine) (live : List Block) (mem mem' : Mem) : Prop :=
  ∀ b ∈ live, ∀ k, b.ptr ≤ k → k < b.ptr + alignSize m b.size → mem' k = mem k

def SameMap (m : Machine) (mem mem' : Mem) : Prop :=
  ∀ i, firstPage m ≤ i → i < pageHeapEnd m → mem' (pageMap m + (i - firstPage m)) = mem (pageMap m + (i - firstPage m))

theorem Same.trans {m : Machine} {live : List Block} {a b c : Mem} (first : Same m live a b) (second : Same m live b c) :
    Same m live a c :=
  fun x inside k lo hi => (second x inside k lo hi).trans (first x inside k lo hi)

theorem roomy_congr {m : Machine} {mem mem' : Mem} {size : Nat} (same : SameMap m mem mem') : Roomy m mem' size ↔ Roomy m mem size := by
  unfold Roomy
  refine exists_congr fun start => exists_congr fun count => and_congr_right fun low => and_congr_right fun high => ?_
  refine and_congr_right fun _ => and_congr_right fun _ => forall_congr' fun i => ?_
  refine imp_congr_right fun lo => imp_congr_right fun hi => ?_
  rw [same i (le_trans low lo) (lt_of_lt_of_le hi high)]

structure Large (mem : Mem) (b : Block) : Prop where
  start : b.ptr = (pages m b).1 * 4096 + sizeT m
  low : firstPage m ≤ (pages m b).1
  high : (pages m b).1 + (pages m b).2 ≤ pageHeapEnd m
  mapped : (pages m b).1 + (pages m b).2 ≤ firstPage m + mapped
  size : getLE mem ((pages m b).1 * 4096) (sizeT m) = alignSize m b.size + sizeT m

/-- The invariant: the chunks that are in use are the small blocks of the program, and the pages that are marked those of
    its large blocks. -/
structure Held (mem : Mem) (live : List Block) (ts : List Tile) : Prop where
  tiled : Tiled m mem (smallHeap m) ts
  whole : area ts = smallBytes
  sized : Sized m ts
  fits : ∀ b ∈ live, Fits m b.size
  smalls : (chunks m live).Perm (used (smallHeap m) ts)
  larges : ∀ b ∈ live, ¬ small m b → Large m mem b
  apart : (pageRuns m live).Pairwise Apart
  map : ∀ i, firstPage m ≤ i → i < pageHeapEnd m →
    (mem (pageMap m + (i - firstPage m)) ≠ 0 ↔ ∃ r ∈ pageRuns m live, Covers r i)

section Holding
variable {m : Machine} {mem mem' : Mem} {b c : Block} {live live' : List Block} {ts us : List Tile} (held : Held m mem live ts)

theorem Large.congr (large : Large m mem b) (same : ∀ k, (pages m b).1 * 4096 ≤ k → k < b.ptr → mem' k = mem k) :
    Large m mem' b := by
  refine ⟨large.start, large.low, large.high, large.mapped, ?_⟩
  rw [← large.size]
  apply getLE_congr
  intro k lo hi
  exact same k lo (by rw [large.start]; exact hi)

theorem Large.bounds (large : Large m mem b) :
    firstPage m * 4096 ≤ b.ptr - sizeT m ∧ b.ptr - sizeT m + sizeT m = b.ptr ∧
      b.ptr + alignSize m b.size ≤ ((pages m b).1 + (pages m b).2) * 4096 ∧ 0 < (pages m b).2 := by
  have start := large.start
  have low := large.low
  have positive := sizeT_pos m
  have count : (pages m b).2 = (alignSize m b.size + sizeT m + 4095) / 4096 := rfl
  omega

include held

theorem Held.perm (perm : live.Perm live') : Held m mem live' ts where
  tiled := held.tiled
  whole := held.whole
  sized := held.sized
  fits := fun b inside => held.fits b (perm.mem_iff.2 inside)
  smalls := (chunks_perm perm).symm.trans held.smalls
  larges := fun b inside => held.larges b (perm.mem_iff.2 inside)
  apart := ((pageRuns_perm perm).pairwise_iff Apart.symm).1 held.apart
  map := fun i lo hi => (held.map i lo hi).trans
    (exists_congr fun _ => and_congr_left fun _ => (pageRuns_perm perm).mem_iff)

theorem Held.placed (inside : b ∈ live) (here : small m b) :
    (b.ptr - sizeofHead m, ⟨alignSize m b.size + sizeofHead m, false⟩) ∈ placed (smallHeap m) ts :=
  mem_used.1 (held.smalls.mem_iff.1 (mem_chunks inside here))

theorem Held.small_bounds (inside : b ∈ live) (here : small m b) :
    smallHeap m ≤ b.ptr - sizeofHead m ∧ b.ptr - sizeofHead m + sizeofHead m = b.ptr ∧
      b.ptr + alignSize m b.size ≤ firstPage m * 4096 := by
  have bounds := placed_bounds (held.placed inside here)
  have positive : 0 < smallHeap m := by cases m <;> decide
  have top := small_end m
  rw [held.whole] at bounds
  dsimp only at bounds
  omega

theorem Held.head_apart (inside : b ∈ live) (head : (x, t) ∈ Tiling.placed (smallHeap m) ts) :
    Apart (b.ptr, alignSize m b.size) (x, sizeofHead m) := by
  have wide := held.sized t (mem_of_placed head)
  by_cases here : small m b
  · have bounds := held.small_bounds inside here
    simp only [Apart]
    rcases placed_apart (held.placed inside here) head with ⟨rfl, -⟩ | before | behind
    · omega
    · dsimp only at before
      omega
    · omega
  · have bounds := (held.larges b inside here).bounds
    have within := placed_bounds head
    rw [held.whole, small_end] at within
    exact .inr (by dsimp only; omega)

theorem Held.size_apart (inside : b ∈ live) (inside' : c ∈ live) (there : ¬ small m c) :
    Apart (b.ptr, alignSize m b.size) (c.ptr - sizeT m, sizeT m) := by
  have bounds' := (held.larges c inside' there).bounds
  by_cases here : small m b
  · have bounds := held.small_bounds inside here
    exact .inl (by dsimp only; omega)
  · have bounds := (held.larges b inside here).bounds
    by_cases same : b = c
    · subst same
      exact .inr (by dsimp only; omega)
    · have apart : Apart (pages m b) (pages m c) := apart_of_mem held.apart
        (mem_filter.2 ⟨inside, by simpa using here⟩) (mem_filter.2 ⟨inside', by simpa using there⟩) same
      have start := (held.larges b inside here).start
      have start' := (held.larges c inside' there).start
      simp only [Apart] at apart ⊢
      omega

theorem Held.above (inside : b ∈ live) : pageMap m + (pageHeapEnd m - firstPage m) ≤ b.ptr ∧
    b.ptr + alignSize m b.size ≤ pageHeapEnd m * 4096 := by
  have map := map_end m
  have top := small_end m
  have last := heap_end m
  by_cases here : small m b
  · have bounds := held.small_bounds inside here
    omega
  · have bounds := (held.larges b inside here).bounds
    have high := (held.larges b inside here).high
    omega

theorem Held.rooms : live.Pairwise fun b c => Apart (b.ptr, alignSize m b.size) (c.ptr, alignSize m c.size) := by
  have parts := filter_append_perm (fun b => decide (small m b)) live
  apply (parts.pairwise_iff Apart.symm).1
  rw [pairwise_append]
  refine ⟨?_, ?_, ?_⟩
  · have chunks := pairwise_map.1 ((held.smalls.pairwise_iff Apart.symm).2 (used_apart _ _))
    refine chunks.imp_of_mem ?_
    intro b c memB memC apart
    obtain ⟨inB, smallB⟩ := mem_filter.1 memB
    obtain ⟨inC, smallC⟩ := mem_filter.1 memC
    have boundsB := held.small_bounds inB (by simpa using smallB)
    have boundsC := held.small_bounds inC (by simpa using smallC)
    simp only [Apart, chunk] at apart ⊢
    omega
  · have runs : (live.filter fun b => !decide (small m b)).Pairwise fun b c => Apart (pages m b) (pages m c) := by
      have runs := pairwise_map.1 held.apart
      simpa using runs
    refine runs.imp_of_mem ?_
    intro b c memB memC apart
    obtain ⟨inB, largeB⟩ := mem_filter.1 memB
    obtain ⟨inC, largeC⟩ := mem_filter.1 memC
    have startB := (held.larges b inB (by simpa using largeB)).start
    have startC := (held.larges c inC (by simpa using largeC)).start
    have boundsB := (held.larges b inB (by simpa using largeB)).bounds
    have boundsC := (held.larges c inC (by simpa using largeC)).bounds
    simp only [Apart] at apart ⊢
    omega
  · intro b memB c memC
    obtain ⟨inB, smallB⟩ := mem_filter.1 memB
    obtain ⟨inC, largeC⟩ := mem_filter.1 memC
    have boundsB := held.small_bounds inB (by simpa using smallB)
    have boundsC := (held.larges c inC (by simpa using largeC)).bounds
    exact .inl (by dsimp only; omega)

theorem Held.sane : Sane m ⟨mem, live⟩ where
  tiled := by
    refine ⟨ts, ?_, held.tiled, held.whole, ?_⟩
    · rintro rfl
      exact absurd held.whole (by decide)
    · intro b inside x t head
      exact (held.head_apart inside head).shrink (alignSize_bounds (held.fits b inside)).1
  map := held.map
  payloads := by
    refine held.rooms.imp_of_mem ?_
    intro b c memB memC apart
    have first := apart.shrink (alignSize_bounds (held.fits b memB)).1
    exact (first.symm.shrink (alignSize_bounds (held.fits c memC)).1).symm
  sizes := by
    intro b memB c memC there
    exact (held.size_apart memB memC there).shrink (alignSize_bounds (held.fits b memB)).1
  above := by
    intro b inside
    have enough := (alignSize_bounds (held.fits b inside)).1
    have above := held.above inside
    exact ⟨above.1, by omega⟩

theorem Held.congr (heads : ∀ x t, (x, t) ∈ Tiling.placed (smallHeap m) ts → ∀ k, x ≤ k → k < x + sizeofHead m → mem' k = mem k)
    (sizes : ∀ b ∈ live, ¬ small m b → ∀ k, b.ptr - sizeT m ≤ k → k < b.ptr → mem' k = mem k)
    (map : ∀ k, pageMap m ≤ k → k < pageMap m + (pageHeapEnd m - firstPage m) → mem' k = mem k) : Held m mem' live ts where
  tiled := held.tiled.congr heads
  whole := held.whole
  sized := held.sized
  fits := held.fits
  smalls := held.smalls
  larges := by
    intro b inside here
    have large := held.larges b inside here
    apply large.congr
    intro k lo hi
    have start := large.start
    exact sizes b inside here k (by omega) hi
  apart := held.apart
  map := by
    intro i lo hi
    rw [map _ (le_add_right _ _) (by omega)]
    exact held.map i lo hi

theorem Held.written (inside : b ∈ live)
    (same : ∀ k, k < b.ptr ∨ b.ptr + alignSize m b.size ≤ k → mem' k = mem k) : Held m mem' live ts := by
  apply held.congr
  · intro x t head k lo hi
    have apart := held.head_apart inside head
    simp only [Apart] at apart
    exact same k (by omega)
  · intro c inside' there k lo hi
    have apart := held.size_apart inside inside' there
    have bounds := (held.larges c inside' there).bounds
    simp only [Apart] at apart
    exact same k (by omega)
  · intro k lo hi
    have above := held.above inside
    exact same k (by omega)

theorem Held.small_changed (tiled : Tiled m mem' (smallHeap m) us) (whole : area us = area ts) (sized : Sized m us)
    (fits : ∀ b ∈ live', Fits m b.size) (smalls : (chunks m live').Perm (used (smallHeap m) us))
    (runs : pageRuns m live' = pageRuns m live) (stay : ∀ b ∈ live', ¬ small m b → b ∈ live)
    (same : ∀ k, k < smallHeap m ∨ firstPage m * 4096 ≤ k → mem' k = mem k) : Held m mem' live' us where
  tiled := tiled
  whole := whole.trans held.whole
  sized := sized
  fits := fits
  smalls := smalls
  larges := by
    intro b inside here
    have large := held.larges b (stay b inside here) here
    apply large.congr
    intro k lo hi
    have low := large.low
    exact same k (.inr (le_trans (mul_le_mul_right 4096 low) lo))
  apart := by
    rw [runs]
    exact held.apart
  map := by
    intro i lo hi
    have end' := map_end m
    rw [same _ (.inl (by omega)), runs]
    exact held.map i lo hi

variable {want : Nat}

theorem Held.outside {off : Option Nat} (searched : Searched m want mem (smallHeap m) ts mem' us off) :
    ∀ k, k < smallHeap m ∨ firstPage m * 4096 ≤ k → mem' k = mem k := by
  have same := searched.same
  rw [held.whole, small_end] at same
  exact same

theorem Held.searched_same {off : Option Nat}
    (searched : Searched m want mem (smallHeap m) ts mem' us off) : Same m live mem mem' := by
  intro b inside k lo hi
  by_cases here : small m b
  · have bounds := held.small_bounds inside here
    refine searched.inner _ _ (mem_used.2 (held.placed inside here)) k ?_ ?_
    · omega
    · omega
  · have bounds := (held.larges b inside here).bounds
    exact held.outside searched k (.inr (by omega))

theorem Held.missed (searched : Searched m want mem (smallHeap m) ts mem' us none)
    (wide : sizeofHead m ≤ want) : Held m mem' live us := by
  have serves := searched.serves
  refine held.small_changed searched.tiled (serves_area serves) (serves_sized serves wide held.sized) held.fits ?_ rfl
    (fun _ inside _ => inside) (held.outside searched)
  exact held.smalls.trans (serves_used serves _).symm

variable {size : Nat}

theorem Held.taken {k : Nat} (fits : Fits m size)
    (searched : Searched m (alignSize m size + sizeofHead m) mem (smallHeap m) ts mem' us (some k)) :
    Held m mem' (⟨smallHeap m + k + sizeofHead m, size⟩ :: live) us := by
  obtain ⟨serves, tiled, _, _, _⟩ := id searched
  have same := held.outside searched
  have perm := serves_used serves (smallHeap m)
  have whole := serves_area serves
  have mine : (smallHeap m + k, alignSize m size + sizeofHead m) ∈ used (smallHeap m) us :=
    perm.mem_iff.2 (mem_cons_self ..)
  have bounds := placed_bounds (mem_used.1 mine)
  have top := small_end m
  rw [whole, held.whole] at bounds
  have here : small m ⟨smallHeap m + k + sizeofHead m, size⟩ := by
    rw [small]
    dsimp only at bounds ⊢
    omega
  refine held.small_changed tiled whole (serves_sized serves (le_add_left _ _) held.sized) ?_ ?_
    (pageRuns_cons_small here) ?_ same
  · intro b inside
    rcases mem_cons.1 inside with rfl | inside
    · exact fits
    · exact held.fits b inside
  · rw [chunks_cons_small here, chunk, Nat.add_sub_cancel]
    exact (held.smalls.cons _).trans perm.symm
  · intro b inside there
    rcases mem_cons.1 inside with rfl | inside
    · exact absurd here there
    · exact inside

omit held in
theorem found_pages {start count : Nat} (found : Found m mem (alignSize m size) (.ok (some (start, count)))) :
    ¬ small m ⟨start * 4096 + sizeT m, size⟩ ∧ pages m ⟨start * 4096 + sizeT m, size⟩ = (start, count) ∧ 0 < count := by
  obtain ⟨low, _, _, long, _⟩ := found
  have positive := sizeT_pos m
  refine ⟨?_, ?_, by omega⟩
  · rw [small]
    dsimp only
    omega
  · rw [pages, long]
    dsimp only
    rw [Nat.add_sub_cancel, Nat.mul_div_cancel _ (by decide)]

theorem Held.paged {start count : Nat} (fits : Fits m size)
    (found : Found m mem (alignSize m size) (.ok (some (start, count)))) :
    Held m (setLE (setMap m mem start (start + count) 1) (start * 4096) (sizeT m) (alignSize m size + sizeT m))
      (⟨start * 4096 + sizeT m, size⟩ :: live) ts := by
  obtain ⟨here, mine, some'⟩ := found_pages found
  obtain ⟨low, high, inMap, long, zeros⟩ := found
  have positive := sizeT_pos m
  have end' := map_end m
  have top := small_end m
  generalize new : setLE (setMap m mem start (start + count) 1) (start * 4096) (sizeT m) (alignSize m size + sizeT m) = mem'
  have marked : ∀ i, firstPage m ≤ i → i < pageHeapEnd m → mem' (pageMap m + (i - firstPage m)) =
      if start ≤ i ∧ i < start + count then 1 else mem (pageMap m + (i - firstPage m)) := by
    intro i lo hi
    rw [← new, setLE_outside _ _ _ _ _ (.inl (by omega)), setMap, fill]
    by_cases covered : start ≤ i ∧ i < start + count
    · rw [if_pos (by omega), if_pos covered]
    · rw [if_neg (by omega), if_neg covered]
  have unmarked : ∀ k, pageMap m + (pageHeapEnd m - firstPage m) ≤ k → k < start * 4096 ∨ start * 4096 + sizeT m ≤ k →
      mem' k = mem k := by
    intro k lo out
    rw [← new, setLE_outside _ _ _ _ _ out, setMap, fill, if_neg (by omega)]
  -- the pages were not marked, so they are apart from those of the other blocks
  have alone : ∀ r ∈ pageRuns m live, Apart (start, count) r := by
    intro r inside
    obtain ⟨b, memB, there, rfl⟩ := mem_pageRuns.1 inside
    have full := (held.larges b memB there).bounds.2.2.2
    apply apart_of_disjoint some' full
    intro i covers covers'
    have free := zeros i covers.1 covers.2
    have lt : i < pageHeapEnd m := lt_of_lt_of_le covers.2 high
    exact (held.map i (le_trans low covers.1) lt).2 ⟨_, inside, covers'⟩ free
  constructor
  · exact held.tiled.above held.sized fun k lo hi => unmarked k (by omega) (by rw [held.whole] at hi; omega)
  · exact held.whole
  · exact held.sized
  · intro b inside
    rcases mem_cons.1 inside with rfl | inside
    · exact fits
    · exact held.fits b inside
  · rw [chunks_cons_large here]
    exact held.smalls
  · intro b inside there
    rcases mem_cons.1 inside with rfl | inside
    · have narrow : alignSize m size + sizeT m < m.word := by
        have all := pages_lt_word high
        have fill : alignSize m size + sizeT m ≤ (start + count) * 4096 := by omega
        exact lt_of_le_of_lt fill (lt_of_add_right_lt all)
      refine ⟨by rw [mine], by rw [mine]; exact low, by rw [mine]; exact high, by rw [mine]; exact inMap, ?_⟩
      rw [mine, ← new, getLE_setLE_same, ← word_eq, mod_eq_of_lt narrow]
    · have large := held.larges b inside there
      have apart := alone _ (mem_pageRuns.2 ⟨b, inside, there, rfl⟩)
      have bounds := large.bounds
      have startB := large.start
      have width : sizeT m ≤ 8 := by rcases sizeT_cases m with eq | eq <;> omega
      apply large.congr
      intro k lo hi
      simp only [Apart] at apart
      exact unmarked k (by omega) (by omega)
  · rw [pageRuns_cons_large here, mine]
    exact List.Pairwise.cons alone held.apart
  · intro i lo hi
    rw [marked i lo hi, pageRuns_cons_large here, mine]
    by_cases covered : start ≤ i ∧ i < start + count
    · rw [if_pos covered]
      exact ⟨fun _ => ⟨_, mem_cons_self .., covered⟩, fun _ => by decide⟩
    · rw [if_neg covered, held.map i lo hi]
      simp [Covers, covered]

end Holding

section Returning
variable {m : Machine} {mem mem' : Mem} {b c : Block} {live : List Block} {ts : List Tile}

theorem Held.off_pages (held : Held m mem (b :: live) ts) (there : ¬ small m b) (inside : c ∈ live)
    (lo : c.ptr ≤ k) (hi : k < c.ptr + alignSize m c.size) :
    k < (pages m b).1 * 4096 ∨ ((pages m b).1 + (pages m b).2) * 4096 ≤ k := by
  have mem := mem_cons_of_mem b inside
  have low := (held.larges b (mem_cons_self ..) there).low
  by_cases here : small m c
  · have bounds := held.small_bounds mem here
    exact .inl (by omega)
  · have apart := held.apart
    rw [pageRuns_cons_large there] at apart
    have away := rel_of_pairwise_cons apart (mem_pageRuns.2 ⟨c, inside, here, rfl⟩)
    have bounds := (held.larges c mem here).bounds
    have start := (held.larges c mem here).start
    simp only [Apart] at away
    omega

theorem Held.off_same (held : Held m mem (b :: live) ts) (there : ¬ small m b)
    (same : ∀ k, pageMap m + (pageHeapEnd m - firstPage m) ≤ k →
      k < (pages m b).1 * 4096 ∨ ((pages m b).1 + (pages m b).2) * 4096 ≤ k → mem₁ k = mem₀ k) : Same m live mem₀ mem₁ := by
  intro c inside k lo hi
  have above := held.above (mem_cons_of_mem b inside)
  exact same k (by omega) (held.off_pages there inside lo hi)

theorem Held.paged_same {size start count : Nat} (held : Held m mem live ts) (fits : Fits m size)
    (found : Found m mem (alignSize m size) (.ok (some (start, count)))) :
    Same m live mem
      (setLE (setMap m mem start (start + count) 1) (start * 4096) (sizeT m) (alignSize m size + sizeT m)) := by
  obtain ⟨large, run, some'⟩ := found_pages found
  refine (held.paged fits found).off_same large fun k lo out => ?_
  rw [run] at out
  dsimp only at out
  have high : start + count ≤ pageHeapEnd m := found.2.1
  have width : sizeT m ≤ 4096 := by cases m <;> decide
  have first : start * 4096 + 4096 ≤ (start + count) * 4096 := by
    rw [← Nat.succ_mul]
    exact Nat.mul_le_mul_right _ (Nat.add_le_add_left some' _)
  have outside : k < start * 4096 ∨ start * 4096 + sizeT m ≤ k :=
    out.imp_right (Nat.le_trans (Nat.le_trans (Nat.add_le_add_left width _) first))
  have past : pageMap m + (start + count - firstPage m) ≤ k :=
    Nat.le_trans (Nat.add_le_add_left (Nat.sub_le_sub_right high _) _) lo
  rw [setLE_outside _ _ _ _ _ outside, setMap, fill, if_neg fun inside => not_lt.2 past inside.2]

theorem Held.freed (held : Held m mem (b :: live) ts) (here : small m b) :
    ∃ us, Held m (Head.setFree m mem (b.ptr - sizeofHead m) 1) live us := by
  obtain ⟨pre, post, rfl, place⟩ := placed_split (held.placed (mem_cons_self ..) here)
  have bounds := placed_bounds (held.placed (mem_cons_self ..) here)
  rw [held.whole, small_end] at bounds
  dsimp only at bounds
  rw [place] at bounds ⊢
  generalize size : alignSize m b.size + sizeofHead m = n at *
  refine ⟨pre ++ ⟨n, true⟩ :: post, held.small_changed ?_ ?_ ?_ ?_ ?_ (pageRuns_cons_small here).symm ?_ ?_⟩
  · exact held.tiled.marked held.sized
  · simp
  · intro t inside
    rcases mem_append.1 inside with inside | inside
    · exact held.sized t (mem_append_left _ inside)
    · rcases mem_cons.1 inside with rfl | inside
      · exact held.sized ⟨n, false⟩ (mem_append_right _ (mem_cons_self ..))
      · exact held.sized t (mem_append_right _ (mem_cons_of_mem _ inside))
  · exact fun c inside => held.fits c (mem_cons_of_mem _ inside)
  · have perm := held.smalls.trans (used_release (smallHeap m) n pre post)
    rw [chunks_cons_small here, chunk, place, size] at perm
    exact perm.cons_inv
  · exact fun c inside _ => mem_cons_of_mem _ inside
  · intro k out
    exact setFree_outside (by omega)

theorem Held.unpaged (held : Held m mem (b :: live) ts) (here : ¬ small m b) :
    Held m (pgFree (setMap m mem (pages m b).1 ((pages m b).1 + (pages m b).2) 0) (pages m b).1
      ((pages m b).1 + (pages m b).2)) live ts := by
  have large := held.larges b (mem_cons_self ..) here
  have apart := held.apart
  rw [pageRuns_cons_large here] at apart
  have low := large.low
  have high := large.high
  have map := held.map
  rw [pageRuns_cons_large here] at map
  generalize run : pages m b = r at *
  obtain ⟨start, count⟩ := r
  dsimp only at low high ⊢
  have end' := map_end m
  have top := small_end m
  generalize new : pgFree (setMap m mem start (start + count) 0) start (start + count) = mem'
  have marked : ∀ i, firstPage m ≤ i → i < pageHeapEnd m → mem' (pageMap m + (i - firstPage m)) =
      if start ≤ i ∧ i < start + count then 0 else mem (pageMap m + (i - firstPage m)) := by
    intro i lo hi
    rw [← new, pgFree, fill, if_neg (by omega), setMap, fill]
    by_cases covered : start ≤ i ∧ i < start + count
    · rw [if_pos (by omega), if_pos covered]
    · rw [if_neg (by omega), if_neg covered]
  have unmarked : ∀ k, pageMap m + (pageHeapEnd m - firstPage m) ≤ k → k < start * 4096 ∨ (start + count) * 4096 ≤ k →
      mem' k = mem k := by
    intro k lo out
    rw [← new, pgFree, fill, if_neg (by omega), setMap, fill, if_neg (by omega)]
  constructor
  · exact held.tiled.above held.sized fun k lo hi => unmarked k (by omega) (by rw [held.whole] at hi; omega)
  · exact held.whole
  · exact held.sized
  · exact fun c inside => held.fits c (mem_cons_of_mem _ inside)
  · have smalls := held.smalls
    rw [chunks_cons_large here] at smalls
    exact smalls
  · intro c inside there
    have other := held.larges c (mem_cons_of_mem _ inside) there
    have away := rel_of_pairwise_cons apart (mem_pageRuns.2 ⟨c, inside, there, rfl⟩)
    have bounds := other.bounds
    have startC := other.start
    apply other.congr
    intro k lo hi
    simp only [Apart] at away
    exact unmarked k (by omega) (by omega)
  · exact apart.of_cons
  · intro i lo hi
    rw [marked i lo hi]
    by_cases covered : start ≤ i ∧ i < start + count
    · rw [if_pos covered]
      refine ⟨fun not => absurd rfl not, ?_⟩
      rintro ⟨r, inside, covers⟩
      exact absurd covers ((rel_of_pairwise_cons apart inside).not_covers covered)
    · rw [if_neg covered, map i lo hi]
      simp [Covers, covered]

end Returning

section Calls
variable {m : Machine} {mem : Mem} {b : Block} {live : List Block} {ts : List Tile}

def Given (m : Machine) (size : Nat) (live : List Block) : Res Stop (Option Nat) → Mem → Prop
  | .ok p, mem => ∃ ts, Held m mem (give size p live) ts
  | .err e, _ => e = .fault ∧ m = .amd64
  | .crash, _ => False

/-- The small area has a free chunk for the size, at the latest when the free neighbours are put together. -/
def Served (m : Machine) (ts : List Tile) (size : Nat) : Prop :=
  alignSize m size < 4092 ∧ ∃ t ∈ coalesce ts, t.free = true ∧
    (t.size = alignSize m size + sizeofHead m ∨ alignSize m size + sizeofHead m + sizeofHead m ≤ t.size)

/-- How `malloc` ends, whatever `_pg_alloc` answers. Where there is no block, the pages that were found have been refused
    and are marked, or the search has put free neighbours together. -/
def Answer (m : Machine) (grant : Bool) (size : Nat) (live rest : List Block) (ts : List Tile) (mem : Mem) :
    Res Stop (Option Nat) → Mem → Prop
  | .ok (some q), mem' => ∃ us, Held m mem' (⟨q, size⟩ :: rest) us ∧ Same m rest mem mem'
  | .ok none, mem' => grant = false ∧ Roomy m mem (alignSize m size) ∧ ¬ Served m ts size ∨
      ∃ us, Held m mem' live us ∧ Same m live mem mem' ∧ SameMap m mem mem' ∧ (us = ts ∨ us = coalesce ts ∧
        alignSize m size < 4092 ∧ ¬ Roomy m mem (alignSize m size) ∧ ¬ Served m ts size)
  | .err e, _ => e = .fault ∧ m = .amd64 ∧ ¬ Roomy m mem (alignSize m size) ∧ ¬ Served m ts size
  | .crash, _ => False

variable {size : Nat}

theorem pageMalloc_answer (grant : Bool) (held : Held m mem live ts) (fits : Fits m size) :
    wp (pageMalloc m grant (alignSize m size)) (fun r mem' => match r with
      | .ok (some q) => ∃ us, Held m mem' (⟨q, size⟩ :: live) us ∧ Same m live mem mem'
      | .ok none => grant = false ∧ Roomy m mem (alignSize m size) ∨ mem' = mem ∧ ¬ Roomy m mem (alignSize m size)
      | .err e => e = .fault ∧ m = .amd64 ∧ ¬ Roomy m mem (alignSize m size)
      | .crash => False) mem := by
  have room : alignSize m size + sizeT m < m.word := by
    have bounds := (alignSize_bounds fits).2.2
    have width : sizeT m ≤ 8 := by rcases sizeT_cases m with eq | eq <;> omega
    rw [Fits] at bounds
    generalize sizeT m = w at *
    omega
  have positive : 0 * 4096 < alignSize m size + sizeT m := by
    rw [zero_mul]
    exact Nat.add_pos_right _ (sizeT_pos m)
  have all : firstPage m + 0 + (pageHeapEnd m - firstPage m) = pageHeapEnd m := by
    have := (heap_end m).1
    omega
  rw [pageMalloc, wp_bind]
  have search : wp (findPages m (alignSize m size) (pageHeapEnd m - firstPage m) (firstPage m) 0)
      (fun r mem' => mem' = mem ∧ Found m mem (alignSize m size) r) mem :=
    findPages_found (le_refl _) all positive room fun i lo hi => absurd lo (by omega)
  have finds : wp (findPages m (alignSize m size) (pageHeapEnd m - firstPage m) (firstPage m) 0)
      (fun r _ => Roomy m mem (alignSize m size) → r ≠ .ok none ∧ r ≠ .err .fault) mem := by
    rw [wp]
    exact fun roomy => findPages_roomy roomy (fun _ _ _ low _ => low) all positive room
  refine wp_mono (wp_and search finds) fun r mem' post => ?_
  obtain ⟨⟨rfl, found⟩, finds⟩ := post
  rcases r with (_ | ⟨start, count⟩) | e | _
  · rw [after_ok]
    exact .inr ⟨rfl, fun roomy => (finds roomy).1 rfl⟩
  · rw [after_ok]
    simp only [wp_bind, wp_modify, after_ok]
    cases grant with
    | false => exact .inl ⟨rfl, found.roomy⟩
    | true =>
      rw [if_pos rfl, wp_bind, wp_modify, after_ok, wp_pure]
      exact ⟨ts, held.paged fits found, held.paged_same fits found⟩
  · obtain ⟨rfl, amd⟩ := found
    exact ⟨rfl, amd, fun roomy => (finds roomy).2 rfl⟩
  · exact found

theorem malloc_answer (grant : Bool) (held : Held m mem live ts) (fits : Fits m size) :
    wp (malloc m grant size) (Answer m grant size live live ts mem) mem := by
  simp only [malloc, wp_bind]
  by_cases few : alignSize m size < 4092
  · rw [if_pos few]
    refine wp_mono (smallMalloc_serves held.tiled held.sized held.whole) fun r mem' post => ?_
    obtain ⟨us, _ | k, rfl, searched⟩ := post
    · rw [after_ok, map_none]
      dsimp only
      have missed := held.missed searched (le_add_left _ _)
      have same := held.searched_same searched
      have map : SameMap m mem mem' := by
        intro i lo hi
        have end' := map_end m
        exact held.outside searched _ (.inl (by omega))
      obtain ⟨rfl, unfit⟩ := searched.missed rfl
      have unserved : ¬ Served m ts size := by
        rintro ⟨_, t, inside, free, fit⟩
        exact unfit t inside free fit
      refine wp_mono (pageMalloc_answer grant missed fits) fun r mem₂ post => ?_
      rw [roomy_congr map] at post
      rcases r with (_ | q) | e | _
      · rcases post with ⟨refused, roomy⟩ | ⟨rfl, full⟩
        · exact .inl ⟨refused, roomy, unserved⟩
        · exact .inr ⟨_, missed, same, map, .inr ⟨rfl, few, full, unserved⟩⟩
      · obtain ⟨us, held', same'⟩ := post
        exact ⟨us, held', same.trans same'⟩
      · obtain ⟨fault, amd, full⟩ := post
        exact ⟨fault, amd, full, unserved⟩
      · exact post
    · rw [after_ok, map_some, wp_pure]
      exact ⟨us, held.taken fits searched, held.searched_same searched⟩
  · rw [if_neg few, wp_pure, after_ok]
    dsimp only
    refine wp_mono (pageMalloc_answer grant held fits) fun r mem' post => ?_
    have unserved : ¬ Served m ts size := fun served => few served.1
    rcases r with (_ | q) | e | _
    · rcases post with ⟨refused, roomy⟩ | ⟨rfl, _⟩
      · exact .inl ⟨refused, roomy, unserved⟩
      · exact .inr ⟨ts, held, fun _ _ _ _ _ => rfl, fun _ _ _ => rfl, .inl rfl⟩
    · obtain ⟨us, post⟩ := post
      exact ⟨us, post⟩
    · obtain ⟨fault, amd, full⟩ := post
      exact ⟨fault, amd, full, unserved⟩
    · exact post

theorem isSmall_iff (ne : b.ptr ≠ firstPage m * 4096) : isSmall m b.ptr ↔ small m b := by
  rw [isSmall, small]
  omega

theorem Held.front (held : Held m mem (b :: live) ts) (here : small m b) :
    Head.magic mem (b.ptr - sizeofHead m) = mmagic ∧
      Head.size m mem (b.ptr - sizeofHead m) = alignSize m b.size + sizeofHead m := by
  have place := held.placed (mem_cons_self ..) here
  obtain ⟨us, header⟩ := held.tiled.header place
  exact ⟨header.magic, header.size⟩

theorem free_held (held : Held m mem (b :: live) ts) (ne : b.ptr ≠ firstPage m * 4096) :
    wp (Malloc.free m (some b.ptr)) (fun r mem' => r = .ok () ∧ Same m live mem mem' ∧ ∃ us, Held m mem' live us) mem := by
  rw [Malloc.free]
  by_cases here : small m b
  · rw [if_pos ((isSmall_iff ne).2 here), smallFree, wp_bind, wp_get, after_ok]
    dsimp only
    rw [if_neg (not_not_intro (held.front here).1), wp_modify]
    refine ⟨rfl, fun c inside k lo hi => ?_, held.freed here⟩
    have apart := held.head_apart (mem_cons_of_mem b inside) (held.placed (mem_cons_self ..) here)
    simp only [Apart] at apart
    exact setFree_outside (by omega)
  · have large := held.larges b (mem_cons_self ..) here
    have unpaged := held.unpaged here
    have first : (b.ptr - sizeT m) / 4096 = (pages m b).1 := rfl
    have place : b.ptr - sizeT m = (pages m b).1 * 4096 := by
      rw [large.start]
      exact Nat.add_sub_cancel ..
    have count : (alignSize m b.size + sizeT m + 4095) / 4096 = (pages m b).2 := rfl
    have high := large.high
    have low := large.low
    have inMap := large.mapped
    have last := (heap_end m).2.2
    have room : alignSize m b.size + sizeT m + 4095 < m.word := by
      have wide := pages_lt_word high
      have enough := large.bounds
      clear last
      generalize sizeT m = w at *
      omega
    have narrow : (pages m b).1 % 2 ^ 32 = (pages m b).1 := Nat.mod_eq_of_lt (by omega)
    have narrow' : ((pages m b).1 + (pages m b).2) % 2 ^ 32 = (pages m b).1 + (pages m b).2 := Nat.mod_eq_of_lt (by omega)
    rw [if_neg fun yes => here ((isSmall_iff ne).1 yes), pageFree, wp_bind, wp_get, after_ok]
    dsimp only
    rw [first, place, large.size, Nat.mod_eq_of_lt room, count, narrow, narrow', if_pos (.inr ⟨low, inMap⟩), wp_bind, wp_modify, after_ok, wp_modify]
    refine ⟨rfl, held.off_same here fun k lo out => ?_, ts, unpaged⟩
    have past : pageMap m + ((pages m b).1 + (pages m b).2 - firstPage m) ≤ k :=
      Nat.le_trans (Nat.add_le_add_left (Nat.sub_le_sub_right high _) _) lo
    have off : ¬ ((pages m b).1 * 4096 ≤ k ∧ k < ((pages m b).1 + (pages m b).2) * 4096) := fun inside =>
      out.elim (not_lt.2 inside.1) (not_le.2 inside.2)
    rw [pgFree, fill, if_neg off, setMap, fill, if_neg fun inside => not_lt.2 past inside.2]

theorem Held.oldSize (held : Held m mem (b :: live) ts) (ne : b.ptr ≠ firstPage m * 4096) :
    oldSize m mem b.ptr = alignSize m b.size := by
  have narrow : alignSize m b.size < m.word := by
    have bounds := (alignSize_bounds (held.fits b (mem_cons_self ..))).2.2
    rw [Fits] at bounds
    omega
  have wrap : ∀ n, (alignSize m b.size + n + m.word - n) % m.word = alignSize m b.size := by
    intro n
    rw [Nat.add_right_comm, Nat.add_sub_cancel, Nat.add_mod_right, Nat.mod_eq_of_lt narrow]
  rw [Malloc.oldSize]
  by_cases here : small m b
  · rw [if_pos ((isSmall_iff ne).2 here), (held.front here).2, wrap]
  · have large := held.larges b (mem_cons_self ..) here
    have place : b.ptr - sizeT m = (pages m b).1 * 4096 := by
      rw [large.start]
      exact Nat.add_sub_cancel ..
    rw [if_neg fun yes => here ((isSmall_iff ne).1 yes), place, large.size, wrap]

theorem Held.resized {p size' : Nat} (held : Held m mem (⟨p, size⟩ :: live) ts) (fits : Fits m size')
    (same : alignSize m size' = alignSize m size) : Held m mem (⟨p, size'⟩ :: live) ts := by
  have run : pages m ⟨p, size'⟩ = pages m ⟨p, size⟩ := by
    rw [pages, pages, same]
  have chunks' : chunks m (⟨p, size'⟩ :: live) = chunks m (⟨p, size⟩ :: live) := by
    by_cases here : small m ⟨p, size⟩
    · have here' : small m ⟨p, size'⟩ := here
      rw [chunks_cons_small here, chunks_cons_small here', chunk, chunk, same]
    · have here' : ¬ small m ⟨p, size'⟩ := here
      rw [chunks_cons_large here, chunks_cons_large here']
  have runs : pageRuns m (⟨p, size'⟩ :: live) = pageRuns m (⟨p, size⟩ :: live) := by
    by_cases here : small m ⟨p, size⟩
    · have here' : small m ⟨p, size'⟩ := here
      rw [pageRuns_cons_small here, pageRuns_cons_small here']
    · have here' : ¬ small m ⟨p, size'⟩ := here
      rw [pageRuns_cons_large here, pageRuns_cons_large here', run]
  constructor
  · exact held.tiled
  · exact held.whole
  · exact held.sized
  · intro b inside
    rcases mem_cons.1 inside with rfl | inside
    · exact fits
    · exact held.fits b (mem_cons_of_mem _ inside)
  · rw [chunks']
    exact held.smalls
  · intro b inside there
    rcases mem_cons.1 inside with rfl | inside
    · have large := held.larges ⟨p, size⟩ (mem_cons_self ..) there
      refine ⟨?_, ?_, ?_, ?_, ?_⟩ <;> rw [run]
      · exact large.start
      · exact large.low
      · exact large.high
      · exact large.mapped
      · rw [same]
        exact large.size
    · exact held.larges b (mem_cons_of_mem _ inside) there
  · rw [runs]
    exact held.apart
  · rw [runs]
    exact held.map

theorem Held.unique (held : Held m mem live ts) (memB : b ∈ live) {c : Block} (memC : c ∈ live) (same : b.ptr = c.ptr) :
    b = c := by
  by_contra differ
  by_cases here : small m b
  · have there : small m c := by
      rw [small, ← same]
      exact here
    have chunks := (held.smalls.pairwise_iff Apart.symm).2 (used_apart _ _)
    have apart : Apart (chunk m b) (chunk m c) := apart_of_mem chunks
      (mem_filter.2 ⟨memB, by simpa using here⟩) (mem_filter.2 ⟨memC, by simpa using there⟩) differ
    simp only [Apart, chunk, same, sizeofHead] at apart
    omega
  · have there : ¬ small m c := by
      rw [small, ← same]
      exact here
    have apart : Apart (pages m b) (pages m c) := apart_of_mem held.apart
      (mem_filter.2 ⟨memB, by simpa using here⟩) (mem_filter.2 ⟨memC, by simpa using there⟩) differ
    have first : (pages m b).1 = (pages m c).1 := by
      rw [pages, pages, same]
    have someB := (held.larges b memB here).bounds.2.2.2
    have someC := (held.larges c memC there).bounds.2.2.2
    simp only [Apart] at apart
    omega

theorem Held.written_same {mem' : Mem} (held : Held m mem (b :: live) ts)
    (same : ∀ k, k < b.ptr ∨ b.ptr + alignSize m b.size ≤ k → mem' k = mem k) : Same m live mem mem' := by
  intro c inside k lo hi
  have apart := rel_of_pairwise_cons held.rooms inside
  simp only [Apart] at apart
  exact same k (by omega)

theorem realloc_same (held : Held m mem live ts) (inside : b ∈ live)
    (ne : some b.ptr ≠ some (firstPage m * 4096)) (same : alignSize m b.size = alignSize m size) :
    wp (realloc m grant (some b.ptr) size) (fun r _ => r = .ok (some b.ptr)) mem := by
  obtain ⟨c, at', perm⟩ := drop_perm ⟨b, inside, rfl⟩
  obtain rfl : c = b := held.unique (perm.mem_iff.2 (mem_cons_self ..)) inside at'
  simp only [realloc, wp_bind, wp_get, after_ok, (held.perm perm).oldSize fun eq => ne (congrArg some eq)]
  rw [if_pos same, wp_pure]

def Moved (ptr : Option Nat) (size : Nat) (live : List Block) (mem mem' : Mem) (q : Nat) : Prop :=
  ∀ b ∈ live, ptr = some b.ptr → ∀ k, k < b.size → k < size → mem' (q + k) = mem (b.ptr + k)

theorem realloc_answer {ptr : Option Nat} (grant : Bool) (held : Held m mem live ts) (fits : Fits m size)
    (owned : ∀ p, ptr = some p → ∃ b ∈ live, b.ptr = p) (ne : ptr ≠ some (firstPage m * 4096)) :
    wp (realloc m grant ptr size) (fun r mem' => Answer m grant size live (drop ptr live) ts mem r mem' ∧
      ∀ q, r = .ok (some q) → Moved ptr size live mem mem' q) mem := by
  rcases ptr with _ | p
  · rw [realloc]
    refine wp_mono (malloc_answer grant held fits) fun r mem' post => ⟨post, fun q _ b _ is => ?_⟩
    cases is
  obtain ⟨b, rfl, perm⟩ := drop_perm (owned p rfl)
  have ne : b.ptr ≠ firstPage m * 4096 := fun eq => ne (by rw [eq])
  have mine := held.perm perm
  have only : ∀ c ∈ live, some b.ptr = some c.ptr → b = c := fun c inside is =>
    held.unique (perm.mem_iff.2 (mem_cons_self ..)) inside (some.inj is)
  generalize drop (some b.ptr) live = rest at perm mine ⊢
  have aligned := (alignSize_bounds fits).2.2
  have twice := alignSize_twice fits
  simp only [realloc, wp_bind, wp_get, after_ok, mine.oldSize ne]
  by_cases same : alignSize m b.size = alignSize m size
  · rw [if_pos same, wp_pure]
    refine ⟨⟨ts, mine.resized fits same.symm, fun _ _ _ _ _ => rfl⟩, ?_⟩
    rintro q ⟨⟩ c inside is k _ _
    rw [only c inside is]
  rw [if_neg same, wp_bind]
  refine wp_mono (malloc_answer grant mine aligned) fun r mem₁ post => ?_
  rcases r with (_ | q) | e | _
  · rw [after_ok]
    refine ⟨?_, fun q is => by cases is⟩
    simp only [Answer, Served, twice] at post
    rcases post with refused | ⟨us, held₁, same, rest⟩
    · exact .inl refused
    · exact .inr ⟨us, held₁.perm perm.symm, fun c inside => same c (perm.mem_iff.1 inside), rest⟩
  · obtain ⟨us, held₁, same₁⟩ := post
    rw [after_ok]
    simp only [wp_bind, wp_modify, after_ok]
    -- the copy stays in the new block, and then the old one is given back
    generalize count : (if alignSize m size < alignSize m b.size then alignSize m size else alignSize m b.size) = n
    have most : n ≤ alignSize m size := by
      rw [← count]
      split <;> omega
    have copy : ∀ k, k < q ∨ q + alignSize m (alignSize m size) ≤ k → blit mem₁ q (slice mem₁ b.ptr n) k = mem₁ k := by
      intro k out
      rw [twice] at out
      apply blit_outside
      rw [slice_length]
      omega
    have copied := held₁.written (mem_cons_self ..) copy
    have same₂ := held₁.written_same copy
    refine wp_mono (free_held (copied.perm (.swap ..)) ne) fun r mem₂ post => ?_
    obtain ⟨rfl, same₃, vs, held₂⟩ := post
    rw [after_ok, wp_pure]
    have rest₁ : Same m rest mem mem₁ := fun c inside => same₁ c (mem_cons_of_mem b inside)
    have rest₂ : Same m rest mem₁ (blit mem₁ q (slice mem₁ b.ptr n)) := fun c inside =>
      same₂ c (mem_cons_of_mem b inside)
    have rest₃ : Same m rest (blit mem₁ q (slice mem₁ b.ptr n)) mem₂ := fun c inside =>
      same₃ c (mem_cons_of_mem _ inside)
    refine ⟨⟨vs, held₂.resized fits twice.symm, (rest₁.trans rest₂).trans rest₃⟩, ?_⟩
    rintro q' ⟨⟩ c inside is k lt lt'
    obtain rfl := only c inside is
    have enough := (alignSize_bounds fits).1
    have enough' := (alignSize_bounds (mine.fits b (mem_cons_self ..))).1
    have short : k < n := by
      rw [← count]
      split <;> omega
    calc mem₂ (q + k) = blit mem₁ q (slice mem₁ b.ptr n) (q + k) :=
          same₃ ⟨q, alignSize m size⟩ (mem_cons_self ..) _ (le_add_right _ _) (by dsimp only; omega)
      _ = mem₁ (b.ptr + k) := by
          rw [blit_inside _ _ _ _ (Nat.le_add_right _ _) (by rw [slice_length]; omega), Nat.add_sub_cancel_left,
            slice_getD _ _ _ _ short]
      _ = mem (b.ptr + k) := same₁ b (mem_cons_self ..) _ (le_add_right _ _) (by omega)
  · refine ⟨?_, fun q is => by cases is⟩
    simp only [Answer, Served, twice] at post
    exact post
  · exact post.elim

theorem product_lost {n k : Nat} (narrow : n < m.word) (beyond : m.word ≤ n * k) :
    n ≠ 0 ∧ k ≠ 0 ∧ n * k % m.word / n ≠ k := by
  have positive : 0 < m.word := zero_lt_of_lt narrow
  refine ⟨?_, ?_, fun kept => ?_⟩
  · rintro rfl
    simp at beyond
    omega
  · rintro rfl
    simp at beyond
    omega
  · have back := mul_div_le (n * k % m.word) n
    rw [kept] at back
    exact absurd (Nat.le_trans beyond back) (Nat.not_le_of_lt (Nat.mod_lt _ positive))

theorem calloc_answer {n k : Nat} (grant : Bool) (held : Held m mem live ts) (fits : Fits m (n * k) ∨ m.word ≤ n * k)
    (narrow : n < m.word) : wp (calloc m grant n k) (Answer m grant (n * k) live live ts mem) mem := by
  rw [calloc]
  by_cases lost : n ≠ 0 ∧ k ≠ 0 ∧ n * k % m.word / n ≠ k
  · rw [if_pos lost, wp_pure]
    exact .inr ⟨ts, held, fun _ _ _ _ _ => rfl, fun _ _ _ => rfl, .inl rfl⟩
  have whole : n * k < m.word := Nat.lt_of_not_le fun beyond => lost (product_lost narrow beyond)
  have fits : Fits m (n * k) := fits.resolve_right (Nat.not_le_of_lt whole)
  rw [if_neg lost, mod_eq_of_lt whole, wp_bind]
  refine wp_mono (malloc_answer grant held fits) fun r mem' post => ?_
  rcases r with (_ | p) | e | _
  · exact post
  · obtain ⟨us, held', same⟩ := post
    rw [after_ok, wp_bind, wp_modify, after_ok, wp_pure]
    have cleared : ∀ j, j < p ∨ p + alignSize m (n * k) ≤ j → fill mem' p (p + n * k) 0 j = mem' j := by
      intro j out
      have enough := (alignSize_bounds fits).1
      rw [fill, if_neg (by omega)]
    exact ⟨us, held'.written (mem_cons_self ..) cleared, same.trans (held'.written_same cleared)⟩
  · exact post
  · exact post

theorem Answer.given {mem' : Mem} {r : Res Stop (Option Nat)}
    (answer : Answer m true size live live ts mem r mem') : Given m size live r mem' := by
  rcases r with (_ | q) | e | _
  · rcases answer with ⟨refused, _⟩ | ⟨us, held', _⟩
    · cases refused
    · exact ⟨us, held'⟩
  · obtain ⟨us, held', _⟩ := answer
    exact ⟨us, held'⟩
  · exact ⟨answer.1, answer.2.1⟩
  · exact answer

variable {s : State}

theorem call_held {op : Op} (held : Held m s.mem s.live ts) (allowed : Allowed m s op) (sound : Sound m op) :
    wp (call m op) (fun r mem' => match r with
      | .ok p => ∃ us, Held m mem' (blocks op p s.live) us
      | .err e => e = .fault ∧ m = .amd64
      | .crash => False) s.mem := by
  cases op with
  | malloc grant size =>
    obtain ⟨rfl, fits⟩ := sound
    refine wp_mono (malloc_answer true held fits) fun r mem' answer => ?_
    have given := answer.given
    rcases r with p | e | _ <;> exact given
  | free ptr =>
    rw [call, wp_bind]
    rcases ptr with _ | p
    · exact ⟨ts, held⟩
    · obtain ⟨b, rfl, perm⟩ := drop_perm (allowed p rfl)
      refine wp_mono (free_held (held.perm perm) fun eq => sound (by rw [eq])) fun r mem' post => ?_
      obtain ⟨rfl, _, us, held'⟩ := post
      exact ⟨us, held'⟩
  | realloc grant ptr size =>
    obtain ⟨rfl, fits, ne⟩ := sound
    refine wp_mono (realloc_answer true held fits allowed.2 ne) fun r mem' post => ?_
    obtain ⟨answer, _⟩ := post
    rcases r with (_ | p) | e | _
    · rcases answer with ⟨refused, _⟩ | ⟨us, held', _⟩
      · cases refused
      · exact ⟨us, held'⟩
    · obtain ⟨us, held', _⟩ := answer
      exact ⟨us, held'⟩
    · exact ⟨answer.1, answer.2.1⟩
    · exact answer
  | calloc grant n k =>
    obtain ⟨rfl, fits⟩ := sound
    refine wp_mono (calloc_answer true held fits allowed.1) fun r mem' answer => ?_
    have given := answer.given
    rcases r with p | e | _ <;> exact given
  | write addr byte =>
    obtain ⟨b, inside, lo, hi⟩ := allowed
    rw [call, wp_bind, wp_modify, after_ok, wp_pure]
    refine ⟨ts, held.written inside fun k out => ?_⟩
    have enough := (alignSize_bounds (held.fits b inside)).1
    rw [put, if_neg (by omega)]

theorem step_held {t : State} {op : Op} {r : Res Stop Unit} (held : Held m s.mem s.live ts) (allowed : Allowed m s op)
    (sound : Sound m op) (eq : step m op s = (r, t)) :
    (r = .ok () ∧ ∃ us, Held m t.mem t.live us) ∨ (r = .err .fault ∧ m = .amd64) := by
  have post := call_held held allowed sound
  rw [wp] at post
  rw [step] at eq
  generalize call m op s.mem = result at post eq
  obtain ⟨p | e | _, mem'⟩ := result
  · cases eq
    exact .inl ⟨rfl, post⟩
  · obtain ⟨rfl, amd⟩ := post
    cases eq
    exact .inr ⟨rfl, amd⟩
  · exact post.elim

theorem run_held (held : Held m s.mem s.live ts) (allowed : Along m (Allowed m) s ops)
    (sound : ∀ op ∈ ops, Sound m op) : wp (run m ops) (fun r t => match r with
      | .ok () => ∃ us, Held m t.mem t.live us | .err e => e = .fault ∧ m = .amd64
      | .crash => False) s := by
  induction ops generalizing s ts with
  | nil => exact ⟨ts, held⟩
  | cons op ops ih =>
    obtain ⟨here, next⟩ := allowed
    rw [run, forEach, wp_bind, wp]
    rcases eq : step m op s with ⟨r, t⟩
    rcases step_held held here (sound op (mem_cons_self ..)) eq with ⟨rfl, us, held'⟩ | ⟨rfl, amd⟩
    · exact ih held' (next t eq) fun op inside => sound op (mem_cons_of_mem _ inside)
    · exact ⟨rfl, amd⟩

theorem start_held : Held m (start m).mem (start m).live [⟨smallBytes, true⟩] := by
  have first : smallBytes % m.word = smallBytes := by cases m <;> decide
  constructor
  · refine ⟨⟨?_, ?_, ?_, ?_⟩, trivial⟩
    · simp [start, init]
    · simp [start, init, first]
    · simp [start, init]
    · simp [start, init]
  · simp
  · intro t inside
    rw [mem_singleton.1 inside]
    cases m <;> decide
  · exact fun b inside => absurd inside (not_mem_nil)
  · rfl
  · exact fun b inside => absurd inside (not_mem_nil)
  · exact List.Pairwise.nil
  · intro i lo hi
    have end' := map_end m
    have below : pageMap m + (i - firstPage m) < smallHeap m := by omega
    have zero : (start m).mem (pageMap m + (i - firstPage m)) = 0 := by
      rw [start]
      dsimp only
      rw [init, setLast_outside (.inl below), setFree_outside (.inl below), setSize_outside (.inl below),
        setMagic_outside (m := m) (.inl below)]
      rfl
    exact ⟨fun not => absurd zero not, fun ⟨r, inside, _⟩ => absurd inside (not_mem_nil)⟩

end Calls

/-- The heap is as it should be in every state that calls lead to. -/
theorem heap_safe (ops : List Op) (allowed : Along m (Allowed m) (start m) ops) (sound : ∀ op ∈ ops, Sound m op) :
    Safe m ops := by
  have post := run_held start_held allowed sound
  rw [wp] at post
  rw [Safe]
  generalize run m ops (start m) = result at post
  obtain ⟨_ | e | _, s⟩ := result
  · obtain ⟨us, held⟩ := post
    exact held.sane
  · exact post
  · exact post

/-- A block of 100 bytes, the last of which is written and which is given back. -/
theorem heap_safe_hundred : Safe .i386 [.malloc true 100, .write (smallHeap .i386 + 115) 7, .free (some (smallHeap .i386 + 16))] := by
  have first : (step .i386 (.malloc true 100) (start .i386)).2.live = [⟨smallHeap .i386 + 16, 100⟩] := by decide +kernel
  apply heap_safe
  · have narrow : 100 < Machine.i386.word := by decide
    refine ⟨narrow, fun s eq => ⟨?_, fun t eq' => ⟨?_, fun _ _ => trivial⟩⟩⟩
    · rw [eq] at first
      refine ⟨⟨smallHeap .i386 + 16, 100⟩, ?_, ?_⟩
      · rw [first]
        exact mem_singleton_self _
      · decide +kernel
    · rw [eq] at first
      cases eq'
      rintro p ⟨⟩
      refine ⟨⟨smallHeap .i386 + 16, 100⟩, ?_, rfl⟩
      dsimp only [blocks]
      rw [first]
      exact mem_singleton_self _
  · intro op inside
    simp only [mem_cons, not_mem_nil, or_false] at inside
    rcases inside with rfl | rfl | rfl
    · exact ⟨rfl, by decide⟩
    · trivial
    · exact fun eq => absurd eq (by decide +kernel)

/-- Rounding up loses the size of the largest request, and what is asked for next is inside the block. -/
theorem heap_overlaps : Along .i386 (Allowed .i386) (start .i386) [.malloc true (2 ^ 32 - 1), .malloc true 1] ∧
    ¬ Safe .i386 [.malloc true (2 ^ 32 - 1), .malloc true 1] := by
  constructor
  · have largest : 2 ^ 32 - 1 < Machine.i386.word := by decide
    have one : 1 < Machine.i386.word := by decide
    exact ⟨largest, fun _ _ => ⟨one, fun _ _ => trivial⟩⟩
  · have ended : (run .i386 [.malloc true (2 ^ 32 - 1), .malloc true 1] (start .i386)).1 = .ok () := by decide +kernel
    have live : (run .i386 [.malloc true (2 ^ 32 - 1), .malloc true 1] (start .i386)).2.live =
        [⟨smallHeap .i386 + 32, 1⟩, ⟨smallHeap .i386 + 16, 2 ^ 32 - 1⟩] := by decide +kernel
    intro safe
    rw [Safe] at safe
    generalize run .i386 _ (start .i386) = result at safe ended live
    obtain ⟨r, s⟩ := result
    cases ended
    have payloads := safe.payloads
    rw [live] at payloads
    rcases rel_of_pairwise_cons payloads (mem_singleton_self _) with before | behind
    · exact absurd before (by decide +kernel)
    · exact absurd behind (by decide +kernel)

end Heap
