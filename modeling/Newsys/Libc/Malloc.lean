import Newsys.Kern.Machine
import Newsys.Lib.Bytes
import Newsys.Lib.Cmd
import Newsys.Lib.Tiling

/- The heap of a program (lib/stdlib/malloc.c): a small area of chunks that are linked by their sizes, and pages for what
   is larger. `grant` is the answer of `_pg_alloc` where `malloc` asks for pages. The pages that `_pg_free` takes read as
   zeros when they are allocated again. `errno` is left out. -/
namespace Malloc
open Bytes Cmds Cmd Kern Tiling List

/-- How a call ends when it does not return: in `__libc_panic` with one of the messages "heap corruption detected
    (small_malloc:0)", "(small_malloc:1)" and "(small_free)", or in an access to a page that is not there. -/
inductive Stop where
  | smallMalloc0
  | smallMalloc1
  | smallFree
  | fault
  deriving DecidableEq

section Layout
variable (m : Machine)

def sizeT : Machine → Nat
  | .i386 => 4
  | .amd64 => 8

def sizeofHead : Nat := 2 * sizeT m + 8

def pageHeap : Machine → Nat
  | .i386 => 0x80000
  | .amd64 => 0x100000

def pageHeapEnd : Machine → Nat
  | .i386 => 0xff800
  | .amd64 => 0x2000000

def mapPages : Nat := (pageHeapEnd m - pageHeap m + 4095) / 4096

def nrSmallPages : Nat := 256

def smallPage : Nat := pageHeap m + mapPages m + 1

def firstPage : Nat := smallPage m + nrSmallPages

def pageMap : Nat := pageHeap m * 4096

def smallHeap : Nat := smallPage m * 4096

def smallBytes : Nat := nrSmallPages * 4096

/-- The entries of `page_map` that are in the pages `__libc_malloc_init` allocates for it. -/
@[irreducible] def mapped : Nat := 4096 * 4096

def mmagic : Nat := 0x0ace3860

def alignSize (size : Nat) : Nat := (size + 15) % m.word / 16 * 16

def isSmall (p : Nat) : Prop := p / 4096 < firstPage m

instance (p : Nat) : Decidable (isSmall m p) := inferInstanceAs (Decidable (_ < _))

end Layout

/- The members of a `struct small_head` -/

namespace Head
variable (m : Machine) (mem : Mem) (p : Nat)

def magic : Nat := getLE mem p 4

def size : Nat := getLE mem (p + sizeT m) (sizeT m)

def free : Nat := getLE mem (p + 2 * sizeT m) 4

def last : Nat := getLE mem (p + (2 * sizeT m + 4)) 4

def setMagic : Mem := setLE mem p 4 mmagic

def setSize (v : Nat) : Mem := setLE mem (p + sizeT m) (sizeT m) v

def setFree (v : Nat) : Mem := setLE mem (p + 2 * sizeT m) 4 v

def setLast (v : Nat) : Mem := setLE mem (p + (2 * sizeT m + 4)) 4 v

end Head

variable (m : Machine)

def init : Mem := Head.setLast m (Head.setFree m (Head.setSize m (Head.setMagic zero (smallHeap m)) (smallHeap m) smallBytes) (smallHeap m) 1)
  (smallHeap m) 1

def merge : Nat → Nat → Cmd Stop Mem Unit
  | 0, _ => crash
  | fuel + 1, p => do
    let mem ← get
    if Head.last m mem p ≠ 0 then pure ()
    else
      let n := (p + Head.size m mem p) % m.word
      if Head.magic mem p ≠ mmagic ∨ Head.magic mem n ≠ mmagic then fail .smallMalloc1
      else if Head.free m mem p ≠ 0 ∧ Head.free m mem n ≠ 0 then do
        modify fun mem => Head.setSize m mem p (Head.size m mem p + Head.size m mem n)
        modify fun mem => Head.setLast m mem p (Head.last m mem n)
        merge fuel p
      else pure ()

/-- A chunk is cut in two: the first part is taken and the second one is free. -/
def split (mem : Mem) (p want : Nat) : Mem :=
  let n := (p + want) % m.word
  let mem := Head.setMagic mem n
  let mem := Head.setLast m mem n (Head.last m mem p)
  let mem := Head.setFree m mem n 1
  let mem := Head.setSize m mem n (Head.size m mem p - want)
  Head.setFree m (Head.setLast m (Head.setSize m mem p want) p 0) p 0

/-- The outer loop of `small_malloc`, with the header counted in the size. -/
def smallLoop (want : Nat) : Nat → Nat → Cmd Stop Mem (Option Nat)
  | 0, _ => crash
  | fuel + 1, p => do
    let mem ← get
    if Head.magic mem p ≠ mmagic then fail .smallMalloc0
    else do
      merge m (fuel + 1) p
      let mem ← get
      if Head.free m mem p ≠ 0 ∧ Head.size m mem p = want then do
        modify fun mem => Head.setFree m mem p 0
        pure (some (p + sizeofHead m))
      else if Head.free m mem p ≠ 0 ∧ want + sizeofHead m ≤ Head.size m mem p then do
        modify fun mem => split m mem p want
        pure (some (p + sizeofHead m))
      else if Head.last m mem p ≠ 0 then pure none
      else smallLoop want fuel ((p + Head.size m mem p) % m.word)

def rounds : Nat := smallBytes / sizeofHead m + 1

def smallMalloc (size : Nat) : Cmd Stop Mem (Option Nat) :=
  smallLoop m (size + sizeofHead m) (rounds m) (smallHeap m)

def smallFree (ptr : Nat) : Cmd Stop Mem Unit := do
  let mem ← get
  let h := ptr - sizeofHead m
  if Head.magic mem h ≠ mmagic then fail .smallFree else modify fun mem => Head.setFree m mem h 1

/-- The loop of `malloc` that looks for pages, with the number of pages that are left; the run of free pages and how long
    it is. -/
def findPages (size : Nat) : Nat → Nat → Nat → Cmd Stop Mem (Option (Nat × Nat))
  | 0, _, _ => pure none
  | left + 1, start, count => do
    let i := pageHeapEnd m - (left + 1)
    if mapped ≤ i - firstPage m then fail .fault
    else do
      let mem ← get
      if mem (pageMap m + (i - firstPage m)) = 0 then
        if (size + sizeT m) % m.word ≤ (count + 1) * 4096 % m.word then pure (some (start, count + 1))
        else findPages size left start (count + 1)
      else findPages size left (i + 1) 0

def setMap (mem : Mem) (start stop : Nat) (v : Byte) : Mem :=
  fill mem (pageMap m + (start - firstPage m)) (pageMap m + (stop - firstPage m)) v

def pgFree (mem : Mem) (start stop : Nat) : Mem := fill mem (start * 4096) (stop * 4096) 0

/-- `malloc` with the size that is aligned, where the small area has no place for it. -/
def pageMalloc (grant : Bool) (size : Nat) : Cmd Stop Mem (Option Nat) := do
  match ← findPages m size (pageHeapEnd m - firstPage m) (firstPage m) 0 with
  | none => pure none
  | some (start, count) => do
    modify fun mem => setMap m mem start (start + count) 1
    if grant then do
      modify fun mem => setLE mem (start * 4096) (sizeT m) (size + sizeT m)
      pure (some (start * 4096 + sizeT m))
    else pure none

def malloc (grant : Bool) (size : Nat) : Cmd Stop Mem (Option Nat) := do
  let size := alignSize m size
  match ← (if size < 4092 then smallMalloc m size else pure none) with
  | some p => pure (some p)
  | none => pageMalloc m grant size

def pageFree (ptr : Nat) : Cmd Stop Mem Unit := do
  let mem ← get
  let start := (ptr - sizeT m) / 4096 % 2 ^ 32
  let stop := (start + (getLE mem (ptr - sizeT m) (sizeT m) + 4095) % m.word / 4096) % 2 ^ 32
  if stop ≤ start ∨ firstPage m ≤ start ∧ stop ≤ firstPage m + mapped then do
    modify fun mem => setMap m mem start stop 0
    modify fun mem => pgFree mem start stop
  else fail .fault

def free (ptr : Option Nat) : Cmd Stop Mem Unit :=
  match ptr with
  | none => pure ()
  | some ptr => if isSmall m ptr then smallFree m ptr else pageFree m ptr

def oldSize (mem : Mem) (ptr : Nat) : Nat :=
  if isSmall m ptr then (Head.size m mem (ptr - sizeofHead m) + m.word - sizeofHead m) % m.word
  else (getLE mem (ptr - sizeT m) (sizeT m) + m.word - sizeT m) % m.word

def realloc (grant : Bool) (ptr : Option Nat) (size : Nat) : Cmd Stop Mem (Option Nat) :=
  match ptr with
  | none => malloc m grant size
  | some ptr => do
    let mem ← get
    let old := oldSize m mem ptr
    let size := alignSize m size
    if old = size then pure (some ptr)
    else
      match ← malloc m grant size with
      | none => pure none
      | some nptr => do
        modify fun mem => blit mem nptr (slice mem ptr (if size < old then size else old))
        free m (some ptr)
        pure (some nptr)

def calloc (grant : Bool) (n k : Nat) : Cmd Stop Mem (Option Nat) := do
  let size := n * k % m.word
  if n ≠ 0 ∧ k ≠ 0 ∧ size / n ≠ k then pure none
  else
    match ← malloc m grant size with
    | none => pure none
    | some ptr => do
      modify fun mem => fill mem ptr (ptr + size) 0
      pure (some ptr)

/- Where things are -/

theorem sizeT_cases : sizeT m = 4 ∨ sizeT m = 8 := by cases m <;> decide

theorem sizeT_pos : 0 < sizeT m := by cases m <;> decide

theorem word_eq : m.word = 256 ^ sizeT m := by cases m <;> rfl

theorem map_end : pageMap m + (pageHeapEnd m - firstPage m) ≤ smallHeap m := by cases m <;> decide

theorem small_end : smallHeap m + smallBytes = firstPage m * 4096 := by cases m <;> decide

theorem heap_end : firstPage m ≤ pageHeapEnd m ∧ pageHeapEnd m * 4096 + 2 ^ 16 < m.word ∧ pageHeapEnd m < 2 ^ 26 := by
  cases m <;> decide

variable {m} in
theorem pages_lt_word (le : n ≤ pageHeapEnd m) : n * 4096 + 4096 < m.word := by
  have := heap_end m
  omega

section Head
variable {m : Machine} {mem mem' : Mem} {p k v : Nat}

section
variable (out : k < p ∨ p + sizeofHead m ≤ k)
include out

theorem setMagic_outside : Head.setMagic mem p k = mem k := by
  rw [sizeofHead] at out
  exact setLE_outside _ _ _ _ _ (by omega)

theorem setSize_outside : Head.setSize m mem p v k = mem k := by
  rw [sizeofHead] at out
  exact setLE_outside _ _ _ _ _ (by omega)

theorem setFree_outside : Head.setFree m mem p v k = mem k := by
  rw [sizeofHead] at out
  exact setLE_outside _ _ _ _ _ (by omega)

theorem setLast_outside : Head.setLast m mem p v k = mem k := by
  rw [sizeofHead] at out
  exact setLE_outside _ _ _ _ _ (by omega)

end

@[simp] theorem magic_setMagic : Head.magic (Head.setMagic mem p) p = mmagic := by
  rw [Head.magic, Head.setMagic, getLE_setLE_same]
  rfl

@[simp] theorem magic_setSize : Head.magic (Head.setSize m mem p v) p = Head.magic mem p :=
  getLE_setLE_ne _ _ _ _ _ _ (.inl (Nat.add_le_add_left (by rcases sizeT_cases m with eq | eq <;> omega) p))

@[simp] theorem magic_setFree : Head.magic (Head.setFree m mem p v) p = Head.magic mem p :=
  getLE_setLE_ne _ _ _ _ _ _ (.inl (Nat.add_le_add_left (by rcases sizeT_cases m with eq | eq <;> omega) p))

@[simp] theorem magic_setLast : Head.magic (Head.setLast m mem p v) p = Head.magic mem p :=
  getLE_setLE_ne _ _ _ _ _ _ (.inl (Nat.add_le_add_left (by omega) p))

@[simp] theorem size_setSize : Head.size m (Head.setSize m mem p v) p = v % m.word := by
  rw [Head.size, Head.setSize, getLE_setLE_same, word_eq]

@[simp] theorem size_setFree : Head.size m (Head.setFree m mem p v) p = Head.size m mem p :=
  getLE_setLE_ne _ _ _ _ _ _ (.inl (by omega))

@[simp] theorem size_setLast : Head.size m (Head.setLast m mem p v) p = Head.size m mem p :=
  getLE_setLE_ne _ _ _ _ _ _ (.inl (by omega))

@[simp] theorem free_setSize : Head.free m (Head.setSize m mem p v) p = Head.free m mem p :=
  getLE_setLE_ne _ _ _ _ _ _ (.inr (by omega))

@[simp] theorem free_setFree : Head.free m (Head.setFree m mem p v) p = v % 2 ^ 32 := getLE_setLE_same _ _ _ _

@[simp] theorem free_setLast : Head.free m (Head.setLast m mem p v) p = Head.free m mem p :=
  getLE_setLE_ne _ _ _ _ _ _ (.inl (by omega))

@[simp] theorem last_setSize : Head.last m (Head.setSize m mem p v) p = Head.last m mem p :=
  getLE_setLE_ne _ _ _ _ _ _ (.inr (by omega))

@[simp] theorem last_setFree : Head.last m (Head.setFree m mem p v) p = Head.last m mem p :=
  getLE_setLE_ne _ _ _ _ _ _ (.inr (by omega))

@[simp] theorem last_setLast : Head.last m (Head.setLast m mem p v) p = v % 2 ^ 32 := getLE_setLE_same _ _ _ _

end Head

structure Header (mem : Mem) (p : Nat) (t : Tile) (ts : List Tile) : Prop where
  magic : Head.magic mem p = mmagic
  size : Head.size m mem p = t.size
  free : Head.free m mem p ≠ 0 ↔ t.free = true
  last : Head.last m mem p ≠ 0 ↔ ts = []

def Tiled (mem : Mem) : Nat → List Tile → Prop
  | _, [] => True
  | p, t :: ts => Header m mem p t ts ∧ Tiled mem (p + t.size) ts

def Sized (ts : List Tile) : Prop := ∀ t ∈ ts, sizeofHead m ≤ t.size

section Small
variable {m : Machine} {mem mem' : Mem} {p : Nat} {t : Tile} {ts us : List Tile}

theorem Header.congr (header : Header m mem p t ts) (same : ∀ k, p ≤ k → k < p + sizeofHead m → mem' k = mem k) :
    Header m mem' p t ts := by
  rw [sizeofHead] at same
  have magic : Head.magic mem' p = Head.magic mem p := getLE_congr fun k lo hi => same k (by omega) (by omega)
  have size : Head.size m mem' p = Head.size m mem p := getLE_congr fun k lo hi => same k (by omega) (by omega)
  have free : Head.free m mem' p = Head.free m mem p := getLE_congr fun k lo hi => same k (by omega) (by omega)
  have last : Head.last m mem' p = Head.last m mem p := getLE_congr fun k lo hi => same k (by omega) (by omega)
  exact ⟨magic.trans header.magic, size.trans header.size, by rw [free]; exact header.free, by rw [last]; exact header.last⟩

theorem Header.tail (header : Header m mem p t ts) (same : us = [] ↔ ts = []) : Header m mem p t us :=
  ⟨header.magic, header.size, header.free, header.last.trans same.symm⟩

theorem Sized.tail (sized : Sized m (t :: ts)) : Sized m ts := fun u mem => sized u (mem_cons_of_mem t mem)

section
variable (tiled : Tiled m mem p ts)
include tiled

theorem Tiled.congr
    (same : ∀ x t, (x, t) ∈ placed p ts → ∀ k, x ≤ k → k < x + sizeofHead m → mem' k = mem k) : Tiled m mem' p ts := by
  induction ts generalizing p with
  | nil => trivial
  | cons t ts ih =>
    obtain ⟨header, rest⟩ := tiled
    have here := same p t (mem_cons_self ..)
    exact ⟨header.congr here, ih rest fun x u inside => same x u (mem_cons_of_mem _ inside)⟩

theorem Tiled.above (sized : Sized m ts)
    (same : ∀ k, p ≤ k → k < p + area ts → mem' k = mem k) : Tiled m mem' p ts := by
  apply tiled.congr
  intro x t inside k lo hi
  have bounds := placed_bounds inside
  have large := sized t (mem_of_placed inside)
  exact same k (by omega) (by omega)

theorem Tiled.header (inside : (x, t) ∈ placed p ts) : ∃ us, Header m mem x t us := by
  induction ts generalizing p with
  | nil => cases inside
  | cons u ts ih =>
    rcases mem_cons.1 inside with eq | inside
    · cases eq
      exact ⟨ts, tiled.1⟩
    · exact ih tiled.2 inside

/-- What the loops of `small_malloc` may do to the chunks from `p` on: nothing outside the area changes. -/
structure Merged (m : Machine) (mem : Mem) (p : Nat) (ts : List Tile) (mem' : Mem) (us : List Tile) : Prop where
  tiled : Tiled m mem' p us
  sized : Sized m us
  area : area us = area ts
  length : us.length ≤ ts.length
  serves : ∀ {want vs off}, Serves (sizeofHead m) want us vs off → Serves (sizeofHead m) want ts vs off
  coalesced : coalesce us = coalesce ts
  same : ∀ k, k < p ∨ p + sizeofHead m ≤ k → mem' k = mem k

theorem Merged.refl (sized : Sized m ts) : Merged m mem p ts mem ts :=
  ⟨tiled, sized, rfl, le_refl _, id, rfl, fun _ _ => rfl⟩

end

variable {n k : Nat}

theorem joined_tiled (tiled : Tiled m mem p (⟨n, true⟩ :: ⟨k, true⟩ :: ts))
    (sized : Sized m (⟨n, true⟩ :: ⟨k, true⟩ :: ts)) (room : n + k < m.word) :
    Tiled m (Head.setLast m (Head.setSize m mem p (n + k)) p (Head.last m mem (p + n))) p (⟨n + k, true⟩ :: ts) := by
  obtain ⟨first, second, rest⟩ := tiled
  have large : sizeofHead m ≤ n := sized _ (mem_cons_self ..)
  have narrow : Head.last m mem (p + n) < 2 ^ 32 := getLE_lt mem _ 4
  constructor
  · constructor
    · simpa using first.magic
    · simpa using Nat.mod_eq_of_lt room
    · simpa using first.free
    · rw [last_setLast, Nat.mod_eq_of_lt narrow]
      exact second.last
  · rw [add_assoc] at rest
    apply rest.above sized.tail.tail
    intro j lo hi
    dsimp only at lo
    rw [setLast_outside (.inr (by omega)), setSize_outside (.inr (by omega))]

theorem merge_merged (more : ts.length < fuel) (tiled : Tiled m mem p (t :: ts)) (sized : Sized m (t :: ts))
    (room : p + area (t :: ts) < m.word) :
    wp (merge m fuel p) (fun r mem' => r = .ok () ∧ ∃ u us, Merged m mem p (t :: ts) mem' (u :: us) ∧
      ∀ v ∈ us.head?, ¬ (u.free = true ∧ v.free = true)) mem := by
  induction fuel generalizing mem t ts with
  | zero => exact absurd more (Nat.not_lt_zero _)
  | succ fuel ih =>
    have unchanged := Merged.refl tiled sized
    rw [merge, wp_bind, wp_get, after_ok]
    obtain ⟨header, rest⟩ := tiled
    by_cases alone : ts = []
    · rw [if_pos (header.last.2 alone), wp_pure]
      subst alone
      exact ⟨rfl, _, _, unchanged, fun v inside => by cases inside⟩
    obtain ⟨u, ts, rfl⟩ := exists_cons_of_ne_nil alone
    simp only [area_cons] at room
    have next : (p + Head.size m mem p) % m.word = p + t.size := by
      rw [header.size, Nat.mod_eq_of_lt (by omega)]
    rw [if_neg fun not => alone (header.last.1 not), next]
    have intact : ¬ (Head.magic mem p ≠ mmagic ∨ Head.magic mem (p + t.size) ≠ mmagic) := by
      simp [header.magic, rest.1.magic]
    have asked := and_congr header.free rest.1.free
    rw [if_neg intact]
    by_cases both : t.free = true ∧ u.free = true
    · rw [if_pos (asked.2 both)]
      obtain ⟨n, tFree⟩ := t
      obtain ⟨k, uFree⟩ := u
      obtain ⟨rfl, rfl⟩ : tFree = true ∧ uFree = true := both
      have elsewhere : Head.last m (Head.setSize m mem p (n + k)) (p + n) = Head.last m mem (p + n) := by
        have := sizeT_cases m
        have large : sizeofHead m ≤ n := sized _ (mem_cons_self ..)
        rw [sizeofHead] at large
        exact getLE_setLE_ne _ _ _ _ _ _ (.inr (by omega))
      have joined := joined_tiled ⟨header, rest⟩ sized (by dsimp only at room; omega)
      have sized' : Sized m (⟨n + k, true⟩ :: ts) := by
        intro v inside
        rcases mem_cons.1 inside with rfl | inside
        · exact Nat.le_add_right_of_le (sized ⟨n, true⟩ (mem_cons_self ..))
        · exact sized v (mem_cons_of_mem _ (mem_cons_of_mem _ inside))
      simp only [wp_bind, wp_modify, after_ok, header.size, rest.1.size, elsewhere]
      apply wp_mono (ih (Nat.lt_of_succ_lt_succ more) joined sized' (by simp only [area_cons]; dsimp only at room; omega))
      rintro r mem' ⟨rfl, u, us, merged, settled⟩
      refine ⟨rfl, u, us, ⟨merged.tiled, merged.sized, ?_, ?_, fun serves => .join (merged.serves serves), ?_, ?_⟩, settled⟩
      · rw [merged.area]
        simp only [area_cons]
        omega
      · exact Nat.le_succ_of_le merged.length
      · rw [merged.coalesced, coalesce_join]
      · intro j out
        rw [merged.same j out, setLast_outside out, setSize_outside out]
    · rw [if_neg fun yes => both (asked.1 yes), wp_pure]
      refine ⟨rfl, _, _, unchanged, ?_⟩
      rintro v ⟨⟩
      exact both

def freeHead (m : Machine) (mem : Mem) (p size last : Nat) : Mem :=
  Head.setSize m (Head.setFree m (Head.setLast m (Head.setMagic mem p) p last) p 1) p size

theorem freeHead_outside (out : k < p ∨ p + sizeofHead m ≤ k) : freeHead m mem p size last k = mem k := by
  rw [freeHead, setSize_outside out, setFree_outside out, setLast_outside out, setMagic_outside out]

variable {want : Nat}

theorem split_eq (header : Header m mem p ⟨n, true⟩ ts) (narrow : sizeofHead m ≤ want)
    (room : p + want < m.word) : split m mem p want =
      Head.setFree m (Head.setLast m (Head.setSize m (freeHead m mem (p + want) (n - want) (Head.last m mem p)) p want) p 0)
        p 0 := by
  have lastOld : Head.last m (Head.setMagic mem (p + want)) p = Head.last m mem p :=
    getLE_congr fun k lo hi => setMagic_outside (m := m) (.inl (by rw [sizeofHead] at narrow; omega))
  have sizeOld : ∀ last, Head.size m (Head.setFree m (Head.setLast m (Head.setMagic mem (p + want)) (p + want) last)
      (p + want) 1) p = n := by
    intro last
    have old : Head.size m mem p = n := header.size
    rw [← old]
    apply getLE_congr
    intro k lo hi
    have : k < p + want := by rw [sizeofHead] at narrow; omega
    rw [setFree_outside (.inl this), setLast_outside (.inl this), setMagic_outside (m := m) (.inl this)]
  simp only [split, Nat.mod_eq_of_lt room, lastOld, sizeOld, freeHead]

theorem split_outside (header : Header m mem p ⟨n, true⟩ ts) (cut : want + sizeofHead m ≤ n)
    (narrow : sizeofHead m ≤ want) (room : p + n < m.word) (out : k < p ∨ p + n ≤ k) : split m mem p want k = mem k := by
  rw [split_eq header narrow (by omega), setFree_outside (by omega), setLast_outside (by omega),
    setSize_outside (by omega), freeHead_outside (by omega)]

theorem split_tiled (tiled : Tiled m mem p (⟨n, true⟩ :: ts)) (sized : Sized m ts)
    (cut : want + sizeofHead m ≤ n) (narrow : sizeofHead m ≤ want) (room : p + n < m.word) :
    Tiled m (split m mem p want) p (⟨want, false⟩ :: ⟨n - want, true⟩ :: ts) := by
  obtain ⟨header, rest⟩ := tiled
  have narrowLast : Head.last m mem p < 2 ^ 32 := getLE_lt mem _ 4
  rw [split_eq header narrow (by omega)]
  generalize new : freeHead m mem (p + want) (n - want) (Head.last m mem p) = mem'
  have kept : ∀ k, k < p + want → mem' k = mem k := fun k lt => by rw [← new, freeHead_outside (.inl lt)]
  have first : Header m mem' p ⟨n, true⟩ ts := header.congr fun k lo hi => kept k (by omega)
  have second : Header m mem' (p + want) ⟨n - want, true⟩ ts := by
    rw [← new, freeHead]
    constructor
    · simp
    · simpa using Nat.mod_eq_of_lt (by omega)
    · simp
    · rw [last_setSize, last_setFree, last_setLast, Nat.mod_eq_of_lt narrowLast]
      exact header.last
  constructor
  · constructor
    · simpa using first.magic
    · simpa using Nat.mod_eq_of_lt (by omega)
    · simp
    · simp
  constructor
  · apply second.congr
    intro k lo hi
    rw [setFree_outside (by omega), setLast_outside (by omega), setSize_outside (by omega)]
  · have whole : p + want + (n - want) = p + n := by omega
    rw [whole]
    apply rest.above sized
    intro k lo hi
    dsimp only at lo
    rw [setFree_outside (by omega), setLast_outside (by omega), setSize_outside (by omega), ← new,
      freeHead_outside (by omega)]

theorem setFree_tiled (tiled : Tiled m mem p (⟨n, old⟩ :: ts)) (sized : Sized m (⟨n, old⟩ :: ts))
    (mark : v % 2 ^ 32 ≠ 0 ↔ new = true) : Tiled m (Head.setFree m mem p v) p (⟨n, new⟩ :: ts) := by
  obtain ⟨header, rest⟩ := tiled
  have large : sizeofHead m ≤ n := sized _ (mem_cons_self ..)
  constructor
  · constructor
    · simpa using header.magic
    · simpa using header.size
    · rw [free_setFree]
      exact mark
    · simpa using header.last
  · apply rest.above sized.tail
    intro k lo hi
    dsimp only at lo
    exact setFree_outside (.inr (by omega))

theorem Tiled.marked (tiled : Tiled m mem p (us ++ ⟨n, false⟩ :: ts)) (sized : Sized m (us ++ ⟨n, false⟩ :: ts)) :
    Tiled m (Head.setFree m mem (p + area us) 1) p (us ++ ⟨n, true⟩ :: ts) := by
  induction us generalizing p with
  | nil => exact setFree_tiled tiled sized (by simp)
  | cons u us ih =>
    obtain ⟨header, rest⟩ := tiled
    have large : sizeofHead m ≤ u.size := sized u (mem_cons_self ..)
    rw [area_cons, ← add_assoc]
    refine ⟨?_, ih rest sized.tail⟩
    have same : us ++ ⟨n, true⟩ :: ts = [] ↔ us ++ ⟨n, false⟩ :: ts = [] := by simp
    exact (header.congr fun k lo hi => setFree_outside (.inl (by omega))).tail same

/-- What a search of the chunks leaves: what is outside, and what is in the chunks in use. Where it is in vain, all free
    neighbours have been put together and none is of a size that would do. -/
structure Searched (m : Machine) (want : Nat) (mem : Mem) (p : Nat) (ts : List Tile) (mem' : Mem) (us : List Tile)
    (off : Option Nat) : Prop where
  serves : Serves (sizeofHead m) want ts us off
  tiled : Tiled m mem' p us
  same : ∀ k, k < p ∨ p + area ts ≤ k → mem' k = mem k
  inner : ∀ x n, (x, n) ∈ used p ts → ∀ k, x + sizeofHead m ≤ k → k < x + n → mem' k = mem k
  missed : off = none → us = coalesce ts ∧
    ∀ t ∈ us, t.free = true → ¬ (t.size = want ∨ want + sizeofHead m ≤ t.size)

theorem Merged.used (merged : Merged m mem p ts mem' us) (q : Nat) : (used q us).Perm (Tiling.used q ts) :=
  serves_used (merged.serves (serves_self (sizeofHead m) 0 us)) q

theorem smallLoop_serves (long : ts.length ≤ fuel) (ne : ts ≠ []) (narrow : sizeofHead m ≤ want)
    (tiled : Tiled m mem p ts) (sized : Sized m ts) (room : p + area ts < m.word) :
    wp (smallLoop m want fuel p) (fun r mem' => ∃ us off, r = .ok (off.map fun k => p + k + sizeofHead m) ∧
      Searched m want mem p ts mem' us off) mem := by
  induction fuel generalizing mem p ts with
  | zero => exact absurd (eq_nil_of_length_eq_zero (Nat.le_zero.1 long)) ne
  | succ fuel ih =>
    obtain ⟨t, ts, rfl⟩ := exists_cons_of_ne_nil ne
    rw [smallLoop, wp_bind, wp_get, after_ok, if_neg (not_not_intro tiled.1.magic), wp_bind]
    apply wp_mono (merge_merged long tiled sized room)
    rintro r mem₁ ⟨rfl, ⟨n, isFree⟩, us, merged, settled⟩
    have header := merged.tiled.1
    have large : sizeofHead m ≤ n := merged.sized _ (mem_cons_self ..)
    have stored : Head.size m mem₁ p = n := header.size
    have whole : area (t :: ts) = n + area us := by rw [← merged.area, area_cons]
    -- the payload of a chunk in use is behind the header at `p`
    have behind : ∀ x k, (x, k) ∈ used p (t :: ts) → ∀ j, x + sizeofHead m ≤ j → p + sizeofHead m ≤ j := by
      intro x k inside j lo
      have bounds := placed_bounds (mem_used.1 inside)
      omega
    have inner : ∀ x k, (x, k) ∈ used p (t :: ts) → ∀ j, x + sizeofHead m ≤ j → j < x + k → mem₁ j = mem j :=
      fun x k inside j lo _ => merged.same j (.inr (behind x k inside j lo))
    rw [whole] at room
    rw [after_ok, wp_bind, wp_get, after_ok, stored]
    by_cases fit : Head.free m mem₁ p ≠ 0 ∧ n = want
    · -- a chunk of the size
      rw [if_pos fit, wp_bind, wp_modify, after_ok, wp_pure]
      obtain ⟨marked, rfl⟩ := fit
      obtain rfl : isFree = true := header.free.1 marked
      refine ⟨_, some 0, rfl, merged.serves (.fit us), setFree_tiled merged.tiled merged.sized (by simp), ?_, ?_, ?_⟩
      · intro k out
        rw [whole] at out
        rw [setFree_outside (by omega), merged.same k (by omega)]
      · intro x k inside j lo hi
        rw [setFree_outside (.inr (behind x k inside j lo)), inner x k inside j lo hi]
      · exact fun none => by cases none
    rw [if_neg fit]
    by_cases cut : Head.free m mem₁ p ≠ 0 ∧ want + sizeofHead m ≤ n
    · -- a chunk that leaves room for another one
      rw [if_pos cut, wp_bind, wp_modify, after_ok, wp_pure]
      obtain ⟨marked, cut⟩ := cut
      obtain rfl : isFree = true := header.free.1 marked
      refine ⟨_, some 0, rfl, merged.serves (.split us cut),
        split_tiled merged.tiled merged.sized.tail cut narrow (by omega), ?_, ?_, ?_⟩
      · intro k out
        rw [whole] at out
        rw [split_outside header cut narrow (by omega) (by omega), merged.same k (by omega)]
      · intro x k inside j lo hi
        have bounds := placed_bounds (mem_used.1 ((merged.used p).mem_iff.2 inside))
        have place : p + n ≤ x := by
          have rest := (merged.used p).mem_iff.2 inside
          rw [Tiling.used, if_pos rfl] at rest
          exact (placed_bounds (mem_used.1 rest)).1
        rw [split_outside header cut narrow (by omega) (.inr (by omega)), inner x k inside j lo hi]
      · exact fun none => by cases none
    rw [if_neg cut]
    have unfit : isFree = true → ¬ (n = want ∨ want + sizeofHead m ≤ n) := by
      rintro free (same | more)
      · exact fit ⟨header.free.2 free, same⟩
      · exact cut ⟨header.free.2 free, more⟩
    by_cases alone : us = []
    · rw [if_pos (header.last.2 alone), wp_pure]
      subst alone
      refine ⟨_, none, rfl, merged.serves (.pass .stop), merged.tiled, fun k out => ?_, inner, fun _ => ?_⟩
      · rw [whole] at out
        exact merged.same k (by omega)
      · refine ⟨merged.coalesced, fun u inside => ?_⟩
        rw [mem_singleton.1 inside]
        exact unfit
    · -- the rest of the chunks, the header in front of them stays
      rw [if_neg fun not => alone (header.last.1 not), Nat.mod_eq_of_lt (by omega)]
      have shorter : us.length ≤ fuel := Nat.le_of_succ_le_succ (le_trans merged.length long)
      apply wp_mono (ih shorter alone merged.tiled.2 merged.sized.tail (by dsimp only; omega))
      rintro r mem₂ ⟨vs, off, rfl, serves, tiled', same, inner', missed⟩
      dsimp only at same tiled'
      refine ⟨_, _, ?_, merged.serves (.pass serves), ⟨?_, tiled'⟩, ?_, ?_, ?_⟩
      · cases off <;> simp [add_assoc]
      · exact (header.congr fun k lo hi => same k (.inl (by omega))).tail (serves_nil serves)
      · intro k out
        rw [whole] at out
        rw [same k (by omega), merged.same k (by omega)]
      · intro x k inside j lo hi
        rw [← inner x k inside j lo hi]
        have rest := (merged.used p).mem_iff.2 inside
        rw [Tiling.used] at rest
        split at rest
        · exact inner' x k rest j lo hi
        · rcases mem_cons.1 rest with here | rest
          · cases here
            exact same j (.inl hi)
          · exact inner' x k rest j lo hi
      · intro none
        obtain rfl : off = Option.none := by simpa using none
        obtain ⟨rfl, unfit'⟩ := missed rfl
        refine ⟨?_, fun u inside => ?_⟩
        · rw [← merged.coalesced, coalesce_cons settled]
        · rcases mem_cons.1 inside with rfl | inside
          · exact unfit
          · exact unfit' u inside

end Small

/- Sizes and pages -/

section Pages
variable {m : Machine} {mem : Mem}

/-- The sizes that `align_size` does not make smaller. -/
def Fits (m : Machine) (size : Nat) : Prop := size + 16 ≤ m.word

instance (size : Nat) : Decidable (Fits m size) := inferInstanceAs (Decidable (_ ≤ _))

variable {size : Nat}

theorem alignSize_bounds (fits : Fits m size) :
    size ≤ alignSize m size ∧ alignSize m size < size + 16 ∧ Fits m (alignSize m size) := by
  rw [Fits] at fits ⊢
  cases m <;> simp only [alignSize, Machine.word] at fits ⊢ <;> omega

theorem alignSize_twice (fits : Fits m size) : alignSize m (alignSize m size) = alignSize m size := by
  rw [Fits] at fits
  cases m <;> simp only [alignSize, Machine.word] at fits ⊢ <;> omega

theorem smallMalloc_serves (tiled : Tiled m mem (smallHeap m) ts) (sized : Sized m ts)
    (whole : area ts = smallBytes) :
    wp (smallMalloc m size) (fun r mem' => ∃ us off, r = .ok (off.map fun k => smallHeap m + k + sizeofHead m) ∧
      Searched m (size + sizeofHead m) mem (smallHeap m) ts mem' us off) mem := by
  have ne : ts ≠ [] := by
    rintro rfl
    exact absurd whole (by decide)
  have long : ts.length ≤ rounds m := by
    have each := length_mul_le_area sized
    rw [whole] at each
    exact Nat.le_succ_of_le ((Nat.le_div_iff_mul_le (Nat.succ_pos _)).2 each)
  have room : smallHeap m + area ts < m.word := by
    rw [whole, small_end]
    have := heap_end m
    omega
  exact smallLoop_serves long ne (Nat.le_add_left (sizeofHead m) size) tiled sized room

/-- What the search for pages ends in: a run of free pages that is long enough and no longer. On the amd64 it may read past
    the entries of `page_map` that are there. -/
def Found (m : Machine) (mem : Mem) (size : Nat) : Res Stop (Option (Nat × Nat)) → Prop
  | .ok none => True
  | .ok (some (start, count)) => firstPage m ≤ start ∧ start + count ≤ pageHeapEnd m ∧ start + count ≤ firstPage m + mapped ∧
      count = (size + sizeT m + 4095) / 4096 ∧
      ∀ i, start ≤ i → i < start + count → mem (pageMap m + (i - firstPage m)) = 0
  | .err e => e = .fault ∧ m = .amd64
  | .crash => False

variable {start count : Nat}

theorem findPages_found (low : firstPage m ≤ start)
    (all : start + count + left = pageHeapEnd m) (short : count * 4096 < size + sizeT m) (fits : size + sizeT m < m.word)
    (zeros : ∀ i, start ≤ i → i < start + count → mem (pageMap m + (i - firstPage m)) = 0) :
    wp (findPages m size left start count) (fun r mem' => mem' = mem ∧ Found m mem size r) mem := by
  induction left generalizing start count with
  | zero => exact ⟨rfl, trivial⟩
  | succ left ih =>
    have here : pageHeapEnd m - (left + 1) = start + count := by omega
    rw [findPages, here]
    by_cases beyond : mapped ≤ start + count - firstPage m
    · rw [if_pos beyond]
      refine ⟨rfl, rfl, ?_⟩
      cases m with
      | amd64 => rfl
      | i386 =>
        have all' : pageHeapEnd .i386 - firstPage .i386 < mapped := by decide +kernel
        exact absurd (Nat.le_trans beyond (Nat.sub_le_sub_right (by omega) _)) (Nat.not_le_of_lt all')
    rw [if_neg beyond, wp_bind, wp_get, after_ok]
    by_cases zero : mem (pageMap m + (start + count - firstPage m)) = 0
    · have longer : ∀ i, start ≤ i → i < start + (count + 1) → mem (pageMap m + (i - firstPage m)) = 0 := by
        intro i lo hi
        rcases Nat.lt_succ_iff_lt_or_eq.1 hi with lt | rfl
        · exact zeros i lo lt
        · exact zero
      have inside : count + 1 ≤ pageHeapEnd m := by omega
      have wide : (count + 1) * 4096 < m.word := Nat.lt_of_add_right_lt (pages_lt_word inside)
      rw [if_pos zero, Nat.mod_eq_of_lt fits, Nat.mod_eq_of_lt wide]
      clear fits wide
      by_cases enough : size + sizeT m ≤ (count + 1) * 4096
      · rw [if_pos enough]
        exact ⟨rfl, low, by omega, by omega, by omega, longer⟩
      · rw [if_neg enough]
        exact ih low (by omega) (Nat.lt_of_not_le enough) longer
    · rw [if_neg zero]
      have positive : 0 * 4096 < size + sizeT m := by
        rw [zero_mul]
        exact Nat.add_pos_right _ (sizeT_pos m)
      exact ih (by omega) (by omega) positive fun i lo hi => absurd lo (by omega)

/-- There are free pages in a row that are enough for the size, in the part of `page_map` that is there. -/
def Roomy (m : Machine) (mem : Mem) (size : Nat) : Prop :=
  ∃ start count, firstPage m ≤ start ∧ start + count ≤ pageHeapEnd m ∧ start + count ≤ firstPage m + mapped ∧
    size + sizeT m ≤ count * 4096 ∧ ∀ i, start ≤ i → i < start + count → mem (pageMap m + (i - firstPage m)) = 0

theorem Found.roomy (found : Found m mem size (.ok (some (start, count)))) : Roomy m mem size := by
  obtain ⟨low, high, inMap, enough, zeros⟩ := found
  exact ⟨start, count, low, high, inMap, by omega, zeros⟩

theorem findPages_roomy (roomy : Roomy m mem size)
    (above : ∀ first n, size + sizeT m ≤ n * 4096 → firstPage m ≤ first →
      (∀ i, first ≤ i → i < first + n → mem (pageMap m + (i - firstPage m)) = 0) → start ≤ first)
    (all : start + count + left = pageHeapEnd m) (short : count * 4096 < size + sizeT m)
    (fits : size + sizeT m < m.word) :
    wp (findPages m size left start count) (fun r _ => r ≠ .ok none ∧ r ≠ .err .fault) mem := by
  obtain ⟨first, n, low, high, inMap, enough, zeros⟩ := id roomy
  have later := above first n enough low zeros
  induction left generalizing start count with
  | zero => omega
  | succ left ih =>
    have here : pageHeapEnd m - (left + 1) = start + count := by omega
    have within : ¬ mapped ≤ start + count - firstPage m := by
      clear fits above
      omega
    rw [findPages, here, if_neg within, wp_bind, wp_get, after_ok]
    have wide : (count + 1) * 4096 < m.word := by
      have inside : count + 1 ≤ pageHeapEnd m := by omega
      exact Nat.lt_of_add_right_lt (pages_lt_word inside)
    rw [Nat.mod_eq_of_lt fits, Nat.mod_eq_of_lt wide]
    clear fits wide
    split
    · split
      · rw [wp_pure]
        exact ⟨by simp, by simp⟩
      · rename_i few
        exact ih above (by omega) (Nat.lt_of_not_le few) later
    · rename_i taken
      have past : ∀ first n, size + sizeT m ≤ n * 4096 → firstPage m ≤ first →
          (∀ i, first ≤ i → i < first + n → mem (pageMap m + (i - firstPage m)) = 0) → start + count + 1 ≤ first := by
        intro first n enough low zeros
        have later := above first n enough low zeros
        by_contra under
        exact taken (zeros _ (by omega) (by omega))
      have positive : 0 * 4096 < size + sizeT m := by
        rw [zero_mul]
        exact Nat.add_pos_right _ (sizeT_pos m)
      exact ih past (by omega) positive (past first n enough low zeros)

end Pages

/- From here on the loops are known by what is proved of them. -/
attribute [irreducible] smallLoop findPages

end Malloc
