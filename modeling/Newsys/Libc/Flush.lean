import Mathlib.Algebra.Order.BigOperators.Group.List
import Newsys.Libc.Stream

/- Output through a buffer (lib/stdio/putget.c) to a descriptor whose `write` may take fewer bytes than it is offered, or
   fail. `errno` is left out, and so is what a stream is read with. -/
namespace Flush
open Bytes Stream List Option Nat

/-- An answer of `write`: it fails, or there is room for so many bytes, of which it takes what it is offered. -/
abbrev Answer := Option {n : Nat // 0 < n}

/-- What `write` has taken, and how often it was called. -/
structure Dev where
  taken : List Byte
  calls : Nat
  deriving DecidableEq

structure FILE where
  writable : Bool
  err : Bool
  lineBuf : Bool
  buf : Option (List Byte)
  bufPos : Nat
  bufWrite : Bool
  inside : ∀ b, buf = some b → bufPos ≤ b.length ∧ b ≠ []

def FILE.emptied (f : FILE) : FILE :=
  { f with bufPos := 0, inside := fun b some => ⟨zero_le _, (f.inside b some).2⟩ }

def writeLoop (w : Nat → Answer) (buf : List Byte) (resid : Nat) (d : Dev) : Bool × Dev :=
  if resid = 0 then (true, d)
  else
    match w d.calls with
    | none => (false, { d with calls := d.calls + 1 })
    | some n => writeLoop w buf (resid - n) ⟨d.taken ++ buf.take (min n resid), d.calls + 1⟩
termination_by resid
decreasing_by
  have := n.property
  omega

def fflush (w : Nat → Answer) (f : FILE) (d : Dev) : Int × FILE × Dev :=
  if f.writable = false then (eof, { f with err := true }, d)
  else if f.buf = none then (0, { f with bufWrite := false }, d)
  else if f.bufWrite ∧ f.bufPos ≠ 0 then
    let done := writeLoop w (f.buf.getD []) f.bufPos d
    if done.1 then (0, f.emptied, done.2) else (eof, { f.emptied with err := true }, done.2)
  else (0, f, d)

/-- The buffer of `__libc_putc_fbf`, or none where `malloc` has none. -/
def allocated (granted : Bool) (f : FILE) : Option FILE :=
  if f.buf = none then
    if granted then
      some { f with buf := some (replicate bufsiz 0), bufPos := 0
                    inside := fun b eq => ⟨zero_le _, by simp [← some.inj eq, bufsiz]⟩ }
    else none
  else some f

/-- `f->buf[f->buf_pos++] = c`; the position is inside, see `putc_stores`. -/
def store (f : FILE) (c : Byte) : FILE :=
  if lt : ∀ b, f.buf = some b → f.bufPos < b.length then
    { f with buf := f.buf.map (·.set f.bufPos c), bufPos := f.bufPos + 1
             inside := by
               intro b eq
               obtain ⟨b, some, rfl⟩ := map_eq_some_iff.mp eq
               have less := lt b some
               constructor
               · simp
                 omega
               · intro none
                 simp at none
                 simp [none] at less }
  else f

def putc (w : Nat → Answer) (granted : Bool) (f : FILE) (c : Byte) (d : Dev) : Int × FILE × Dev :=
  let f := if f.bufWrite then f else { f.emptied with bufWrite := true }
  match allocated granted f with
  | none => (eof, { f with err := true }, d)
  | some f =>
    let full := (f.buf.getD []).length = f.bufPos
    let made := if full then fflush w f d else (0, f, d)
    if made.1 ≠ 0 then (eof, made.2)
    else
      let f := store made.2.1 c
      if f.lineBuf ∧ c = 10 then fflush w f made.2.2 else (c.toNat, f, made.2.2)

def pending (f : FILE) : List Byte := if f.bufWrite then (f.buf.getD []).take f.bufPos else []

/-- A call that succeeds has handed over what waited, once and in order, and nothing waits any more. A call in which
    `write` fails returns `EOF` and marks the stream. -/
structure Flushes (w : Nat → Answer) (f : FILE) (d : Dev) : Prop where
  handed : (fflush w f d).1 = 0 → (fflush w f d).2.2.taken = d.taken ++ pending f ∧ pending (fflush w f d).2.1 = []
  failed : (∃ k, d.calls ≤ k ∧ k < (fflush w f d).2.2.calls ∧ w k = none) →
    (fflush w f d).1 = eof ∧ (fflush w f d).2.1.err = true

/- Short counts -/

/-- The counts with which `write` takes `resid` bytes from call `k` on, if it does not fail before. -/
def counts (w : Nat → Answer) (k resid : Nat) : Option (List Nat) :=
  if resid = 0 then some []
  else
    match w k with
    | none => none
    | some n => (counts w (k + 1) (resid - n)).map (min n resid :: ·)
termination_by resid
decreasing_by
  have := n.property
  omega

/-- Each part of the bytes is also what they begin with; the parts start at `start`. -/
def Repeats (data : List Byte) : Nat → List Nat → Prop
  | _, [] => True
  | start, n :: ns => (data.drop start).take n = data.take n ∧ Repeats data (start + n) ns

def Sound (w : Nat → Answer) (f : FILE) (d : Dev) : Prop :=
  f.writable = true → ∀ ns, counts w d.calls (pending f).length = some ns → Repeats (pending f) 0 ns

section Loop
variable {w : Nat → Answer} {buf data : List Byte} {resid : Nat} {d : Dev}

theorem writeLoop_eq (w : Nat → Answer) (buf : List Byte) (resid : Nat) (d : Dev) :
    match counts w d.calls resid with
    | some ns => writeLoop w buf resid d = (true, ⟨d.taken ++ ns.flatMap (buf.take ·), d.calls + ns.length⟩) ∧
        ∀ k, d.calls ≤ k → k < d.calls + ns.length → w k ≠ none
    | none => (writeLoop w buf resid d).1 = false := by
  fun_induction writeLoop w buf resid d with
  | case1 d =>
    unfold counts
    simp
    intro k low high
    omega
  | case2 resid d some failed =>
    unfold counts
    simp [some, failed]
  | case3 resid d some n taken ih =>
    unfold counts
    simp only [some, if_false, taken]
    cases rest : counts w (d.calls + 1) (resid - n) with
    | none =>
      rw [rest] at ih
      exact ih
    | some ns =>
      rw [rest] at ih
      obtain ⟨run, each⟩ := ih
      simp only [map_some]
      constructor
      · simp [run]
        omega
      · intro k low high
        by_cases first : k = d.calls
        · simp [first, taken]
        · simp only [length_cons] at high
          exact each k (by dsimp only; omega) (by dsimp only; omega)

theorem counts_sum {k : Nat} {ns : List Nat} (some : counts w k resid = some ns) : ns.sum = resid := by
  induction ns generalizing k resid with
  | nil =>
    unfold counts at some
    by_cases none : resid = 0
    · simp [none]
    · cases answer : w k with
      | none => simp [none, answer] at some
      | some n => simp [none, answer] at some
  | cons n ns ih =>
    unfold counts at some
    by_cases none : resid = 0
    · simp [none] at some
    · cases answer : w k with
      | none => simp [none, answer] at some
      | some a =>
        simp only [none, if_false, answer, map_eq_some_iff, cons.injEq] at some
        obtain ⟨rest, more, first, rfl⟩ := some
        have sum := ih more
        rw [sum_cons, sum]
        omega

theorem repeats_iff {ns : List Nat} {start : Nat} (all : start + ns.sum = data.length) :
    ns.flatMap (data.take ·) = data.drop start ↔ Repeats data start ns := by
  induction ns generalizing start with
  | nil =>
    have beyond : data.drop start = [] := drop_of_length_le (by simp at all; omega)
    simp [beyond, Repeats]
  | cons n ns ih =>
    simp only [sum_cons] at all
    have whole : data.drop start = (data.drop start).take n ++ data.drop (start + n) := by
      rw [← drop_drop, take_append_drop]
    have same : (data.take n).length = ((data.drop start).take n).length := by
      simp only [length_take, length_drop]
      omega
    rw [flatMap_cons, whole, Repeats, ← ih (by omega)]
    constructor
    · intro eq
      obtain ⟨first, rest⟩ := append_inj eq same
      exact ⟨first.symm, rest⟩
    · rintro ⟨first, rest⟩
      rw [first, rest]

end Loop

section Calls
variable (w : Nat → Answer) (f : FILE) (d : Dev)

theorem pending_length (writes : f.bufWrite = true) (buf : List Byte) (some : f.buf = some buf) :
    (pending f).length = f.bufPos := by
  have inside := (f.inside buf some).1
  simp [pending, writes, some]
  omega

theorem fflush_cases : (f.writable = false ∧ fflush w f d = (eof, { f with err := true }, d)) ∨
    (f.writable = true ∧ pending f = [] ∧ (fflush w f d).1 = 0 ∧ (fflush w f d).2.2 = d ∧
      pending (fflush w f d).2.1 = []) ∨
    (f.writable = true ∧ pending f ≠ [] ∧ ∃ buf, f.buf = some buf ∧ pending f = buf.take f.bufPos ∧
      f.bufPos = (pending f).length ∧
      (fflush w f d).1 = (if (writeLoop w buf f.bufPos d).1 then 0 else eof) ∧
      (fflush w f d).2.2 = (writeLoop w buf f.bufPos d).2 ∧ pending (fflush w f d).2.1 = [] ∧
      ((writeLoop w buf f.bufPos d).1 = false → (fflush w f d).2.1.err = true)) := by
  by_cases writable : f.writable = false
  · left
    simp [fflush, writable]
  have writable' : f.writable = true := by simpa using writable
  right
  cases some : f.buf with
  | none =>
    left
    simp [fflush, writable', some, pending]
  | some buf =>
    by_cases waits : f.bufWrite ∧ f.bufPos ≠ 0
    · right
      obtain ⟨writes, pos⟩ := waits
      have length := pending_length f writes buf some
      refine ⟨writable', ?_, buf, rfl, ?_, length.symm, ?_⟩
      · intro none
        rw [none] at length
        exact pos length.symm
      · simp [pending, writes, some]
      · cases done : (writeLoop w buf f.bufPos d).1 <;> simp [fflush, writable', some, writes, pos, done, pending,
          FILE.emptied]
    · left
      have none : pending f = [] := by
        by_cases writes : f.bufWrite
        · have zero : f.bufPos = 0 := by
            by_contra pos
            exact waits ⟨writes, pos⟩
          simp [pending, zero]
        · simp [pending, writes]
      simp [fflush, writable', some, waits, none]

variable {w : Nat → Answer} {f : FILE} {d : Dev}

theorem fflush_counted (writable : f.writable = true)
    (count : counts w d.calls (pending f).length = some ns) : (fflush w f d).1 = 0 ∧
      (fflush w f d).2.2.taken = d.taken ++ ns.flatMap ((pending f).take ·) ∧ pending (fflush w f d).2.1 = [] ∧
      ∀ k, d.calls ≤ k → k < (fflush w f d).2.2.calls → w k ≠ none := by
  rcases fflush_cases w f d with ⟨readOnly, _⟩ | ⟨_, none, zero, same, left⟩ |
    ⟨_, waits, buf, some, eq, length, ret, dev, left, _⟩
  · simp [readOnly] at writable
  · rw [none] at count ⊢
    unfold counts at count
    simp only [length_nil, if_true, some.injEq] at count
    subst count
    refine ⟨zero, by simp [same], left, ?_⟩
    intro k low high
    rw [same] at high
    omega
  · have loop := writeLoop_eq w buf f.bufPos d
    rw [← length] at count
    rw [count] at loop
    obtain ⟨run, each⟩ := loop
    have sum := counts_sum count
    -- a round never offers more than what waited
    have parts : ns.flatMap (buf.take ·) = ns.flatMap ((pending f).take ·) := by
      apply flatMap_congr
      intro n mem
      have le := le_sum_of_mem mem
      rw [eq, take_take, min_eq_left (by omega)]
    rw [run] at ret dev
    refine ⟨ret, ?_, left, ?_⟩
    · rw [dev, parts]
    · rw [dev]
      exact each

theorem fflush_uncounted (writable : f.writable = true) (short : counts w d.calls (pending f).length = none) :
    (fflush w f d).1 = eof ∧ (fflush w f d).2.1.err = true := by
  rcases fflush_cases w f d with ⟨readOnly, _⟩ | ⟨_, none, _⟩ | ⟨_, _, buf, _, _, length, ret, _, _, marked⟩
  · simp [readOnly] at writable
  · rw [none] at short
    unfold counts at short
    simp at short
  · have loop := writeLoop_eq w buf f.bufPos d
    rw [← length] at short
    rw [short] at loop
    exact ⟨by simp [ret, loop], marked loop⟩

theorem pending_whole {ns : List Nat} (count : counts w d.calls (pending f).length = some ns) :
    ns.flatMap ((pending f).take ·) = pending f ↔ Repeats (pending f) 0 ns := by
  have sum := counts_sum count
  exact @repeats_iff (pending f) ns 0 (by omega)

theorem flushes_of_sound (sound : Sound w f d) : Flushes w f d := by
  by_cases writable : f.writable = true
  · cases count : counts w d.calls (pending f).length with
    | none =>
      have failed := fflush_uncounted writable count
      constructor
      · simp [failed.1, eof]
      · intro _
        exact failed
    | some ns =>
      obtain ⟨_, taken, left, each⟩ := fflush_counted writable count
      constructor
      · intro _
        rw [taken, (pending_whole count).mpr (sound writable ns count)]
        exact ⟨rfl, left⟩
      · rintro ⟨k, low, high, failed⟩
        exact absurd failed (each k low high)
  · constructor <;> simp [fflush, writable, eof]

end Calls

/-- `fflush` does what it should just where every part that `write` takes is also what the buffer begins with. -/
theorem flushes_iff (w : Nat → Answer) (f : FILE) (d : Dev) : Flushes w f d ↔ Sound w f d := by
  constructor
  · intro flushes writable ns count
    obtain ⟨zero, taken, _⟩ := fflush_counted writable count
    have handed := (flushes.handed zero).1
    rw [taken] at handed
    exact (pending_whole count).mp (append_cancel_left handed)
  · exact flushes_of_sound

def twoBytes : FILE :=
  { writable := true, err := false, lineBuf := false, buf := some [1, 2], bufPos := 2, bufWrite := true
    inside := fun _ some => by cases some; decide }

/-- Two bytes, of which `write` takes one at a time: the first one is written twice. -/
theorem not_flushes : ¬ ∀ (w : Nat → Answer) (f : FILE) (d : Dev), Flushes w f d := by
  intro all
  have flushes := all (fun _ => some ⟨1, one_pos⟩) twoBytes ⟨[], 0⟩
  have done : (fflush (fun _ => some ⟨1, one_pos⟩) twoBytes ⟨[], 0⟩).1 = 0 := by decide +kernel
  have taken := (flushes.handed done).1
  exact absurd taken (by decide +kernel)

/- Runs of output -/

section Runs
variable {w : Nat → Answer} {f : FILE} {d : Dev} {N : Nat}

def output (s : FILE × Dev) : List Byte := s.2.taken ++ pending s.1

/-- No count is short: `write` has room for `N` bytes, or it fails. -/
def Whole (w : Nat → Answer) (N : Nat) : Prop := ∀ k n, w k = some n → N ≤ n.val

def size (f : FILE) : Nat := (f.buf.getD []).length

theorem sound_of_whole (whole : Whole w N) (small : size f ≤ N) : Sound w f d := by
  intro _ ns count
  have short : (pending f).length ≤ N := by
    unfold size at small
    unfold pending
    split
    · simp
      omega
    · simp
  unfold counts at count
  by_cases none : (pending f).length = 0
  · simp [none] at count
    simp [count, Repeats]
  · cases answer : w d.calls with
    | none => simp [none, answer] at count
    | some n =>
      have all := whole d.calls n answer
      have rest : (pending f).length - n.val = 0 := by omega
      unfold counts at count
      simp [none, answer, rest] at count
      simp [← count, Repeats]

theorem fflush_output (sound : Sound w f d) (done : (fflush w f d).1 = 0) : output (fflush w f d).2 = output (f, d) := by
  obtain ⟨taken, none⟩ := (flushes_of_sound sound).handed done
  simp [output, taken, none]

theorem fflush_same : size (fflush w f d).2.1 = size f ∧ (fflush w f d).2.1.writable = f.writable := by
  unfold fflush
  split
  · exact ⟨rfl, rfl⟩
  · split
    · exact ⟨rfl, rfl⟩
    · split
      · dsimp only
        split <;> exact ⟨rfl, rfl⟩
      · exact ⟨rfl, rfl⟩

theorem store_pending (c : Byte) (writes : f.bufWrite = true) (room : ∀ b, f.buf = some b → f.bufPos < b.length)
    (some : f.buf ≠ none) : pending (store f c) = pending f ++ [c] ∧ size (store f c) = size f ∧
      (store f c).bufWrite = true := by
  obtain ⟨b, eq⟩ := ne_none_iff_exists'.mp some
  have lt := room b eq
  unfold store
  rw [dif_pos room]
  simp only [pending, size, writes, if_true, eq, map_some, getD_some, length_set, and_self, and_true]
  rw [take_add_one, take_set_of_le (le_refl _)]
  simp [lt]

theorem fflush_empties (writable : f.writable = true) (some : f.buf ≠ none) (writes : f.bufWrite = true) :
    (fflush w f d).2.1.bufPos = 0 ∧ (fflush w f d).2.1.buf = f.buf ∧ (fflush w f d).2.1.bufWrite = true := by
  unfold fflush
  by_cases pos : f.bufPos = 0
  · simp [writable, some, writes, pos]
  · simp only [writable, some, writes, pos, Bool.true_eq_false, if_false, ne_eq, not_false_eq_true, and_self, if_true]
    split <;> simp [FILE.emptied, writes]

theorem fflush_ret (w : Nat → Answer) (f : FILE) (d : Dev) : (fflush w f d).1 = 0 ∨ (fflush w f d).1 = eof := by
  rcases fflush_cases w f d with ⟨_, call⟩ | ⟨_, _, zero, _⟩ | ⟨_, _, _, _, _, _, ret, _⟩
  · simp [call]
  · exact .inl zero
  · rw [ret]
    split
    · exact .inl rfl
    · exact .inr rfl

theorem allocated_spec (given : allocated granted f = some g) :
    g.buf ≠ none ∧ g.bufWrite = f.bufWrite ∧ g.writable = f.writable ∧ pending g = pending f ∧
      size g ≤ max (size f) bufsiz := by
  unfold allocated at given
  by_cases none : f.buf = none
  · cases granted with
    | false => simp [none] at given
    | true =>
      simp only [none, if_true, some.injEq] at given
      subst given
      simp [pending, none, size]
  · simp only [none, if_false, some.injEq] at given
    subst given
    simp [none]

theorem room_made (whole : Whole w N) (small : size f ≤ N) (writable : f.writable = true) (given : f.buf ≠ none)
    (writes : f.bufWrite = true)
    (eq : made = if (f.buf.getD []).length = f.bufPos then fflush w f d else (0, f, d)) (done : made.1 = 0) :
    output made.2 = output (f, d) ∧ made.2.1.buf = f.buf ∧ made.2.1.bufWrite = true ∧ made.2.1.writable = true ∧
      ∀ b, made.2.1.buf = some b → made.2.1.bufPos < b.length := by
  obtain ⟨b, here⟩ := ne_none_iff_exists'.mp given
  have inside := f.inside b here
  have length : 0 < b.length := length_pos_of_ne_nil inside.2
  by_cases full : (f.buf.getD []).length = f.bufPos
  · rw [if_pos full] at eq
    subst eq
    obtain ⟨zero, same, still⟩ := fflush_empties (w := w) (d := d) writable given writes
    refine ⟨fflush_output (sound_of_whole whole small) done, same, still, fflush_same.2.trans writable, ?_⟩
    intro b' eq'
    rw [same, here] at eq'
    cases eq'
    omega
  · rw [if_neg full] at eq
    subst eq
    refine ⟨rfl, rfl, writes, writable, ?_⟩
    intro b' eq'
    rw [here] at eq'
    cases eq'
    simp only [here, getD_some] at full
    dsimp only
    omega

theorem putc_output (whole : Whole w N) (small : size f ≤ N) (room : bufsiz ≤ N) (c : Byte) (granted : Bool)
    (writable : f.writable = true) (done : (putc w granted f c d).1 ≠ eof) :
    output (putc w granted f c d).2 = output (f, d) ++ [c] ∧ size (putc w granted f c d).2.1 ≤ N ∧
      (putc w granted f c d).2.1.writable = true := by
  obtain ⟨f₁, eq₁⟩ : ∃ f₁, (if f.bufWrite then f else { f.emptied with bufWrite := true }) = f₁ := ⟨_, rfl⟩
  have first : f₁.bufWrite = true ∧ f₁.writable = true ∧ pending f₁ = pending f ∧ size f₁ = size f := by
    subst eq₁
    cases writes : f.bufWrite <;> simp [writes, writable, pending, FILE.emptied, size]
  obtain ⟨writes₁, writable₁, pending₁, size₁⟩ := first
  unfold putc at done ⊢
  simp only [eq₁] at done ⊢
  cases given : allocated granted f₁ with
  | none => simp [given] at done
  | some g =>
    obtain ⟨some, writes, writable', pending', size'⟩ := allocated_spec given
    rw [writes₁] at writes
    rw [writable₁] at writable'
    simp only [given] at done ⊢
    generalize eq : (if (g.buf.getD []).length = g.bufPos then fflush w g d else (0, g, d)) = made at done ⊢
    by_cases zero : made.1 = 0
    · obtain ⟨same, buf, writes₂, writable₂, inside⟩ := room_made whole (by omega) writable' some writes eq.symm zero
      obtain ⟨stored, size₃, writes₃⟩ := store_pending (c := c) writes₂ inside (by rw [buf]; exact some)
      have put : output (store made.2.1 c, made.2.2) = output (f, d) ++ [c] := by
        simp only [output, pending', pending₁] at same ⊢
        rw [stored, ← append_assoc, same]
      have narrow : size (store made.2.1 c) ≤ N := by
        rw [size₃]
        unfold size at size' size₁ small ⊢
        rw [buf]
        omega
      have writable₃ : (store made.2.1 c).writable = true := by
        unfold store
        split <;> exact writable₂
      simp only [zero, ne_eq, not_true_eq_false, if_false] at done ⊢
      split
      · rename_i line
        rw [if_pos line] at done
        have success := (fflush_ret w (store made.2.1 c) made.2.2).resolve_right done
        rw [fflush_output (sound_of_whole whole narrow) success, put, fflush_same.1, fflush_same.2]
        exact ⟨rfl, narrow, writable₃⟩
      · exact ⟨put, narrow, writable₃⟩
    · simp [zero] at done

inductive Op where
  | putc (granted : Bool) (c : Byte)
  | fflush

def step (w : Nat → Answer) (s : FILE × Dev) : Op → Int × FILE × Dev
  | .putc granted c => putc w granted s.1 c s.2
  | .fflush => fflush w s.1 s.2

/-- The calls of a program that gives up at the first `EOF`. -/
def run (w : Nat → Answer) : List Op → FILE × Dev → Option (FILE × Dev)
  | [], s => some s
  | op :: ops, s => if (step w s op).1 = eof then none else run w ops (step w s op).2

def Op.text : Op → List Byte
  | .putc _ c => [c]
  | .fflush => []

theorem step_output (whole : Whole w N) (small : size f ≤ N) (room : bufsiz ≤ N) (writable : f.writable = true) (op : Op)
    (done : (step w (f, d) op).1 ≠ eof) : output (step w (f, d) op).2 = output (f, d) ++ op.text ∧
      size (step w (f, d) op).2.1 ≤ N ∧ (step w (f, d) op).2.1.writable = true := by
  cases op with
  | putc granted c => exact putc_output whole small room c granted writable done
  | fflush =>
    have success := (fflush_ret w f d).resolve_right done
    have same := fflush_output (sound_of_whole whole small) success
    refine ⟨same.trans (append_nil _).symm, ?_, fflush_same.2.trans writable⟩
    exact fflush_same.1.trans_le small

/-- A program that goes on to its end has output its characters in order, if no count is short. After a last `fflush`
    none of them waits. -/
theorem run_output (whole : Whole w N) (room : bufsiz ≤ N) (ops : List Op) {s : FILE × Dev} (small : size s.1 ≤ N)
    (writable : s.1.writable = true) {t : FILE × Dev} (done : run w ops s = some t) :
    output t = output s ++ ops.flatMap Op.text ∧ (ops.getLast? = some .fflush → pending t.1 = []) := by
  induction ops generalizing s with
  | nil =>
    cases done
    simp
  | cons op ops ih =>
    unfold run at done
    by_cases failed : (step w s op).1 = eof
    · simp [failed] at done
    · rw [if_neg failed] at done
      obtain ⟨same, small', writable'⟩ := step_output whole small room writable op failed
      obtain ⟨text, empty⟩ := ih small' writable' done
      refine ⟨by rw [text, same, flatMap_cons, append_assoc], fun last => ?_⟩
      cases ops with
      | nil =>
        cases last
        cases done
        exact ((flushes_of_sound (sound_of_whole whole small)).handed ((fflush_ret w _ _).resolve_right failed)).2
      | cons => exact empty (getLast?_cons_cons.symm.trans last)

end Runs

/-- Two characters through a full buffer of two bytes. -/
theorem run_output_two : ∃ t, run (fun _ => some ⟨64, by decide⟩) [.putc true 7, .putc true 8, .fflush] (twoBytes, ⟨[], 0⟩) =
    some t ∧ output t = [1, 2, 7, 8] ∧ pending t.1 = [] := by
  have ends : (run (fun _ => some ⟨64, by decide⟩) [.putc true 7, .putc true 8, .fflush] (twoBytes, ⟨[], 0⟩)).isSome := by
    decide +kernel
  obtain ⟨t, done⟩ := isSome_iff_exists.mp ends
  have whole : Whole (fun _ => some ⟨64, by decide⟩) 64 := by
    rintro k _ ⟨⟩
    exact le_refl 64
  have small : size twoBytes ≤ 64 := by decide
  exact ⟨t, done, (run_output whole (le_refl _) _ small rfl done).imp_right (· rfl)⟩

end Flush
