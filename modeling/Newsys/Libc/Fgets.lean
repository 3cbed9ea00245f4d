import Newsys.Lib.Cstr
import Newsys.Libc.Passwd
import Newsys.Libc.Stream

/- Lines that are read one after the other (fgets of lib/stdio/putget.c) from a stream that is open for reading, with or
   without a buffer. `read` does not fail, but it may deliver less than it is asked for, and `malloc` returns a buffer. -/
namespace Fgets
open Bytes List
open Passwd (nl fgetsFrom fgetsFrom_line fgetsFrom_long)

/-- How much `read` has at hand at each call, unless it is at the end of the file. -/
abbrev Script := Nat → {n : Nat // 0 < n}

structure FILE where
  ungotc : Option Byte
  eof : Bool
  buffered : Bool
  ahead : List Byte
  bufSize : Nat
  sized : 0 < bufSize
  rest : List Byte
  calls : Nat

def read (r : Script) (count : Nat) (f : FILE) : List Byte × FILE :=
  let n := min (r f.calls).val count
  (f.rest.take n, { f with rest := f.rest.drop n, calls := f.calls + 1 })

def getcNbf (r : Script) (f : FILE) : Option Byte × FILE :=
  match read r 1 f with
  | (c :: _, f) => (some c, f)
  | ([], f) => (none, f)

def refill (r : Script) (f : FILE) : FILE :=
  let (data, f) := read r f.bufSize f
  { f with ahead := data, eof := f.eof || data.isEmpty }

def getcFbf (r : Script) (f : FILE) : Option Byte × FILE :=
  let f := if f.ahead = [] then refill r f else f
  match f.ahead with
  | c :: cs => (some c, { f with ahead := cs })
  | [] => (none, f)

def fgetc (r : Script) (f : FILE) : Option Byte × FILE :=
  match f.ungotc with
  | some c => (some c, { f with ungotc := none })
  | none => if f.buffered then getcFbf r f else getcNbf r f

def unread (f : FILE) : List Byte := f.ungotc.toList ++ ((if f.buffered then f.ahead else []) ++ f.rest)

section Input
variable (r : Script) (f : FILE)

theorem read_eq (count : Nat) :
    (read r count f).1 ++ (read r count f).2.rest = f.rest ∧ (0 < count → (read r count f).1 = [] → f.rest = []) := by
  have some := (r f.calls).property
  constructor
  · exact take_append_drop _ _
  · intro pos none
    unfold read at none
    simp only [take_eq_nil_iff] at none
    rcases none with none | none
    · omega
    · exact none

theorem fgetc_eq : (fgetc r f).1 = (unread f).head? ∧ unread (fgetc r f).2 = (unread f).tail := by
  unfold fgetc
  cases back : f.ungotc with
  | some c => simp [unread, back]
  | none =>
    by_cases buf : f.buffered = true
    · simp only [buf, if_true, getcFbf]
      by_cases used : f.ahead = []
      · obtain ⟨all, stop⟩ := read_eq r f f.bufSize
        cases data : (read r f.bufSize f).1 with
        | nil =>
          have last := stop f.sized data
          simp [used, refill, data, unread, back, buf, last]
          simp [read, last, back]
        | cons c cs =>
          rw [data] at all
          simp [used, refill, data, unread, back, buf, ← all]
          simp [read, back, buf]
      · obtain ⟨c, cs, eq⟩ := exists_cons_of_ne_nil used
        simp [eq, unread, back, buf]
    · have one : min (r f.calls).val 1 = 1 := Nat.min_eq_right (r f.calls).property
      cases left : f.rest with
      | nil => simp [buf, getcNbf, read, one, left, unread, back]
      | cons c cs => simp [buf, getcNbf, read, one, left, unread, back]

/-- What a file with a position pointer has to deliver. -/
def ahead (p : Stream.Plain) : List Byte := p.pushed.toList ++ p.file.bytes p.pos (p.file.size - p.pos)

theorem step_ahead (p : Stream.Plain) :
    (p.step .fgetc).2 = (ahead p).head?.elim Stream.eof (fun c => (c.toNat : Int)) ∧
      ahead (p.step .fgetc).1 = (ahead p).tail := by
  cases pushed : p.pushed with
  | some c => simp [Stream.Plain.step, ahead, pushed]
  | none =>
    by_cases more : p.pos < p.file.size
    · have left : p.file.size - p.pos = p.file.size - (p.pos + 1) + 1 := by omega
      simp [Stream.Plain.step, ahead, pushed, more, left, Sparse.File.bytes, range_succ_eq_map, Function.comp_def,
        Nat.add_assoc, Nat.add_comm 1]
    · simp [Stream.Plain.step, ahead, pushed, more, Nat.sub_eq_zero_of_le (Nat.le_of_not_lt more), Sparse.File.bytes]

/-- A stream of `Stream` with the same to deliver gives the same character, and has the same to deliver then. -/
theorem fgetc_stream {p : Stream.Plain} {g : Stream.FILE} (rel : Stream.Rel p g) (allowed : Stream.Allowed p .fgetc)
    (sound : Stream.Sound m p g .fgetc) (same : unread f = ahead p) :
    (Stream.fgetc g).2 = (fgetc r f).1.elim Stream.eof (fun c => (c.toNat : Int)) ∧
      Stream.Rel (p.step .fgetc).1 (Stream.fgetc g).1 ∧ unread (fgetc r f).2 = ahead (p.step .fgetc).1 := by
  obtain ⟨value, rel'⟩ := Stream.fgetc_sim rel allowed sound
  obtain ⟨first, after⟩ := fgetc_eq r f
  obtain ⟨value', after'⟩ := step_ahead p
  refine ⟨?_, rel', ?_⟩
  · rw [first, same, ← value', value]
    rfl
  · rw [after, same, after']

end Input

theorem fgetc_less (step : fgetc r f = (some c, g)) : (unread g).length < (unread f).length := by
  obtain ⟨first, after⟩ := fgetc_eq r f
  rw [step] at first after
  rw [after]
  cases all : unread f with
  | nil => simp [all] at first
  | cons c cs => simp

def nextChar (r : Script) (f : FILE) : Option Byte × FILE :=
  match _step : fgetc r f with
  | (none, g) => (none, g)
  | (some c, g) => if c = 0 then nextChar r g else (some c, g)
termination_by (unread f).length
decreasing_by exact fgetc_less (by assumption)

def fgetsLoop (r : Script) (s : Nat) : Nat → Nat → Mem → FILE → Option Nat × Mem × FILE
  | 0, _, m, f => (none, m, f)
  | left + 1, i, m, f =>
    match nextChar r f with
    | (none, f) =>
      -- `EOF` is stored as a character first
      let m := put (put m (s + i) 255) (s + i) 0
      (if m s = 0 then none else some s, m, f)
    | (some c, f) =>
      let m := put m (s + i) c
      if c = nl then (some s, put m (s + i + 1) 0, f) else fgetsLoop r s left (i + 1) m f

def fgets (r : Script) (s : Nat) (size : Int) (m : Mem) (f : FILE) : Option Nat × Mem × FILE :=
  fgetsLoop r s (size - 1).toNat 0 m f

/-- What `fgets` returns until it returns NULL, and the stream at that last call. -/
inductive Reads (r : Script) (s : Nat) (size : Int) : Mem → FILE → List (List Byte) → FILE → Prop
  | null {m : Mem} {f : FILE} : (fgets r s size m f).1 = none → Reads r s size m f [] f
  | line {m m' : Mem} {f g last : FILE} {a : Nat} {t : List Byte} {ts : List (List Byte)} :
      fgets r s size m f = (some a, m', g) → Cstr.Holds m' a t → Reads r s size m' g ts last →
      Reads r s size m f (t :: ts) last

/-- The whole stream is delivered, in lines and parts of lines that are as long as they can be. -/
def Delivers (r : Script) (s : Nat) (size : Int) (m : Mem) (f : FILE) : Prop :=
  ∃ ts last, Reads r s size m f ts last ∧ unread last = [] ∧ ts.flatten = unread f ∧
    (∀ t ∈ ts, (t.length : Int) ≤ size - 1) ∧
    ∀ t ∈ ts.dropLast, t.getLast? = some nl ∨ (t.length : Int) = size - 1

theorem nextChar_eq (r : Script) (f : FILE) :
    (nextChar r f).1 = ((unread f).dropWhile (· = 0)).head? ∧
      unread (nextChar r f).2 = ((unread f).dropWhile (· = 0)).tail := by
  fun_induction nextChar r f with
  | case1 f g step =>
    obtain ⟨first, after⟩ := fgetc_eq r f
    rw [step] at first after
    cases all : unread f with
    | nil => simpa [all] using after
    | cons c cs => simp [all] at first
  | case2 f g step ih =>
    obtain ⟨first, after⟩ := fgetc_eq r f
    rw [step] at first after
    cases all : unread f with
    | nil => simp [all] at first
    | cons c cs =>
      simp [all] at first after
      simpa [← first, after] using ih
  | case3 f c g step other =>
    obtain ⟨first, after⟩ := fgetc_eq r f
    rw [step] at first after
    cases all : unread f with
    | nil => simp [all] at first
    | cons d cs =>
      simp [all] at first after
      subst first
      rw [dropWhile_cons_of_neg (by simpa using other)]
      exact ⟨rfl, after⟩

theorem fgetsFrom_skip (n : Nat) (p u : List Byte) :
    fgetsFrom (n + 1) p u = fgetsFrom (n + 1) p (u.dropWhile (· = 0)) := by
  induction u with
  | nil => rfl
  | cons c u ih =>
    by_cases nul : c = 0
    · rw [dropWhile_cons_of_pos (by simpa using nul), ← ih, fgetsFrom, if_pos nul]
    · rw [dropWhile_cons_of_neg (by simpa using nul)]

section Memory
variable (r : Script) (s : Nat) (m : Mem) {p : List Byte}

theorem put_snoc (c : Byte) : put (blit m s p) (s + p.length) c = blit m s (p ++ [c]) := by
  rw [← Cstr.blit_blit, blit_cons, Cstr.blit_nil]

theorem fgetsLoop_refines (left : Nat) (noNul : (0 : Byte) ∉ p) (f : FILE) :
    let out := fgetsLoop r s left p.length (blit m s p) f
    let got := fgetsFrom left p (unread f)
    out.1 = got.1.map (fun _ => s) ∧ unread out.2.2 = got.2 ∧ ∀ t, got.1 = some t → Cstr.Holds out.2.1 s t := by
  induction left generalizing p f with
  | zero => simp [fgetsLoop, fgetsFrom]
  | succ left ih =>
    obtain ⟨first, after⟩ := nextChar_eq r f
    rw [fgetsFrom_skip]
    unfold fgetsLoop
    cases next : nextChar r f with
    | mk c g =>
      rw [next] at first after
      cases chars : (unread f).dropWhile (· = 0) with
      | nil =>
        rw [chars] at first after
        simp only [head?_nil] at first
        subst first
        have held : Cstr.Holds (put (put (blit m s p) (s + p.length) 255) (s + p.length) 0) s p := by
          have twice : put (put (blit m s p) (s + p.length) 255) (s + p.length) 0 = put (blit m s p) (s + p.length) 0 := by
            funext k
            unfold put
            split <;> rfl
          rw [twice]
          exact Cstr.holds_written m s noNul
        cases p with
        | nil =>
          have empty : put (put (blit m s []) (s + [].length) 255) (s + [].length) 0 s = 0 := held
          simp only [fgetsFrom, empty, if_true]
          simpa using after
        | cons a p =>
          have used := held.1
          simp only [fgetsFrom, used.1, used.2, if_false, cons_ne_nil, after]
          simpa using held
      | cons d cs =>
        rw [chars] at first after
        have nonzero : d ≠ 0 := by
          have stops := head?_dropWhile_not (· = (0 : Byte)) (unread f)
          rw [chars] at stops
          simpa using stops
        simp only [head?_cons] at first
        subst first
        have clean : (0 : Byte) ∉ p ++ [d] := Passwd.not_mem_snoc noNul nonzero
        simp only [fgetsFrom, nonzero, if_false, put_snoc]
        by_cases ends : d = nl
        · have held := Cstr.holds_written m s clean
          simp only [length_append, length_singleton, ← Nat.add_assoc] at held
          simpa [ends, after] using held
        · have rest := ih clean g
          simp only [length_append, length_singleton] at rest
          simpa [ends, after] using rest

theorem fgets_refines (size : Int) (f : FILE) :
    let out := fgets r s size m f
    let got := fgetsFrom (size - 1).toNat [] (unread f)
    out.1 = got.1.map (fun _ => s) ∧ unread out.2.2 = got.2 ∧ ∀ t, got.1 = some t → Cstr.Holds out.2.1 s t := by
  have run := fgetsLoop_refines r s m (size - 1).toNat (p := []) (by simp) f
  rwa [Cstr.blit_nil] at run

end Memory

theorem line_cases (u : List Byte) : nl ∉ u ∨ ∃ l rest, nl ∉ l ∧ u = l ++ nl :: rest := by
  by_cases some : nl ∈ u
  · obtain ⟨l, rest, eq, free⟩ := eq_append_cons_of_mem some
    exact .inr ⟨l, rest, free, eq⟩
  · exact .inl some

theorem fgetsFrom_open (noNul : 0 ∉ l) (noNl : nl ∉ l) (room : l.length < n) (p : List Byte) :
    fgetsFrom n p l = (if p ++ l = [] then none else some (p ++ l), []) := by
  induction l generalizing n p with
  | nil =>
    obtain ⟨n, rfl⟩ := Nat.exists_eq_succ_of_ne_zero (Nat.ne_zero_of_lt room)
    simp [fgetsFrom]
  | cons c l ih =>
    rw [mem_cons, not_or] at noNul noNl
    obtain ⟨n, rfl⟩ := Nat.exists_eq_succ_of_ne_zero (Nat.ne_zero_of_lt room)
    rw [fgetsFrom, if_neg (Ne.symm noNul.1), if_neg (Ne.symm noNl.1), ih noNul.2 noNl.2 (Nat.lt_of_succ_lt_succ room)]
    simp

section Runs
variable {r : Script} {s : Nat} {size : Int} {m : Mem} {f : FILE}

/-- Every line fits in front of the NUL and, but for the last one, of its newline. -/
def Short (size : Int) (u : List Byte) : Prop := ∀ l ∈ u.splitOn nl, (l.length : Int) < size - 1

theorem short_of_reads (noNul : 0 ∉ unread f) (pos : 2 ≤ size)
    (reads : Reads r s size m f ts last) (all : unread last = []) : Short size (unread f) := by
  induction reads with
  | null stops =>
    unfold Short
    simp [all]
    omega
  | @line m m' f g last a t ts run held reads ih =>
    obtain ⟨given, left, _⟩ := fgets_refines r s m size f
    rw [run] at given left
    dsimp only at given left
    rcases line_cases (unread f) with free | ⟨l, rest, free, eq⟩
    · have short : (unread f).length < (size - 1).toNat := by
        by_contra long
        have lost := fgetsFrom_long noNul free (by omega) [] [] (n := (size - 1).toNat)
        rw [append_nil] at lost
        rw [lost] at given
        cases given
      unfold Short
      simp [splitOn_eq_singleton free]
      omega
    · rw [eq] at noNul given left ⊢
      rw [mem_append, mem_cons, not_or, not_or] at noNul
      have short : l.length < (size - 1).toNat := by
        by_contra long
        have lost := fgetsFrom_long noNul.1 free (by omega) [] (nl :: rest) (n := (size - 1).toNat)
        rw [lost] at given
        cases given
      rw [fgetsFrom_line noNul.1 free short] at left
      have tail := ih (by rw [left]; exact noNul.2.2) all
      unfold Short at tail ⊢
      rw [left] at tail
      simp [splitOn_append_cons_self_of_not_mem free]
      exact ⟨by omega, tail⟩

theorem fgets_line (r : Script) (s : Nat) (m : Mem)
    (got : fgetsFrom (size - 1).toNat [] (unread f) = (some t, rest)) :
    ∃ m' g, fgets r s size m f = (some s, m', g) ∧ Cstr.Holds m' s t ∧ unread g = rest := by
  obtain ⟨given, left, held⟩ := fgets_refines r s m size f
  rw [got] at given left held
  cases run : fgets r s size m f with
  | mk a out =>
    obtain ⟨m', g⟩ := out
    rw [run] at given left held
    dsimp only [Option.map_some] at given left held
    subst given
    exact ⟨m', g, rfl, held t rfl, left⟩

theorem fgets_null (r : Script) (s : Nat) (m : Mem) (empty : unread f = []) : (fgets r s size m f).1 = none := by
  obtain ⟨given, _, _⟩ := fgets_refines r s m size f
  rw [given, empty]
  cases (size - 1).toNat <;> rfl

theorem delivers_of_short (r : Script) (s : Nat) (m : Mem) (noNul : 0 ∉ unread f) (pos : 2 ≤ size)
    (short : Short size (unread f)) : Delivers r s size m f := by
  induction len : (unread f).length using Nat.strong_induction_on generalizing m f with
  | _ n ih =>
    unfold Short at short
    rcases line_cases (unread f) with free | ⟨l, rest, free, eq⟩
    · by_cases empty : unread f = []
      · exact ⟨[], f, .null (fgets_null r s m empty), empty, by simp [empty]⟩
      · simp only [splitOn_eq_singleton free, mem_singleton, forall_eq] at short
        have got := fgetsFrom_open noNul free (n := (size - 1).toNat) (by omega) []
        rw [nil_append, if_neg empty] at got
        obtain ⟨m', g, run, held, done⟩ := fgets_line r s m got
        refine ⟨[unread f], g, .line run held (.null (fgets_null r s m' done)), done, ?_⟩
        simp
        omega
    · rw [eq] at noNul
      rw [mem_append, mem_cons, not_or, not_or] at noNul
      rw [eq, splitOn_append_cons_self_of_not_mem free, forall_mem_cons] at short
      have got := fgetsFrom_line noNul.1 free (n := (size - 1).toNat) (by omega) [] rest
      rw [← eq] at got
      obtain ⟨m', g, run, held, left⟩ := fgets_line r s m got
      have less : (unread g).length < n := by
        rw [← len, eq, left]
        simp
        omega
      have tail : Short size (unread g) := by
        rw [left]
        exact short.2
      obtain ⟨ts, last, reads, stop, all, fit, ends⟩ := ih _ less m' (by rw [left]; exact noNul.2.2) tail rfl
      refine ⟨(l ++ [nl]) :: ts, last, .line run held reads, stop, ?_, ?_, ?_⟩
      · simp [all, left, eq]
      · rw [forall_mem_cons]
        constructor
        · simp
          omega
        · exact fit
      · intro t mem
        cases ts with
        | nil => simp at mem
        | cons t' ts =>
          rcases mem_cons.mp mem with rfl | mem
          · simp
          · exact ends t mem

end Runs

/-- A line that does not fit is lost: `fgets` returns NULL where the buffer is full. -/
theorem delivers_iff (r : Script) (s : Nat) (size : Int) (m : Mem) (f : FILE) (noNul : 0 ∉ unread f) (pos : 2 ≤ size) :
    Delivers r s size m f ↔ ∀ l ∈ (unread f).splitOn nl, (l.length : Int) < size - 1 := by
  constructor
  · intro ⟨ts, last, reads, all, _⟩
    exact short_of_reads noNul pos reads all
  · exact delivers_of_short r s m noNul pos

def opened (bytes : List Byte) : FILE := ⟨none, false, true, [], 4, by decide, bytes, 0⟩

theorem delivers_iff_two_lines :
    Delivers (fun _ => ⟨3, by decide⟩) 0 4 zero (opened [65, 66, 10, 67]) ↔
      ∀ l ∈ (unread (opened [65, 66, 10, 67])).splitOn nl, (l.length : Int) < 4 - 1 :=
  delivers_iff _ 0 4 zero (opened [65, 66, 10, 67]) (by decide) (by decide)

theorem not_delivers : ¬ Delivers (fun _ => ⟨3, by decide⟩) 0 3 zero (opened [65, 66, 67]) := by
  intro ⟨ts, last, reads, all, _⟩
  have short := short_of_reads (by decide) (by decide) reads all
  exact absurd (short [65, 66, 67] (by decide)) (by decide)

end Fgets
