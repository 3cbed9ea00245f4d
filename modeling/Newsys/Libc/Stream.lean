import Newsys.Lib.Sparse
import Newsys.Libc.Strtol

/- Streams (lib/stdio/putget.c, fseek.c): a buffered stream on a regular file that is opened for reading and writing,
   whose write, read and lseek do not fail and are never short, and for which malloc returns a buffer. `buf` is NULL
   until one is given or allocated; a buffer that is given has at least one byte. -/
namespace Stream
open Bytes Sparse Ints Kern List Nat Option
open Libc (longBits)

def bufsiz : Nat := 64

def eof : Int := -1

structure Fd where
  file : File Byte
  pos : Nat

def Fd.write (fd : Fd) (data : List Byte) : Fd :=
  { file := fd.file.write fd.pos data, pos := fd.pos + data.length }

def Fd.read (fd : Fd) (count : Nat) : List Byte × Fd :=
  let data := fd.file.read fd.pos count
  (data, { fd with pos := fd.pos + data.length })

inductive Whence where
  | set
  | cur
  | stop
  deriving DecidableEq

structure FILE where
  fd : Fd
  ungotc : Option Byte
  eof : Bool
  err : Bool
  lineBuf : Bool
  buf : Option (List Byte)
  bufSize : Nat
  bufPos : Nat
  bufInsize : Nat
  bufWrite : Bool

def lseek (f : FILE) (target : Int) : FILE × Int :=
  if target < 0 then (f, -1) else ({ f with fd := { f.fd with pos := target.toNat } }, target)

def fflush (f : FILE) : FILE × Int :=
  match f.buf with
  | none => ({ f with bufWrite := false }, 0)
  | some buf =>
    if f.bufWrite ∧ f.bufPos ≠ 0 then ({ f with fd := f.fd.write (buf.take f.bufPos), bufPos := 0 }, 0) else (f, 0)

def allocated (f : FILE) : FILE :=
  match f.buf with
  | none => { f with buf := some (replicate bufsiz 0), bufSize := bufsiz }
  | some _ => f

def fputc (f : FILE) (c : Byte) : FILE × Int :=
  let f := if f.bufWrite then f else { f with bufWrite := true, bufInsize := 0, bufPos := 0 }
  let f := allocated f
  let f := if f.bufPos = f.bufSize then (fflush f).1 else f
  let f := { f with buf := f.buf.map fun buf => buf.set f.bufPos c, bufPos := f.bufPos + 1 }
  if f.lineBuf ∧ c = 10 then fflush f else (f, c.toNat)

def refill (f : FILE) : FILE :=
  if f.bufPos = f.bufInsize then
    let (data, fd) := f.fd.read f.bufSize
    let buf := f.buf.map fun buf => data ++ buf.drop data.length
    { f with fd := fd, buf := buf, bufPos := 0, bufInsize := data.length, eof := f.eof || data.length == 0 }
  else f

def getcFbf (f : FILE) : FILE × Int :=
  let f := if f.bufWrite then (fflush f).1 else f
  let f := refill (allocated f)
  if f.bufPos = f.bufInsize then (f, eof)
  else ({ f with bufPos := f.bufPos + 1 }, (((f.buf.getD []).getD f.bufPos 0).toNat : Int))

def fgetc (f : FILE) : FILE × Int :=
  match f.ungotc with
  | some c => ({ f with ungotc := none }, c.toNat)
  | none => getcFbf f

def ungetc (f : FILE) (c : Byte) : FILE × Int :=
  match f.ungotc with
  | none => ({ f with ungotc := some c }, c.toNat)
  | some _ => ({ f with err := true }, eof)

def offset (f : FILE) : Int := if f.bufWrite then f.fd.pos else f.fd.pos + f.bufPos - f.bufInsize

def ftell (m : Machine) (f : FILE) : Int :=
  signed (longBits m) (if f.ungotc = none then offset f else offset f - 1)

def fseek (m : Machine) (f : FILE) (off : Int) (whence : Whence) : FILE × Int :=
  let o := ftell m f
  if o < 0 then (f, -1)
  else
    let f := if f.bufWrite then (fflush f).1 else f
    let f := { f with bufInsize := 0, bufPos := 0 }
    let (f, o) :=
      match whence with
      | .set => lseek f off
      | .cur => lseek f (o + off)
      | .stop => lseek f (f.fd.file.size + off)
    if o < 0 then ({ f with err := true }, -1) else (f, 0)

inductive Op where
  | fputc (c : Byte)
  | fgetc
  | ungetc (c : Byte)
  | fflush
  | fseek (off : Int) (whence : Whence)
  | ftell
  deriving DecidableEq

def step (m : Machine) (f : FILE) : Op → FILE × Int
  | .fputc c => fputc f c
  | .fgetc => fgetc f
  | .ungetc c => ungetc f c
  | .fflush => fflush f
  | .fseek off whence => fseek m f off whence
  | .ftell => (f, ftell m f)

/- The file without a buffer -/

/-- The last transfer since the stream was flushed or positioned. -/
inductive Last where
  | none
  | input
  | output
  deriving DecidableEq

/-- A file with a position pointer, and a character that was pushed back. -/
structure Plain where
  file : File Byte
  pos : Nat
  pushed : Option Byte
  last : Last

def Plain.tell (p : Plain) : Int := if p.pushed = none then p.pos else p.pos - 1

def Plain.target (p : Plain) (off : Int) : Whence → Int
  | .set => off
  | .cur => p.tell + off
  | .stop => p.file.size + off

def Plain.step (p : Plain) : Op → Plain × Int
  | .fputc c => ({ p with file := p.file.write p.pos [c], pos := p.pos + 1, last := .output }, c.toNat)
  | .fgetc =>
    match p.pushed with
    | some c => ({ p with pushed := none, last := .input }, c.toNat)
    | none =>
      if p.pos < p.file.size then ({ p with pos := p.pos + 1, last := .input }, ((p.file.byte p.pos).toNat : Int))
      else ({ p with last := .input }, eof)
  | .ungetc c => ({ p with pushed := some c, last := .input }, c.toNat)
  | .fflush => ({ p with last := if p.last = .output then .none else p.last }, 0)
  | .fseek off whence => ({ p with pos := (p.target off whence).toNat, pushed := none, last := .none }, 0)
  | .ftell => (p, p.tell)

/-- What a caller may do next: output and input are separated, one character at most is pushed back, and no position
    is negative. -/
def Allowed (p : Plain) : Op → Prop
  | .fputc _ => p.last ≠ .input
  | .fgetc => p.last ≠ .output
  | .ungetc _ => p.last ≠ .output ∧ p.pushed = none
  | .fflush => True
  | .fseek off whence => 0 ≤ p.target off whence
  | .ftell => True

/-- What the stream does as a file does. Once it was written to, `buf_write` stays set: a character is only read at the
    end of the file. The position is only asked for when nothing waits to be written and it fits in a `long`, and is
    only changed when no character is pushed back. -/
def Sound (m : Machine) (p : Plain) (f : FILE) : Op → Prop
  | .fgetc => f.ungotc = none → f.bufWrite = true → f.fd.file.size ≤ f.fd.pos
  | .fseek _ whence => f.ungotc = none ∧ offset f < 2 ^ (longBits m - 1) ∧
      (whence = .cur → f.bufWrite = true → f.bufPos = 0)
  | .ftell => p.tell < 2 ^ (longBits m - 1) ∧ (f.bufWrite = true → f.bufPos = 0)
  | _ => True

/-- The stream stands for a file: what waits in the buffer was written, or what was read ahead is what follows. -/
structure Rel (p : Plain) (f : FILE) : Prop where
  pushed : p.pushed = f.ungotc
  full : f.lineBuf = false
  room : ∀ buf, f.buf = some buf → buf.length = f.bufSize ∧ 0 < f.bufSize ∧ f.bufPos ≤ f.bufSize ∧
    f.bufInsize ≤ f.bufSize
  empty : f.buf = none → f.bufPos = 0 ∧ f.bufInsize = 0
  writing : f.bufWrite = true → f.bufInsize = 0 ∧ p.file = f.fd.file.write f.fd.pos ((f.buf.getD []).take f.bufPos) ∧
    p.pos = f.fd.pos + f.bufPos ∧ (p.last ≠ .output → f.bufPos = 0)
  reading : f.bufWrite = false → p.file = f.fd.file ∧ p.pos + f.bufInsize = f.fd.pos + f.bufPos ∧
    f.bufPos ≤ f.bufInsize ∧ p.last ≠ .output ∧ (p.last = .none → f.bufPos = f.bufInsize) ∧
    ∀ i, f.bufPos + i < f.bufInsize → p.pos + i < f.fd.file.size ∧
      (f.buf.getD []).getD (f.bufPos + i) 0 = f.fd.file.byte (p.pos + i)

theorem signed_long (m : Machine) (fits : -1 ≤ n ∧ n < 2 ^ (longBits m - 1)) : signed (longBits m) n = n := by
  cases m <;> exact signed_eq (by decide) ⟨by simp only [longBits]; omega, fits.2⟩

section Steps
variable {m : Machine} {p : Plain} {f : FILE} (rel : Rel p f)
include rel

theorem rel_allocated : Rel p (allocated f) ∧ ∃ buf, (allocated f).buf = some buf := by
  rw [allocated]
  cases buf : f.buf with
  | some b => exact ⟨rel, b, buf⟩
  | none =>
    obtain ⟨pos, insize⟩ := rel.empty buf
    refine ⟨{ rel with room := ?_, empty := nofun, writing := ?_, reading := ?_ }, _, rfl⟩
    · rintro _ ⟨⟩
      exact ⟨length_replicate, (by decide : 0 < bufsiz), by dsimp only; omega, by dsimp only; omega⟩
    · intro write
      have writing := rel.writing write
      rw [buf, pos] at writing
      exact ⟨writing.1, by rw [pos]; exact writing.2.1, by rw [pos]; exact writing.2.2.1, fun _ => pos⟩
    · intro read
      obtain ⟨file, at_pos, le, last, none, ahead⟩ := rel.reading read
      exact ⟨file, at_pos, le, last, none, fun i lt => absurd lt (by dsimp only; omega)⟩

theorem fflush_writing (write : f.bufWrite = true) (some : f.buf = some buf) :
    (fflush f).1 = { f with fd := ⟨p.file, p.pos⟩, bufPos := 0 } := by
  obtain ⟨_, file, pos, _⟩ := rel.writing write
  obtain ⟨length, _, le, _⟩ := rel.room buf some
  rw [some, getD_some] at file
  rw [fflush, some]
  dsimp only
  by_cases none : f.bufPos = 0
  · rw [none] at file pos
    rw [if_neg (by simp [none])]
    rw [take_zero, write_nil] at file
    cases f
    simp_all
  · rw [if_pos ⟨write, none⟩, Fd.write, ← file, length_take, length, min_eq_left le, pos]

theorem fflush_sim : (p.step .fflush).2 = (step m f .fflush).2 ∧ Rel (p.step .fflush).1 (step m f .fflush).1 := by
  cases write : f.bufWrite with
  | true =>
    cases buf : f.buf with
    | none =>
      obtain ⟨pos, insize⟩ := rel.empty buf
      obtain ⟨_, file, at_pos, _⟩ := rel.writing write
      rw [buf, pos, getD_none, take_nil, write_nil] at file
      have run : step m f .fflush = ({ f with bufWrite := false }, 0) := by rw [step, fflush, buf]
      rw [run]
      refine ⟨rfl, { rel with writing := nofun, reading := fun _ => ⟨file, by dsimp only [Plain.step]; omega, ?_, ?_, ?_, ?_⟩ }⟩
      · dsimp only
        omega
      · dsimp only [Plain.step]
        split <;> simp_all
      · intro _
        dsimp only
        omega
      · intro i lt
        dsimp only at lt
        omega
    | some b =>
      have flushed := fflush_writing rel write buf
      obtain ⟨insize, _⟩ := rel.writing write
      have value : (step m f .fflush).2 = 0 := by
        rw [step, fflush, buf]
        dsimp only
        split <;> rfl
      refine ⟨value.symm, ?_⟩
      rw [step, flushed]
      refine { rel with room := ?_, empty := ?_, writing := fun _ => ⟨insize, ?_, rfl, fun _ => rfl⟩, reading := ?_ }
      · intro b' eq
        obtain ⟨length, pos, _, inside⟩ := rel.room b' eq
        exact ⟨length, pos, zero_le _, inside⟩
      · intro none
        rw [buf] at none
        cases none
      · rw [take_zero, write_nil]
        rfl
      · intro read
        rw [write] at read
        cases read
  | false =>
    have run : step m f .fflush = (f, 0) := by
      rw [step, fflush]
      cases buf : f.buf with
      | none =>
        cases f
        simp_all
      | some b => simp [write]
    rw [run]
    obtain ⟨file, pos, le, last, none, ahead⟩ := rel.reading write
    have same : (p.step .fflush).1 = p := by
      rw [Plain.step, if_neg last]
    exact ⟨rfl, by rw [same]; exact rel⟩

theorem rel_input (last : p.last ≠ .output) : Rel { p with last := .input } f where
  pushed := rel.pushed
  full := rel.full
  room := rel.room
  empty := rel.empty
  writing write := by
    obtain ⟨insize, file, pos, used⟩ := rel.writing write
    exact ⟨insize, file, pos, fun _ => used last⟩
  reading read := by
    obtain ⟨file, pos, le, _, _, ahead⟩ := rel.reading read
    exact ⟨file, pos, le, nofun, nofun, ahead⟩

theorem rel_output (last : p.last ≠ .input) :
    Rel { p with last := .output } (if f.bufWrite then f else { f with bufWrite := true, bufInsize := 0, bufPos := 0 }) ∧
      (if f.bufWrite then f else { f with bufWrite := true, bufInsize := 0, bufPos := 0 }).bufWrite = true := by
  cases write : f.bufWrite with
  | true =>
    rw [if_pos rfl]
    refine ⟨{ rel with writing := fun write => ?_, reading := fun read => ?_ }, write⟩
    · obtain ⟨insize, file, pos, _⟩ := rel.writing write
      exact ⟨insize, file, pos, fun no => absurd rfl no⟩
    · rw [write] at read
      cases read
  | false =>
    obtain ⟨file, pos, le, notOutput, none, _⟩ := rel.reading write
    have done : p.last = .none := by
      cases here : p.last with
      | none => rfl
      | input => exact absurd here last
      | output => exact absurd here notOutput
    have read := none done
    rw [if_neg Bool.false_ne_true]
    refine ⟨{ rel with room := ?_, empty := fun _ => ⟨rfl, rfl⟩, writing := fun _ => ⟨rfl, ?_, ?_, fun _ => rfl⟩
                       reading := nofun }, rfl⟩
    · intro b eq
      obtain ⟨length, pos, _⟩ := rel.room b eq
      exact ⟨length, pos, zero_le _, zero_le _⟩
    · rw [take_zero, write_nil]
      exact file
    · dsimp only
      omega

theorem fputc_sim (c : Byte) (allowed : Allowed p (.fputc c)) :
    (p.step (.fputc c)).2 = (step m f (.fputc c)).2 ∧ Rel (p.step (.fputc c)).1 (step m f (.fputc c)).1 := by
  obtain ⟨start, write⟩ := rel_output rel allowed
  rw [step, fputc]
  generalize (if f.bufWrite then f else { f with bufWrite := true, bufInsize := 0, bufPos := 0 }) = g at start write ⊢
  obtain ⟨alloc, buf, some⟩ := rel_allocated start
  have write' : (allocated g).bufWrite = true := by
    rw [← write, allocated]
    cases g.buf <;> rfl
  dsimp only
  generalize allocated g = h at alloc some write' ⊢
  obtain ⟨length, pos, le, inside⟩ := alloc.room buf some
  obtain ⟨insize, file, at_pos, _⟩ := alloc.writing write'
  rw [some, getD_some] at file
  -- a full buffer is written first
  obtain ⟨k, eq, lt, file', at_pos'⟩ : ∃ k : FILE, (if h.bufPos = h.bufSize then (fflush h).1 else h) = k ∧
      (k.buf = h.buf ∧ k.bufSize = h.bufSize ∧ k.ungotc = h.ungotc ∧ k.lineBuf = h.lineBuf ∧ k.bufInsize = h.bufInsize ∧
        k.bufWrite = true ∧ k.bufPos < h.bufSize) ∧
      p.file = k.fd.file.write k.fd.pos (buf.take k.bufPos) ∧ p.pos = k.fd.pos + k.bufPos := by
    by_cases isFull : h.bufPos = h.bufSize
    · rw [if_pos isFull, fflush_writing alloc write' some]
      exact ⟨_, rfl, ⟨rfl, rfl, rfl, rfl, rfl, write', pos⟩, by rw [take_zero, write_nil], rfl⟩
    · rw [if_neg isFull]
      exact ⟨h, rfl, ⟨rfl, rfl, rfl, rfl, rfl, write', by omega⟩, file, at_pos⟩
  rw [eq]
  obtain ⟨buf_eq, size_eq, ungotc_eq, line_eq, insize_eq, write_eq, lt⟩ := lt
  rw [buf_eq, some, line_eq, alloc.full]
  simp only [Bool.false_eq_true, false_and, if_false, map_some]
  refine ⟨rfl, { pushed := ?_, full := ?_, room := ?_, empty := nofun, writing := fun _ => ⟨?_, ?_, ?_, ?_⟩, reading := ?_ }⟩
  · exact alloc.pushed.trans ungotc_eq.symm
  · rfl
  · rintro _ ⟨⟩
    dsimp only
    rw [length_set, size_eq]
    exact ⟨length, pos, lt, by omega⟩
  · exact insize_eq.trans insize
  · have taken : (buf.set k.bufPos c).take (k.bufPos + 1) = buf.take k.bufPos ++ [c] := by
      rw [take_add_one, getElem?_set_self (by omega), take_set_of_le (le_refl _)]
      rfl
    have joined := write_append k.fd.file k.fd.pos (buf.take k.bufPos) [c]
    rw [length_take, length, min_eq_left (le_of_lt lt), ← file', ← at_pos'] at joined
    dsimp only [Plain.step, getD_some]
    rw [taken]
    exact joined
  · dsimp only [Plain.step]
    omega
  · exact fun no => absurd rfl no
  · intro read
    dsimp only at read
    rw [write_eq] at read
    cases read

theorem refill_reading (read : f.bufWrite = false) (some : f.buf = some buf) (last : p.last ≠ .none) :
    Rel p (refill f) ∧ (refill f).bufWrite = false ∧ (refill f).ungotc = f.ungotc ∧
      ((refill f).bufPos = (refill f).bufInsize ↔ ¬ p.pos < p.file.size) := by
  obtain ⟨file, pos, le, notOutput, _, ahead⟩ := rel.reading read
  obtain ⟨length, size, _⟩ := rel.room buf some
  rw [refill]
  by_cases used : f.bufPos = f.bufInsize
  · rw [if_pos used]
    have data : (f.fd.file.read f.fd.pos f.bufSize).length = min f.bufSize (f.fd.file.size - f.fd.pos) := by
      simp [File.read, File.bytes]
    refine ⟨{ pushed := rel.pushed, full := rel.full, room := ?_, empty := ?_, writing := ?_, reading := fun _ => ?_ }, read,
      rfl, ?_⟩
    · rw [some]
      rintro _ ⟨⟩
      dsimp only [Fd.read]
      rw [length_append, length_drop]
      exact ⟨by omega, size, zero_le _, by omega⟩
    · rw [some]
      intros
      contradiction
    · dsimp only
      rw [read]
      intros
      contradiction
    · refine ⟨file, ?_, zero_le _, notOutput, fun none => absurd none last, ?_⟩
      · dsimp only [Fd.read]
        omega
      · intro i lt
        dsimp only [Fd.read] at lt ⊢
        rw [zero_add] at lt ⊢
        refine ⟨by omega, ?_⟩
        have at_pos : p.pos = f.fd.pos := by omega
        rw [some, map_some, getD_some, getD_append _ _ _ _ lt, at_pos]
        have inside : i < min f.bufSize (f.fd.file.size - f.fd.pos) := by omega
        simp [File.read, File.bytes, getD_eq_getElem?_getD, inside]
    · dsimp only [Fd.read]
      rw [data, file]
      omega
  · rw [if_neg used]
    have next := (ahead 0 (by omega)).1
    rw [← file, add_zero] at next
    exact ⟨rel, read, rfl, iff_of_false used (fun not => not next)⟩

theorem getcFbf_reading (read : f.bufWrite = false) (pushed : f.ungotc = none) :
    (p.step .fgetc).2 = (getcFbf f).2 ∧ Rel (p.step .fgetc).1 (getcFbf f).1 := by
  obtain ⟨_, _, _, notOutput, _⟩ := rel.reading read
  obtain ⟨alloc, buf, some⟩ := rel_allocated (rel_input rel notOutput)
  have read' : (allocated f).bufWrite = false := by
    rw [← read, allocated]
    cases f.buf <;> rfl
  obtain ⟨filled, gRead, ungotc, used⟩ := refill_reading alloc read' some nofun
  have stays : p.pushed = none := rel.pushed.trans pushed
  rw [Plain.step, stays, getcFbf, read, if_neg Bool.false_ne_true]
  dsimp only at used ⊢
  generalize refill (allocated f) = g at filled gRead ungotc used ⊢
  obtain ⟨file, pos, le, _, _, ahead⟩ := filled.reading gRead
  by_cases stop : p.pos < p.file.size
  · have more : ¬ g.bufPos = g.bufInsize := fun eq => used.1 eq stop
    obtain ⟨_, byte⟩ := ahead 0 (by omega)
    rw [if_pos stop, if_neg more]
    dsimp only at file pos
    refine ⟨?_, { pushed := ?_, full := filled.full, room := fun b eq => ?_, empty := fun eq => ?_, writing := ?_
                  reading := fun _ => ⟨file, ?_, ?_, nofun, nofun, fun i lt => ?_⟩ }⟩
    · dsimp only
      rw [add_zero, add_zero] at byte
      rw [byte, file]
    · exact stays.symm.trans filled.pushed
    · obtain ⟨length, size, at_pos, inside⟩ := filled.room b eq
      exact ⟨length, size, by dsimp only; omega, inside⟩
    · have := filled.empty eq
      omega
    · dsimp only
      rw [gRead]
      nofun
    · dsimp only
      omega
    · dsimp only
      omega
    · have := ahead (i + 1) (by dsimp only at lt; omega)
      dsimp only
      rw [add_assoc, add_assoc, add_comm 1 i]
      exact this
  · rw [if_neg stop, if_pos (used.2 stop)]
    refine ⟨rfl, ?_⟩
    dsimp only
    rw [← stays]
    exact filled

theorem fgetc_sim (allowed : Allowed p .fgetc) (sound : Sound m p f .fgetc) :
    (p.step .fgetc).2 = (step m f .fgetc).2 ∧ Rel (p.step .fgetc).1 (step m f .fgetc).1 := by
  rw [step, fgetc]
  cases pushed : f.ungotc with
  | some c =>
    rw [Plain.step, rel.pushed, pushed]
    exact ⟨rfl, { rel_input rel allowed with pushed := rfl }⟩
  | none =>
    cases write : f.bufWrite with
    | false => exact getcFbf_reading rel write pushed
    | true =>
      obtain ⟨insize, file, pos, used⟩ := rel.writing write
      have nothing := used allowed
      cases buf : f.buf with
      | none =>
        -- flushing a stream without a buffer turns it to input
        have flushed := (fflush_sim (m := m) rel).2
        have same : (p.step .fflush).1 = p := by
          rw [Plain.step, if_neg allowed]
        rw [same, step] at flushed
        have run : (fflush f).1 = { f with bufWrite := false } := by rw [fflush, buf]
        rw [run] at flushed
        have turned : getcFbf f = getcFbf { f with bufWrite := false } := by
          rw [getcFbf, write, if_pos rfl, run]
          rfl
        rw [turned]
        exact getcFbf_reading flushed rfl pushed
      | some b =>
        have size := sound pushed write
        obtain ⟨length, _⟩ := rel.room b buf
        have empty : f.fd.file.read f.fd.pos f.bufSize = [] := by
          apply eq_nil_of_length_eq_zero
          simp [File.read, File.bytes]
          omega
        have flushed : (fflush f).1 = f := by
          rw [fflush, buf]
          dsimp only
          rw [if_neg (by simp [nothing])]
        have alloc : allocated f = f := by rw [allocated, buf]
        have filled : refill f = { f with eof := true } := by
          rw [refill, if_pos (nothing.trans insize.symm), Fd.read, empty, buf]
          cases f
          simp_all
        have run : getcFbf f = ({ f with eof := true }, eof) := by
          rw [getcFbf, write, if_pos rfl, flushed, alloc, filled]
          rw [if_pos (show ({ f with eof := true } : FILE).bufPos = f.bufInsize from nothing.trans insize.symm), write]
        have stays : p.pushed = none := rel.pushed.trans pushed
        have stop : ¬ p.pos < p.file.size := by
          rw [nothing, take_zero, write_nil] at file
          rw [file]
          omega
        rw [run, Plain.step, stays]
        dsimp only
        rw [if_neg stop]
        refine ⟨rfl, ?_⟩
        dsimp only
        rw [← stays]
        exact { rel_input rel allowed with }

theorem ungetc_sim (c : Byte) (allowed : Allowed p (.ungetc c)) :
    (p.step (.ungetc c)).2 = (step m f (.ungetc c)).2 ∧ Rel (p.step (.ungetc c)).1 (step m f (.ungetc c)).1 := by
  obtain ⟨last, free⟩ := allowed
  have free' : f.ungotc = none := rel.pushed.symm.trans free
  rw [step, ungetc, free']
  exact ⟨rfl, { rel_input rel last with pushed := rfl }⟩

theorem offset_eq (flushed : f.bufWrite = true → f.bufPos = 0) : offset f = p.pos := by
  rw [offset]
  cases write : f.bufWrite with
  | true =>
    obtain ⟨_, _, pos, _⟩ := rel.writing write
    rw [if_pos rfl]
    have := flushed write
    omega
  | false =>
    obtain ⟨_, pos, _⟩ := rel.reading write
    rw [if_neg Bool.false_ne_true]
    omega

theorem ftell_sim (sound : Sound m p f .ftell) :
    (p.step .ftell).2 = (step m f .ftell).2 ∧ Rel (p.step .ftell).1 (step m f .ftell).1 := by
  obtain ⟨fits, flushed⟩ := sound
  have lo : -1 ≤ p.tell := by
    rw [Plain.tell]
    split <;> omega
  have value : (if f.ungotc = none then offset f else offset f - 1) = p.tell := by
    rw [Plain.tell, rel.pushed, offset_eq rel flushed]
  refine ⟨?_, rel⟩
  rw [Plain.step, step, ftell, value, signed_long m ⟨lo, fits⟩]

theorem flushed_eq : ∃ g : FILE, (if f.bufWrite then (fflush f).1 else f) = g ∧ g.fd.file = p.file ∧
    g.ungotc = f.ungotc ∧ g.lineBuf = false ∧ g.buf = f.buf ∧ g.bufSize = f.bufSize := by
  cases write : f.bufWrite with
  | false =>
    rw [if_neg Bool.false_ne_true]
    obtain ⟨file, _⟩ := rel.reading write
    exact ⟨f, rfl, file.symm, rfl, rel.full, rfl, rfl⟩
  | true =>
    rw [if_pos rfl]
    refine ⟨_, rfl, ?_⟩
    cases buf : f.buf with
    | none =>
      obtain ⟨pos, _⟩ := rel.empty buf
      obtain ⟨_, file, _⟩ := rel.writing write
      rw [pos, take_zero, write_nil] at file
      rw [fflush, buf]
      exact ⟨file.symm, rfl, rel.full, rfl, rfl⟩
    | some b =>
      rw [fflush_writing rel write buf]
      exact ⟨rfl, rfl, rel.full, buf, rfl⟩

theorem fseek_sim (off : Int) (whence : Whence) (allowed : Allowed p (.fseek off whence))
    (sound : Sound m p f (.fseek off whence)) :
    (p.step (.fseek off whence)).2 = (step m f (.fseek off whence)).2 ∧
      Rel (p.step (.fseek off whence)).1 (step m f (.fseek off whence)).1 := by
  obtain ⟨pushed, fits, flushed⟩ := sound
  have nonneg : 0 ≤ offset f := by
    rw [offset]
    cases write : f.bufWrite with
    | true => exact Int.natCast_nonneg _
    | false =>
      obtain ⟨_, pos, _⟩ := rel.reading write
      rw [if_neg Bool.false_ne_true]
      omega
  have tell : ftell m f = offset f := by
    rw [ftell, pushed, if_pos rfl, signed_long m ⟨by omega, fits⟩]
  have here : p.tell = p.pos := by
    rw [Plain.tell, rel.pushed, pushed, if_pos rfl]
  obtain ⟨g, eq, file, ungotc, line, buf, size⟩ := flushed_eq rel
  have landed : ∀ h : FILE, ∀ t, t = p.target off whence →
      (if (lseek h t).2 < 0 then ({ (lseek h t).1 with err := true }, -1) else ((lseek h t).1, 0)) =
        ({ h with fd := { h.fd with pos := (p.target off whence).toNat } }, (0 : Int)) := by
    rintro h _ rfl
    have inside : ¬ p.target off whence < 0 := not_lt.2 allowed
    rw [lseek, if_neg inside, if_neg inside]
  have run : step m f (.fseek off whence) =
      ({ g with bufInsize := 0, bufPos := 0, fd := { g.fd with pos := (p.target off whence).toNat } }, 0) := by
    rw [step, fseek, tell, if_neg (not_lt.2 nonneg)]
    dsimp only
    rw [eq]
    cases whence with
    | set => exact landed _ _ rfl
    | cur => exact landed _ _ (by rw [Plain.target, here, offset_eq rel (flushed rfl)])
    | stop => exact landed _ _ (by rw [Plain.target, file])
  rw [run, Plain.step]
  refine ⟨rfl, { pushed := ?_, full := line, room := fun b some => ?_, empty := fun _ => ⟨rfl, rfl⟩
                 writing := fun _ => ⟨rfl, ?_, rfl, fun _ => rfl⟩
                 reading := fun _ => ⟨file.symm, rfl, le_refl _, nofun, fun _ => rfl, nofun⟩ }⟩
  · exact (ungotc.trans pushed).symm
  · obtain ⟨length, pos, _⟩ := rel.room b (buf.symm.trans some)
    dsimp only
    rw [size]
    exact ⟨length, pos, zero_le _, zero_le _⟩
  · rw [take_zero, write_nil]
    exact file.symm

theorem step_sim (op : Op) (allowed : Allowed p op) (sound : Sound m p f op) :
    (p.step op).2 = (step m f op).2 ∧ Rel (p.step op).1 (step m f op).1 := by
  cases op with
  | fputc c => exact fputc_sim rel c allowed
  | fgetc => exact fgetc_sim rel allowed sound
  | ungetc c => exact ungetc_sim rel c allowed
  | fflush => exact fflush_sim rel
  | fseek off whence => exact fseek_sim rel off whence allowed sound
  | ftell => exact ftell_sim rel sound

end Steps

def run (m : Machine) : FILE → List Op → FILE × List Int
  | f, [] => (f, [])
  | f, op :: ops => ((run m (step m f op).1 ops).1, (step m f op).2 :: (run m (step m f op).1 ops).2)

def Plain.run : Plain → List Op → Plain × List Int
  | p, [] => (p, [])
  | p, op :: ops => (((p.step op).1.run ops).1, (p.step op).2 :: ((p.step op).1.run ops).2)

def Orderly : Plain → List Op → Prop
  | _, [] => True
  | p, op :: ops => Allowed p op ∧ Orderly (p.step op).1 ops

def SoundRun (m : Machine) : Plain → FILE → List Op → Prop
  | _, _, [] => True
  | p, f, op :: ops => Sound m p f op ∧ SoundRun m (p.step op).1 (step m f op).1 ops

instance (p : Plain) : (op : Op) → Decidable (Allowed p op)
  | .fputc _ => inferInstanceAs (Decidable (p.last ≠ .input))
  | .fgetc => inferInstanceAs (Decidable (p.last ≠ .output))
  | .ungetc _ => inferInstanceAs (Decidable (p.last ≠ .output ∧ p.pushed = none))
  | .fflush => .isTrue trivial
  | .fseek off whence => inferInstanceAs (Decidable (0 ≤ p.target off whence))
  | .ftell => .isTrue trivial

instance (m : Machine) (p : Plain) (f : FILE) : (op : Op) → Decidable (Sound m p f op)
  | .fgetc => inferInstanceAs (Decidable (f.ungotc = none → f.bufWrite = true → f.fd.file.size ≤ f.fd.pos))
  | .fseek _ whence => inferInstanceAs (Decidable (f.ungotc = none ∧ offset f < 2 ^ (longBits m - 1) ∧
      (whence = .cur → f.bufWrite = true → f.bufPos = 0)))
  | .ftell => inferInstanceAs (Decidable (p.tell < 2 ^ (longBits m - 1) ∧ (f.bufWrite = true → f.bufPos = 0)))
  | .fputc _ => .isTrue trivial
  | .ungetc _ => .isTrue trivial
  | .fflush => .isTrue trivial

instance decidableOrderly : (p : Plain) → (ops : List Op) → Decidable (Orderly p ops)
  | _, [] => .isTrue trivial
  | p, op :: ops =>
    have := decidableOrderly (p.step op).1 ops
    inferInstanceAs (Decidable (Allowed p op ∧ Orderly (p.step op).1 ops))

instance decidableSoundRun (m : Machine) : (p : Plain) → (f : FILE) → (ops : List Op) → Decidable (SoundRun m p f ops)
  | _, _, [] => .isTrue trivial
  | p, f, op :: ops =>
    have := decidableSoundRun m (p.step op).1 (step m f op).1 ops
    inferInstanceAs (Decidable (Sound m p f op ∧ SoundRun m (p.step op).1 (step m f op).1 ops))

/-- A stream on the file, with a buffer that was given or without one. -/
def fopen (file : File Byte) (pos : Nat) (given : Option (List Byte)) : FILE :=
  { fd := ⟨file, pos⟩, ungotc := none, eof := false, err := false, lineBuf := false, buf := given
    bufSize := (given.getD []).length, bufPos := 0, bufInsize := 0, bufWrite := false }

def Plain.fopen (file : File Byte) (pos : Nat) : Plain := ⟨file, pos, none, .none⟩

theorem rel_fopen (file : File Byte) (pos : Nat) {given : Option (List Byte)} (room : given ≠ some []) :
    Rel (Plain.fopen file pos) (fopen file pos given) where
  pushed := rfl
  full := rfl
  room := by
    rintro buf rfl
    have some : buf ≠ [] := fun eq => room (congrArg _ eq)
    exact ⟨rfl, length_pos_of_ne_nil some, zero_le _, zero_le _⟩
  empty _ := ⟨rfl, rfl⟩
  writing := nofun
  reading _ := ⟨rfl, rfl, le_refl _, nofun, fun _ => rfl, nofun⟩

theorem run_sim (ops : List Op) (rel : Rel p f) (orderly : Orderly p ops)
    (sound : SoundRun m p f ops) : (p.run ops).2 = (run m f ops).2 ∧ Rel (p.run ops).1 (run m f ops).1 := by
  induction ops generalizing p f with
  | nil => exact ⟨rfl, rel⟩
  | cons op ops ih =>
    obtain ⟨value, rel⟩ := step_sim rel op orderly.1 sound.1
    obtain ⟨values, rel⟩ := ih rel orderly.2 sound.2
    exact ⟨congrArg₂ cons value values, rel⟩

theorem flushed_file (rel : Rel p f) : (fflush f).1.fd.file = p.file := by
  cases write : f.bufWrite with
  | true =>
    obtain ⟨g, eq, file, _⟩ := flushed_eq rel
    rw [write, if_pos rfl] at eq
    rw [eq, file]
  | false =>
    obtain ⟨file, _⟩ := rel.reading write
    rw [file, fflush]
    cases f.buf with
    | none => rfl
    | some buf => simp [write]

/-- The stream returns what the file returns, and leaves the same file when it is flushed. -/
def LikeFile (m : Machine) (file : File Byte) (pos : Nat) (given : Option (List Byte)) (ops : List Op) : Prop :=
  (run m (fopen file pos given) ops).2 = ((Plain.fopen file pos).run ops).2 ∧
    (fflush (run m (fopen file pos given) ops).1).1.fd.file = ((Plain.fopen file pos).run ops).1.file

theorem stream_is_file (m : Machine) (file : File Byte) (pos : Nat) (given : Option (List Byte)) (ops : List Op)
    (room : given ≠ some []) (orderly : Orderly (Plain.fopen file pos) ops)
    (sound : SoundRun m (Plain.fopen file pos) (fopen file pos given) ops) : LikeFile m file pos given ops := by
  obtain ⟨values, rel⟩ := run_sim ops (rel_fopen file pos room) orderly sound
  exact ⟨values.symm, flushed_file rel⟩

def digits : File Byte := ⟨3, fun k => if k = 0 then 1 else if k = 1 then 2 else if k = 2 then 3 else 0⟩

/-- Reading three characters, going back and writing two over them. -/
theorem stream_is_file_digits :
    LikeFile .amd64 digits 0 (some [0, 0])
      [.fgetc, .fgetc, .ungetc 7, .fgetc, .ftell, .fseek 1 .set, .fputc 8, .fputc 9, .fflush, .ftell, .fgetc] :=
  stream_is_file .amd64 digits 0 (some [0, 0]) _ (by decide) (by decide) (by decide)

/-- After output and `fflush` the first character read comes from the file, and the next one is the same again: what
    was read ahead is taken for output, and is written. -/
theorem stream_not_file : ¬ ∀ (m : Machine) (file : File Byte) (pos : Nat) (given : Option (List Byte)) (ops : List Op),
    given ≠ some [] → Orderly (Plain.fopen file pos) ops → LikeFile m file pos given ops := by
  intro all
  have like := (all .amd64 digits 0 none [.fputc 9, .fflush, .fgetc, .fgetc] nofun
    (by decide)).1
  exact absurd like (by decide)

end Stream
