import Newsys.Lib.Bytes
import Newsys.Lib.Ring

/- Pseudo-terminals (kern/fs/pty/ptyfs.c): two rings of bytes, a line buffer in front of one of them, and
   the tasks that read and write at both ends. A task runs from one suspension to the next; in between
   other tasks use the terminal. -/
namespace Ptyfs
open Bytes Ring List

def maxCanon : Nat := 256

def bufSize : Nat := 1870

/- Flags and special characters (include/termios.h) -/

abbrev fISIG : Nat := 1
abbrev fICANON : Nat := 2
abbrev fECHO : Nat := 4
abbrev fECHONL : Nat := 8
abbrev fECHOCTL : Nat := 16

abbrev vINTR : Nat := 0
abbrev vQUIT : Nat := 1
abbrev vERASE : Nat := 2
abbrev vKILL : Nat := 3
abbrev vEOF : Nat := 4
abbrev vREPRINT : Nat := 7

abbrev eAGAIN : Nat := 15

structure Termios where
  lflag : Nat
  cc : Nat → Byte

/-- One ring, with the bytes that have been stored in it and taken out of it, and whether an index has ever
    been outside its buffer. -/
structure Half where
  buf : Mem
  count : Nat
  p0 : Nat
  p1 : Nat
  stored : List Byte
  taken : List Byte
  stray : Bool

structure Pty where
  ptmReaders : List Nat
  ptmWriters : List Nat
  ptsReaders : List Nat
  ptsWriters : List Nat
  ptmFso : Bool
  ptsFso : Bool
  canonBuf : Mem
  inp : Half
  out : Half
  tio : Termios
  canonCount : Nat
  canonIntr : Bool
  canonEot : Bool

/-- Where a task is: not in the terminal, or in front of a loop that waits for bytes or for space. A task
    that waits has not asked for no delay; a writer has fetched its next byte. -/
inductive Pc where
  | idle
  | ptmReading (count : Nat) (mem : Mem)
  | ptsReading (count : Nat) (mem : Mem)
  | ptmWriting (ch : Byte) (rest : List (Option Byte))
  | ptsWriting (ch : Byte) (rest : List (Option Byte))

/-- The terminal and its tasks, with the bytes that the reads at both ends have returned, and whether an
    index has ever been outside the line buffer. -/
structure Sys where
  pty : Pty
  pc : Nat → Pc
  paused : Nat → Bool
  ptmGot : List Byte
  ptsGot : List Byte
  stray : Bool

def Sys.has (s : Sys) (flag : Nat) : Prop := s.pty.tio.lflag &&& flag ≠ 0

instance (s : Sys) (flag : Nat) : Decidable (s.has flag) := inferInstanceAs (Decidable (_ ≠ _))

def probe (s : Sys) (i : Nat) : Sys := { s with stray := s.stray || decide (maxCanon ≤ i) }

def setPc (s : Sys) (t : Nat) (pc : Pc) : Sys := { s with pc := Function.update s.pc t pc }

/- Sleeping and waking up -/

def wake (s : Sys) (q : List Nat) : Nat → Bool := fun t => s.paused t && !decide (t ∈ q)

def ptyResumePtmR (s : Sys) : Sys :=
  { s with pty := { s.pty with ptmReaders := [] }, paused := wake s s.pty.ptmReaders }

def ptyResumePtmW (s : Sys) : Sys :=
  { s with pty := { s.pty with ptmWriters := [] }, paused := wake s s.pty.ptmWriters }

def ptyResumePtsR (s : Sys) : Sys :=
  { s with pty := { s.pty with ptsReaders := [] }, paused := wake s s.pty.ptsReaders }

def ptyResumePtsW (s : Sys) : Sys :=
  { s with pty := { s.pty with ptsWriters := [] }, paused := wake s s.pty.ptsWriters }

/-- `task_suspend(q, WAIT_INTR)`; each caller puts the task in its queue. -/
def sleep (s : Sys) (t : Nat) (pc : Pc) : Sys := setPc { s with paused := Function.update s.paused t true } t pc

/-- `task_resume`, by a signal or otherwise: the task leaves the queue it is in. -/
def taskResume (s : Sys) (t : Nat) : Sys :=
  if s.paused t then
    { s with pty := { s.pty with
        ptmReaders := s.pty.ptmReaders.erase t, ptmWriters := s.pty.ptmWriters.erase t
        ptsReaders := s.pty.ptsReaders.erase t, ptsWriters := s.pty.ptsWriters.erase t }
             paused := Function.update s.paused t false }
  else s

def Half.store (q : Half) (ch : Byte) : Half :=
  { q with buf := put q.buf q.p0 ch
           count := q.count + 1
           p0 := (q.p0 + 1) % bufSize
           stored := q.stored ++ [ch]
           stray := q.stray || decide (bufSize ≤ q.p0) }

def Half.load (q : Half) : Half :=
  { q with count := q.count - 1
           p1 := (q.p1 + 1) % bufSize
           taken := q.taken ++ [q.buf q.p1]
           stray := q.stray || decide (bufSize ≤ q.p1) }

/-- The loop of the two reads: `left` bytes go to the caller's memory, from `off` on. -/
def Half.fetch : Nat → Nat → Mem → Half → Mem × Half
  | 0, _, mem, q => (mem, q)
  | left + 1, off, mem, q => Half.fetch left (off + 1) (put mem off (q.buf q.p1)) q.load

def storeIn (s : Sys) (ch : Byte) : Sys := { s with pty := { s.pty with inp := s.pty.inp.store ch } }

def storeOut (s : Sys) (ch : Byte) : Sys := { s with pty := { s.pty with out := s.pty.out.store ch } }

def ptyEcho (s : Sys) (ch : Byte) : Sys :=
  if s.pty.out.count ≠ bufSize then ptyResumePtmR (storeOut s ch) else s

def ptyCecho (s : Sys) (ch : Byte) : Sys :=
  if s.has fECHOCTL ∧ ch.toNat < 0x20 then ptyEcho (ptyEcho s 0x5e) (ch + 0x40)
  else if s.has fECHOCTL ∧ ch = 127 then ptyEcho (ptyEcho s 0x5e) 0x3f
  else ptyEcho s ch

def ptyEraseCh (s : Sys) (ch : Byte) : Sys :=
  if (ch.toNat < 0x20 ∨ ch = 127) ∧ s.has fECHOCTL then
    [8, 8, 32, 32, 8, 8].foldl ptyEcho s
  else [8, 32, 8].foldl ptyEcho s

def setCanonCount (s : Sys) (n : Nat) : Sys := { s with pty := { s.pty with canonCount := n } }

def dropCanon (s : Sys) (n : Nat) : Sys :=
  let s := setCanonCount s n
  if s.has fECHO then ptyEraseCh (probe s n) (s.pty.canonBuf n) else s

def killLine : Nat → Sys → Sys
  | 0, s => s
  | n + 1, s => killLine n (dropCanon s n)

def pushCanon (s : Sys) (ch : Byte) : Sys :=
  { probe s s.pty.canonCount with pty := { s.pty with
      canonBuf := put s.pty.canonBuf s.pty.canonCount ch, canonCount := s.pty.canonCount + 1 } }

def reprint : Nat → Nat → Sys → Sys
  | 0, _, s => s
  | n + 1, i, s => reprint n (i + 1) (ptyCecho (probe s i) (s.pty.canonBuf i))

/-- The loop that delivers a line, from character `i` on; it stops where the ring is full. -/
def deliver : Nat → Nat → Sys → Sys
  | 0, _, s => s
  | n + 1, i, s =>
    if bufSize ≤ s.pty.inp.count then s
    else deliver n (i + 1) (storeIn (probe s i) (s.pty.canonBuf i))

def echoLine (s : Sys) (ch : Byte) : Sys := if s.has fECHO then ptyEcho (ptyCecho s ch) 10 else s

def ptyCanonInput (s : Sys) (ch : Byte) : Sys :=
  let cc := s.pty.tio.cc
  if ch = cc vKILL then killLine s.pty.canonCount s
  else if ch = cc vEOF then echoLine { s with pty := { s.pty with canonEot := true } } ch
  else if ch = cc vINTR then echoLine (if s.has fISIG then setCanonCount s 0 else s) ch
  else if ch = cc vREPRINT then
    if s.has fECHO then reprint s.pty.canonCount 0 ([10, 0x3e, 32].foldl ptyEcho s) else s
  else if ch = cc vQUIT then echoLine (if s.has fISIG then setCanonCount s 0 else s) ch
  else if ch = cc vERASE then if s.pty.canonCount = 0 then s else dropCanon s (s.pty.canonCount - 1)
  else if ch = 13 then s
  else if ch = 10 then
    let s := if s.pty.canonCount < maxCanon then
        let s := pushCanon s 10
        if s.has (fECHO ||| fECHONL) then ptyEcho s 10 else s
      else s
    ptyResumePtsR (setCanonCount (deliver s.pty.canonCount 0 s) 0)
  else if s.pty.canonCount < maxCanon then
    let s := pushCanon s ch
    if s.has fECHO then ptyCecho s ch else s
  else s

def ptmTake (s : Sys) (t count : Nat) (mem : Mem) : Sys :=
  let count := if count > s.pty.out.count then s.pty.out.count else count
  let (mem, out) := s.pty.out.fetch count 0 mem
  setPc (ptyResumePtsW { s with pty := { s.pty with out := out }, ptmGot := s.ptmGot ++ slice mem 0 count }) t .idle

def ptmRead (s : Sys) (t count : Nat) (mem : Mem) (noDelay intr : Bool) : Sys :=
  if s.pty.out.count = 0 then
    if noDelay then setPc s t .idle
    else if intr then setPc s t .idle
    else sleep { s with pty := { s.pty with ptmReaders := s.pty.ptmReaders ++ [t] } } t (.ptmReading count mem)
  else ptmTake s t count mem

def ptsTake (s : Sys) (t count : Nat) (mem : Mem) : Sys :=
  let count := if count > s.pty.inp.count then s.pty.inp.count else count
  let (mem, inp) := s.pty.inp.fetch count 0 mem
  setPc (ptyResumePtmW { s with pty := { s.pty with inp := inp }, ptsGot := s.ptsGot ++ slice mem 0 count }) t .idle

/-- What `pts_read` does at `restart` when it does not go on from there. -/
def ptsLeave (s : Sys) (t : Nat) : Sys :=
  if !s.pty.ptmFso then setPc s t .idle
  else setPc { s with pty := { s.pty with canonCount := 0, canonIntr := false } } t .idle

/-- The loop of `pts_read`. Without delay it leaves the error code in the count and reports success. -/
def ptsReadLoop (s : Sys) (t count : Nat) (mem : Mem) (noDelay intr : Bool) : Sys :=
  if s.pty.inp.count = 0 then
    if noDelay then setPc { s with ptsGot := s.ptsGot ++ slice mem 0 eAGAIN } t .idle
    else if s.pty.canonIntr ∨ !s.pty.ptmFso then ptsLeave s t
    else if s.pty.canonEot then ptsTake { s with pty := { s.pty with canonEot := false } } t count mem
    else if intr then setPc s t .idle
    else sleep { s with pty := { s.pty with ptsReaders := s.pty.ptsReaders ++ [t] } } t (.ptsReading count mem)
  else ptsTake s t count mem

def ptsRead (s : Sys) (t count : Nat) (mem : Mem) (noDelay intr : Bool) : Sys :=
  if !s.pty.ptmFso ∨ s.pty.canonIntr then ptsLeave s t else ptsReadLoop s t count mem noDelay intr

def ptmDone (s : Sys) (t : Nat) : Sys := setPc (ptyResumePtsR s) t .idle

def ptmFull (s : Sys) (t : Nat) (ch : Byte) (rest : List (Option Byte)) (noDelay sig intr : Bool) : Sys :=
  if noDelay then ptmDone s t
  else if sig then ptmDone s t
  else
    let s := ptyResumePtsR s
    if intr then ptmDone s t
    else sleep { s with pty := { s.pty with ptmWriters := s.pty.ptmWriters ++ [t] } } t (.ptmWriting ch rest)

def rawInput (s : Sys) (ch : Byte) : Sys :=
  let s := storeIn s ch
  if s.has fECHO then ptyEcho s ch else s

/-- The loop of `ptm_write` up to its end or to the next suspension, over the bytes that are left; `fucpy`
    fails on those that cannot be read. -/
def ptmWriteLoop (s : Sys) (t : Nat) (noDelay sig intr : Bool) : List (Option Byte) → Sys
  | [] => ptmDone s t
  | none :: _ => ptmDone s t
  | some ch :: rest =>
    if s.has fICANON then ptmWriteLoop (ptyCanonInput s ch) t noDelay sig intr rest
    else if bufSize ≤ s.pty.inp.count then ptmFull s t ch rest noDelay sig intr
    else ptmWriteLoop (rawInput s ch) t noDelay sig intr rest

/-- `ptm_write` goes on with a byte that it has fetched before it was suspended. -/
def ptmWriteOn (s : Sys) (t : Nat) (ch : Byte) (rest : List (Option Byte)) (sig intr : Bool) : Sys :=
  if bufSize ≤ s.pty.inp.count then ptmFull s t ch rest false sig intr
  else ptmWriteLoop (rawInput s ch) t false sig intr rest

def ptmWrite (s : Sys) (t : Nat) (buf : List (Option Byte)) (noDelay sig intr : Bool) : Sys :=
  if buf = [] then s else ptmWriteLoop s t noDelay sig intr buf

def ptsDone (s : Sys) (t : Nat) : Sys := setPc (ptyResumePtmR s) t .idle

def ptsFull (s : Sys) (t : Nat) (ch : Byte) (rest : List (Option Byte)) (noDelay sig intr : Bool) : Sys :=
  if !s.pty.ptmFso then ptsDone s t
  else if s.pty.canonIntr then ptsDone { s with pty := { s.pty with canonIntr := false } } t
  else if noDelay then ptsDone s t
  else if sig then ptsDone s t
  else
    let s := ptyResumePtmR s
    if intr then ptsDone s t
    else sleep { s with pty := { s.pty with ptsWriters := s.pty.ptsWriters ++ [t] } } t (.ptsWriting ch rest)

def ptsWriteLoop (s : Sys) (t : Nat) (noDelay sig intr : Bool) : List (Option Byte) → Sys
  | [] => ptsDone s t
  | none :: _ => ptsDone s t
  | some ch :: rest =>
    if bufSize ≤ s.pty.out.count then ptsFull s t ch rest noDelay sig intr
    else ptsWriteLoop (storeOut s ch) t noDelay sig intr rest

def ptsWriteOn (s : Sys) (t : Nat) (ch : Byte) (rest : List (Option Byte)) (sig intr : Bool) : Sys :=
  if bufSize ≤ s.pty.out.count then ptsFull s t ch rest false sig intr
  else ptsWriteLoop (storeOut s ch) t false sig intr rest

def ptsWrite (s : Sys) (t : Nat) (buf : List (Option Byte)) (noDelay sig intr : Bool) : Sys :=
  if buf = [] then s else ptsWriteLoop s t noDelay sig intr buf

inductive Act where
  | ptmRead (t count : Nat) (mem : Mem) (noDelay intr : Bool)
  | ptsRead (t count : Nat) (mem : Mem) (noDelay intr : Bool)
  | ptmWrite (t : Nat) (buf : List (Option Byte)) (noDelay sig intr : Bool)
  | ptsWrite (t : Nat) (buf : List (Option Byte)) (noDelay sig intr : Bool)
  | go (t : Nat) (sig intr : Bool)
  | resume (t : Nat)
  | tcset (tio : Termios)
  | getPts
  | putPtm
  | putPts

/-- A task that is not in the terminal may start a call at an end that is open, one that has been resumed
    goes on; anyone who has the terminal open may change its settings, and its ends are opened and closed for the last time. The
    terminal is freed with the second end, which ends the run. -/
def step (s : Sys) : Act → Option Sys
  | .ptmRead t count mem noDelay intr =>
    match s.pc t with
    | .idle => if s.pty.ptmFso then some (ptmRead s t count mem noDelay intr) else none
    | _ => none
  | .ptsRead t count mem noDelay intr =>
    match s.pc t with
    | .idle => if s.pty.ptsFso then some (ptsRead s t count mem noDelay intr) else none
    | _ => none
  | .ptmWrite t buf noDelay sig intr =>
    match s.pc t with
    | .idle => if s.pty.ptmFso then some (ptmWrite s t buf noDelay sig intr) else none
    | _ => none
  | .ptsWrite t buf noDelay sig intr =>
    match s.pc t with
    | .idle => if s.pty.ptsFso then some (ptsWrite s t buf noDelay sig intr) else none
    | _ => none
  | .go t sig intr =>
    if s.paused t then none
    else match s.pc t with
      | .idle => none
      | .ptmReading count mem => some (ptmRead s t count mem false intr)
      | .ptsReading count mem => some (ptsReadLoop s t count mem false intr)
      | .ptmWriting ch rest => some (ptmWriteOn s t ch rest sig intr)
      | .ptsWriting ch rest => some (ptsWriteOn s t ch rest sig intr)
  | .resume t => some (taskResume s t)
  | .tcset tio => some { s with pty := { s.pty with tio := tio } }
  | .getPts => if s.pty.ptmFso then some { s with pty := { s.pty with ptsFso := true } } else none
  | .putPtm =>
    if s.pty.ptmFso ∧ s.pty.ptsFso then
      some (ptyResumePtsW (ptyResumePtsR { s with pty := { s.pty with ptmFso := false } }))
    else none
  | .putPts =>
    if s.pty.ptmFso ∧ s.pty.ptsFso then
      some (ptyResumePtmR { s with pty := { s.pty with ptsFso := false } })
    else none

def initialTio : Termios :=
  ⟨fICANON ||| fISIG ||| fECHO ||| fECHONL ||| fECHOCTL,
    fun k => [3, 0x1c, 8, 0x15, 4, 0x17, 0x14, 0x12].getD k 0⟩

def newPty : Sys :=
  let empty : Half := ⟨zero, 0, 0, 0, [], [], false⟩
  ⟨⟨[], [], [], [], true, false, zero, empty, empty, initialTio, 0, false, false⟩, fun _ => .idle, fun _ => false,
    [], [], false⟩

inductive Reached (cond : Sys → Act → Prop) : Sys → Prop where
  | new : Reached cond newPty
  | step {s s' : Sys} {a : Act} : Reached cond s → cond s a → step s a = some s' → Reached cond s'

/- What holds of one ring -/

theorem bufSize_pos : 0 < bufSize := by decide

structure Half.Ok (q : Half) : Prop where
  count : q.count ≤ bufSize
  p1 : q.p1 < bufSize
  p0 : q.p0 = (q.p1 + q.count) % bufSize
  bytes : q.stored = q.taken ++ window q.buf bufSize q.p1 q.count
  stray : q.stray = false

namespace Half
variable {q : Half}

theorem Ok.store (ok : q.Ok) (room : q.count < bufSize) (ch : Byte) : (q.store ch).Ok := by
  have inside : q.p0 < bufSize := by
    rw [ok.p0]
    exact Nat.mod_lt _ bufSize_pos
  refine ⟨room, ok.p1, ?_, ?_, ?_⟩
  · show (q.p0 + 1) % bufSize = (q.p1 + (q.count + 1)) % bufSize
    rw [ok.p0, Nat.mod_add_mod, add_assoc]
  · show q.stored ++ [ch] = q.taken ++ window (put q.buf q.p0 ch) bufSize q.p1 (q.count + 1)
    rw [window_push (m := q.buf) room, ok.bytes, append_assoc]
    · show (if _ = q.p0 then ch else _) = ch
      rw [if_pos ok.p0.symm]
    · intro k ne
      show (if k = q.p0 then ch else q.buf k) = q.buf k
      rw [if_neg (by rw [ok.p0]; exact ne)]
  · show (q.stray || decide (bufSize ≤ q.p0)) = false
    rw [ok.stray, decide_eq_false (by omega)]
    rfl

theorem Ok.load (ok : q.Ok) (some : 0 < q.count) : q.load.Ok := by
  have count := ok.count
  obtain ⟨n, eq⟩ : ∃ n, q.count = n + 1 := ⟨q.count - 1, by omega⟩
  refine ⟨?_, Nat.mod_lt _ bufSize_pos, ?_, ?_, ?_⟩
  · show q.count - 1 ≤ bufSize
    omega
  · show q.p0 = ((q.p1 + 1) % bufSize + (q.count - 1)) % bufSize
    rw [Nat.mod_add_mod, ok.p0]
    congr 1
    omega
  · show q.stored = q.taken ++ [q.buf q.p1] ++ window q.buf bufSize ((q.p1 + 1) % bufSize) (q.count - 1)
    rw [ok.bytes, eq, window_succ, Nat.mod_eq_of_lt ok.p1, Nat.add_sub_cancel, append_assoc]
    rfl
  · have p1 := ok.p1
    show (q.stray || decide (bufSize ≤ q.p1)) = false
    rw [ok.stray, decide_eq_false (by omega)]
    rfl

theorem Ok.fetch (ok : q.Ok) (le : left ≤ q.count) (off : Nat) (mem : Mem) :
    (q.fetch left off mem).2.Ok ∧ ∃ bytes : List Byte, bytes.length = left ∧
      (q.fetch left off mem).1 = blit mem off bytes ∧ (q.fetch left off mem).2.taken = q.taken ++ bytes := by
  induction left generalizing q off mem with
  | zero =>
    refine ⟨ok, [], rfl, ?_, (append_nil _).symm⟩
    funext k
    simp only [Half.fetch, blit, length_nil]
    rw [if_neg (by omega)]
  | succ left ih =>
    have rest : left ≤ q.load.count := by
      show left ≤ q.count - 1
      omega
    obtain ⟨ok', bytes, length, memory, taken⟩ := ih (ok.load (by omega)) rest (off + 1) (put mem off (q.buf q.p1))
    refine ⟨ok', q.buf q.p1 :: bytes, by rw [length_cons, length], ?_, ?_⟩
    · rw [blit_cons]
      exact memory
    · show (Half.fetch left _ _ q.load).2.taken = _
      rw [taken]
      show q.taken ++ [q.buf q.p1] ++ bytes = q.taken ++ q.buf q.p1 :: bytes
      rw [append_assoc]
      rfl

end Half

/- What holds of a terminal -/

/-- Both rings and the line buffer are in order, and what the reads at the master's end have returned has
    been taken from the ring. Under `P` this is also true of the other end. -/
structure Inv (P : Prop) (s : Sys) : Prop where
  inp : s.pty.inp.Ok
  out : s.pty.out.Ok
  canon : s.pty.canonCount ≤ maxCanon
  stray : s.stray = false
  master : s.ptmGot = s.pty.out.taken
  slave : P → s.ptsGot = s.pty.inp.taken

namespace Inv
variable {P : Prop} {s s' : Sys} {t count : Nat} {ch : Byte} {rest : List (Option Byte)} {mem : Mem}
  {noDelay sig intr : Bool}

section
variable (inv : Inv P s)
include inv

theorem congr (inp : s'.pty.inp = s.pty.inp) (out : s'.pty.out = s.pty.out)
    (canon : s'.pty.canonCount ≤ s.pty.canonCount) (stray : s'.stray = s.stray) (ptmGot : s'.ptmGot = s.ptmGot)
    (ptsGot : s'.ptsGot = s.ptsGot) : Inv P s' := by
  refine ⟨?_, ?_, le_trans canon inv.canon, stray.trans inv.stray, ?_, fun p => ?_⟩
  · rw [inp]
    exact inv.inp
  · rw [out]
    exact inv.out
  · rw [ptmGot, out]
    exact inv.master
  · rw [ptsGot, inp]
    exact inv.slave p

theorem probe (lt : i < maxCanon) : Inv P (probe s i) := by
  refine ⟨inv.inp, inv.out, inv.canon, ?_, inv.master, inv.slave⟩
  show (s.stray || decide (maxCanon ≤ i)) = false
  rw [inv.stray, decide_eq_false (by omega)]
  rfl

theorem storeIn (room : s.pty.inp.count < bufSize) (ch : Byte) : Inv P (storeIn s ch) :=
  ⟨inv.inp.store room ch, inv.out, inv.canon, inv.stray, inv.master, inv.slave⟩

theorem storeOut (room : s.pty.out.count < bufSize) (ch : Byte) : Inv P (storeOut s ch) :=
  ⟨inv.inp, inv.out.store room ch, inv.canon, inv.stray, inv.master, inv.slave⟩

theorem setPc (pc : Pc) : Inv P (setPc s t pc) := inv.congr rfl rfl (le_refl _) rfl rfl rfl

end

theorem ite {c : Prop} [Decidable c] (yes : c → Inv P s) (no : ¬ c → Inv P s') :
    Inv P (if c then s else s') := by
  by_cases h : c
  · rw [if_pos h]
    exact yes h
  · rw [if_neg h]
    exact no h

section
variable (inv : Inv P s)
include inv

theorem echo (ch : Byte) : Inv P (ptyEcho s ch) := by
  rw [ptyEcho]
  split
  · rename_i room
    have count := inv.out.count
    exact (inv.storeOut (by omega) ch).congr rfl rfl (le_refl _) rfl rfl rfl
  · exact inv

theorem echoAll (chs : List Byte) : Inv P (chs.foldl ptyEcho s) := by
  induction chs generalizing s with
  | nil => exact inv
  | cons ch chs ih => exact ih (inv.echo ch)

theorem cecho (ch : Byte) : Inv P (ptyCecho s ch) := by
  rw [ptyCecho]
  split
  · exact (inv.echo _).echo _
  · split
    · exact (inv.echo _).echo _
    · exact inv.echo ch

theorem eraseCh (ch : Byte) : Inv P (ptyEraseCh s ch) := by
  rw [ptyEraseCh]
  split <;> exact inv.echoAll _

theorem echoLine (ch : Byte) : Inv P (echoLine s ch) := by
  rw [Ptyfs.echoLine]
  split
  · exact (inv.cecho ch).echo 10
  · exact inv

theorem setCanonCount (le : n ≤ maxCanon) : Inv P (setCanonCount s n) :=
  ⟨inv.inp, inv.out, le, inv.stray, inv.master, inv.slave⟩

theorem dropCanon (lt : n < maxCanon) : Inv P (dropCanon s n) := by
  have short := inv.setCanonCount (le_of_lt lt)
  simp only [Ptyfs.dropCanon]
  split
  · exact (short.probe lt).eraseCh _
  · exact short

end

theorem killLine (n : Nat) : ∀ {s : Sys}, Inv P s → n ≤ maxCanon → Inv P (killLine n s) := by
  induction n with
  | zero => exact fun inv _ => inv
  | succ n ih => exact fun inv le => ih (inv.dropCanon le) (Nat.le_of_succ_le le)

theorem pushCanon (inv : Inv P s) (lt : s.pty.canonCount < maxCanon) (ch : Byte) : Inv P (pushCanon s ch) :=
  ⟨inv.inp, inv.out, lt, (inv.probe lt).stray, inv.master, inv.slave⟩

theorem reprint (n : Nat) : ∀ {i : Nat} {s : Sys}, Inv P s → i + n ≤ maxCanon → Inv P (reprint n i s) := by
  induction n with
  | zero => exact fun inv _ => inv
  | succ n ih =>
    intro i s inv le
    exact ih ((inv.probe (by omega)).cecho _) (by omega)

theorem deliver (n : Nat) : ∀ {i : Nat} {s : Sys}, Inv P s → i + n ≤ maxCanon → Inv P (deliver n i s) := by
  induction n with
  | zero => exact fun inv _ => inv
  | succ n ih =>
    intro i s inv le
    rw [Ptyfs.deliver]
    split
    · exact inv
    · rename_i room
      exact ih ((inv.probe (by omega)).storeIn (Nat.lt_of_not_le room) _) (by omega)

section
variable (inv : Inv P s)
include inv

theorem endLine :
    Inv P (ptyResumePtsR (Ptyfs.setCanonCount (Ptyfs.deliver s.pty.canonCount 0 s) 0)) := by
  have delivered := inv.deliver s.pty.canonCount (i := 0) (by have := inv.canon; omega)
  exact (delivered.setCanonCount (Nat.zero_le _)).congr rfl rfl (Nat.le_refl _) rfl rfl rfl

theorem canonInput (ch : Byte) : Inv P (ptyCanonInput s ch) := by
  have cut : Inv P (if s.has fISIG then Ptyfs.setCanonCount s 0 else s) := by
    split
    · exact inv.setCanonCount (Nat.zero_le _)
    · exact inv
  unfold ptyCanonInput
  refine ite (fun _ => inv.killLine _ inv.canon) fun _ => ?_
  refine ite (fun _ => ?_) fun _ => ?_
  · have marked : Inv P { s with pty := { s.pty with canonEot := true } } :=
      inv.congr rfl rfl (le_refl _) rfl rfl rfl
    exact marked.echoLine ch
  refine ite (fun _ => cut.echoLine ch) fun _ => ?_
  refine ite (fun _ => ite (fun _ => ?_) fun _ => inv) fun _ => ?_
  · exact (inv.echoAll _).reprint _ (by have := inv.canon; omega)
  refine ite (fun _ => cut.echoLine ch) fun _ => ?_
  refine ite (fun _ => ite (fun _ => inv) fun _ => inv.dropCanon (by have := inv.canon; omega)) fun _ => ?_
  refine ite (fun _ => inv) fun _ => ?_
  refine ite (fun _ => endLine (ite (fun room => ?_) fun _ => inv)) fun _ => ?_
  · have pushed := inv.pushCanon room 10
    exact ite (fun _ => pushed.echo 10) fun _ => pushed
  refine ite (fun room => ?_) fun _ => inv
  have pushed := inv.pushCanon room ch
  exact ite (fun _ => pushed.cecho ch) fun _ => pushed

theorem ptmTake : Inv P (ptmTake s t count mem) := by
  simp only [Ptyfs.ptmTake]
  generalize n : (if count > s.pty.out.count then s.pty.out.count else count) = n'
  have le : n' ≤ s.pty.out.count := by
    rw [← n]
    split <;> omega
  obtain ⟨ok, bytes, length, memory, taken⟩ := inv.out.fetch le 0 mem
  refine ⟨inv.inp, ok, inv.canon, inv.stray, ?_, inv.slave⟩
  show s.ptmGot ++ slice (s.pty.out.fetch n' 0 mem).1 0 n' = (s.pty.out.fetch n' 0 mem).2.taken
  rw [memory, taken, ← length, slice_blit, inv.master]

theorem ptmRead : Inv P (ptmRead s t count mem noDelay intr) := by
  rw [Ptyfs.ptmRead]
  split
  · split
    · exact inv.setPc _
    · split
      · exact inv.setPc _
      · exact inv.congr rfl rfl (le_refl _) rfl rfl rfl
  · exact inv.ptmTake

theorem ptsTake : Inv P (ptsTake s t count mem) := by
  simp only [Ptyfs.ptsTake]
  generalize n : (if count > s.pty.inp.count then s.pty.inp.count else count) = n'
  have le : n' ≤ s.pty.inp.count := by
    rw [← n]
    split <;> omega
  obtain ⟨ok, bytes, length, memory, taken⟩ := inv.inp.fetch le 0 mem
  refine ⟨ok, inv.out, inv.canon, inv.stray, inv.master, fun p => ?_⟩
  show s.ptsGot ++ slice (s.pty.inp.fetch n' 0 mem).1 0 n' = (s.pty.inp.fetch n' 0 mem).2.taken
  rw [memory, taken, ← length, slice_blit, inv.slave p]

theorem ptsLeave : Inv P (ptsLeave s t) := by
  rw [Ptyfs.ptsLeave]
  split
  · exact inv.setPc _
  · exact inv.congr rfl rfl (Nat.zero_le _) rfl rfl rfl

theorem ptsReadLoop (honest : P → noDelay = true → s.pty.inp.count ≠ 0) :
    Inv P (ptsReadLoop s t count mem noDelay intr) := by
  rw [Ptyfs.ptsReadLoop]
  split
  · rename_i empty
    split
    · rename_i delay
      exact ⟨inv.inp, inv.out, inv.canon, inv.stray, inv.master, fun p => absurd empty (honest p delay)⟩
    · split
      · exact inv.ptsLeave
      · split
        · have cleared : Inv P { s with pty := { s.pty with canonEot := false } } :=
            inv.congr rfl rfl (le_refl _) rfl rfl rfl
          exact cleared.ptsTake
        · split
          · exact inv.setPc _
          · exact inv.congr rfl rfl (le_refl _) rfl rfl rfl
  · exact inv.ptsTake

theorem ptmDone : Inv P (ptmDone s t) := inv.congr rfl rfl (le_refl _) rfl rfl rfl

theorem ptmFull : Inv P (ptmFull s t ch rest noDelay sig intr) := by
  have woken : Inv P (ptyResumePtsR s) := inv.congr rfl rfl (le_refl _) rfl rfl rfl
  simp only [Ptyfs.ptmFull]
  split
  · exact inv.ptmDone
  · split
    · exact inv.ptmDone
    · split
      · exact woken.ptmDone
      · exact woken.congr rfl rfl (le_refl _) rfl rfl rfl

theorem rawInput (room : s.pty.inp.count < bufSize) (ch : Byte) : Inv P (rawInput s ch) := by
  have stored := inv.storeIn room ch
  simp only [Ptyfs.rawInput]
  split
  · exact stored.echo ch
  · exact stored

end

theorem ptmWriteLoop (buf : List (Option Byte)) :
    ∀ {s : Sys}, Inv P s → Inv P (ptmWriteLoop s t noDelay sig intr buf) := by
  induction buf with
  | nil => exact fun inv => inv.ptmDone
  | cons b rest ih =>
    intro s inv
    cases b with
    | none => exact inv.ptmDone
    | some ch =>
      rw [Ptyfs.ptmWriteLoop]
      split
      · exact ih (inv.canonInput ch)
      · split
        · exact inv.ptmFull
        · rename_i room
          exact ih (inv.rawInput (Nat.lt_of_not_le room) ch)

theorem ptmWriteOn (inv : Inv P s) : Inv P (ptmWriteOn s t ch rest sig intr) := by
  rw [Ptyfs.ptmWriteOn]
  split
  · exact inv.ptmFull
  · rename_i room
    exact ptmWriteLoop rest (inv.rawInput (Nat.lt_of_not_le room) ch)

theorem ptsDone (inv : Inv P s) : Inv P (ptsDone s t) := inv.congr rfl rfl (le_refl _) rfl rfl rfl

theorem ptsFull (inv : Inv P s) : Inv P (ptsFull s t ch rest noDelay sig intr) := by
  have woken : Inv P (ptyResumePtmR s) := inv.congr rfl rfl (le_refl _) rfl rfl rfl
  simp only [Ptyfs.ptsFull]
  split
  · exact inv.ptsDone
  split
  · exact inv.congr rfl rfl (le_refl _) rfl rfl rfl
  split
  · exact inv.ptsDone
  split
  · exact inv.ptsDone
  split
  · exact woken.ptsDone
  · exact woken.congr rfl rfl (le_refl _) rfl rfl rfl

theorem ptsWriteLoop (buf : List (Option Byte)) :
    ∀ {s : Sys}, Inv P s → Inv P (ptsWriteLoop s t noDelay sig intr buf) := by
  induction buf with
  | nil => exact fun inv => inv.ptsDone
  | cons b rest ih =>
    intro s inv
    cases b with
    | none => exact inv.ptsDone
    | some ch =>
      rw [Ptyfs.ptsWriteLoop]
      split
      · exact inv.ptsFull
      · rename_i room
        exact ih (inv.storeOut (Nat.lt_of_not_le room) ch)

theorem ptsWriteOn (inv : Inv P s) : Inv P (ptsWriteOn s t ch rest sig intr) := by
  rw [Ptyfs.ptsWriteOn]
  split
  · exact inv.ptsFull
  · rename_i room
    exact ptsWriteLoop rest (inv.storeOut (Nat.lt_of_not_le room) ch)

end Inv

/-- A read of the slave that does not want to wait finds bytes, or the master's end closed, or an
    interrupt to report. -/
def NotEmpty (s : Sys) : Act → Prop
  | .ptsRead _ _ _ noDelay _ =>
    noDelay = true → s.pty.ptmFso = true → s.pty.canonIntr = false → s.pty.inp.count ≠ 0
  | _ => True

theorem Inv.step {P : Prop} {s s' : Sys} {a : Act} (inv : Inv P s) (honest : P → NotEmpty s a)
    (eq : step s a = some s') : Inv P s' := by
  cases a with
  | ptmRead t count mem noDelay intr =>
    simp only [Ptyfs.step] at eq
    split at eq
    · split at eq
      · cases eq
        exact inv.ptmRead
      · cases eq
    · cases eq
  | ptsRead t count mem noDelay intr =>
    simp only [Ptyfs.step] at eq
    split at eq
    · split at eq
      · cases eq
        rw [Ptyfs.ptsRead]
        split
        · exact inv.ptsLeave
        · rename_i stays
          refine inv.ptsReadLoop fun p delay => honest p delay ?_ ?_
          · exact Bool.not_eq_false _ ▸ fun closed => stays (.inl (by rw [closed]; rfl))
          · exact Bool.eq_false_iff.mpr fun intr => stays (.inr intr)
      · cases eq
    · cases eq
  | ptmWrite t buf noDelay sig intr =>
    simp only [Ptyfs.step] at eq
    split at eq
    · split at eq
      · cases eq
        rw [Ptyfs.ptmWrite]
        split
        · exact inv
        · exact inv.ptmWriteLoop buf
      · cases eq
    · cases eq
  | ptsWrite t buf noDelay sig intr =>
    simp only [Ptyfs.step] at eq
    split at eq
    · split at eq
      · cases eq
        rw [Ptyfs.ptsWrite]
        split
        · exact inv
        · exact inv.ptsWriteLoop buf
      · cases eq
    · cases eq
  | go t sig intr =>
    simp only [Ptyfs.step] at eq
    split at eq
    · cases eq
    · split at eq
      · cases eq
      · cases eq
        exact inv.ptmRead
      · cases eq
        exact inv.ptsReadLoop fun _ delay => by cases delay
      · cases eq
        exact inv.ptmWriteOn
      · cases eq
        exact inv.ptsWriteOn
  | resume t =>
    cases eq
    rw [taskResume]
    split
    · exact inv.congr rfl rfl (le_refl _) rfl rfl rfl
    · exact inv
  | tcset tio =>
    cases eq
    exact inv.congr rfl rfl (le_refl _) rfl rfl rfl
  | getPts =>
    simp only [Ptyfs.step] at eq
    split at eq
    · cases eq
      exact inv.congr rfl rfl (le_refl _) rfl rfl rfl
    · cases eq
  | putPtm =>
    simp only [Ptyfs.step] at eq
    split at eq
    · cases eq
      exact inv.congr rfl rfl (le_refl _) rfl rfl rfl
    · cases eq
  | putPts =>
    simp only [Ptyfs.step] at eq
    split at eq
    · cases eq
      exact inv.congr rfl rfl (le_refl _) rfl rfl rfl
    · cases eq

/-- The state of a ring that is a queue: `got` has come out of it, the rest of `stored` is still in it. -/
structure Half.Fifo (q : Half) (got : List Byte) : Prop where
  count : q.count ≤ bufSize
  p0 : q.p0 = (q.p1 + q.count) % bufSize
  bytes : q.stored = got ++ window q.buf bufSize q.p1 q.count
  inside : q.stray = false

/-- The rings are queues from the bytes that have been stored in them to those that the reads have
    returned, and no index has left its buffer. -/
structure Sound (s : Sys) : Prop where
  slave : s.pty.inp.Fifo s.ptsGot
  master : s.pty.out.Fifo s.ptmGot
  canon : s.pty.canonCount ≤ maxCanon
  inside : s.stray = false

theorem Half.Ok.fifo {q : Half} (ok : q.Ok) {got : List Byte} (all : got = q.taken) : q.Fifo got :=
  ⟨ok.count, ok.p0, by rw [all]; exact ok.bytes, ok.stray⟩

theorem newPty_inv (P : Prop) : Inv P newPty := by
  have empty : Half.Ok ⟨zero, 0, 0, 0, [], [], false⟩ := ⟨Nat.zero_le _, bufSize_pos, rfl, rfl, rfl⟩
  exact ⟨empty, empty, Nat.zero_le _, rfl, rfl, fun _ => rfl⟩

/-- In every run in which no read of the slave asks for no delay in front of an empty ring, both rings are
    queues whose bytes are returned in order. -/
theorem rings_sound {s : Sys} (reached : Reached NotEmpty s) : Sound s := by
  have inv : Inv True s := by
    induction reached with
    | new => exact newPty_inv True
    | step _ cond eq ih => exact ih.step (fun _ => cond) eq
  exact ⟨inv.inp.fifo (inv.slave trivial), inv.out.fifo inv.master, inv.canon, inv.stray⟩

def slaveOpened : Sys := { newPty with pty := { newPty.pty with ptsFso := true } }

theorem slaveOpened_reached (cond : Sys → Act → Prop) (any : cond newPty .getPts) : Reached cond slaveOpened :=
  .step (a := .getPts) .new any rfl

def lineTyped : Sys := ptmWrite slaveOpened 1 [some 0x68, some 0x69, some 10] false false false
def lineRead : Sys := ptsRead lineTyped 2 100 zero true false

theorem rings_sound_line : lineRead.ptsGot = [0x68, 0x69, 10] ∧ Sound lineRead := by
  have typed : Reached NotEmpty lineTyped :=
    .step (a := .ptmWrite 1 [some 0x68, some 0x69, some 10] false false false) (slaveOpened_reached _ trivial)
      trivial rfl
  have waiting : lineTyped.pty.inp.count ≠ 0 := by decide +kernel
  have taken : step lineTyped (.ptsRead 2 100 zero true false) = some lineRead := by
    have idle : lineTyped.pc 2 = .idle := rfl
    have opened : lineTyped.pty.ptsFso = true := by decide +kernel
    simp only [step, idle, opened, if_true]
    rfl
  exact ⟨by decide +kernel, rings_sound (.step (a := .ptsRead 2 100 zero true false) typed (fun _ _ _ => waiting) taken)⟩

/-- The slave reads without delay before anything has been typed: it is told that there are 15 bytes. -/
def emptyRead : Sys := ptsRead slaveOpened 1 100 (fun _ => 0x78) true false

theorem rings_not_sound_empty : Reached (fun _ _ => True) emptyRead ∧ emptyRead.pty.inp.stored = [] ∧
    emptyRead.ptsGot = List.replicate 15 0x78 ∧ ¬ Sound emptyRead := by
  have got : emptyRead.ptsGot = List.replicate 15 0x78 := by decide +kernel
  refine ⟨.step (a := .ptsRead 1 100 (fun _ => 0x78) true false) (slaveOpened_reached _ trivial) trivial rfl, rfl,
    got, fun sound => ?_⟩
  have bytes := sound.slave.bytes
  rw [got] at bytes
  cases bytes

end Ptyfs
