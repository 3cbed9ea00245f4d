import Newsys.Kern.Machine
import Newsys.Kern.PtyLine

/- What the calls on a pseudo-terminal return (kern/fs/pty/ptyfs.c): the count that a request is left with,
   beside the bytes that it has really moved. A call goes through the terminal as in the model of it, from
   one suspension to the next; what others do to the terminal in between may be anything. -/
namespace Ptyfs
open Bytes Ring Kern List

inductive Err where
  | eagain
  | eintr
  | efault
  deriving DecidableEq

@[irreducible] def sizeSub (m : Machine) (a b : Nat) : Nat := (a + (m.word - b)) % m.word

/-- `int left` with so many rounds of its loop to go, as the `size_t` that is subtracted from a count. -/
@[irreducible] def ofLeft (m : Machine) (left : Nat) : Nat := if left < 2 ^ 31 then left else m.word - 2 ^ 32 + left

inductive Kind where
  | ptmRead
  | ptsRead
  | ptmWrite
  | ptsWrite
  deriving DecidableEq

/-- `struct fs_rwreq`: a read has the memory of the caller, a write the bytes that `fucpy` fetches from it. -/
structure Req where
  machine : Machine
  kind : Kind
  buf : List (Option Byte)
  mem : Mem
  count : Nat
  noDelay : Bool
  sized : count < machine.word
  whole : kind = .ptmWrite ∨ kind = .ptsWrite → buf.length = count

/-- `int left = req->count`: what the loop of a write goes over. -/
def Req.due (r : Req) : List (Option Byte) :=
  r.buf.take (r.count % 2 ^ 32)

inductive Wait where
  | read
  | write (ch : Byte) (rest : List (Option Byte)) (moved : List Byte)

/-- A call has returned an error or 0, with its count and the memory of the caller, or it waits. The bytes
    that have been taken from a ring, or handed to the terminal, go along. -/
inductive Outcome where
  | returned (err : Option Err) (count : Nat) (mem : Mem) (moved : List Byte)
  | waits (w : Wait)

def ptmTakeRun (s : Sys) (t count : Nat) (mem : Mem) : Sys × Outcome :=
  let count' := if count > s.pty.out.count then s.pty.out.count else count
  let (mem', out) := s.pty.out.fetch count' 0 mem
  (ptmTake s t count mem, .returned none count' mem' (out.taken.drop s.pty.out.taken.length))

def ptmReadRun (s : Sys) (t count : Nat) (mem : Mem) (noDelay intr : Bool) : Sys × Outcome :=
  if s.pty.out.count = 0 then
    if noDelay then (setPc s t .idle, .returned (some .eagain) count mem [])
    else if intr then (setPc s t .idle, .returned (some .eintr) count mem [])
    else (ptmRead s t count mem noDelay intr, .waits .read)
  else ptmTakeRun s t count mem

def ptsTakeRun (s : Sys) (t count : Nat) (mem : Mem) : Sys × Outcome :=
  let count' := if count > s.pty.inp.count then s.pty.inp.count else count
  let (mem', inp) := s.pty.inp.fetch count' 0 mem
  (ptsTake s t count mem, .returned none count' mem' (inp.taken.drop s.pty.inp.taken.length))

def ptsLeaveRun (s : Sys) (t count : Nat) (mem : Mem) : Sys × Outcome :=
  (ptsLeave s t, if !s.pty.ptmFso then .returned none 0 mem [] else .returned (some .eintr) count mem [])

def ptsReadLoopRun (s : Sys) (t count : Nat) (mem : Mem) (noDelay intr : Bool) : Sys × Outcome :=
  if s.pty.inp.count = 0 then
    if noDelay then (ptsReadLoop s t count mem noDelay intr, .returned none eAGAIN mem [])
    else if s.pty.canonIntr ∨ !s.pty.ptmFso then ptsLeaveRun s t count mem
    else if s.pty.canonEot then ptsTakeRun { s with pty := { s.pty with canonEot := false } } t count mem
    else if intr then (setPc s t .idle, .returned (some .eintr) count mem [])
    else (ptsReadLoop s t count mem noDelay intr, .waits .read)
  else ptsTakeRun s t count mem

def ptsReadRun (s : Sys) (t count : Nat) (mem : Mem) (noDelay intr : Bool) : Sys × Outcome :=
  if !s.pty.ptmFso ∨ s.pty.canonIntr then ptsLeaveRun s t count mem else ptsReadLoopRun s t count mem noDelay intr

/-- The two last statements of a write: `req->count -= left`, and an error only if nothing has been written. -/
def writeEnd (m : Machine) (count left : Nat) (err : Option Err) (mem : Mem) (moved : List Byte) : Outcome :=
  let count := sizeSub m count (ofLeft m left)
  .returned (if count ≠ 0 then none else err) count mem moved

def ptmFullRun (m : Machine) (s : Sys) (t count : Nat) (mem : Mem) (ch : Byte) (rest : List (Option Byte)) (noDelay sig intr : Bool)
    (moved : List Byte) : Sys × Outcome :=
  let left := rest.length + 1
  (ptmFull s t ch rest noDelay sig intr,
    if noDelay then writeEnd m (sizeSub m count (ofLeft m left)) left none mem moved
    else if sig then writeEnd m count left (some .eintr) mem moved
    else if intr then writeEnd m count left (some .eintr) mem moved
    else .waits (.write ch rest moved))

def ptmWriteLoopRun (m : Machine) (s : Sys) (t count : Nat) (mem : Mem) (noDelay sig intr : Bool) (moved : List Byte) :
    List (Option Byte) → Sys × Outcome
  | [] => (ptmDone s t, writeEnd m count 0 none mem moved)
  | none :: rest => (ptmDone s t, writeEnd m count (rest.length + 1) (some .efault) mem moved)
  | some ch :: rest =>
    if s.has fICANON then ptmWriteLoopRun m (ptyCanonInput s ch) t count mem noDelay sig intr (moved ++ [ch]) rest
    else if bufSize ≤ s.pty.inp.count then ptmFullRun m s t count mem ch rest noDelay sig intr moved
    else ptmWriteLoopRun m (rawInput s ch) t count mem noDelay sig intr (moved ++ [ch]) rest

def ptmWriteOnRun (m : Machine) (s : Sys) (t count : Nat) (mem : Mem) (ch : Byte) (rest : List (Option Byte)) (sig intr : Bool)
    (moved : List Byte) : Sys × Outcome :=
  if bufSize ≤ s.pty.inp.count then ptmFullRun m s t count mem ch rest false sig intr moved
  else ptmWriteLoopRun m (rawInput s ch) t count mem false sig intr (moved ++ [ch]) rest

def ptsFullRun (m : Machine) (s : Sys) (t count : Nat) (mem : Mem) (ch : Byte) (rest : List (Option Byte)) (noDelay sig intr : Bool)
    (moved : List Byte) : Sys × Outcome :=
  let left := rest.length + 1
  (ptsFull s t ch rest noDelay sig intr,
    if !s.pty.ptmFso then writeEnd m 0 left none mem moved
    else if s.pty.canonIntr then writeEnd m count left (some .eintr) mem moved
    else if noDelay then writeEnd m count left none mem moved
    else if sig then writeEnd m count left (some .eintr) mem moved
    else if intr then writeEnd m count left (some .eintr) mem moved
    else .waits (.write ch rest moved))

def ptsWriteLoopRun (m : Machine) (s : Sys) (t count : Nat) (mem : Mem) (noDelay sig intr : Bool) (moved : List Byte) :
    List (Option Byte) → Sys × Outcome
  | [] => (ptsDone s t, writeEnd m count 0 none mem moved)
  | none :: rest => (ptsDone s t, writeEnd m count (rest.length + 1) (some .efault) mem moved)
  | some ch :: rest =>
    if bufSize ≤ s.pty.out.count then ptsFullRun m s t count mem ch rest noDelay sig intr moved
    else ptsWriteLoopRun m (storeOut s ch) t count mem noDelay sig intr (moved ++ [ch]) rest

def Req.enter (r : Req) (s : Sys) (t : Nat) (sig intr : Bool) : Sys × Outcome :=
  match r.kind with
  | .ptmRead => ptmReadRun s t r.count r.mem r.noDelay intr
  | .ptsRead => ptsReadRun s t r.count r.mem r.noDelay intr
  | .ptmWrite =>
    if r.due = [] then (s, .returned none r.count r.mem [])
    else ptmWriteLoopRun r.machine s t r.count r.mem r.noDelay sig intr [] r.due
  | .ptsWrite =>
    if r.due = [] then (s, .returned none r.count r.mem [])
    else ptsWriteLoopRun r.machine s t r.count r.mem r.noDelay sig intr [] r.due

def Req.goOn (r : Req) (w : Wait) (s : Sys) (t : Nat) (sig intr : Bool) : Sys × Outcome :=
  match w with
  | .read =>
    match r.kind with
    | .ptmRead => ptmReadRun s t r.count r.mem false intr
    | _ => ptsReadLoopRun s t r.count r.mem false intr
  | .write ch rest moved =>
    match r.kind with
    | .ptmWrite => ptmWriteOnRun r.machine s t r.count r.mem ch rest sig intr moved
    | _ => ptsWriteLoopRun r.machine s t r.count r.mem false sig intr moved (some ch :: rest)

/- The terminal is that of the model -/

variable {m : Machine} {count : Nat} {moved : List Byte}

variable {t : Nat} {mem : Mem} {noDelay intr : Bool}

theorem ptmWriteLoopRun_fst (s : Sys) (buf : List (Option Byte)) :
    (ptmWriteLoopRun m s t count mem noDelay sig intr moved buf).1 = ptmWriteLoop s t noDelay sig intr buf := by
  induction buf generalizing s moved with
  | nil => rfl
  | cons b rest ih =>
    cases b with
    | none => rfl
    | some ch =>
      unfold ptmWriteLoopRun ptmWriteLoop
      split
      · exact ih _
      · split
        · rfl
        · exact ih _

theorem ptsWriteLoopRun_fst (s : Sys) (buf : List (Option Byte)) :
    (ptsWriteLoopRun m s t count mem noDelay sig intr moved buf).1 = ptsWriteLoop s t noDelay sig intr buf := by
  induction buf generalizing s moved with
  | nil => rfl
  | cons b rest ih =>
    cases b with
    | none => rfl
    | some ch =>
      unfold ptsWriteLoopRun ptsWriteLoop
      split
      · rfl
      · exact ih _

theorem ptmReadRun_fst : (ptmReadRun s t count mem noDelay intr).1 = ptmRead s t count mem noDelay intr := by
  unfold ptmReadRun ptmRead
  split
  · split
    · rfl
    · split <;> rfl
  · rfl

theorem ptsReadLoopRun_fst :
    (ptsReadLoopRun s t count mem noDelay intr).1 = ptsReadLoop s t count mem noDelay intr := by
  unfold ptsReadLoopRun ptsReadLoop
  split
  · split
    · rfl
    · split
      · rfl
      · split
        · rfl
        · split <;> rfl
  · rfl

theorem enter_fst (r : Req) (s : Sys) (t : Nat) (sig intr : Bool) : (r.enter s t sig intr).1 =
    match r.kind with
    | .ptmRead => ptmRead s t r.count r.mem r.noDelay intr
    | .ptsRead => ptsRead s t r.count r.mem r.noDelay intr
    | .ptmWrite => ptmWrite s t r.due r.noDelay sig intr
    | .ptsWrite => ptsWrite s t r.due r.noDelay sig intr := by
  unfold Req.enter
  cases r.kind with
  | ptmRead => exact ptmReadRun_fst
  | ptsRead =>
    show (ptsReadRun s t r.count r.mem r.noDelay intr).1 = _
    unfold ptsRead ptsReadRun
    split
    · rfl
    · exact ptsReadLoopRun_fst
  | ptmWrite =>
    dsimp only
    unfold ptmWrite
    split
    · rfl
    · exact ptmWriteLoopRun_fst s r.due
  | ptsWrite =>
    dsimp only
    unfold ptsWrite
    split
    · rfl
    · exact ptsWriteLoopRun_fst s r.due

variable {ch : Byte} {rest : List (Option Byte)}

theorem goOn_fst_write (r : Req) (s : Sys) (t : Nat)
    (sig intr : Bool) : (r.goOn (.write ch rest moved) s t sig intr).1 =
      if r.kind = .ptmWrite then ptmWriteOn s t ch rest sig intr else ptsWriteOn s t ch rest sig intr := by
  unfold Req.goOn
  cases r.kind with
  | ptmWrite =>
    show (ptmWriteOnRun r.machine s t r.count r.mem ch rest sig intr moved).1 = ptmWriteOn s t ch rest sig intr
    unfold ptmWriteOnRun ptmWriteOn
    split
    · rfl
    · exact ptmWriteLoopRun_fst _ rest
  | _ =>
    show (ptsWriteLoopRun r.machine s t r.count r.mem false sig intr moved (some ch :: rest)).1 = ptsWriteOn s t ch rest sig intr
    rw [ptsWriteLoopRun_fst]
    rfl

theorem goOn_fst_read (r : Req) (s : Sys) (t : Nat) (sig intr : Bool) : (r.goOn .read s t sig intr).1 =
    if r.kind = .ptmRead then ptmRead s t r.count r.mem false intr else ptsReadLoop s t r.count r.mem false intr := by
  unfold Req.goOn
  cases r.kind with
  | ptmRead => exact ptmReadRun_fst
  | _ => exact ptsReadLoopRun_fst

def readable (buf : List (Option Byte)) : Nat := (buf.takeWhile Option.isSome).length

def PtmOverflows (s : Sys) (buf : List (Option Byte)) : Prop :=
  ¬ s.has fICANON ∧ readable buf ≠ 0 ∧ bufSize < s.pty.inp.count + readable buf

def PtsOverflows (s : Sys) (buf : List (Option Byte)) : Prop :=
  s.pty.ptmFso = false ∧ readable buf ≠ 0 ∧ bufSize < s.pty.out.count + readable buf

def ptmTakes (s : Sys) (buf : List (Option Byte)) : Nat :=
  if s.has fICANON then readable buf else min (readable buf) (bufSize - s.pty.inp.count)

/-- The byte that a write has waited with goes to the ring, in canonical mode too. -/
def ptmTakesOn (s : Sys) (ch : Byte) (rest : List (Option Byte)) : Nat :=
  if bufSize ≤ s.pty.inp.count then 0 else ptmTakes (rawInput s ch) rest + 1

def ptsTakes (s : Sys) (buf : List (Option Byte)) : Nat :=
  min (readable buf) (bufSize - s.pty.out.count)

/-- What `int left` can say of a count: all of it on the i386. -/
def Req.Tells (r : Req) (left : Nat) : Prop :=
  r.machine = .i386 ∨ r.count < 2 ^ 32 ∧ left < 2 ^ 31 ∨ 2 ^ 64 - 2 ^ 32 ≤ r.count ∧ 2 ^ 31 ≤ left

/-- A part of a write that takes so many bytes of these is the last one, and `left` is of no use then. -/
def Req.Cut (r : Req) (buf : List (Option Byte)) (takes : Nat) (stops : Prop) : Prop :=
  (takes = readable buf ∨ stops) ∧ ¬ r.Tells (buf.length - takes)

def Req.PtmSpoils (r : Req) (s : Sys) (noDelay sig intr : Bool) (buf : List (Option Byte)) : Prop :=
  noDelay = true ∧ PtmOverflows s buf ∨ r.Cut buf (ptmTakes s buf) (noDelay ∨ sig ∨ intr)

def Req.PtsSpoils (r : Req) (s : Sys) (noDelay sig intr : Bool) (buf : List (Option Byte)) : Prop :=
  PtsOverflows s buf ∨ r.Cut buf (ptsTakes s buf) (s.pty.canonIntr ∨ noDelay ∨ sig ∨ intr)

def Req.Spoils (r : Req) (s : Sys) (sig intr : Bool) : Option Wait → Prop
  | none =>
    match r.kind with
    | .ptmRead => False
    | .ptsRead => r.noDelay = true ∧ s.pty.inp.count = 0 ∧ s.pty.ptmFso = true ∧ s.pty.canonIntr = false
    | .ptmWrite => r.PtmSpoils s r.noDelay sig intr r.due
    | .ptsWrite => r.PtsSpoils s r.noDelay sig intr r.due
  | some .read => False
  | some (.write ch rest _) =>
    match r.kind with
    | .ptmWrite => r.Cut (some ch :: rest) (ptmTakesOn s ch rest) (sig ∨ intr)
    | _ => r.PtsSpoils s false sig intr (some ch :: rest)

/-- The calls of a request, and whether one of its parts spoils the count. Each part may find the terminal
    in any state. -/
inductive Served (r : Req) (t : Nat) : Prop → Outcome → Prop where
  | enter (s : Sys) (sig intr : Bool) : Served r t (r.Spoils s sig intr none) (r.enter s t sig intr).2
  | goOn {spoilt : Prop} {w : Wait} (served : Served r t spoilt (.waits w)) (s : Sys) (sig intr : Bool) :
      Served r t (spoilt ∨ r.Spoils s sig intr (some w)) (r.goOn w s t sig intr).2

/-- The count is that of the bytes that have been moved: those in front of the request, or those that the
    caller finds in its memory. -/
structure ExactCount (r : Req) (count : Nat) (mem : Mem) (moved : List Byte) : Prop where
  le : count ≤ r.count
  length : moved.length = count
  bytes : r.kind = .ptmWrite ∨ r.kind = .ptsWrite → moved.map some = r.buf.take count
  memory : mem = if r.kind = .ptmRead ∨ r.kind = .ptsRead then blit r.mem 0 moved else r.mem

/-- What a part of a call leaves behind: an exact count if it has succeeded, unless it has been spoilt. -/
def Fair (r : Req) (spoilt : Prop) : Outcome → Prop
  | .returned none count mem moved => ExactCount r count mem moved ↔ ¬ spoilt
  | .returned (some _) .. => True
  | .waits .read => ¬ spoilt ∧ (r.kind = .ptmRead ∨ r.kind = .ptsRead)
  | .waits (.write ch rest moved) =>
    ¬ spoilt ∧ (r.kind = .ptmWrite ∨ r.kind = .ptsWrite) ∧ moved.map some ++ some ch :: rest = r.due

theorem Fair.congr {p q : Prop} (fair : Fair r p o) (same : p ↔ q) : Fair r q o := by
  cases o with
  | returned err count mem moved =>
    cases err with
    | none => exact fair.trans (not_congr same)
    | some e => trivial
  | waits w =>
    cases w with
    | read => exact ⟨fun yes => fair.1 (same.mpr yes), fair.2⟩
    | write ch rest moved => exact ⟨fun yes => fair.1 (same.mpr yes), fair.2⟩

variable {r : Req} {s : Sys} {t : Nat} {noDelay sig intr : Bool}

variable {left : Nat}

def twoBytes : Req where
  machine := .i386
  kind := .ptsWrite
  buf := [some 104, some 105]
  mem := zero
  count := 2
  noDelay := false
  sized := by decide
  whole _ := rfl

end Ptyfs
