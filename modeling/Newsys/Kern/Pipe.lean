import Newsys.Lib.Bytes
import Newsys.Lib.Ring

/- Pipes (kern/fs/pipe.c), and what closing their ends does (kern/fs/fdesc.c). Tasks are numbers. A task
   runs from one suspension to the next; in between other tasks use the pipe. -/
namespace Pipe
open Bytes Ring List

def pipeBuf : Nat := 8184

theorem pipeBuf_pos : 0 < pipeBuf := by decide

structure Fso where
  buf : Mem
  readP : Nat
  writeP : Nat
  size : Nat
  readers : List Nat
  writers : List Nat
  readerCount : Nat
  writerCount : Nat

/-- Where a task is: not in the pipe, or in front of the loop that waits for bytes or for space. -/
inductive Pc where
  | idle
  | reading (count : Nat) (noDelay : Bool)
  | writing (rest : List Byte) (noDelay : Bool)

/-- The pipe and its tasks, with the bytes that reads have returned and that writes have appended. -/
structure Sys where
  fso : Fso
  pc : Nat → Pc
  paused : Nat → Bool
  taken : List Byte
  put : List Byte

def wakeReaders (s : Sys) : Sys :=
  { s with fso := { s.fso with readers := [] }, paused := fun t => s.paused t && !decide (t ∈ s.fso.readers) }

def wakeWriters (s : Sys) : Sys :=
  { s with fso := { s.fso with writers := [] }, paused := fun t => s.paused t && !decide (t ∈ s.fso.writers) }

def pipeUstate (s : Sys) : Sys :=
  let s := if s.fso.size ≠ 0 then wakeReaders s else s
  if s.fso.size < pipeBuf then wakeWriters s else s

def setPc (s : Sys) (t : Nat) (pc : Pc) : Sys := { s with pc := Function.update s.pc t pc }

def sleepReader (s : Sys) (t : Nat) : Sys :=
  { s with fso := { s.fso with readers := s.fso.readers ++ [t] }, paused := Function.update s.paused t true }

def sleepWriter (s : Sys) (t : Nat) : Sys :=
  { s with fso := { s.fso with writers := s.fso.writers ++ [t] }, paused := Function.update s.paused t true }

def fetch (f : Fso) (count : Nat) : List Byte × Fso :=
  let cnt := if count > f.size then f.size else count
  let l := if cnt + f.readP > pipeBuf then pipeBuf - f.readP else cnt
  (slice f.buf f.readP l ++ slice f.buf 0 (cnt - l),
    { f with readP := (f.readP + cnt) % pipeBuf, size := f.size - cnt })

def chunk (f : Fso) (resid : Nat) : Nat :=
  let cnt := if resid > pipeBuf then pipeBuf else resid
  if cnt + f.size > pipeBuf then pipeBuf - f.size else cnt

def store (f : Fso) (buf : List Byte) : Fso :=
  let l := if buf.length + f.writeP > pipeBuf then pipeBuf - f.writeP else buf.length
  { f with buf := blit (blit f.buf f.writeP (buf.take l)) 0 (buf.drop l)
           writeP := (f.writeP + buf.length) % pipeBuf
           size := f.size + buf.length }

def append (s : Sys) (buf : List Byte) : Sys := { s with fso := store s.fso buf, put := s.put ++ buf }

/-- `pipe_read` up to its end or to the next suspension. A signal may be pending (`sig`), and
    `task_suspend` may return at once (`intr`). -/
def pipeRead (s : Sys) (t count : Nat) (noDelay sig intr : Bool) : Sys :=
  if s.fso.size = 0 then
    if s.fso.writerCount = 0 ∨ noDelay then setPc s t .idle
    else if sig then setPc s t .idle
    else if intr then setPc s t .idle
    else setPc (sleepReader s t) t (.reading count noDelay)
  else
    let out := fetch s.fso count
    setPc (pipeUstate { s with fso := out.2, taken := s.taken ++ out.1 }) t .idle

def pipeFull (s : Sys) (t : Nat) (rest : List Byte) (noDelay sig intr : Bool) : Sys :=
  if noDelay then setPc s t .idle
  else if sig then setPc s t .idle
  else if intr then setPc (pipeUstate s) t .idle
  else setPc (sleepWriter (pipeUstate s) t) t (.writing rest noDelay)

theorem chunk_pos (some : 0 < resid) (space : f.size < pipeBuf) : 0 < chunk f resid := by
  simp only [chunk]
  split <;> split <;> omega

theorem chunk_fits (fits : f.size + resid ≤ pipeBuf) : chunk f resid = resid := by
  simp only [chunk]
  split <;> split <;> omega

theorem chunk_full (beyond : pipeBuf < f.size + resid) : chunk f resid = pipeBuf - f.size := by
  simp only [chunk]
  split <;> split <;> omega

theorem round_full {s : Sys} {rest : List Byte} (size : s.fso.size ≤ pipeBuf)
    (beyond : pipeBuf < s.fso.size + rest.length) : rest.drop (pipeBuf - s.fso.size) ≠ [] ∧
      pipeBuf ≤ (append s (rest.take (pipeBuf - s.fso.size))).fso.size := by
  constructor
  · intro eq
    have short := drop_eq_nil_iff.mp eq
    omega
  · show pipeBuf ≤ s.fso.size + _
    rw [length_take]
    omega

def pipeWriteLoop (s : Sys) (t : Nat) (rest : List Byte) (noDelay sig intr : Bool) : Sys :=
  if rest = [] then setPc (pipeUstate s) t .idle
  else if pipeBuf ≤ s.fso.size then pipeFull s t rest noDelay sig intr
  else
    let cnt := chunk s.fso rest.length
    pipeWriteLoop (append s (rest.take cnt)) t (rest.drop cnt) noDelay sig intr
termination_by rest.length
decreasing_by
  rename_i some full
  have := chunk_pos (f := s.fso) (length_pos_iff.mpr some) (Nat.lt_of_not_le full)
  have := length_pos_iff.mpr some
  rw [length_drop]
  omega

def pipeWrite (s : Sys) (t : Nat) (buf : List Byte) (noDelay sig intr : Bool) : Sys :=
  if s.fso.readerCount = 0 then s else pipeWriteLoop s t buf noDelay sig intr

/-- `task_resume`, by a signal or otherwise: the task leaves the queue it is in. -/
def taskResume (s : Sys) (t : Nat) : Sys :=
  if s.paused t then
    { s with fso := { s.fso with readers := s.fso.readers.erase t, writers := s.fso.writers.erase t }
             paused := Function.update s.paused t false }
  else s

inductive Act where
  | read (t count : Nat) (noDelay sig intr : Bool)
  | write (t : Nat) (buf : List Byte) (noDelay sig intr : Bool)
  | go (t : Nat) (sig intr : Bool)
  | resume (t : Nat)
  | closeReader
  | closeWriter

/-- A task that is not in the pipe may start a call, one that has been resumed goes on, and an end that
    is open may be closed for the last time (`fs_putfile` with the last reference). -/
def step (s : Sys) : Act → Option Sys
  | .read t count noDelay sig intr =>
    match s.pc t with
    | .idle => some (pipeRead s t count noDelay sig intr)
    | _ => none
  | .write t buf noDelay sig intr =>
    match s.pc t with
    | .idle => some (pipeWrite s t buf noDelay sig intr)
    | _ => none
  | .go t sig intr =>
    if s.paused t then none
    else match s.pc t with
      | .idle => none
      | .reading count noDelay => some (pipeRead s t count noDelay sig intr)
      | .writing rest noDelay => some (pipeWriteLoop s t rest noDelay sig intr)
  | .resume t => some (taskResume s t)
  | .closeReader =>
    if s.fso.readerCount = 0 then none
    else some { s with fso := { s.fso with readerCount := s.fso.readerCount - 1 } }
  | .closeWriter =>
    if s.fso.writerCount = 0 then none
    else some { s with fso := { s.fso with writerCount := s.fso.writerCount - 1 } }

def newPipe (buf : Mem) : Sys := ⟨⟨buf, 0, 0, 0, [], [], 1, 1⟩, fun _ => .idle, fun _ => false, [], []⟩

inductive Reached (cond : Sys → Act → Prop) : Sys → Prop where
  | new (buf : Mem) : Reached cond (newPipe buf)
  | step {s s' : Sys} {a : Act} : Reached cond s → cond s a → step s a = some s' → Reached cond s'

/- The bytes in the buffer -/

structure Fifo (s : Sys) : Prop where
  size : s.fso.size ≤ pipeBuf
  readP : s.fso.readP < pipeBuf
  writeP : s.fso.writeP = (s.fso.readP + s.fso.size) % pipeBuf
  bytes : s.put = s.taken ++ window s.fso.buf pipeBuf s.fso.readP s.fso.size

section Copying
variable {f : Fso}

theorem fetch_bytes (count : Nat) (readP : f.readP < pipeBuf) (size : f.size ≤ pipeBuf) :
    (fetch f count).1 = window f.buf pipeBuf f.readP (min count f.size) := by
  have cnt : (if count > f.size then f.size else count) = min count f.size := by
    split <;> omega
  simp only [fetch, cnt]
  split
  · rw [window_split (le_of_lt readP) (by omega) (by omega)]
    rfl
  · rw [Nat.sub_self, window_straight (by omega)]
    exact append_nil _

theorem store_at (writeP : f.writeP < pipeBuf) (fits : new.length ≤ pipeBuf) (k : Nat)
    (lt : k < new.length) : (store f new).buf ((f.writeP + k) % pipeBuf) = new.get ⟨k, lt⟩ := by
  have value : ∀ j (lt : j < new.length), new.getD j 0 = new.get ⟨j, lt⟩ := fun j lt => getD_eq_getElem _ _ lt
  simp only [store]
  split
  · rename_i wraps
    by_cases low : k < pipeBuf - f.writeP
    · rw [Nat.mod_eq_of_lt (by omega), blit_outside _ _ _ _ (by rw [length_drop]; omega),
        blit_inside _ _ _ _ (by omega) (by rw [length_take]; omega), Nat.add_sub_cancel_left,
        getD_eq_getElem _ _ (by rw [length_take]; omega), getElem_take]
      rfl
    · have turn : (f.writeP + k) % pipeBuf = k - (pipeBuf - f.writeP) := by
        rw [Nat.mod_eq_sub_mod (by omega), Nat.mod_eq_of_lt (by omega)]
        omega
      rw [turn, blit_inside _ _ _ _ (by omega) (by rw [length_drop]; omega), Nat.sub_zero,
        getD_eq_getElem _ _ (by rw [length_drop]; omega), getElem_drop]
      show new[pipeBuf - f.writeP + (k - (pipeBuf - f.writeP))] = new[k]
      congr 1
      omega
  · rename_i straight
    rw [take_length, drop_length, Nat.mod_eq_of_lt (by omega), blit_outside _ _ _ _ (by simp),
      blit_inside _ _ _ _ (by omega) (by omega), Nat.add_sub_cancel_left, value k lt]

theorem store_off (fits : new.length ≤ pipeBuf) (writeP : f.writeP < pipeBuf)
    (off : ∀ k, k < new.length → pos ≠ (f.writeP + k) % pipeBuf) : (store f new).buf pos = f.buf pos := by
  simp only [store]
  split
  · rename_i wraps
    rw [blit_outside, blit_outside]
    · apply Classical.byContradiction
      intro inside
      rw [length_take] at inside
      refine off (pos - f.writeP) (by omega) ?_
      rw [Nat.mod_eq_of_lt (by omega)]
      omega
    · apply Classical.byContradiction
      intro inside
      rw [length_drop] at inside
      refine off (pos + (pipeBuf - f.writeP)) (by omega) ?_
      rw [Nat.mod_eq_sub_mod (by omega), Nat.mod_eq_of_lt (by omega)]
      omega
  · rename_i straight
    rw [take_length, drop_length, blit_outside _ _ _ _ (by simp), blit_outside]
    apply Classical.byContradiction
    intro inside
    refine off (pos - f.writeP) (by omega) ?_
    rw [Nat.mod_eq_of_lt (by omega)]
    omega

end Copying

section Steps
variable {s s' : Sys} {t : Nat} {rest : List Byte} {noDelay sig intr : Bool}

theorem Fifo.congr (q : Fifo s) (buf : s'.fso.buf = s.fso.buf) (readP : s'.fso.readP = s.fso.readP)
    (writeP : s'.fso.writeP = s.fso.writeP) (size : s'.fso.size = s.fso.size) (taken : s'.taken = s.taken)
    (put : s'.put = s.put) : Fifo s' := by
  refine ⟨?_, ?_, ?_, ?_⟩
  · rw [size]
    exact q.size
  · rw [readP]
    exact q.readP
  · rw [writeP, readP, size]
    exact q.writeP
  · rw [put, taken, buf, readP, size]
    exact q.bytes

theorem pipeUstate_same (s : Sys) : (pipeUstate s).fso.buf = s.fso.buf ∧ (pipeUstate s).fso.readP = s.fso.readP ∧
    (pipeUstate s).fso.writeP = s.fso.writeP ∧ (pipeUstate s).fso.size = s.fso.size ∧
    (pipeUstate s).taken = s.taken ∧ (pipeUstate s).put = s.put ∧
    (pipeUstate s).fso.readerCount = s.fso.readerCount ∧ (pipeUstate s).fso.writerCount = s.fso.writerCount := by
  simp only [pipeUstate]
  split <;> split <;> exact ⟨rfl, rfl, rfl, rfl, rfl, rfl, rfl, rfl⟩

theorem Fifo.ustate (q : Fifo s) : Fifo (pipeUstate s) := by
  obtain ⟨buf, readP, writeP, size, taken, put, _⟩ := pipeUstate_same s
  exact q.congr buf readP writeP size taken put

theorem Fifo.fetch (q : Fifo s) (count : Nat) :
    Fifo { s with fso := (fetch s.fso count).2, taken := s.taken ++ (fetch s.fso count).1 } := by
  have size := q.size
  have cnt : (if count > s.fso.size then s.fso.size else count) = min count s.fso.size := by
    split <;> omega
  refine ⟨?_, ?_, ?_, ?_⟩
  · show s.fso.size - _ ≤ pipeBuf
    omega
  · exact Nat.mod_lt _ pipeBuf_pos
  · show s.fso.writeP = ((s.fso.readP + _) % pipeBuf + (s.fso.size - _)) % pipeBuf
    rw [Nat.mod_add_mod, q.writeP, cnt]
    congr 1
    omega
  · rw [fetch_bytes count q.readP q.size, q.bytes]
    show _ = s.taken ++ _ ++ window s.fso.buf pipeBuf ((s.fso.readP + _) % pipeBuf) (s.fso.size - _)
    rw [window_mod, cnt, append_assoc, ← window_add]
    congr 2
    omega

theorem Fifo.append (q : Fifo s) (fits : s.fso.size + new.length ≤ pipeBuf) : Fifo (append s new) := by
  have writeP : s.fso.writeP < pipeBuf := by
    rw [q.writeP]
    exact Nat.mod_lt _ pipeBuf_pos
  refine ⟨fits, q.readP, ?_, ?_⟩
  · show (s.fso.writeP + new.length) % pipeBuf = (s.fso.readP + (s.fso.size + new.length)) % pipeBuf
    rw [q.writeP, Nat.mod_add_mod, add_assoc]
  · show s.put ++ new = s.taken ++ window (store s.fso new).buf pipeBuf s.fso.readP (s.fso.size + new.length)
    rw [window_store (m := s.fso.buf), q.bytes, append_assoc]
    · intro k lt
      have here := store_at writeP (by omega) k lt
      rw [q.writeP, Nat.mod_add_mod] at here
      exact here
    · intro k lt
      apply store_off (by omega) writeP
      intro j lt'
      rw [q.writeP, Nat.mod_add_mod, add_assoc]
      exact cell_ne (by omega) (by omega)

theorem pipeWriteLoop_fits (fits : s.fso.size + rest.length ≤ pipeBuf) :
    pipeWriteLoop s t rest noDelay sig intr =
      setPc (pipeUstate (if rest = [] then s else append s rest)) t .idle := by
  rw [pipeWriteLoop]
  by_cases none : rest = []
  · rw [if_pos none, if_pos none]
  · have pos := length_pos_iff.mpr none
    rw [if_neg none, if_neg (by omega), if_neg none]
    simp only [chunk_fits fits, take_length, drop_length]
    rw [pipeWriteLoop, if_pos rfl]

theorem pipeWriteLoop_full (size : s.fso.size ≤ pipeBuf) (beyond : pipeBuf < s.fso.size + rest.length) :
    pipeWriteLoop s t rest noDelay sig intr =
      pipeFull (if s.fso.size = pipeBuf then s else append s (rest.take (pipeBuf - s.fso.size))) t
        (rest.drop (pipeBuf - s.fso.size)) noDelay sig intr := by
  have some : rest ≠ [] := by
    rintro rfl
    rw [length_nil] at beyond
    omega
  rw [pipeWriteLoop, if_neg some]
  by_cases full : s.fso.size = pipeBuf
  · rw [if_pos (by omega), if_pos full, full, Nat.sub_self, drop_zero]
  · obtain ⟨left, filled⟩ := round_full size beyond
    rw [if_neg (by omega), if_neg full]
    simp only [chunk_full beyond]
    rw [pipeWriteLoop, if_neg left, if_pos filled]

theorem Fifo.setPc (q : Fifo s) (pc : Pc) : Fifo (setPc s t pc) := q.congr rfl rfl rfl rfl rfl rfl

theorem Fifo.full (q : Fifo s) : Fifo (pipeFull s t rest noDelay sig intr) := by
  simp only [pipeFull]
  split
  · exact q.setPc _
  · split
    · exact q.setPc _
    · split
      · exact q.ustate.setPc _
      · exact q.ustate.congr rfl rfl rfl rfl rfl rfl

theorem Fifo.writeLoop (q : Fifo s) : Fifo (pipeWriteLoop s t rest noDelay sig intr) := by
  by_cases fits : s.fso.size + rest.length ≤ pipeBuf
  · rw [pipeWriteLoop_fits fits]
    split
    · exact q.ustate.setPc _
    · exact (q.append fits).ustate.setPc _
  · rw [pipeWriteLoop_full q.size (by omega)]
    split
    · exact q.full
    · refine (q.append ?_).full
      have := q.size
      rw [length_take]
      omega

theorem Fifo.read (q : Fifo s) (count : Nat) : Fifo (pipeRead s t count noDelay sig intr) := by
  simp only [pipeRead]
  split
  · split
    · exact q.setPc _
    · split
      · exact q.setPc _
      · split
        · exact q.setPc _
        · exact q.congr rfl rfl rfl rfl rfl rfl
  · exact (q.fetch count).ustate.setPc _

theorem Fifo.step (q : Fifo s) (eq : step s a = some s') : Fifo s' := by
  cases a with
  | read t count noDelay sig intr =>
    simp only [Pipe.step] at eq
    split at eq
    · cases eq
      exact q.read count
    · cases eq
  | write t buf noDelay sig intr =>
    simp only [Pipe.step] at eq
    split at eq
    · cases eq
      rw [pipeWrite]
      split
      · exact q
      · exact q.writeLoop
    · cases eq
  | go t sig intr =>
    simp only [Pipe.step] at eq
    split at eq
    · cases eq
    · split at eq
      · cases eq
      · cases eq
        exact q.read _
      · cases eq
        exact q.writeLoop
  | resume t =>
    cases eq
    rw [taskResume]
    split
    · exact q.congr rfl rfl rfl rfl rfl rfl
    · exact q
  | closeReader =>
    simp only [Pipe.step] at eq
    split at eq
    · cases eq
    · cases eq
      exact q.congr rfl rfl rfl rfl rfl rfl
  | closeWriter =>
    simp only [Pipe.step] at eq
    split at eq
    · cases eq
    · cases eq
      exact q.congr rfl rfl rfl rfl rfl rfl

end Steps

/-- In every state of every run the bytes that reads have returned, followed by those in the buffer, are
    the bytes that have been appended. -/
theorem pipe_fifo {s : Sys} (reached : Reached (fun _ _ => True) s) :
    s.put = s.taken ++ window s.fso.buf pipeBuf s.fso.readP s.fso.size ∧ s.fso.size ≤ pipeBuf ∧
      s.fso.writeP = (s.fso.readP + s.fso.size) % pipeBuf := by
  have fifo : Fifo s := by
    induction reached with
    | new buf => exact ⟨Nat.zero_le _, pipeBuf_pos, rfl, rfl⟩
    | step _ _ eq ih => exact ih.step eq
  exact ⟨fifo.bytes, fifo.size, fifo.writeP⟩

def threeWritten : Sys := pipeWrite (newPipe zero) 1 [1, 2, 3] false false false

theorem pipe_fifo_three : Reached (fun _ _ => True) threeWritten ∧
    threeWritten.put = threeWritten.taken ++
      window threeWritten.fso.buf pipeBuf threeWritten.fso.readP threeWritten.fso.size := by
  have reached : Reached (fun _ _ => True) threeWritten :=
    .step (a := .write 1 [1, 2, 3] false false false) (.new zero) trivial rfl
  exact ⟨reached, (pipe_fifo reached).1⟩

/-- Tasks sleep only while there is nothing for them to do and somebody who can change that. -/
structure NoneStranded (s : Sys) : Prop where
  readers : ∀ t ∈ s.fso.readers, s.fso.size = 0 ∧ 0 < s.fso.writerCount
  writers : ∀ t ∈ s.fso.writers, s.fso.size = pipeBuf ∧ 0 < s.fso.readerCount

/-- The loop of `pipe_write` leaves no sleeper behind: when the bytes do not fit, a call that gives up
    has woken nobody, and one that goes to sleep does not look at the readers again. -/
def WriteFits (s : Sys) (rest : List Byte) (noDelay sig intr : Bool) : Prop :=
  pipeBuf < s.fso.size + rest.length →
    if noDelay = true ∨ sig = true then s.fso.readers = [] else intr = true ∨ 0 < s.fso.readerCount

/-- The steps that leave no sleeper behind. -/
def Fits (s : Sys) : Act → Prop
  | .write _ buf noDelay sig intr => s.fso.readerCount = 0 ∨ WriteFits s buf noDelay sig intr
  | .go t sig intr =>
    match s.pc t with
    | .writing rest noDelay => WriteFits s rest noDelay sig intr
    | _ => True
  | .closeReader => s.fso.readerCount = 1 → s.fso.writers = []
  | .closeWriter => s.fso.writerCount = 1 → s.fso.readers = []
  | _ => True

section Sleepers
variable {s s' : Sys} {t : Nat} {rest : List Byte} {noDelay sig intr : Bool}

theorem pipeUstate_readers (s : Sys) : (pipeUstate s).fso.readers = if s.fso.size = 0 then s.fso.readers else [] := by
  simp only [pipeUstate]
  by_cases empty : s.fso.size = 0
  · simp only [empty, ne_eq, not_true, if_false, if_true, if_pos pipeBuf_pos]
    rfl
  · simp only [empty, ne_eq, not_false_eq_true, if_true, if_false]
    split <;> rfl

theorem pipeUstate_writers (s : Sys) :
    (pipeUstate s).fso.writers = if s.fso.size < pipeBuf then [] else s.fso.writers := by
  simp only [pipeUstate]
  split <;> split <;> first | rfl | simp_all [wakeReaders, wakeWriters]

theorem noneStranded_ustate (size : s.fso.size ≤ pipeBuf) (readers : ∀ t ∈ s.fso.readers, 0 < s.fso.writerCount)
    (writers : ∀ t ∈ s.fso.writers, 0 < s.fso.readerCount) : NoneStranded (pipeUstate s) := by
  obtain ⟨_, _, _, sizes, _, _, rc, wc⟩ := pipeUstate_same s
  refine ⟨?_, ?_⟩
  · intro t mem
    rw [pipeUstate_readers] at mem
    rw [sizes, wc]
    split at mem
    · rename_i empty
      exact ⟨empty, readers t mem⟩
    · cases mem
  · intro t mem
    rw [pipeUstate_writers] at mem
    rw [sizes, rc]
    split at mem
    · cases mem
    · exact ⟨by omega, writers t mem⟩

section
variable (n : NoneStranded s)
include n

theorem NoneStranded.setPc (pc : Pc) : NoneStranded (setPc s t pc) := ⟨n.readers, n.writers⟩

theorem NoneStranded.writeLoop (size : s.fso.size ≤ pipeBuf)
    (fits : WriteFits s rest noDelay sig intr) : NoneStranded (pipeWriteLoop s t rest noDelay sig intr) := by
  have readers := fun t mem => (n.readers t mem).2
  have writers := fun t mem => (n.writers t mem).2
  by_cases room : s.fso.size + rest.length ≤ pipeBuf
  · rw [pipeWriteLoop_fits room]
    split
    · exact (noneStranded_ustate size readers writers).setPc _
    · exact (noneStranded_ustate (s := append s rest) room readers writers).setPc _
  · have beyond : pipeBuf < s.fso.size + rest.length := by omega
    have told := fits beyond
    rw [pipeWriteLoop_full size beyond]
    generalize eq : (if s.fso.size = pipeBuf then s else append s (rest.take (pipeBuf - s.fso.size))) = u
    have same : u.fso.size = pipeBuf ∧ u.fso.readers = s.fso.readers ∧ u.fso.writers = s.fso.writers ∧
        u.fso.readerCount = s.fso.readerCount ∧ u.fso.writerCount = s.fso.writerCount := by
      rw [← eq]
      split
      · rename_i full
        exact ⟨full, rfl, rfl, rfl, rfl⟩
      · refine ⟨?_, rfl, rfl, rfl, rfl⟩
        show s.fso.size + _ = pipeBuf
        rw [length_take]
        omega
    obtain ⟨full, readersU, writersU, rc, wc⟩ := same
    rw [← readersU, ← wc] at readers
    rw [← writersU, ← rc] at writers
    have woken := noneStranded_ustate (le_of_eq full) readers writers
    -- a call that gives up calls `pipe_ustate` in no case
    have gives : noDelay = true ∨ sig = true → NoneStranded u := by
      intro up
      rw [if_pos up] at told
      refine ⟨?_, fun t mem => ⟨full, writers t mem⟩⟩
      rw [readersU, told]
      exact fun t mem => by cases mem
    simp only [pipeFull]
    split
    · exact (gives (.inl ‹_›)).setPc _
    · rename_i delay
      split
      · exact (gives (.inr ‹_›)).setPc _
      · rename_i noSig
        rw [if_neg fun h => h.elim delay noSig] at told
        split
        · exact woken.setPc _
        · rename_i sleeps
          obtain ⟨_, _, _, sizes, _, _, rc', _⟩ := pipeUstate_same u
          refine NoneStranded.setPc (s := sleepWriter (pipeUstate u) t) ⟨woken.readers, ?_⟩ _
          intro x mem
          rcases mem_append.mp mem with mem | _
          · exact woken.writers x mem
          · show (pipeUstate u).fso.size = pipeBuf ∧ 0 < (pipeUstate u).fso.readerCount
            rw [sizes, rc', rc]
            exact ⟨full, told.resolve_left sleeps⟩

theorem NoneStranded.read (size : s.fso.size ≤ pipeBuf) (count : Nat) :
    NoneStranded (pipeRead s t count noDelay sig intr) := by
  simp only [pipeRead]
  split
  · rename_i empty
    split
    · exact n.setPc _
    · rename_i waits
      split
      · exact n.setPc _
      · split
        · exact n.setPc _
        · refine NoneStranded.setPc (s := sleepReader s t) ⟨?_, n.writers⟩ _
          intro x mem
          rcases mem_append.mp mem with mem | _
          · exact n.readers x mem
          · exact ⟨empty, Nat.pos_iff_ne_zero.mpr fun none => waits (.inl none)⟩
  · refine (noneStranded_ustate
      (s := { s with fso := (fetch s.fso count).2, taken := s.taken ++ (fetch s.fso count).1 }) ?_
      (fun t mem => (n.readers t mem).2) fun t mem => (n.writers t mem).2).setPc _
    show s.fso.size - _ ≤ pipeBuf
    omega

theorem NoneStranded.step (size : s.fso.size ≤ pipeBuf) (fits : Fits s a)
    (eq : step s a = some s') : NoneStranded s' := by
  cases a with
  | read t count noDelay sig intr =>
    simp only [Pipe.step] at eq
    split at eq
    · cases eq
      exact n.read size count
    · cases eq
  | write t buf noDelay sig intr =>
    simp only [Pipe.step] at eq
    split at eq
    · cases eq
      rw [pipeWrite]
      split
      · exact n
      · rename_i some
        exact n.writeLoop size (fits.resolve_left some)
    · cases eq
  | go t sig intr =>
    simp only [Pipe.step] at eq
    split at eq
    · cases eq
    · split at eq
      · cases eq
      · cases eq
        exact n.read size _
      · rename_i rest noDelay pc
        cases eq
        simp only [Fits, pc] at fits
        exact n.writeLoop size fits
  | resume t =>
    cases eq
    rw [taskResume]
    split
    · exact ⟨fun x mem => n.readers x (mem_of_mem_erase mem), fun x mem => n.writers x (mem_of_mem_erase mem)⟩
    · exact n
  | closeReader =>
    simp only [Pipe.step] at eq
    split at eq
    · cases eq
    · cases eq
      refine ⟨n.readers, ?_⟩
      intro x mem
      have more : s.fso.readerCount ≠ 1 := by
        intro last
        have mem : x ∈ s.fso.writers := mem
        rw [fits last] at mem
        cases mem
      have some := n.writers x mem
      exact ⟨some.1, by show 0 < s.fso.readerCount - 1; omega⟩
  | closeWriter =>
    simp only [Pipe.step] at eq
    split at eq
    · cases eq
    · cases eq
      refine ⟨?_, n.writers⟩
      intro x mem
      have more : s.fso.writerCount ≠ 1 := by
        intro last
        have mem : x ∈ s.fso.readers := mem
        rw [fits last] at mem
        cases mem
      have some := n.readers x mem
      exact ⟨some.1, by show 0 < s.fso.writerCount - 1; omega⟩

end

end Sleepers

/-- In a run whose steps all fit no sleeper is stranded. -/
theorem none_stranded {s : Sys} (reached : Reached Fits s) : NoneStranded s := by
  have both : Fifo s ∧ NoneStranded s := by
    induction reached with
    | new buf => exact ⟨⟨Nat.zero_le _, pipeBuf_pos, rfl, rfl⟩, fun _ mem => (by cases mem), fun _ mem => by cases mem⟩
    | step _ fits eq ih => exact ⟨ih.1.step eq, ih.2.step ih.1.size fits eq⟩
  exact both.2

def sleeping : Sys := pipeRead (newPipe zero) 1 1 false false false

theorem none_stranded_sleeping : sleeping.fso.readers = [1] ∧ NoneStranded sleeping :=
  ⟨rfl, none_stranded (.step (a := .read 1 1 false false false) (.new zero) trivial rfl)⟩

def deserted : Sys := { sleeping with fso := { sleeping.fso with writerCount := 0 } }

/-- Nobody wakes the reader, and nobody can write any more. -/
theorem stranded_deserted : Reached (fun _ _ => True) deserted ∧ ¬ NoneStranded deserted := by
  refine ⟨?_, fun n => ?_⟩
  · have asleep : Reached (fun _ _ => True) sleeping :=
      .step (a := .read 1 1 false false false) (.new zero) trivial rfl
    exact .step (a := .closeWriter) asleep trivial rfl
  · have some := (n.readers 1 (mem_singleton_self 1)).2
    exact absurd some (by decide)

end Pipe
