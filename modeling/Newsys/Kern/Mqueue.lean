import Mathlib.Data.List.Infix
import Newsys.Lib.Bytes
import Newsys.Lib.Ring
import Newsys.Kern.Errno
import Newsys.Kern.Machine

/- The message queue of the kernel (kern/mqueue.c), with the size that its buffer gets (kern/lib/malloc.c). A task
   runs with interrupts disabled from one suspension to the next; while it wakes the others, they may run. -/
namespace Mqueue
open Bytes Ring Kern Function List

structure Mq where
  buf : Mem
  room : Nat
  itemsz : Nat
  maxcnt : Nat
  curcnt : Nat
  first : Nat
  putq : List Nat
  getq : List Nat

def ovMulSize (m : Machine) (a b : Nat) : Bool := b ≠ 0 && a * b % m.word / b ≠ a

def mheadSize : Machine → Nat
  | .i386 => 32
  | .amd64 => 40

/-- The pages that `kmalloc` asks for. Its parameter `size` is an `unsigned`. -/
def kmallocPages (m : Machine) (size : Nat) : Nat := (size % 2 ^ 32 + mheadSize m + 4095) % m.word / 4096

/-- `mq_init`. What `pg_adget` and `pg_atmem` say to a number of pages is `pages`, and `buf` is what the memory
    holds. -/
def mqInit (m : Machine) (pages : Nat → Option Errno) (buf : Mem) (itemsz maxcnt : Nat) : Except Errno Mq :=
  if ovMulSize m itemsz maxcnt then .error .EINVAL
  else match pages (kmallocPages m (itemsz * maxcnt)) with
    | some e => .error e
    | none => .ok ⟨buf, 4096 * kmallocPages m (itemsz * maxcnt) - mheadSize m, itemsz, maxcnt, 0, 0, [], []⟩

inductive Wait where
  | no
  | intr
  | noIntr
  deriving DecidableEq

inductive Side where
  | putters
  | getters

/-- Where a task is: not in a call, in front of the loop of `mq_put` or `mq_get`, or waking the other side. -/
inductive Pc where
  | idle
  | put (data : Mem) (wait : Wait)
  | get (wait : Wait)
  | wake (side : Side)

structure Ret where
  result : Option Errno
  moved : Nat

/-- The queue and its tasks. `accepted` and `returned` are the records so far, `moved` counts those of a task's
    present call, and `inside` tells whether every access so far was in the buffer. -/
structure Sys where
  mq : Mq
  pc : Nat → Pc
  paused : Nat → Bool
  accepted : List (List Byte)
  returned : List (List Byte)
  moved : Nat → Nat
  rets : List Ret
  inside : Bool

def setPc (s : Sys) (t : Nat) (pc : Pc) : Sys := { s with pc := update s.pc t pc }

def ret (s : Sys) (t : Nat) (result : Option Errno) : Sys :=
  setPc { s with rets := ⟨result, s.moved t⟩ :: s.rets } t .idle

def sleep (s : Sys) (t : Nat) : Side → Sys
  | .putters => { s with mq := { s.mq with putq := s.mq.putq ++ [t] }, paused := update s.paused t true }
  | .getters => { s with mq := { s.mq with getq := s.mq.getq ++ [t] }, paused := update s.paused t true }

/-- The body of the two loops that wait. A signal may be pending (`sig`). -/
def await (s : Sys) (t : Nat) (side : Side) (wait : Wait) (sig : Bool) : Sys :=
  match wait with
  | .no => ret s t (some .EAGAIN)
  | .intr => if sig then ret s t (some .EINTR) else sleep s t side
  | .noIntr => sleep s t side

def reaches (q : Mq) (off : Nat) : Bool := q.itemsz == 0 || decide (off + q.itemsz ≤ q.room)

/-- The address of the record that `mq_put` stores, relative to the buffer. -/
def putOff (m : Machine) (q : Mq) : Nat := (q.first + q.curcnt) % m.word % q.maxcnt

def getOff (q : Mq) : Nat := q.first % q.maxcnt

def store (m : Machine) (q : Mq) (data : Mem) : Mq :=
  { q with buf := blit q.buf (putOff m q) (slice data 0 q.itemsz), curcnt := q.curcnt + 1 }

def fetch (m : Machine) (q : Mq) : Mq :=
  { q with curcnt := q.curcnt - 1, first := (q.first + 1) % m.word % q.maxcnt }

def mqPut (m : Machine) (s : Sys) (t : Nat) (data : Mem) (wait : Wait) (sig : Bool) : Sys :=
  if s.mq.maxcnt ≤ s.mq.curcnt then await s t .putters wait sig
  else setPc { s with mq := store m s.mq data
                      accepted := s.accepted ++ [slice data 0 s.mq.itemsz]
                      moved := update s.moved t (s.moved t + 1)
                      inside := s.inside && reaches s.mq (putOff m s.mq) } t (.wake .getters)

def mqGet (m : Machine) (s : Sys) (t : Nat) (wait : Wait) (sig : Bool) : Sys :=
  if s.mq.curcnt = 0 then await s t .getters wait sig
  else setPc { s with mq := fetch m s.mq
                      returned := s.returned ++ [slice s.mq.buf (getOff s.mq) s.mq.itemsz]
                      moved := update s.moved t (s.moved t + 1)
                      inside := s.inside && reaches s.mq (getOff s.mq) } t (.wake .putters)

/-- One round of `while (t = task_dequeue(…), t) task_resume(t)`, or its end. -/
def wakeOne (s : Sys) (t : Nat) : Side → Sys
  | .putters =>
    match s.mq.putq with
    | [] => ret s t none
    | u :: rest => { s with mq := { s.mq with putq := rest }, paused := update s.paused u false }
  | .getters =>
    match s.mq.getq with
    | [] => ret s t none
    | u :: rest => { s with mq := { s.mq with getq := rest }, paused := update s.paused u false }

def taskResume (s : Sys) (t : Nat) : Sys :=
  if s.paused t then
    { s with mq := { s.mq with putq := s.mq.putq.erase t, getq := s.mq.getq.erase t }
             paused := update s.paused t false }
  else s

inductive Act where
  | put (t : Nat) (data : Mem) (wait : Wait)
  | get (t : Nat) (wait : Wait)
  | go (t : Nat) (sig : Bool)
  | signal (t : Nat)

/-- A task that is not in a call may start one, one that is not asleep goes on, and signals arrive at any time. -/
def step (m : Machine) (s : Sys) : Act → Option Sys
  | .put t data wait =>
    match s.pc t with
    | .idle => some (setPc { s with moved := update s.moved t 0 } t (.put data wait))
    | _ => none
  | .get t wait =>
    match s.pc t with
    | .idle => some (setPc { s with moved := update s.moved t 0 } t (.get wait))
    | _ => none
  | .go t sig =>
    if s.paused t then none
    else match s.pc t with
      | .idle => none
      | .put data wait => some (mqPut m s t data wait sig)
      | .get wait => some (mqGet m s t wait sig)
      | .wake side => some (wakeOne s t side)
  | .signal t => some (taskResume s t)

def start (q : Mq) : Sys := ⟨q, fun _ => .idle, fun _ => false, [], [], fun _ => 0, [], true⟩

inductive Reached (m : Machine) (q : Mq) : Sys → Prop where
  | start : Reached m q (start q)
  | step {s s' : Sys} {a : Act} : Reached m q s → step m s a = some s' → Reached m q s'

/-- What a bounded queue of records does: the records that are taken out are the first ones that were put in, the
    others are counted, and a failed call has moved none. -/
structure Orderly (s : Sys) : Prop where
  bounded : s.mq.curcnt ≤ s.mq.maxcnt
  inside : s.inside = true
  inOrder : s.returned <+: s.accepted
  counted : s.accepted.length = s.returned.length + s.mq.curcnt
  failed : ∀ r ∈ s.rets, r.result ≠ none → r.moved = 0

variable {m : Machine} {q : Mq} {s s' : Sys} {t : Nat} {data : Mem} {wait : Wait} {sig : Bool} {side : Side}

/- Queues whose records keep apart -/

def contents (q : Mq) : List (List Byte) := window (fun off => slice q.buf off q.itemsz) q.maxcnt q.first q.curcnt

/-- Records at different offsets do not overlap, all are in the buffer, and the offsets do not overflow. -/
structure Roomy (q : Mq) : Prop where
  some : 0 < q.maxcnt
  apart : q.itemsz ≤ 1 ∨ q.maxcnt = 1
  fits : q.itemsz * q.maxcnt ≤ q.room
  small : q.itemsz * q.maxcnt < 2 ^ 30

theorem putOff_eq (roomy : Roomy q) (nonempty : q.itemsz ≠ 0) (first : q.first < q.maxcnt)
    (space : q.curcnt < q.maxcnt) : putOff m q = (q.first + q.curcnt) % q.maxcnt := by
  have word := m.word_large
  have cnt : q.maxcnt ≤ q.itemsz * q.maxcnt := Nat.le_mul_of_pos_left _ (Nat.pos_of_ne_zero nonempty)
  have small := roomy.small
  rw [putOff, Nat.mod_eq_of_lt (b := m.word) (by omega)]

theorem reaches_of (roomy : Roomy q) (lt : off < q.maxcnt) : reaches q off = true := by
  have fits := roomy.fits
  rcases roomy.apart with thin | single
  · rcases Nat.le_one_iff_eq_zero_or_eq_one.mp thin with eq | eq
    · simp [reaches, eq]
    · simp only [reaches, eq, one_mul] at *
      simp
      omega
  · rw [single, mul_one] at fits
    have first : off = 0 := by omega
    simp [reaches, first, fits]

theorem slice_zero (buf : Mem) (off : Nat) : slice buf off 0 = [] := rfl

theorem slice_store (roomy : Roomy q) (lt : off < q.maxcnt) (ne : off ≠ putOff m q) :
    slice (store m q data).buf off q.itemsz = slice q.buf off q.itemsz := by
  have here : putOff m q < q.maxcnt := Nat.mod_lt _ roomy.some
  apply map_congr_left
  intro k mem
  have inside := mem_range.mp mem
  apply blit_outside
  rw [slice_length]
  rcases roomy.apart with thin | single <;> omega

theorem contents_store (roomy : Roomy q) (first : q.first < q.maxcnt) (space : q.curcnt < q.maxcnt) :
    contents (store m q data) = contents q ++ [slice data 0 q.itemsz] := by
  by_cases empty : q.itemsz = 0
  · have none : ∀ q' : Mq, q'.itemsz = 0 → contents q' = replicate q'.curcnt [] := by
      intro q' zero
      simp only [contents, window, zero, slice_zero, map_const', length_range]
    rw [none q empty, none (store m q data) empty, empty, slice_zero]
    exact replicate_succ'
  · have off := putOff_eq (m := m) roomy empty first space
    refine (window_store ?_ ?_ : window _ _ _ (q.curcnt + [slice data 0 q.itemsz].length) = _ ++ [slice data 0 q.itemsz])
    · intro k lt
      have zero : k = 0 := Nat.lt_one_iff.mp lt
      subst zero
      show slice (blit q.buf (putOff m q) (slice data 0 q.itemsz)) ((q.first + q.curcnt) % q.maxcnt) q.itemsz = _
      rw [off]
      have same := slice_blit q.buf ((q.first + q.curcnt) % q.maxcnt) (slice data 0 q.itemsz)
      rw [slice_length] at same
      exact same
    · intro k lt
      refine slice_store roomy (Nat.mod_lt _ roomy.some) ?_
      rw [off]
      exact cell_ne lt space

theorem contents_fetch (roomy : Roomy q) (first : q.first < q.maxcnt) (some : q.curcnt ≠ 0) :
    contents q = slice q.buf (getOff q) q.itemsz :: contents (fetch m q) := by
  obtain ⟨n, eq⟩ := Nat.exists_eq_succ_of_ne_zero some
  have word := m.word_large
  have next : window (fun off => slice q.buf off q.itemsz) q.maxcnt ((q.first + 1) % m.word % q.maxcnt) n =
      window (fun off => slice q.buf off q.itemsz) q.maxcnt ((q.first + 1) % q.maxcnt) n := by
    by_cases empty : q.itemsz = 0
    · simp only [window, empty, slice_zero, map_const']
    · have cnt : q.maxcnt ≤ q.itemsz * q.maxcnt := Nat.le_mul_of_pos_left _ (Nat.pos_of_ne_zero empty)
      have small := roomy.small
      rw [Nat.mod_eq_of_lt (b := m.word) (by omega)]
  have rest : contents (fetch m q) =
      window (fun off => slice q.buf off q.itemsz) q.maxcnt ((q.first + 1) % m.word % q.maxcnt) n := by
    show window _ _ _ (q.curcnt - 1) = _
    rw [eq]
    rfl
  rw [rest, next, contents, eq]
  exact window_succ ..

/- Every run of a roomy queue -/

def waits : Pc → Prop
  | .put _ _ | .get _ => True
  | .idle | .wake _ => False

structure Inv (q : Mq) (s : Sys) : Prop where
  itemsz : s.mq.itemsz = q.itemsz
  maxcnt : s.mq.maxcnt = q.maxcnt
  room : s.mq.room = q.room
  first : s.mq.first < s.mq.maxcnt
  bounded : s.mq.curcnt ≤ s.mq.maxcnt
  inside : s.inside = true
  records : s.accepted = s.returned ++ contents s.mq
  moved : ∀ t, waits (s.pc t) → s.moved t = 0
  failed : ∀ r ∈ s.rets, r.result ≠ none → r.moved = 0

theorem Inv.roomy (inv : Inv q s) (roomy : Roomy q) : Roomy s.mq := by
  refine ⟨?_, ?_, ?_, ?_⟩
  · rw [inv.maxcnt]
    exact roomy.some
  · rw [inv.itemsz, inv.maxcnt]
    exact roomy.apart
  · rw [inv.itemsz, inv.maxcnt, inv.room]
    exact roomy.fits
  · rw [inv.itemsz, inv.maxcnt]
    exact roomy.small

theorem Inv.orderly (inv : Inv q s) : Orderly s := by
  refine ⟨inv.bounded, inv.inside, ?_, ?_, inv.failed⟩
  · rw [inv.records]
    exact prefix_append ..
  · rw [inv.records, length_append, contents, window_length]

theorem inv_start (roomy : Roomy q) (first : q.first = 0) (curcnt : q.curcnt = 0) : Inv q (start q) where
  itemsz := rfl
  maxcnt := rfl
  room := rfl
  first := by
    show q.first < q.maxcnt
    rw [first]
    exact roomy.some
  bounded := by
    show q.curcnt ≤ q.maxcnt
    rw [curcnt]
    exact Nat.zero_le _
  inside := rfl
  records := by
    show [] = [] ++ window _ _ _ q.curcnt
    rw [curcnt]
    rfl
  moved := fun _ _ => rfl
  failed := fun r mem => absurd mem (not_mem_nil)

section
variable (inv : Inv q s)
include inv

theorem Inv.requeue (putq getq : List Nat) (paused : Nat → Bool) :
    Inv q { s with mq := { s.mq with putq := putq, getq := getq }, paused := paused } :=
  ⟨inv.itemsz, inv.maxcnt, inv.room, inv.first, inv.bounded, inv.inside, inv.records, inv.moved, inv.failed⟩

theorem Inv.setPc (ok : waits pc → s.moved t = 0) : Inv q (setPc s t pc) := by
  refine ⟨inv.itemsz, inv.maxcnt, inv.room, inv.first, inv.bounded, inv.inside, inv.records, ?_, inv.failed⟩
  intro u waiting
  simp only [Mqueue.setPc] at waiting ⊢
  by_cases eq : u = t
  · subst eq
    rw [update_self] at waiting
    exact ok waiting
  · rw [update_of_ne eq] at waiting
    exact inv.moved u waiting

theorem Inv.begin : Inv q (Mqueue.setPc { s with moved := update s.moved t 0 } t pc) := by
  have cleared : Inv q { s with moved := update s.moved t 0 } := by
    refine ⟨inv.itemsz, inv.maxcnt, inv.room, inv.first, inv.bounded, inv.inside, inv.records, ?_, inv.failed⟩
    intro u waiting
    by_cases eq : u = t
    · rw [eq]
      exact update_self ..
    · show update s.moved t 0 u = 0
      rw [update_of_ne eq]
      exact inv.moved u waiting
  exact cleared.setPc fun _ => update_self ..

theorem Inv.ret (ok : result ≠ none → s.moved t = 0) : Inv q (ret s t result) := by
  have logged : Inv q { s with rets := ⟨result, s.moved t⟩ :: s.rets } := by
    refine ⟨inv.itemsz, inv.maxcnt, inv.room, inv.first, inv.bounded, inv.inside, inv.records, inv.moved, ?_⟩
    intro r mem
    rcases mem_cons.mp mem with eq | old
    · rw [eq]
      exact ok
    · exact inv.failed r old
  exact logged.setPc False.elim

theorem Inv.sleep : Inv q (sleep s t side) := by
  cases side with
  | putters => exact inv.requeue ..
  | getters => exact inv.requeue ..

theorem Inv.await (here : waits (s.pc t)) : Inv q (await s t side wait sig) := by
  have moved := inv.moved t here
  cases wait with
  | no => exact inv.ret fun _ => moved
  | noIntr => exact inv.sleep
  | intr =>
    simp only [Mqueue.await]
    split
    · exact inv.ret fun _ => moved
    · exact inv.sleep

theorem Inv.wakeOne : Inv q (wakeOne s t side) := by
  cases side with
  | putters =>
    simp only [Mqueue.wakeOne]
    split
    · exact inv.ret fun no => absurd rfl no
    · exact inv.requeue ..
  | getters =>
    simp only [Mqueue.wakeOne]
    split
    · exact inv.ret fun no => absurd rfl no
    · exact inv.requeue ..

theorem Inv.move {mq : Mq} {accepted returned : List (List Byte)} {inside : Bool}
    (itemsz : mq.itemsz = s.mq.itemsz) (maxcnt : mq.maxcnt = s.mq.maxcnt) (room : mq.room = s.mq.room)
    (first : mq.first < mq.maxcnt) (bounded : mq.curcnt ≤ mq.maxcnt) (reached : inside = true)
    (records : accepted = returned ++ contents mq) :
    Inv q (Mqueue.setPc { s with mq := mq, accepted := accepted, returned := returned,
                                 moved := update s.moved t (s.moved t + 1), inside := inside }
      t (.wake side)) := by
  refine ⟨itemsz.trans inv.itemsz, maxcnt.trans inv.maxcnt, room.trans inv.room, first, bounded, reached, records, ?_,
    inv.failed⟩
  intro u waiting
  by_cases eq : u = t
  · subst eq
    simp [Mqueue.setPc, waits] at waiting
  · simp only [Mqueue.setPc, update_of_ne eq] at waiting ⊢
    exact inv.moved u waiting

theorem Inv.put (roomy : Roomy q) (here : waits (s.pc t)) : Inv q (mqPut m s t data wait sig) := by
  have rs := inv.roomy roomy
  simp only [mqPut]
  split
  · exact inv.await here
  · rename_i space
    have lt : s.mq.curcnt < s.mq.maxcnt := Nat.lt_of_not_le space
    refine inv.move rfl rfl rfl inv.first lt ?_ ?_
    · rw [inv.inside, Bool.true_and]
      exact reaches_of rs (Nat.mod_lt _ rs.some)
    · rw [inv.records, contents_store rs inv.first lt, append_assoc]

theorem Inv.get (roomy : Roomy q) (here : waits (s.pc t)) : Inv q (mqGet m s t wait sig) := by
  have rs := inv.roomy roomy
  have bounded := inv.bounded
  simp only [mqGet]
  split
  · exact inv.await here
  · rename_i some
    refine inv.move rfl rfl rfl (Nat.mod_lt _ rs.some) ?_ ?_ ?_
    · show s.mq.curcnt - 1 ≤ s.mq.maxcnt
      omega
    · rw [inv.inside, Bool.true_and]
      exact reaches_of rs (Nat.mod_lt _ rs.some)
    · rw [inv.records, contents_fetch (m := m) rs inv.first some, append_assoc]
      rfl

theorem inv_step (roomy : Roomy q) (done : step m s a = some s') : Inv q s' := by
  cases a with
  | put t data wait =>
    simp only [step] at done
    split at done
    · cases done
      exact inv.begin
    · cases done
  | get t wait =>
    simp only [step] at done
    split at done
    · cases done
      exact inv.begin
    · cases done
  | signal t =>
    cases done
    simp only [taskResume]
    split
    · exact inv.requeue ..
    · exact inv
  | go t sig =>
    simp only [step] at done
    split at done
    · cases done
    · split at done
      · cases done
      · rename_i here
        cases done
        exact inv.put roomy (by rw [here]; trivial)
      · rename_i here
        cases done
        exact inv.get roomy (by rw [here]; trivial)
      · cases done
        exact inv.wakeOne

end

theorem inv_reached (roomy : Roomy q) (first : q.first = 0) (curcnt : q.curcnt = 0) (run : Reached m q s) :
    Inv q s := by
  induction run with
  | start => exact inv_start roomy first curcnt
  | step _ done ih => exact inv_step ih roomy done

/- Runs of the other queues -/

theorem reached_put (run : Reached m q s) (idle : s.pc t = .idle) (awake : s.paused t = false)
    (space : s.mq.curcnt < s.mq.maxcnt) (data : Mem) :
    ∃ s', Reached m q s' ∧ s'.mq = store m s.mq data ∧ s'.accepted = s.accepted ++ [slice data 0 s.mq.itemsz] ∧
      s'.returned = s.returned ∧ s'.inside = (s.inside && reaches s.mq (putOff m s.mq)) ∧
      ∀ u, u ≠ t → s'.pc u = s.pc u ∧ s'.paused u = s.paused u := by
  let begun := setPc { s with moved := update s.moved t 0 } t (.put data .no)
  have called : Reached m q begun := by
    apply Reached.step (a := .put t data .no) run
    simp only [step, idle]
    rfl
  have here : begun.pc t = .put data .no := update_self ..
  have ran : Reached m q (mqPut m begun t data .no false) := by
    apply Reached.step (a := .go t false) called
    simp only [step, here]
    rw [if_neg (by simp [begun, setPc, awake])]
  refine ⟨_, ran, ?_⟩
  have room : ¬ begun.mq.maxcnt ≤ begun.mq.curcnt := not_le.mpr space
  rw [mqPut, if_neg room]
  refine ⟨rfl, rfl, rfl, rfl, ?_⟩
  intro u ne
  exact ⟨by simp [begun, setPc, update_of_ne ne], rfl⟩

theorem reached_get (run : Reached m q s) (idle : s.pc t = .idle) (awake : s.paused t = false)
    (some : s.mq.curcnt ≠ 0) :
    ∃ s', Reached m q s' ∧ s'.accepted = s.accepted ∧
      s'.returned = s.returned ++ [slice s.mq.buf (getOff s.mq) s.mq.itemsz] := by
  let begun := setPc { s with moved := update s.moved t 0 } t (.get .no)
  have called : Reached m q begun := by
    apply Reached.step (a := .get t .no) run
    simp only [step, idle]
    rfl
  have here : begun.pc t = .get .no := update_self ..
  have ran : Reached m q (mqGet m begun t .no false) := by
    apply Reached.step (a := .go t false) called
    simp only [step, here]
    rw [if_neg (by simp [begun, setPc, awake])]
  refine ⟨_, ran, ?_⟩
  have filled : ¬ begun.mq.curcnt = 0 := some
  rw [mqGet, if_neg filled]
  exact ⟨rfl, rfl⟩

theorem not_orderly_wide (first : q.first = 0) (curcnt : q.curcnt = 0) (wide : 2 ≤ q.itemsz) (many : 2 ≤ q.maxcnt) :
    ∃ s, Reached m q s ∧ ¬ Orderly s := by
  have word := m.word_large
  obtain ⟨s, run, mq, accepted, returned, -, free⟩ := reached_put (m := m) (t := 0) Reached.start rfl rfl
    (show q.curcnt < q.maxcnt by omega) fun _ => 255
  have cnt : s.mq.curcnt = 1 := by
    rw [mq]
    show q.curcnt + 1 = 1
    rw [curcnt]
  have begin : s.mq.first = 0 := by
    rw [mq]
    exact first
  have max : s.mq.maxcnt = q.maxcnt := by
    rw [mq]
    rfl
  obtain ⟨s', run', mq', accepted', returned', -, free'⟩ := reached_put (t := 1) run
    ((free 1 Nat.one_ne_zero).1) ((free 1 Nat.one_ne_zero).2) (show s.mq.curcnt < s.mq.maxcnt by omega) fun _ => 0
  have off' : putOff m s.mq = 1 := by
    rw [putOff, begin, cnt, max, Nat.mod_eq_of_lt (b := m.word) (by omega), Nat.mod_eq_of_lt (by omega)]
  have ne : (2 : Nat) ≠ 1 := by decide
  have ne' : (2 : Nat) ≠ 0 := by decide
  have some : s'.mq.curcnt ≠ 0 := by
    rw [mq']
    exact Nat.succ_ne_zero _
  obtain ⟨s'', run'', accepted'', returned''⟩ := reached_get (t := 2) run' ((free' 2 ne).1.trans (free 2 ne').1)
    ((free' 2 ne).2.trans (free 2 ne').2) some
  refine ⟨s'', run'', fun ok => ?_⟩
  have here := ok.inOrder
  have itemsz : s'.mq.itemsz = q.itemsz := by
    rw [mq', mq]
    rfl
  have got : getOff s'.mq = 0 := by
    rw [getOff, mq']
    show s.mq.first % _ = 0
    rw [begin, Nat.zero_mod]
  rw [accepted'', returned'', accepted', returned', accepted, returned, itemsz, got] at here
  have same : slice s'.mq.buf 0 q.itemsz = slice (fun _ => 255) 0 q.itemsz := (cons_prefix_cons.mp here).1
  have byte := congrArg (·.getD 1 0) same
  simp only [slice_getD _ _ _ _ (show 1 < q.itemsz by omega)] at byte
  have zero : s'.mq.buf 1 = 0 := by
    rw [mq']
    show blit s.mq.buf (putOff m s.mq) _ 1 = 0
    rw [off', blit_inside _ _ _ _ (le_refl _) (by rw [slice_length, mq]; show 1 < 1 + q.itemsz; omega)]
    rw [Nat.sub_self, slice_getD _ _ _ _ (by rw [mq]; show 0 < q.itemsz; omega)]
  rw [zero] at byte
  exact absurd byte (by decide)

theorem fill (first : q.first = 0) (curcnt : q.curcnt = 0) (word : q.maxcnt < m.word) (k : Nat) (le : k ≤ q.maxcnt) :
    ∃ s, Reached m q s ∧ s.mq.itemsz = q.itemsz ∧ s.mq.maxcnt = q.maxcnt ∧ s.mq.room = q.room ∧ s.mq.first = 0 ∧
      s.mq.curcnt = k ∧ (∀ t, k ≤ t → s.pc t = .idle ∧ s.paused t = false) ∧
      (s.inside = true → ∀ j, j < k → reaches q j = true) := by
  induction k with
  | zero => exact ⟨_, .start, rfl, rfl, rfl, first, curcnt, fun _ _ => ⟨rfl, rfl⟩, fun _ j lt => absurd lt (Nat.not_lt_zero j)⟩
  | succ k ih =>
    obtain ⟨s, run, itemsz, maxcnt, room, begin, cnt, free, inside⟩ := ih (by omega)
    obtain ⟨s', run', mq, -, -, inside', free'⟩ := reached_put run (free k (Nat.le_refl k)).1
      (free k (Nat.le_refl k)).2 (show s.mq.curcnt < s.mq.maxcnt by omega) fun _ => 0
    have off : putOff m s.mq = k := by
      rw [putOff, begin, cnt, maxcnt, zero_add, Nat.mod_eq_of_lt (b := m.word) (by omega), Nat.mod_eq_of_lt (by omega)]
    refine ⟨s', run', ?_, ?_, ?_, ?_, ?_, ?_, ?_⟩
    · rw [mq]
      exact itemsz
    · rw [mq]
      exact maxcnt
    · rw [mq]
      exact room
    · rw [mq]
      exact begin
    · rw [mq]
      exact congrArg (· + 1) cnt
    · intro t lt
      have ne : t ≠ k := by omega
      exact ⟨(free' t ne).1.trans (free t (by omega)).1, (free' t ne).2.trans (free t (by omega)).2⟩
    · intro ok j lt
      rw [inside', Bool.and_eq_true, off] at ok
      rcases Nat.lt_succ_iff_lt_or_eq.mp lt with before | eq
      · exact inside ok.1 j before
      · have last := ok.2
        rw [reaches, itemsz, room] at last
        rw [eq]
        exact last

theorem not_orderly_short (first : q.first = 0) (curcnt : q.curcnt = 0) (word : q.maxcnt < m.word)
    (some : 0 < q.maxcnt) (nonempty : q.itemsz ≠ 0) (short : q.room < q.maxcnt - 1 + q.itemsz) :
    ∃ s, Reached m q s ∧ ¬ Orderly s := by
  obtain ⟨s, run, -, -, -, -, -, -, inside⟩ := fill first curcnt word q.maxcnt (le_refl _)
  refine ⟨s, run, fun ok => ?_⟩
  have last := inside ok.inside (q.maxcnt - 1) (by omega)
  simp only [reaches, Bool.or_eq_true, beq_iff_eq, nonempty, decide_eq_true_eq, false_or] at last
  omega

/- What `mq_init` makes -/

section Init
variable {pages : Nat → Option Errno} {buf : Mem} {itemsz maxcnt : Nat}

/-- The buffer that `kmalloc` returns is smaller than the area of the kernel, so it holds `itemsz * maxcnt` bytes
    exactly when they are fewer than that. -/
structure Made (bytes cells : Nat) (q : Mq) : Prop where
  itemsz : q.itemsz = bytes
  maxcnt : q.maxcnt = cells
  first : q.first = 0
  curcnt : q.curcnt = 0
  small : q.room < 2 ^ 30
  fits : bytes * cells < 2 ^ 30 → bytes * cells ≤ q.room

theorem made (area : ∀ n, pages n = none → n < 2 ^ 18) (init : mqInit m pages buf itemsz maxcnt = .ok q) :
    Made itemsz maxcnt q := by
  simp only [mqInit] at init
  split at init
  · cases init
  · split at init
    · cases init
    · rename_i granted
      cases init
      have few := area _ granted
      have word := m.word_large
      have head : mheadSize m ≤ 40 := by cases m <;> decide
      refine ⟨rfl, rfl, rfl, rfl, ?_, ?_⟩
      · show 4096 * kmallocPages m (itemsz * maxcnt) - mheadSize m < 2 ^ 30
        have some : 0 < mheadSize m := by cases m <;> decide
        omega
      · intro small
        show itemsz * maxcnt ≤ 4096 * kmallocPages m (itemsz * maxcnt) - mheadSize m
        rw [kmallocPages, Nat.mod_eq_of_lt (b := 2 ^ 32) (by omega), Nat.mod_eq_of_lt (b := m.word) (by omega)]
        omega

/-- A message queue is in order in every run if and only if its records have at most one byte, or there is only
    one of them, and the size of its buffer is not one that `kmalloc` wraps around. -/
theorem mq_orderly_iff (area : ∀ n, pages n = none → n < 2 ^ 18) (some : 0 < maxcnt) (word : maxcnt < m.word)
    (init : mqInit m pages buf itemsz maxcnt = .ok q) :
    (∀ s, Reached m q s → Orderly s) ↔ (itemsz ≤ 1 ∨ maxcnt = 1) ∧ itemsz * maxcnt < 2 ^ 30 := by
  have mq := made area init
  have size := mq.small
  constructor
  · intro all
    have apart : itemsz ≤ 1 ∨ maxcnt = 1 := by
      apply Classical.byContradiction
      intro overlap
      obtain ⟨s, run, not⟩ := not_orderly_wide (m := m) mq.first mq.curcnt (by rw [mq.itemsz]; omega)
        (by rw [mq.maxcnt]; omega)
      exact not (all s run)
    refine ⟨apart, ?_⟩
    apply Nat.lt_of_not_le
    intro large
    have nonempty : itemsz ≠ 0 := by
      intro zero
      rw [zero, zero_mul] at large
      exact absurd large (by decide)
    have short : 2 ^ 30 ≤ maxcnt - 1 + itemsz := by
      rcases apart with thin | single
      · have one : itemsz = 1 := by omega
        rw [one, one_mul] at large
        omega
      · rw [single, mul_one] at large
        omega
    obtain ⟨s, run, not⟩ := not_orderly_short (m := m) mq.first mq.curcnt (by rw [mq.maxcnt]; exact word)
      (by rw [mq.maxcnt]; exact some) (by rw [mq.itemsz]; exact nonempty) (by rw [mq.itemsz, mq.maxcnt]; omega)
    exact not (all s run)
  · rintro ⟨apart, small⟩ s run
    have roomy : Roomy q := by
      refine ⟨?_, ?_, ?_, ?_⟩
      · rw [mq.maxcnt]
        exact some
      · rw [mq.itemsz, mq.maxcnt]
        exact apart
      · rw [mq.itemsz, mq.maxcnt]
        exact mq.fits small
      · rw [mq.itemsz, mq.maxcnt]
        exact small
    exact (inv_reached roomy mq.first mq.curcnt run).orderly

end Init

def sampleArea (n : Nat) : Option Errno := if n < 2 ^ 18 then none else some .ENOMEM

theorem sampleArea_small (n : Nat) (free : sampleArea n = none) : n < 2 ^ 18 := by
  simp only [sampleArea] at free
  split at free
  · assumption
  · cases free

def sampleMq : Mq := ⟨zero, 4064, 2, 4, 0, 0, [], []⟩

theorem sampleMq_init : mqInit .i386 sampleArea zero 2 4 = .ok sampleMq := rfl

theorem mq_orderly_iff_sample : (∀ s, Reached .i386 sampleMq s → Orderly s) ↔
    ((2 : Nat) ≤ 1 ∨ (4 : Nat) = 1) ∧ 2 * 4 < 2 ^ 30 :=
  mq_orderly_iff sampleArea_small (by decide) (by decide) sampleMq_init

theorem mq_not_orderly : mqInit .i386 sampleArea zero 2 4 = .ok sampleMq ∧
    ∃ s, Reached .i386 sampleMq s ∧ ¬ Orderly s :=
  ⟨sampleMq_init, not_orderly_wide rfl rfl (by decide) (by decide)⟩

end Mqueue
