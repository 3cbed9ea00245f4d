import Newsys.Lib.Ring
import Newsys.Libc.Strtol

/- Ring buffers (lib/ringbuf.c), whose owner may also look at bytes that have not been read yet. -/
namespace Ringbuf
open Bytes Kern Libc Ring List

structure Rb where
  size : Nat
  head : Nat
  util : Nat
  buf : Mem

abbrev sizeT (m : Machine) (n : Nat) : Nat := n % 2 ^ longBits m

def rbInit (buf : Mem) (sz : Nat) : Rb := ⟨sz, 0, 0, buf⟩

def rbCheck (rb : Rb) : Option Unit := if rb.util > rb.size then none else some ()

def copyIn (m : Machine) (rb : Rb) (tail : Nat) (data : List Byte) (sz : Nat) : Mem :=
  if sizeT m (tail + sz) > rb.size then
    let split := rb.size - tail
    blit (blit rb.buf tail (data.take split)) 0 ((data.drop split).take (sz - split))
  else blit rb.buf tail (data.take sz)

def copyOut (m : Machine) (rb : Rb) (start sz : Nat) : List Byte :=
  if sizeT m (start + sz) > rb.size then
    let split := rb.size - start
    slice rb.buf start split ++ slice rb.buf 0 (sz - split)
  else slice rb.buf start sz

def rbWrite (m : Machine) (rb : Rb) (data : List Byte) : Option (Nat × Rb) := do
  let tail := sizeT m (rb.head + rb.util) % rb.size
  rbCheck rb
  let sz := if data.length > rb.size - rb.util then rb.size - rb.util else data.length
  pure (sz, { rb with buf := copyIn m rb tail data sz, util := sizeT m (rb.util + sz) })

def rbRead (m : Machine) (rb : Rb) (sz : Nat) : Option (Nat × List Byte × Rb) := do
  rbCheck rb
  let sz := if sz > rb.util then rb.util else sz
  pure (sz, copyOut m rb rb.head sz, { rb with head := sizeT m (rb.head + sz) % rb.size, util := rb.util - sz })

def rbPeek (m : Machine) (rb : Rb) (sz off : Nat) : Option (Nat × List Byte) := do
  rbCheck rb
  if off ≥ rb.util then pure (0, [])
  else
    let sz := if sz > rb.util - off then rb.util - off else sz
    let off := sizeT m (off + rb.head) % rb.size
    pure (sz, copyOut m rb off sz)

inductive Call where
  | write (data : List Byte)
  | read (sz : Nat)
  | peek (sz off : Nat)

/-- What a call returns, and the bytes it has copied to its caller. -/
abbrev Answer : Type := Nat × List Byte

def Call.run (m : Machine) (rb : Rb) : Call → Option (Answer × Rb)
  | .write data => (rbWrite m rb data).map fun r => ((r.1, []), r.2)
  | .read sz => (rbRead m rb sz).map fun r => ((r.1, r.2.1), r.2.2)
  | .peek sz off => (rbPeek m rb sz off).map fun r => (r, rb)

def run (m : Machine) : Rb → List Call → Option (List Answer × Rb)
  | rb, [] => some ([], rb)
  | rb, call :: calls => do
    let (answer, rb) ← call.run m rb
    let (answers, rb) ← run m rb calls
    pure (answer :: answers, rb)

/- The queue that a ring buffer stands for -/

def Call.onQueue (size : Nat) (q : List Byte) : Call → Answer × List Byte
  | .write data =>
    let sz := min data.length (size - q.length)
    ((sz, []), q ++ data.take sz)
  | .read sz => (((q.take sz).length, q.take sz), q.drop sz)
  | .peek sz off => ((((q.drop off).take sz).length, (q.drop off).take sz), q)

def onQueue (size : Nat) : List Byte → List Call → List Answer × List Byte
  | q, [] => ([], q)
  | q, call :: calls =>
    let first := call.onQueue size q
    let others := onQueue size first.2 calls
    (first.1 :: others.1, others.2)

def Rb.queue (rb : Rb) : List Byte := window rb.buf rb.size rb.head rb.util

/-- Sums of two places in the buffer are values of a `size_t`. -/
structure Rb.Ok (m : Machine) (rb : Rb) : Prop where
  half : 2 * rb.size ≤ 2 ^ longBits m
  head : rb.head < rb.size
  util : rb.util ≤ rb.size

section Copies
variable {m : Machine} {rb : Rb} {start sz : Nat}

theorem sizeT_eq (ok : rb.Ok m) (low : n < 2 * rb.size) : sizeT m n = n :=
  Nat.mod_eq_of_lt (lt_of_lt_of_le low ok.half)

theorem rbCheck_eq (ok : rb.Ok m) : rbCheck rb = some () := if_neg (not_lt.mpr ok.util)

theorem queue_length (rb : Rb) : rb.queue.length = rb.util := window_length ..

theorem copyOut_eq (ok : rb.Ok m) (inside : start < rb.size) (fits : sz ≤ rb.size) :
    copyOut m rb start sz = window rb.buf rb.size start sz := by
  rw [copyOut]
  by_cases wraps : start + sz < 2 * rb.size ∧ rb.size < start + sz
  · rw [sizeT_eq ok wraps.1, if_pos wraps.2, window_split (by omega) (by omega) fits]
    rfl
  · rw [sizeT_eq ok (by omega), if_neg (by omega), window_straight (by omega)]
    rfl

section In
variable {data : List Byte} (ok : rb.Ok m) (inside : start < rb.size) (fits : sz ≤ rb.size) (enough : sz ≤ data.length)

include ok inside fits enough

theorem copyIn_cell (lt : k < sz) :
    copyIn m rb start data sz ((start + k) % rb.size) = data.getD k 0 := by
  rw [copyIn, sizeT_eq ok (by omega)]
  by_cases wraps : rb.size < start + sz
  · rw [if_pos wraps]
    by_cases low : k < rb.size - start
    · rw [Nat.mod_eq_of_lt (by omega), blit_outside _ _ _ _ (by rw [length_take, length_drop]; omega),
        blit_inside _ _ _ _ (by omega) (by rw [length_take]; omega), Nat.add_sub_cancel_left]
      simp only [getD_eq_getElem?_getD, getElem?_take, if_pos low]
    · have turn : (start + k) % rb.size = k - (rb.size - start) := by
        rw [Nat.mod_eq_sub_mod (by omega), Nat.mod_eq_of_lt (by omega)]
        omega
      rw [turn, blit_inside _ _ _ _ (by omega) (by rw [length_take, length_drop]; omega), Nat.sub_zero]
      simp only [getD_eq_getElem?_getD, getElem?_take, getElem?_drop]
      rw [if_pos (by omega), Nat.add_sub_cancel' (by omega)]
  · rw [if_neg wraps, Nat.mod_eq_of_lt (by omega),
      blit_inside _ _ _ _ (by omega) (by rw [length_take]; omega), Nat.add_sub_cancel_left]
    simp only [getD_eq_getElem?_getD, getElem?_take, if_pos lt]

theorem copyIn_other (other : ∀ k, k < sz → pos ≠ (start + k) % rb.size) :
    copyIn m rb start data sz pos = rb.buf pos := by
  rw [copyIn, sizeT_eq ok (by omega)]
  by_cases wraps : rb.size < start + sz
  · rw [if_pos wraps]
    have high : pos < start ∨ rb.size ≤ pos := by
      by_contra inside'
      exact other (pos - start) (by omega) (by rw [Nat.mod_eq_of_lt (by omega)]; omega)
    have low : sz - (rb.size - start) ≤ pos := by
      by_contra inside'
      refine other (pos + (rb.size - start)) (by omega) ?_
      rw [show start + (pos + (rb.size - start)) = pos + rb.size by omega, Nat.add_mod_right, Nat.mod_eq_of_lt (by omega)]
    rw [blit_outside _ _ _ _ (by rw [length_take, length_drop]; omega),
      blit_outside _ _ _ _ (by rw [length_take]; omega)]
  · rw [if_neg wraps]
    refine blit_outside _ _ _ _ ?_
    by_contra inside'
    rw [length_take] at inside'
    exact other (pos - start) (by omega) (by rw [Nat.mod_eq_of_lt (by omega)]; omega)

end In

end Copies

structure Stands (m : Machine) (size : Nat) (buf : Mem) (rb : Rb) (q : List Byte) : Prop where
  ok : rb.Ok m
  sized : rb.size = size
  queue : rb.queue = q
  behind : ∀ k, size ≤ k → rb.buf k = buf k

section Calls
variable {m : Machine} {size : Nat} {buf : Mem} {rb : Rb} {q : List Byte}

theorem stands_init (pos : 0 < size) (half : 2 * size ≤ 2 ^ longBits m) : Stands m size buf (rbInit buf size) [] :=
  ⟨⟨half, pos, Nat.zero_le size⟩, rfl, rfl, fun _ _ => rfl⟩

section
variable (stands : Stands m size buf rb q)
include stands

theorem rbWrite_eq (data : List Byte) :
    ∃ rb', rbWrite m rb data = some (min data.length (size - q.length), rb') ∧
      Stands m size buf rb' (q ++ data.take (min data.length (size - q.length))) := by
  obtain ⟨ok, sized, queue, behind⟩ := stands
  have length : q.length = rb.util := by rw [← queue, queue_length]
  have util := ok.util
  have head := ok.head
  have count : (if data.length > rb.size - rb.util then rb.size - rb.util else data.length) =
      min data.length (size - q.length) := by
    rw [length, ← sized]
    split <;> omega
  rw [rbWrite, rbCheck_eq ok, sizeT_eq ok (by omega)]
  simp only [Option.bind_eq_bind, Option.bind_some, Option.pure_def, count]
  generalize sz_eq : min data.length (size - q.length) = sz
  rw [sizeT_eq ok (by omega)]
  have inside : (rb.head + rb.util) % rb.size < rb.size := Nat.mod_lt _ (by omega)
  have cell : ∀ k, k < sz → copyIn m rb ((rb.head + rb.util) % rb.size) data sz
      (((rb.head + rb.util) % rb.size + k) % rb.size) = data.getD k 0 :=
    fun k lt => copyIn_cell ok inside (by omega) (by omega) lt
  have other : ∀ pos, (∀ k, k < sz → pos ≠ ((rb.head + rb.util) % rb.size + k) % rb.size) →
      copyIn m rb ((rb.head + rb.util) % rb.size) data sz pos = rb.buf pos :=
    fun pos apart => copyIn_other ok inside (by omega) (by omega) apart
  simp only [Nat.mod_add_mod] at cell other
  refine ⟨_, rfl, ⟨ok.half, head, ?_⟩, sized, ?_, fun k above => ?_⟩
  · show rb.util + sz ≤ rb.size
    omega
  · show window _ rb.size rb.head (rb.util + sz) = q ++ data.take sz
    have taken : (data.take sz).length = sz := by
      rw [length_take]
      omega
    have stored : ∀ k (lt : k < (data.take sz).length),
        copyIn m rb ((rb.head + rb.util) % rb.size) data sz ((rb.head + rb.util + k) % rb.size) =
          (data.take sz).get ⟨k, lt⟩ := by
      intro k lt
      rw [cell k (by omega), getD_eq_getElem _ _ (by omega), get_eq_getElem, getElem_take]
    have kept : ∀ k, k < rb.util → copyIn m rb ((rb.head + rb.util) % rb.size) data sz ((rb.head + k) % rb.size) =
        rb.buf ((rb.head + k) % rb.size) :=
      fun k lt => other _ fun j lt' => by rw [add_assoc]; exact cell_ne (by omega) (by omega)
    have grown := window_store stored kept
    rw [taken] at grown
    rw [grown]
    exact congrArg (· ++ data.take sz) queue
  · rw [← behind k above]
    refine other k fun j lt => ?_
    have below : (rb.head + rb.util + j) % rb.size < rb.size := Nat.mod_lt _ (by omega)
    omega

theorem rbRead_eq (sz : Nat) :
    ∃ rb', rbRead m rb sz = some ((q.take sz).length, q.take sz, rb') ∧ Stands m size buf rb' (q.drop sz) := by
  obtain ⟨ok, sized, queue, behind⟩ := stands
  have util := ok.util
  have head := ok.head
  have count : (if sz > rb.util then rb.util else sz) = min sz rb.util := by split <;> omega
  rw [rbRead, rbCheck_eq ok]
  simp only [Option.bind_eq_bind, Option.bind_some, Option.pure_def, count]
  have taken : q.take sz = window rb.buf rb.size rb.head (min sz rb.util) := by
    rw [← queue, Rb.queue, window_take]
  have rest : q.drop sz = window rb.buf rb.size (rb.head + min sz rb.util) (rb.util - min sz rb.util) := by
    rw [← queue, Rb.queue, window_drop]
    rcases le_total sz rb.util with le | le
    · rw [min_eq_left le]
    · rw [Nat.min_eq_right le, Nat.sub_self, Nat.sub_eq_zero_of_le le, window_zero, window_zero]
  rw [copyOut_eq ok head (by omega), sizeT_eq ok (by omega), taken, window_length]
  refine ⟨_, rfl, ⟨ok.half, Nat.mod_lt _ (by omega), Nat.le_trans (Nat.sub_le ..) util⟩, sized, ?_, behind⟩
  rw [rest]
  exact window_mod ..

theorem rbPeek_eq (sz off : Nat) :
    rbPeek m rb sz off = some (((q.drop off).take sz).length, (q.drop off).take sz) := by
  obtain ⟨ok, sized, queue, behind⟩ := stands
  have util := ok.util
  have head := ok.head
  rw [rbPeek, rbCheck_eq ok, ← queue, Rb.queue, window_drop, window_take, window_length]
  simp only [Option.bind_eq_bind, Option.bind_some, Option.pure_def]
  by_cases past : off ≥ rb.util
  · rw [if_pos past, Nat.sub_eq_zero_of_le past, Nat.min_zero, window_zero]
  · have count : (if sz > rb.util - off then rb.util - off else sz) = min sz (rb.util - off) := by split <;> omega
    rw [if_neg past, count, sizeT_eq ok (by omega), copyOut_eq ok (Nat.mod_lt _ (by omega)) (by omega), window_mod,
      add_comm off]

theorem call_run (call : Call) :
    ∃ rb', call.run m rb = some ((call.onQueue size q).1, rb') ∧ Stands m size buf rb' (call.onQueue size q).2 := by
  cases call with
  | write data =>
    obtain ⟨rb', run, after⟩ := rbWrite_eq stands data
    exact ⟨rb', by rw [Call.run, run]; rfl, after⟩
  | read sz =>
    obtain ⟨rb', run, after⟩ := rbRead_eq stands sz
    exact ⟨rb', by rw [Call.run, run]; rfl, after⟩
  | peek sz off => exact ⟨rb, by rw [Call.run, rbPeek_eq stands]; rfl, stands⟩

end

theorem run_eq (calls : List Call) : ∀ {rb : Rb} {q : List Byte}, Stands m size buf rb q →
    ∃ rb', run m rb calls = some ((onQueue size q calls).1, rb') ∧ Stands m size buf rb' (onQueue size q calls).2 := by
  induction calls with
  | nil => exact fun {rb q} stands => ⟨rb, rfl, stands⟩
  | cons call calls ih =>
    intro rb q stands
    obtain ⟨rb₁, first, stands₁⟩ := call_run stands call
    obtain ⟨rb₂, others, stands₂⟩ := ih stands₁
    refine ⟨rb₂, ?_, stands₂⟩
    rw [run, first]
    simp only [Option.bind_eq_bind, Option.bind_some, others]
    rfl

end Calls

/-- Every sequence of calls on a new ring buffer does what it does on a queue of at most `size` bytes, and ends without a
    panic; the bytes that are kept are those of the queue, and nothing behind the buffer is written. -/
theorem rb_fifo (m : Machine) (size : Nat) (pos : 0 < size) (half : 2 * size ≤ 2 ^ longBits m) (buf : Mem)
    (calls : List Call) :
    ∃ rb, run m (rbInit buf size) calls = some ((onQueue size [] calls).1, rb) ∧ rb.head < rb.size ∧ rb.util ≤ rb.size ∧
      rb.size = size ∧ rb.queue = (onQueue size [] calls).2 ∧ ∀ k, size ≤ k → rb.buf k = buf k := by
  have init : Stands m size buf (rbInit buf size) [] := stands_init pos half
  obtain ⟨rb, all, stands⟩ := run_eq calls init
  exact ⟨rb, all, stands.ok.head, stands.ok.util, stands.sized, stands.queue, stands.behind⟩

theorem rb_fifo_wrapped :
    ∃ rb, run .i386 (rbInit zero 3) [.write [1, 2], .read 1, .write [3, 4, 5], .peek 2 1, .read 9] =
        some ((onQueue 3 [] [.write [1, 2], .read 1, .write [3, 4, 5], .peek 2 1, .read 9]).1, rb) ∧
      rb.head < rb.size ∧ rb.util ≤ rb.size ∧ rb.size = 3 ∧
      rb.queue = (onQueue 3 [] [.write [1, 2], .read 1, .write [3, 4, 5], .peek 2 1, .read 9]).2 ∧
      ∀ k, 3 ≤ k → rb.buf k = zero k :=
  rb_fifo .i386 3 (by decide) (by decide) zero _

example : (onQueue 3 [] [.write [1, 2], .read 1, .write [3, 4, 5], .peek 2 1, .read 9]).1 =
    [(2, []), (1, [1]), (2, []), (2, [3, 4]), (3, [2, 3, 4])] := by
  decide

end Ringbuf
