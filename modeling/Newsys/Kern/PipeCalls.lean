import Newsys.Kern.Errno
import Newsys.Kern.Pipe

/- What `pipe_write` tells its caller (kern/fs/pipe.c): each call is followed from its start to its
   return, over all suspensions, with the bytes it has appended to the pipe. -/
namespace Pipe
open Bytes Ring Kern Function Option

inductive Ret where
  | error (e : Errno)
  | done (count : Nat)
  deriving DecidableEq

def fullRet (count resid : Nat) (noDelay sig intr : Bool) : Option Ret :=
  if noDelay then some (.done (count - resid))
  else if sig then some (.error .EINTR)
  else if intr then some (.error .EINTR)
  else none

def writeLoopRet (s : Sys) (count : Nat) (rest : List Byte) (noDelay sig intr : Bool) : Option Ret :=
  if rest = [] then some (.done count)
  else if pipeBuf ≤ s.fso.size then fullRet count rest.length noDelay sig intr
  else
    let cnt := chunk s.fso rest.length
    writeLoopRet (append s (rest.take cnt)) count (rest.drop cnt) noDelay sig intr
termination_by rest.length
decreasing_by
  rename_i some full
  have := chunk_pos (f := s.fso) (List.length_pos_iff.mpr some) (Nat.lt_of_not_le full)
  have := List.length_pos_iff.mpr some
  rw [List.length_drop]
  omega

def writeRet (s : Sys) (buf : List Byte) (noDelay sig intr : Bool) : Option Ret :=
  if s.fso.readerCount = 0 then some (.error .EPIPE)
  else writeLoopRet s buf.length buf noDelay sig intr

structure Ended where
  task : Nat
  req : List Byte
  sent : List Byte
  ret : Ret

/-- After an error nothing has been appended, else the first `count` bytes of the request. -/
def Ended.Honest (e : Ended) : Prop :=
  match e.ret with
  | .error _ => e.sent = []
  | .done count => count ≤ e.req.length ∧ e.sent = e.req.take count

/-- The pipe, for each task that is writing its request and what it has appended of it, and the
    calls that have returned. -/
structure Calls where
  sys : Sys
  req : Nat → List Byte
  sent : Nat → List Byte
  ended : List Ended

def appended (s s' : Sys) : List Byte := s'.put.drop s.put.length

def Calls.proceed (c : Calls) (t : Nat) (s' : Sys) (req sent : List Byte) : Option Ret → Calls
  | none =>
    { c with sys := s'
             req := update c.req t req
             sent := update c.sent t (sent ++ appended c.sys s') }
  | some ret => { c with sys := s', ended := c.ended ++ [⟨t, req, sent ++ appended c.sys s', ret⟩] }

def Calls.follow (c : Calls) (s' : Sys) : Act → Calls
  | .write t buf noDelay sig intr => c.proceed t s' buf [] (writeRet c.sys buf noDelay sig intr)
  | .go t sig intr =>
    match c.sys.pc t with
    | .writing rest noDelay =>
      c.proceed t s' (c.req t) (c.sent t) (writeLoopRet c.sys (c.req t).length rest noDelay sig intr)
    | _ => { c with sys := s' }
  | _ => { c with sys := s' }

def Calls.step (c : Calls) (a : Act) : Option Calls := (Pipe.step c.sys a).map fun s' => c.follow s' a

def Calls.exec : Calls → List Act → Option Calls
  | c, [] => some c
  | c, a :: as => (c.step a).bind fun c' => c'.exec as

def newCalls (buf : Mem) : Calls := ⟨newPipe buf, fun _ => [], fun _ => [], []⟩

/-- The call cannot complete, is not told to return at once, and a signal is pending or
    `task_suspend` fails. -/
def Cut (s : Sys) (rest : List Byte) (noDelay sig intr : Bool) : Prop :=
  pipeBuf < s.fso.size + rest.length ∧ noDelay = false ∧ (sig = true ∨ intr = true)

/-- A write is cut only where the pipe is full and nothing of the request has been appended. -/
def Unbroken (c : Calls) : Act → Prop
  | .write _ buf noDelay sig intr =>
    c.sys.fso.readerCount ≠ 0 → Cut c.sys buf noDelay sig intr → c.sys.fso.size = pipeBuf
  | .go t sig intr =>
    match c.sys.pc t with
    | .writing rest noDelay =>
      Cut c.sys rest noDelay sig intr → c.sys.fso.size = pipeBuf ∧ c.sent t = []
    | _ => True
  | _ => True

/-- The condition holds at every step of a run. -/
def Along (P : Calls → Act → Prop) : Calls → List Act → Prop
  | _, [] => True
  | c, a :: as => P c a ∧ ∀ c', c.step a = some c' → Along P c' as

/- One round of a call -/

section Rounds
variable {s : Sys} {t count : Nat} {rest : List Byte} {noDelay sig intr : Bool}

theorem writeLoopRet_fits (fits : s.fso.size + rest.length ≤ pipeBuf) :
    writeLoopRet s count rest noDelay sig intr = some (.done count) := by
  rw [writeLoopRet]
  by_cases none : rest = []
  · rw [if_pos none]
  · have pos := List.length_pos_iff.mpr none
    rw [if_neg none, if_neg (by omega)]
    simp only [chunk_fits fits, List.drop_length]
    rw [writeLoopRet, if_pos rfl]

theorem writeLoopRet_full (size : s.fso.size ≤ pipeBuf) (beyond : pipeBuf < s.fso.size + rest.length) :
    writeLoopRet s count rest noDelay sig intr =
      fullRet count (rest.length - (pipeBuf - s.fso.size)) noDelay sig intr := by
  have some : rest ≠ [] := by
    rintro rfl
    rw [List.length_nil] at beyond
    omega
  rw [writeLoopRet, if_neg some]
  by_cases full : s.fso.size = pipeBuf
  · rw [if_pos (by omega), full, Nat.sub_self, Nat.sub_zero]
  · obtain ⟨left, filled⟩ := round_full size beyond
    rw [if_neg (by omega)]
    simp only [chunk_full beyond]
    rw [writeLoopRet, if_neg left, if_pos filled, List.length_drop]

theorem pipeUstate_pc (s : Sys) : (pipeUstate s).pc = s.pc := by
  simp only [pipeUstate]
  split <;> split <;> rfl

theorem pipeFull_put : (pipeFull s t rest noDelay sig intr).put = s.put := by
  have same := (pipeUstate_same s).2.2.2.2.2.1
  simp only [pipeFull]
  split
  · rfl
  · split
    · rfl
    · split
      · exact same
      · exact same

theorem pipeWriteLoop_put (size : s.fso.size ≤ pipeBuf) :
    (pipeWriteLoop s t rest noDelay sig intr).put = s.put ++ rest.take (pipeBuf - s.fso.size) := by
  by_cases fits : s.fso.size + rest.length ≤ pipeBuf
  · have all : rest.take (pipeBuf - s.fso.size) = rest := List.take_of_length_le (by omega)
    rw [pipeWriteLoop_fits fits, all]
    show (pipeUstate _).put = _
    rw [(pipeUstate_same _).2.2.2.2.2.1]
    split
    · rename_i none
      rw [none, List.append_nil]
    · rfl
  · rw [pipeWriteLoop_full size (by omega), pipeFull_put]
    split
    · rename_i full
      rw [full, Nat.sub_self, List.take_zero, List.append_nil]
    · rfl

theorem appended_pipeWriteLoop (size : s.fso.size ≤ pipeBuf) :
    appended s (pipeWriteLoop s t rest noDelay sig intr) = rest.take (pipeBuf - s.fso.size) := by
  rw [appended, pipeWriteLoop_put size, List.drop_left]

theorem pipeWriteLoop_pc (size : s.fso.size ≤ pipeBuf) :
    (pipeWriteLoop s t rest noDelay sig intr).pc = update s.pc t
      (match writeLoopRet s count rest noDelay sig intr with
        | none => .writing (rest.drop (pipeBuf - s.fso.size)) noDelay
        | some _ => .idle) := by
  by_cases fits : s.fso.size + rest.length ≤ pipeBuf
  · rw [pipeWriteLoop_fits fits, writeLoopRet_fits fits]
    show update (pipeUstate _).pc t .idle = _
    rw [pipeUstate_pc]
    split <;> rfl
  · rw [pipeWriteLoop_full size (by omega), writeLoopRet_full size (by omega)]
    generalize eq : (if s.fso.size = pipeBuf then s else append s (rest.take (pipeBuf - s.fso.size))) = u
    have same : u.pc = s.pc := by
      rw [← eq]
      split <;> rfl
    rw [← same]
    cases noDelay <;> cases sig <;> cases intr <;>
      first
        | rfl
        | exact congrArg (update · t _) (pipeUstate_pc u)

end Rounds

structure Calls.Inv (c : Calls) : Prop where
  fifo : Fifo c.sys
  split : ∀ t rest noDelay, c.sys.pc t = .writing rest noDelay → c.req t = c.sent t ++ rest

def Calls.Honest (c : Calls) : Prop := ∀ e ∈ c.ended, e.Honest

section Returns
variable {s : Sys} {t : Nat} {rest sent : List Byte} {noDelay sig intr : Bool} {ret : Ret}

theorem honest_iff_uncut (size : s.fso.size ≤ pipeBuf)
    (returns : writeLoopRet s (sent ++ rest).length rest noDelay sig intr = some ret) :
    Ended.Honest ⟨t, sent ++ rest, sent ++ rest.take (pipeBuf - s.fso.size), ret⟩ ↔
      (Cut s rest noDelay sig intr → s.fso.size = pipeBuf ∧ sent = []) := by
  by_cases fits : s.fso.size + rest.length ≤ pipeBuf
  · rw [writeLoopRet_fits fits] at returns
    cases returns
    have all : rest.take (pipeBuf - s.fso.size) = rest := List.take_of_length_le (by omega)
    refine iff_of_true ⟨le_refl _, ?_⟩ fun cut => absurd cut.1 (by omega)
    rw [all, List.take_length]
  · have beyond : pipeBuf < s.fso.size + rest.length := by omega
    rw [writeLoopRet_full size beyond, fullRet] at returns
    cases noDelay with
    | true =>
      cases returns
      refine iff_of_true ⟨Nat.sub_le _ _, ?_⟩ fun cut => absurd cut.2.1 (by decide)
      have count : (sent ++ rest).length - (rest.length - (pipeBuf - s.fso.size)) =
          sent.length + (pipeBuf - s.fso.size) := by
        rw [List.length_append]
        omega
      rw [count, List.take_length_add_append]
    | false =>
      -- the call goes to sleep unless there is a signal or `task_suspend` fails
      have cut : Cut s rest false sig intr := by
        refine ⟨beyond, rfl, ?_⟩
        cases sig with
        | true => exact .inl rfl
        | false =>
          cases intr with
          | true => exact .inr rfl
          | false => cases returns
      have error : ret = .error .EINTR := by
        cases sig with
        | true => cases returns; rfl
        | false =>
          cases intr with
          | true => cases returns; rfl
          | false => cases returns
      rw [error]
      show sent ++ rest.take (pipeBuf - s.fso.size) = [] ↔ _
      rw [List.append_eq_nil_iff, List.take_eq_nil_iff]
      constructor
      · rintro ⟨none, full | empty⟩ _
        · exact ⟨by omega, none⟩
        · rw [empty, List.length_nil] at beyond
          omega
      · intro whole
        obtain ⟨full, none⟩ := whole cut
        exact ⟨none, .inl (by omega)⟩

theorem not_cut_of_sleep (size : s.fso.size ≤ pipeBuf)
    (sleeps : writeLoopRet s count rest noDelay sig intr = none) : ¬ Cut s rest noDelay sig intr := by
  rintro ⟨beyond, delay, signal⟩
  rw [writeLoopRet_full size beyond, fullRet, delay] at sleeps
  rcases signal with sig' | intr'
  · rw [sig'] at sleeps
    cases sleeps
  · rw [intr'] at sleeps
    cases sig <;> cases sleeps

end Returns

section Steps
variable {c c' : Calls} {s' : Sys}

theorem Calls.honest_append (ended : c'.ended = c.ended ++ [e]) : c'.Honest ↔ c.Honest ∧ e.Honest := by
  simp only [Calls.Honest, ended, List.mem_append, List.mem_singleton]
  constructor
  · intro all
    exact ⟨fun x mem => all x (.inl mem), all e (.inr rfl)⟩
  · rintro ⟨before, last⟩ x (mem | eq)
    · exact before x mem
    · rw [eq]
      exact last

variable {t : Nat} {rest : List Byte} {noDelay : Bool}

theorem Calls.Inv.round (inv : c.Inv) (sent : List Byte)
    (moved : c' = c.proceed t (pipeWriteLoop c.sys t rest noDelay sig intr) (sent ++ rest) sent
      (writeLoopRet c.sys (sent ++ rest).length rest noDelay sig intr)) : c'.Inv ∧ (c'.Honest ↔ c.Honest ∧
      (Cut c.sys rest noDelay sig intr → c.sys.fso.size = pipeBuf ∧ sent = [])) := by
  have size := inv.fifo.size
  have fifo : Fifo (pipeWriteLoop c.sys t rest noDelay sig intr) := inv.fifo.writeLoop
  have pcs := @pipeWriteLoop_pc c.sys t (sent ++ rest).length rest noDelay sig intr size
  have new := @appended_pipeWriteLoop c.sys t rest noDelay sig intr size
  cases returns : writeLoopRet c.sys (sent ++ rest).length rest noDelay sig intr with
  | none =>
    rw [returns] at moved pcs
    subst moved
    refine ⟨⟨fifo, ?_⟩, ?_⟩
    · intro x left delay at'
      have at' : (pipeWriteLoop c.sys t rest noDelay sig intr).pc x = .writing left delay := at'
      rw [pcs] at at'
      show update c.req t _ x = update c.sent t _ x ++ left
      by_cases self : x = t
      · subst self
        rw [update_self] at at'
        cases at'
        rw [update_self, update_self, new, List.append_assoc, List.take_append_drop]
      · rw [update_of_ne self] at at'
        rw [update_of_ne self, update_of_ne self]
        exact inv.split x left delay at'
    · have uncut := not_cut_of_sleep size returns
      show c.Honest ↔ _
      exact ⟨fun all => ⟨all, fun cut => absurd cut uncut⟩, And.left⟩
  | some ret =>
    rw [returns] at moved pcs
    subst moved
    refine ⟨⟨fifo, ?_⟩, ?_⟩
    · intro x left delay at'
      have at' : (pipeWriteLoop c.sys t rest noDelay sig intr).pc x = .writing left delay := at'
      rw [pcs] at at'
      by_cases self : x = t
      · subst self
        rw [update_self] at at'
        cases at'
      · rw [update_of_ne self] at at'
        exact inv.split x left delay at'
    · rw [Calls.honest_append rfl, new, honest_iff_uncut size returns]

theorem Calls.Inv.aside (inv : c.Inv) (fifo : Fifo s')
    (pcs : ∀ x rest noDelay, s'.pc x = .writing rest noDelay → c.sys.pc x = .writing rest noDelay) :
    Calls.Inv { c with sys := s' } :=
  ⟨fifo, fun x rest noDelay at' => inv.split x rest noDelay (pcs x rest noDelay at')⟩

theorem setPc_writing (other : ∀ rest noDelay, pc ≠ .writing rest noDelay)
    (at' : (setPc s t pc).pc x = .writing rest noDelay) : s.pc x = .writing rest noDelay := by
  by_cases self : x = t
  · subst self
    simp only [setPc, update_self] at at'
    exact absurd at' (other rest noDelay)
  · simp only [setPc, update_of_ne self] at at'
    exact at'

theorem pipeRead_writing
    (at' : (pipeRead s t count noDelay sig intr).pc x = .writing rest delay) : s.pc x = .writing rest delay := by
  simp only [pipeRead] at at'
  split at at'
  · split at at'
    · exact setPc_writing (by intros; intro eq; cases eq) at'
    · split at at'
      · exact setPc_writing (by intros; intro eq; cases eq) at'
      · split at at'
        · exact setPc_writing (by intros; intro eq; cases eq) at'
        · have before : (sleepReader s t).pc x = .writing rest delay :=
            setPc_writing (by intros; intro eq; cases eq) at'
          exact before
  · have before := setPc_writing (by intros; intro eq; cases eq) at'
    rw [pipeUstate_pc] at before
    exact before

theorem Calls.Inv.step (inv : c.Inv) (eq : c.step a = some c') :
    c'.Inv ∧ (c'.Honest ↔ c.Honest ∧ Unbroken c a) := by
  rw [Calls.step, map_eq_some_iff] at eq
  obtain ⟨s', stepped, moved⟩ := eq
  have fifo : Fifo s' := inv.fifo.step stepped
  -- no call returns in the other steps
  have aside : c' = { c with sys := s' } → Unbroken c a →
      (∀ x rest noDelay, s'.pc x = .writing rest noDelay → c.sys.pc x = .writing rest noDelay) →
      c'.Inv ∧ (c'.Honest ↔ c.Honest ∧ Unbroken c a) := by
    intro same whole pcs
    subst same
    exact ⟨inv.aside fifo pcs, fun all => ⟨all, whole⟩, And.left⟩
  cases a with
  | read t count noDelay sig intr =>
    simp only [Pipe.step] at stepped
    split at stepped
    · cases stepped
      exact aside moved.symm trivial fun x rest delay at' => pipeRead_writing at'
    · cases stepped
  | write t buf noDelay sig intr =>
    simp only [Pipe.step] at stepped
    split at stepped
    · cases stepped
      have moved := moved.symm
      simp only [Calls.follow, writeRet, pipeWrite] at moved
      by_cases closed : c.sys.fso.readerCount = 0
      · rw [if_pos closed, if_pos closed] at moved
        have nothing : appended c.sys c.sys = [] := List.drop_length
        subst moved
        refine ⟨⟨inv.fifo, inv.split⟩, ?_⟩
        rw [Calls.honest_append rfl, nothing]
        exact and_congr_right fun _ => iff_of_true rfl fun open' => absurd closed open'
      · rw [if_neg closed, if_neg closed] at moved
        obtain ⟨inv', honest⟩ := inv.round [] moved
        refine ⟨inv', honest.trans (and_congr_right fun _ => ?_)⟩
        constructor
        · exact fun uncut _ cut => (uncut cut).1
        · exact fun uncut cut => ⟨uncut closed cut, rfl⟩
    · cases stepped
  | go t sig intr =>
    simp only [Pipe.step] at stepped
    split at stepped
    · cases stepped
    · split at stepped
      · cases stepped
      · rename_i pc
        cases stepped
        refine aside ?_ ?_ fun x rest delay at' => pipeRead_writing at'
        · rw [← moved, Calls.follow, pc]
        · simp only [Unbroken, pc]
      · rename_i rest noDelay pc
        cases stepped
        have moved := moved.symm
        simp only [Calls.follow, pc] at moved
        rw [inv.split t rest noDelay pc] at moved
        obtain ⟨inv', honest⟩ := inv.round _ moved
        refine ⟨inv', ?_⟩
        simp only [Unbroken, pc]
        exact honest
  | resume t =>
    cases stepped
    refine aside moved.symm trivial ?_
    intro x rest delay at'
    rw [taskResume] at at'
    split at at' <;> exact at'
  | closeReader =>
    simp only [Pipe.step] at stepped
    split at stepped
    · cases stepped
    · cases stepped
      exact aside moved.symm trivial fun _ _ _ => id
  | closeWriter =>
    simp only [Pipe.step] at stepped
    split at stepped
    · cases stepped
    · cases stepped
      exact aside moved.symm trivial fun _ _ _ => id

theorem Calls.Inv.exec : ∀ {c c' : Calls}, c.Inv → c.exec as = some c' →
    (c'.Honest ↔ c.Honest ∧ Along Unbroken c as) := by
  induction as with
  | nil =>
    intro c c' _ run
    cases run
    exact ⟨fun all => ⟨all, trivial⟩, And.left⟩
  | cons a as ih =>
    intro c c' inv run
    rw [Calls.exec, bind_eq_some_iff] at run
    obtain ⟨d, stepped, run⟩ := run
    obtain ⟨inv', next⟩ := inv.step stepped
    have rest : Along Unbroken d as ↔ ∀ d', c.step a = some d' → Along Unbroken d' as := by
      constructor
      · intro later d' stepped'
        rw [stepped] at stepped'
        cases stepped'
        exact later
      · exact fun later => later d stepped
    rw [ih inv' run, next, and_assoc, rest]
    rfl

end Steps

/-- In every run all writes that have returned were honest, exactly when none of them was cut half
    way. -/
theorem writes_honest_iff (buf : Mem) (as : List Act) (c : Calls) (run : (newCalls buf).exec as = some c) :
    c.Honest ↔ Along Unbroken (newCalls buf) as := by
  have inv : (newCalls buf).Inv := by
    refine ⟨⟨Nat.zero_le _, pipeBuf_pos, rfl, rfl⟩, ?_⟩
    intro t rest noDelay at'
    cases at'
  rw [inv.exec run]
  exact and_iff_right fun e mem => by cases mem

/-- A write of three bytes. -/
theorem writes_honest_three : ∃ c, (newCalls zero).exec [.write 1 [1, 2, 3] false false false] = some c ∧
    (c.Honest ↔ Along Unbroken (newCalls zero) [.write 1 [1, 2, 3] false false false]) :=
  ⟨_, rfl, writes_honest_iff zero _ _ rfl⟩

/- A write that is cut -/

def halfWritten : Sys :=
  setPc (sleepWriter (pipeUstate (append (newPipe zero) (List.replicate 8184 7))) 1) 1 (.writing [7] false)

theorem halfWritten_eq : pipeWriteLoop (newPipe zero) 1 (List.replicate 8185 7) false false false = halfWritten := by
  rw [pipeWriteLoop_full (Nat.zero_le _) (by rw [List.length_replicate]; decide)]
  have room : pipeBuf - (newPipe zero).fso.size = 8184 := rfl
  have part : (List.replicate 8185 (7 : Byte)).take 8184 = List.replicate 8184 7 := by
    rw [List.take_replicate, Nat.min_eq_left (by decide)]
  have left : (List.replicate 8185 (7 : Byte)).drop 8184 = [7] := by
    rw [List.drop_replicate]
    rfl
  rw [room, part, left, if_neg (by decide), pipeFull, halfWritten]
  simp only [Bool.false_eq_true, if_false]

theorem append_size (s : Sys) (new : List Byte) : (append s new).fso.size = s.fso.size + new.length := rfl

theorem asleep_size (s : Sys) (t : Nat) (pc : Pc) :
    (setPc (sleepWriter (pipeUstate s) t) t pc).fso.size = s.fso.size := (pipeUstate_same s).2.2.2.1

theorem halfWritten_size : halfWritten.fso.size = pipeBuf := by
  have empty : (newPipe zero).fso.size = 0 := rfl
  rw [halfWritten, asleep_size, append_size, List.length_replicate, empty, Nat.zero_add, pipeBuf]

theorem taskResume_size (s : Sys) (t : Nat) : (taskResume s t).fso.size = s.fso.size := by
  rw [taskResume]
  split <;> rfl

theorem halfWritten_sleeps :
    writeLoopRet (newPipe zero) 8185 (List.replicate 8185 7) false false false = none := by
  rw [writeLoopRet_full (Nat.zero_le _) (by rw [List.length_replicate]; decide)]
  rfl

def halfCalls : Calls :=
  (newCalls zero).proceed 1 halfWritten (List.replicate 8185 7) [] none

theorem halfCalls_sent : halfCalls.sent 1 = List.replicate 8184 7 := by
  show [] ++ appended (newPipe zero) halfWritten = _
  have room : pipeBuf - (newPipe zero).fso.size = 8184 := rfl
  rw [← halfWritten_eq, appended_pipeWriteLoop (Nat.zero_le _), room, List.take_replicate,
    Nat.min_eq_left (by decide), List.nil_append]

def cutRun : List Act :=
  [.write 1 (List.replicate 8185 7) false false false, .resume 1, .go 1 true false]

/-- It gets `EINTR`, and 8184 of its bytes are in the pipe. -/
theorem write_cut_half_way : ∃ c, (newCalls zero).exec cutRun = some c ∧
    ⟨1, List.replicate 8185 7, List.replicate 8184 7, .error .EINTR⟩ ∈ c.ended ∧ ¬ c.Honest := by
  have first : (newCalls zero).step (.write 1 (List.replicate 8185 7) false false false) = some halfCalls := by
    have goes : Pipe.step (newPipe zero) (.write 1 (List.replicate 8185 7) false false false) =
        some halfWritten := by
      rw [← halfWritten_eq]
      rfl
    have sleeps : writeRet (newPipe zero) (List.replicate 8185 7) false false false = none := by
      rw [writeRet, if_neg (by decide), List.length_replicate]
      exact halfWritten_sleeps
    rw [Calls.step, newCalls, goes]
    simp only [map_some, Calls.follow, sleeps]
    rfl
  have woken : halfCalls.step (.resume 1) = some { halfCalls with sys := taskResume halfWritten 1 } := rfl
  generalize up : ({ halfCalls with sys := taskResume halfWritten 1 } : Calls) = d at woken
  have awake : d.sys.paused 1 = false := by
    rw [← up]
    rfl
  have stands : d.sys.pc 1 = .writing [7] false := by
    rw [← up]
    rfl
  have full : d.sys.fso.size = pipeBuf := by
    rw [← up]
    exact (taskResume_size halfWritten 1).trans halfWritten_size
  have sent : d.sent 1 = List.replicate 8184 7 := by
    rw [← up]
    exact halfCalls_sent
  have req : d.req 1 = List.replicate 8185 7 := by
    rw [← up]
    rfl
  have beyond : pipeBuf < d.sys.fso.size + [(7 : Byte)].length := by
    rw [full]
    decide
  have gone : d.step (.go 1 true false) = some (d.proceed 1 (pipeWriteLoop d.sys 1 [7] false true false)
      (List.replicate 8185 7) (List.replicate 8184 7) (some (.error .EINTR))) := by
    have goes : Pipe.step d.sys (.go 1 true false) = some (pipeWriteLoop d.sys 1 [7] false true false) := by
      simp only [Pipe.step, awake, stands, Bool.false_eq_true, if_false]
    rw [Calls.step, goes]
    simp only [map_some, Calls.follow, stands, sent, req,
      writeLoopRet_full (le_of_eq full) beyond, fullRet, Bool.false_eq_true, if_false, if_true]
  have nothing : appended d.sys (pipeWriteLoop d.sys 1 [7] false true false) = [] := by
    rw [appended_pipeWriteLoop (Nat.le_of_eq full), full, Nat.sub_self, List.take_zero]
  have ended : ⟨1, List.replicate 8185 7, List.replicate 8184 7, .error .EINTR⟩ ∈
      (d.proceed 1 (pipeWriteLoop d.sys 1 [7] false true false) (List.replicate 8185 7)
        (List.replicate 8184 7) (some (.error .EINTR))).ended := by
    rw [Calls.proceed, nothing, List.append_nil]
    exact List.mem_append_right _ (List.mem_singleton_self _)
  generalize d.proceed 1 (pipeWriteLoop d.sys 1 [7] false true false) (List.replicate 8185 7)
    (List.replicate 8184 7) (some (.error .EINTR)) = c at gone ended
  refine ⟨c, ?_, ended, ?_⟩
  · simp only [cutRun, Calls.exec, first, woken, gone, bind_some]
  · intro all
    have none : List.replicate 8184 (7 : Byte) = [] := all _ ended
    have length := congrArg List.length none
    rw [List.length_replicate] at length
    cases length

end Pipe
