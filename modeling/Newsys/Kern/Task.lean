import Mathlib.Algebra.Group.Nat.Defs
import Mathlib.Algebra.Ring.Int.Defs
import Newsys.Lib.Chain
import Newsys.Lib.Cmd
import Newsys.Kern.Errno

/- Tasks and their queues (kern/task.c, fork.c, signal.c) and the scheduler (kern/sched.c). A task is the number of
   its slot in `task[]`. The kernel does not preempt itself, so one flow of control goes on until it switches, and
   `pc` says where it is; interrupt handlers may run between any two of its steps. A step is what the source does
   with interrupts off, or less. -/
namespace Tasks
open Cmds Cmd Chains Kern

def taskMax : Nat := 64
def taskPrioUser : Nat := 32
def taskPrioLow : Nat := 63
def timeSlice : Int := 10
def timeSliceMax : Int := 50
def sigMax : Int := 32
def sigKill : Int := 9
def sigStop : Int := 10
def sigCont : Int := 12
def sigChld : Int := 18

def init : Nat := 0

inductive Wait where
  | intr
  | nointr
  deriving DecidableEq

inductive Queue where
  | ready (prio : Nat)
  | wait (nr : Nat)
  deriving DecidableEq

/-- A `struct task`, without its links; `ignored sig` says that the handler of the signal is `SIG_IGN`. -/
structure Task where
  exited : Bool
  paused : Option Wait
  stopped : Bool
  signalPending : Bool
  unseenEvents : Nat
  ignored : Int → Bool
  priority : Nat
  timeSlice : Int
  parent : Option Nat
  queue : Option Queue

def zeroTask : Task :=
  { exited := false, paused := none, stopped := false, signalPending := false, unseenEvents := 0
    ignored := fun _ => false, priority := 0, timeSlice := 0, parent := none, queue := none }

inductive Pc where
  | run                       -- a task runs, in none of the places below
  | forkSlot (i : Nat)        -- do_fork, behind task_getslot
  | forkCounted (i : Nat)     -- behind task_count++
  | forkQueued (i : Nat)      -- behind task_insert
  | creatSlot (i : Nat)       -- task_creat, the slot filled
  | creatQueued (i : Nat)     -- behind task_insert
  | exitChildren (i : Nat)    -- task_exit, in front of round i of its loop
  | exitCount                 -- in front of task_count--
  | exitFlag                  -- in front of exited = 1
  | exitSched                 -- in front of sched()
  | idle                      -- sched, the previous task put away
  | scan (i : Nat)            -- in front of ready_queue[i]
  | picked (t : Nat)          -- next taken from its queue
  | chosen (t : Nat)          -- in front of the switch
  | returned                  -- behind sched
  deriving DecidableEq

inductive Panic where
  | taskSuspendPaused
  | taskResumeExited
  | taskResumePcount
  | taskSetPrio
  | taskExitInit
  | taskExitCount
  | taskExitRunning
  | taskInsertQueue
  | taskRemoveQueue
  | schedNext
  | schedState
  deriving DecidableEq

/-- `woken` are tasks that a waker has taken from a wait queue and will resume next, and `polling` are the tasks that
    an object's `polling` may point to. -/
structure Sys where
  task : Nat → Option Task
  links : Links Nat
  heads : Queue → Head Nat
  taskCount : Int
  taskPcount : Int
  curr : Option Nat
  resched : Bool
  pc : Pc
  woken : List Nat
  polling : Nat → Bool

abbrev TaskM := Cmd Panic Sys

def panic (p : Panic) : TaskM Unit := fail p

def fetch (t : Nat) : TaskM Task := do
  let s ← get
  match s.task t with
  | none => crash
  | some T => pure T

def setTask (t : Nat) (T : Option Task) (s : Sys) : Sys := { s with task := Function.update s.task t T }

def store (t : Nat) (T : Task) : TaskM Unit := modify (setTask t (some T))

def edit (t : Nat) (f : Task → Task) : TaskM Unit := do
  let T ← fetch t
  store t (f T)

def current : TaskM Nat := do
  let s ← get
  match s.curr with
  | none => crash
  | some c => pure c

def setQueue (q : Queue) (h : Head Nat) (ln : Links Nat) (s : Sys) : Sys :=
  { s with heads := Function.update s.heads q h, links := ln }

def goto (pc : Pc) : TaskM Unit := modify fun s => { s with pc := pc }

def taskInsert (q : Queue) (t : Nat) : TaskM Unit := do
  let T ← fetch t
  if T.queue ≠ none then panic .taskInsertQueue
  else do
    let s ← get
    match (s.heads q).first with
    | none => modify (setQueue q ⟨some t, some t⟩ (setItem s.links t Item.null))
    | some _ =>
      match (s.heads q).last with
      | none => crash
      | some l => modify (setQueue q ⟨(s.heads q).first, some t⟩ (setNext (setItem s.links t ⟨none, some l⟩) l (some t)))
    store t { T with queue := some q }

def taskDequeue (q : Queue) : TaskM (Option Nat) := do
  let s ← get
  match (s.heads q).first with
  | none => pure none
  | some t => do
    match (s.links t).next with
    | some n => modify (setQueue q ⟨some n, (s.heads q).last⟩ (setItem (setPrev s.links n none) t Item.null))
    | none => modify (setQueue q ⟨none, none⟩ (setItem s.links t Item.null))
    edit t fun T => { T with queue := none }
    pure (some t)

def taskRemove (t : Nat) : TaskM Unit := do
  let T ← fetch t
  match T.queue with
  | none => panic .taskRemoveQueue
  | some q => do
    let s ← get
    if (s.heads q).first = some t then
      if (s.heads q).last = some t then modify (setQueue q ⟨none, none⟩ (setItem s.links t Item.null))
      else match (s.links t).next with
        | none => crash
        | some n => modify (setQueue q ⟨some n, (s.heads q).last⟩ (setItem (setPrev s.links n none) t Item.null))
    else if (s.heads q).last = some t then
      match (s.links t).prev with
      | none => crash
      | some p => modify (setQueue q ⟨(s.heads q).first, some p⟩ (setItem (setNext s.links p none) t Item.null))
    else
      match (s.links t).prev, (s.links t).next with
      | some p, some n =>
        modify (setQueue q (s.heads q) (setItem (setPrev (setNext s.links p (some n)) n (some p)) t Item.null))
      | _, _ => crash
    store t { T with queue := none }

/- Sleeping and waking -/

def putAway (prev : Nat) (T : Task) : TaskM Unit :=
  if T.exited = false ∧ T.paused = none then taskInsert (.ready T.priority) prev else pure ()

def schedEnter : TaskM Unit := do
  modify fun s => { s with resched := false }
  let c ← current
  let T ← fetch c
  let s ← get
  if s.taskPcount + 1 = s.taskCount ∧ T.paused = none ∧ T.exited = false then do
    store c { T with timeSlice := timeSlice }
    goto .returned
  else do
    modify fun s => { s with curr := none }
    putAway c T
    goto .idle

def waitIn (tq : Option Nat) (c : Nat) : TaskM Unit :=
  match tq with
  | none => pure ()
  | some w => taskInsert (.wait w) c

def taskSuspend (tq : Option Nat) (type : Wait) : TaskM Unit := do
  let c ← current
  let T ← fetch c
  if T.paused ≠ none then panic .taskSuspendPaused
  else if (T.signalPending ∨ T.unseenEvents ≠ 0) ∧ T.stopped = false ∧ type = .intr then
    store c { T with unseenEvents := 0 }
  else do
    store c { T with paused := some type }
    modify fun s => { s with taskPcount := s.taskPcount + 1 }
    waitIn tq c
    schedEnter

def leaveQueue (t : Nat) (T : Task) : TaskM Unit := if T.queue ≠ none then taskRemove t else pure ()

def makeReady (t : Nat) (T : Task) (curr : Option Nat) : TaskM Unit :=
  if curr ≠ some t then taskInsert (.ready T.priority) t else pure ()

def preempt (T : Task) (curr : Option Nat) : TaskM Unit :=
  match curr with
  | none => pure ()
  | some c => do
    let C ← fetch c
    if T.priority < C.priority then modify fun s => { s with resched := true } else pure ()

def taskResume (t : Nat) : TaskM Unit := do
  let T ← fetch t
  if T.exited then panic .taskResumeExited
  else if T.paused = none then pure ()
  else do
    store t { T with timeSlice := timeSlice, paused := none }
    modify fun s => { s with taskPcount := s.taskPcount - 1 }
    let s ← get
    if s.taskPcount < 0 then panic .taskResumePcount
    else do
      leaveQueue t T
      makeReady t T s.curr
      preempt T s.curr

def resumeIntr (t : Nat) : TaskM Unit := do
  let T ← fetch t
  if T.paused = some .intr then taskResume t else pure ()

def signalCont (t : Nat) (sig : Int) : TaskM Unit :=
  if sig = sigCont ∨ sig = sigKill then do
    edit t fun T => { T with stopped := false }
    resumeIntr t
  else pure ()

def signalSendK (t : Nat) (sig : Int) : TaskM (Option Errno) := do
  if sig < 0 ∨ sig > sigMax then pure (some .EINVAL)
  else if sig = 0 then pure none
  else do
    let T ← fetch t
    if T.exited ∨ T.ignored sig then pure none
    else do
      signalCont t sig
      edit t fun T => { T with stopped := if sig = sigStop then true else T.stopped }
      edit t fun T => { T with signalPending := true }
      resumeIntr t
      pure none

def taskGetslot (mem : Bool) : TaskM (Option Nat) := do
  let s ← get
  match (List.range taskMax).find? fun i => (s.task i).isNone with
  | none => pure none
  | some i =>
    if mem then do
      modify fun s => { setTask i (some zeroTask) s with links := setItem s.links i Item.null }
      pure (some i)
    else pure none

def doFork (mem : Bool) : TaskM Unit := do
  match ← taskGetslot mem with
  | none => pure ()
  | some i => goto (.forkSlot i)

def forkFill (i : Nat) : TaskM Unit := do
  let c ← current
  let C ← fetch c
  edit i fun T => { T with parent := some c, priority := C.priority, ignored := C.ignored
                           signalPending := C.signalPending }

def taskCreat (mem : Bool) : TaskM Unit := do
  match ← taskGetslot mem with
  | none => pure ()
  | some i => do
    let c ← current
    let C ← fetch c
    modify fun s => { s with links := setItem s.links i (s.links c) }
    store i { C with parent := some c, timeSlice := -1, unseenEvents := 0, signalPending := false }
    goto (.creatSlot i)

def taskPutslot (i : Nat) : TaskM Unit := modify (setTask i none)

def taskExit : TaskM Unit := do
  let c ← current
  let T ← fetch c
  if T.exited then pure ()
  else if c = init then panic .taskExitInit
  else goto (.exitChildren 0)

def exitChild (i : Nat) : TaskM Unit := do
  let c ← current
  let s ← get
  match s.task i with
  | none => pure ()
  | some T =>
    if T.parent = some c then do
      store i { T with parent := some init }
      if T.exited then do
        let _ ← signalSendK init sigChld
      else pure ()
    else pure ()

def exitParent : TaskM Unit := do
  let c ← current
  let T ← fetch c
  match T.parent with
  | none => crash
  | some p => do
    let P ← fetch p
    if P.ignored sigChld = false then do
      let _ ← signalSendK p sigChld
    else do
      store c { T with parent := some init }
      let _ ← signalSendK init sigChld

/- The next step of a flow of control that is inside one of the operations -/

def schedPicked (t : Nat) : TaskM Unit := do
  let T ← fetch t
  let slice := min (T.timeSlice + timeSlice) timeSliceMax
  store t { T with timeSlice := slice }
  if slice < 0 then do
    taskInsert (.ready T.priority) t
    goto (.scan 0)
  else if T.exited ∨ T.paused ≠ none then panic .schedState
  else goto (.chosen t)

/-- The answer of `pg_newdir` is `mem`. -/
def goOn (mem : Bool) : TaskM Unit := do
  let s ← get
  match s.pc with
  | .run => pure ()
  | .forkSlot i => do
    modify fun s => { s with taskCount := s.taskCount + 1 }
    goto (.forkCounted i)
  | .forkCounted i => do
    let T ← fetch i
    taskInsert (.ready T.priority) i
    goto (.forkQueued i)
  | .forkQueued i => do
    forkFill i
    goto .run
  | .creatSlot i =>
    if mem then do
      let T ← fetch i
      taskInsert (.ready T.priority) i
      goto (.creatQueued i)
    else do
      taskPutslot i
      goto .run
  | .creatQueued _ => do
    modify fun s => { s with taskCount := s.taskCount + 1 }
    goto .run
  | .exitChildren i =>
    if i < taskMax then do
      exitChild i
      goto (.exitChildren (i + 1))
    else do
      exitParent
      goto .exitCount
  | .exitCount => do
    modify fun s => { s with taskCount := s.taskCount - 1 }
    let s ← get
    if s.taskCount < 0 then panic .taskExitCount else goto .exitFlag
  | .exitFlag => do
    let c ← current
    edit c fun T => { T with exited := true }
    goto .exitSched
  | .exitSched => schedEnter
  | .idle => if s.taskCount = s.taskPcount then pure () else goto (.scan 0)
  | .scan i => do
    match ← taskDequeue (.ready i) with
    | some t => goto (.picked t)
    | none => if i < taskPrioLow then goto (.scan (i + 1)) else panic .schedNext
  | .picked t => schedPicked t
  | .chosen t => do
    modify fun s => { s with curr := some t }
    goto .returned
  | .returned => do
    let c ← current
    let T ← fetch c
    -- the callers of `sched` are `task_exit`, the loop of `task_suspend`, and the way back to the program
    if T.exited then panic .taskExitRunning
    else if T.paused ≠ none then schedEnter
    else goto .run

def taskSetPrio (prio : Int) : TaskM Unit := do
  let c ← current
  if prio < 0 ∨ prio > taskPrioLow then panic .taskSetPrio
  else edit c fun T => { T with priority := prio.toNat }

def sysNice (inc : Int) (root : Bool) : TaskM Unit := do
  let c ← current
  let T ← fetch c
  if inc < 0 ∧ root = false then pure ()
  else
    let prio := Int.bmod (T.priority + inc) (2 ^ 32)
    taskSetPrio (if prio > taskPrioLow then taskPrioLow else if prio < 0 then 0 else prio)

def xwait (i : Nat) : TaskM Unit := do
  let c ← current
  let s ← get
  match s.task i with
  | none => pure ()
  | some T => if T.parent = some c ∧ T.exited then taskPutslot i else pure ()

def setupChld (i : Nat) : TaskM Unit := do
  let c ← current
  let s ← get
  match s.task i with
  | none => pure ()
  | some T =>
    if c ≠ init ∧ T.parent = some c ∧ T.exited then do
      store i { T with parent := some init }
      let _ ← signalSendK init sigChld
    else pure ()

def clockIntr : TaskM Unit := do
  let s ← get
  match s.curr with
  | none => pure ()
  | some c => do
    let T ← fetch c
    store c { T with timeSlice := T.timeSlice - 1 }
    if T.timeSlice - 1 < 0 then modify fun s => { s with resched := true } else pure ()

inductive Act where
  -- calls of the task that runs
  | fork (mem : Bool)
  | creat (mem : Bool)
  | suspend (tq : Option Nat) (type : Wait)
  | exit
  | sched
  | nice (inc : Int) (root : Bool)
  | xwait (i : Nat)
  | setupChld (i : Nat)
  | poll (on : Bool)
  -- the flow of control goes on
  | goOn (mem : Bool)
  -- wakers, signals, the clock, and other writes to a task's flags, by the running task or by an interrupt handler
  | dequeue (nr : Nat)
  | resumeWoken
  | resumePolling (t : Nat)
  | signal (t : Nat) (sig : Int)
  | clock
  | flags (t : Nat) (ignored : Int → Bool) (signalPending : Bool) (unseenEvents : Nat)

def Act.run : Act → TaskM Unit
  | .fork mem => doFork mem
  | .creat mem => taskCreat mem
  | .suspend tq type => taskSuspend tq type
  | .exit => taskExit
  | .sched => schedEnter
  | .nice inc root => sysNice inc root
  | .xwait i => Tasks.xwait i
  | .setupChld i => Tasks.setupChld i
  | .poll on => do
    let c ← current
    modify fun s => { s with polling := Function.update s.polling c on }
  | .goOn mem => Tasks.goOn mem
  | .dequeue nr => do
    match ← taskDequeue (.wait nr) with
    | none => pure ()
    | some t => modify fun s => { s with woken := t :: s.woken }
  | .resumeWoken => do
    let s ← get
    match s.woken with
    | [] => pure ()
    | t :: rest => do
      modify fun s => { s with woken := rest }
      taskResume t
  | .resumePolling t => taskResume t
  | .signal t sig => do
    let _ ← signalSendK t sig
  | .clock => clockIntr
  | .flags t ignored signalPending unseenEvents =>
    edit t fun T => { T with ignored := ignored, signalPending := signalPending, unseenEvents := unseenEvents }

/-- When an action can happen: a task makes a call when nothing else is in progress, a waker calls `task_resume` right
    after `task_dequeue`, `task_exit` is not called inside `sys__poll`, and signals go to tasks in the table. -/
def Act.can (s : Sys) : Act → Prop
  | .fork _ | .creat _ | .suspend _ _ | .sched | .nice _ _ | .xwait _ | .setupChld _ | .poll _ => s.pc = .run ∧ s.woken = []
  | .exit => s.pc = .run ∧ s.woken = [] ∧ ∀ c, s.curr = some c → s.polling c = false
  | .goOn _ => s.pc ≠ .run ∧ s.woken = []
  | .dequeue _ => True
  | .resumeWoken => s.woken ≠ []
  | .resumePolling t => s.polling t = true
  | .signal t _ => s.task t ≠ none
  | .clock => True
  | .flags t _ _ _ => s.task t ≠ none

def start : Sys :=
  { task := fun t => if t = init then
      some { zeroTask with priority := taskPrioUser, parent := some init, ignored := fun sig => sig ≠ sigCont }
      else none
    links := fun _ => Item.null, heads := fun _ => Head.null, taskCount := 1, taskPcount := 0, curr := some init
    resched := false, pc := .run, woken := [], polling := fun _ => false }

inductive Reached : Sys → Prop where
  | start : Reached start
  | next {s s' : Sys} (before : Reached s) (a : Act) (can : a.can s) (run : a.run s = (.ok (), s')) : Reached s'

end Tasks
