import Newsys.Kern.Errno
import Newsys.Lib.Ring

/- The event queue of each task: who sets it up (kern/task.c, fork.c, exec.c), send_event (kern/event.c)
   and sys__evt_wait (kern/syscall.c). The signal that send_event raises is not part of the queue. -/
namespace Events
open Kern Ring Function List Bool

def evtMax : Nat := 256
def taskMax : Nat := 64
def eWingui : Nat := 1
def winEPtrMove : Nat := 3

structure Event where
  type : Nat
  proc : Nat
  data : Nat
  sub : Nat
  more : Nat
  body : List Nat
  deriving DecidableEq

def zeroEvent : Event := ⟨0, 0, 0, 0, 0, []⟩

/-- An event without the flag that `sys__evt_wait` sets in it. -/
def plain (e : Event) : Event := { e with more := 0 }

inductive Made where
  | init
  | creat
  | fork
  | exec
  deriving DecidableEq

/-- The queue's part of a `struct task`, with the events accepted and returned since it was set up. -/
structure Task where
  event : Nat → Event
  eventCount : Nat
  firstEvent : Nat
  lastEvent : Int
  eventHigh : Nat
  unseenEvents : Nat
  made : Made
  accepted : List Event
  returned : List Event

/-- What `task_getslot` leaves in a new slot: `memset(ts, 0, sizeof *ts)`. -/
def zeroTask (made : Made) : Task :=
  { event := fun _ => zeroEvent, eventCount := 0, firstEvent := 0, lastEvent := 0, eventHigh := 0
    unseenEvents := 0, made := made, accepted := [], returned := [] }

def initTask : Task := { zeroTask .init with lastEvent := -1 }

def creatTask (curr : Task) : Task :=
  { curr with unseenEvents := 0, eventCount := 0, firstEvent := 0, lastEvent := -1
              made := .creat, accepted := [], returned := [] }

/-- `do_fork` starts from a slot of zeros. -/
def forkTask (curr : Task) : Task := { zeroTask .fork with eventHigh := curr.eventHigh }

def doExec (curr : Task) : Task :=
  { curr with eventHigh := 0, firstEvent := 0, eventCount := 0, lastEvent := -1
              made := .exec, accepted := [], returned := [] }

def sendEvent (t : Task) (e : Event) : Except Errno Task :=
  if t.eventCount ≥ evtMax then .error .EAGAIN
  else
    let cnt := t.eventCount + 1
    let last := Int.tmod (t.lastEvent + 1) evtMax
    .ok { t with eventCount := cnt, unseenEvents := t.unseenEvents + 1, lastEvent := last
                 eventHigh := if cnt > t.eventHigh then cnt else t.eventHigh
                 event := update t.event last.toNat e
                 accepted := t.accepted ++ [e] }

/-- The loop of `sys__evt_wait` that looks for another pointer move among the next `cnt` events. -/
def moveFollows (t : Task) : Nat → Nat → Bool
  | _, 0 => false
  | i, cnt + 1 => (t.event i).sub = winEPtrMove || moveFollows t ((i + 1) % evtMax) cnt

def firstSeen (t : Task) : Event :=
  let e := t.event t.firstEvent
  if e.type = eWingui ∧ e.sub = winEPtrMove ∧ moveFollows t ((t.firstEvent + 1) % evtMax) (t.eventCount - 1) then
    { e with more := 1 }
  else e

/-- `sys__evt_wait` from one suspension to the next. Without events it goes to sleep, or it gives up when
    a signal is pending; the copy to user memory may fault. -/
def evtWait (t : Task) (fault : Bool) : Task :=
  if t.eventCount = 0 then t
  else
    let e := firstSeen t
    let t := { t with event := update t.event t.firstEvent e }
    if fault then t
    else { t with firstEvent := (t.firstEvent + 1) % evtMax, unseenEvents := 0
                  eventCount := t.eventCount - 1, returned := t.returned ++ [e] }

structure Sys where
  task : Nat → Option Task
  curr : Nat

def setTask (s : Sys) (i : Nat) (t : Option Task) : Sys := { s with task := update s.task i t }

def taskGetslot (s : Sys) (mem : Bool) : Except Errno Nat :=
  match (range taskMax).find? fun i => (s.task i).isNone with
  | none => .error .EAGAIN
  | some i => if mem then .ok i else .error .ENOMEM

/-- What happens to the queues: the calls of the current task, events sent to any task, `sched`, and
    `task_putslot` after a task's end. -/
inductive Act where
  | creat (mem pgdir : Bool)
  | fork (mem : Bool)
  | exec
  | send (i : Nat) (e : Event)
  | wait (fault : Bool)
  | sched (i : Nat)
  | putslot (i : Nat)

def taskCreat (s : Sys) (curr : Task) (mem pgdir : Bool) : Sys :=
  match taskGetslot s mem with
  | .error _ => s
  | .ok i => setTask s i (if pgdir then some (creatTask curr) else none)

def doFork (s : Sys) (curr : Task) (mem : Bool) : Sys :=
  match taskGetslot s mem with
  | .error _ => s
  | .ok i => setTask s i (some (forkTask curr))

def step (s : Sys) : Act → Sys
  | .creat mem pgdir => match s.task s.curr with
    | none => s
    | some c => taskCreat s c mem pgdir
  | .fork mem => match s.task s.curr with
    | none => s
    | some c => doFork s c mem
  | .exec => match s.task s.curr with
    | none => s
    | some c => setTask s s.curr (some (doExec c))
  | .send i e => match s.task i with
    | none => s
    | some t => match sendEvent t e with
      | .error _ => s
      | .ok t => setTask s i (some t)
  | .wait fault => match s.task s.curr with
    | none => s
    | some c => setTask s s.curr (some (evtWait c fault))
  | .sched i => { s with curr := i }
  | .putslot i => setTask s i none

def start : Sys := { task := update (fun _ => none) 0 (some initTask), curr := 0 }

def run (acts : List Act) : Sys := acts.foldl step start

/-- The fields describe the ring, and events come out in the order in which they were accepted. -/
structure Ordered (t : Task) : Prop where
  placed : t.lastEvent = (t.firstEvent + t.eventCount - 1 : Int) % evtMax ∨
    t.lastEvent = -1 ∧ t.firstEvent = 0 ∧ t.eventCount = 0
  fifo : ∀ (n : Nat) (e : Event), t.returned[n]? = some e → ∃ a, t.accepted[n]? = some a ∧ plain e = plain a

def ahead : Made → Int
  | .fork => 1
  | _ => 0

/-- What every queue keeps: `last_event` is `ahead` of its place, and where it is not, the accepted events
    are those returned and those in the ring. -/
structure Kept (t : Task) : Prop where
  first : t.firstEvent < evtMax
  count : t.eventCount ≤ evtMax
  range : -1 ≤ t.lastEvent ∧ t.lastEvent < evtMax
  last : (t.lastEvent + 1) % evtMax = (t.firstEvent + t.eventCount + ahead t.made) % evtMax
  fresh : t.lastEvent = -1 → t.made ≠ .fork ∧ t.firstEvent = 0 ∧ t.eventCount = 0
  ring : t.made ≠ .fork → t.accepted.map plain =
    t.returned.map plain ++ (window t.event evtMax t.firstEvent t.eventCount).map plain

theorem kept_initTask : Kept initTask := by
  constructor <;> simp [initTask, zeroTask, evtMax, ahead]

theorem kept_creatTask (curr : Task) : Kept (creatTask curr) := by
  constructor <;> simp [creatTask, evtMax, ahead]

theorem kept_forkTask (curr : Task) : Kept (forkTask curr) := by
  constructor <;> simp [forkTask, zeroTask, evtMax, ahead]

theorem kept_doExec (curr : Task) : Kept (doExec curr) := by
  constructor <;> simp [doExec, evtMax, ahead]

variable {t t' : Task} {e : Event}

theorem kept_sendEvent (kept : Kept t) (sent : sendEvent t e = .ok t') : Kept t' := by
  unfold sendEvent at sent
  split at sent
  · cases sent
  rename_i room
  injection sent with sent
  subst sent
  obtain ⟨low, high⟩ := kept.range
  have last := kept.last
  have tmod : Int.tmod (t.lastEvent + 1) evtMax = (t.lastEvent + 1) % evtMax :=
    Int.tmod_eq_emod_of_nonneg (by omega)
  have low' : 0 ≤ (t.lastEvent + 1) % (evtMax : Int) := Int.emod_nonneg _ (by decide)
  have high' : (t.lastEvent + 1) % (evtMax : Int) < evtMax := Int.emod_lt_of_pos _ (by decide)
  refine ⟨kept.first, Nat.lt_of_not_le room, ?_, ?_, ?_, ?_⟩
  · simp only [tmod]
    omega
  · simp only [tmod, evtMax] at *
    push_cast
    omega
  · intro wrong
    simp only [tmod] at wrong
    omega
  · intro made
    -- the new event is stored in the cell behind the window
    have place : ((t.lastEvent + 1) % (evtMax : Int)).toNat = (t.firstEvent + t.eventCount) % evtMax := by
      have zero : ahead t.made = 0 := by
        revert made
        cases t.made <;> simp [ahead]
      rw [last, zero]
      simp only [evtMax]
      omega
    have grown : window (update t.event ((t.firstEvent + t.eventCount) % evtMax) e) evtMax t.firstEvent
        (t.eventCount + [e].length) = window t.event evtMax t.firstEvent t.eventCount ++ [e] := by
      apply window_store
      · intro k lt
        have zero : k = 0 := by simpa using lt
        subst zero
        simp
      · intro k lt
        rw [update_of_ne]
        exact cell_ne lt (Nat.lt_of_not_le room)
    have ring := kept.ring made
    simp only [tmod, place, length_singleton] at grown ⊢
    rw [grown, map_append, map_append, ring, append_assoc]

theorem plain_firstSeen (t : Task) : plain (firstSeen t) = plain (t.event t.firstEvent) := by
  simp only [firstSeen]
  split <;> rfl

theorem plain_marked (t : Task) (i : Nat) :
    plain (update t.event t.firstEvent (firstSeen t) i) = plain (t.event i) := by
  by_cases same : i = t.firstEvent
  · subst same
    rw [update_self, plain_firstSeen]
  · rw [update_of_ne same]

theorem window_marked (t : Task) (start len : Nat) :
    (window (update t.event t.firstEvent (firstSeen t)) evtMax start len).map plain =
      (window t.event evtMax start len).map plain := by
  simp only [window, map_map]
  apply map_congr_left
  intro k _
  exact plain_marked t _

theorem kept_evtWait (kept : Kept t) (fault : Bool) : Kept (evtWait t fault) := by
  unfold evtWait
  split
  · exact kept
  rename_i some
  have last := kept.last
  cases fault with
  | true =>
    refine ⟨kept.first, kept.count, kept.range, kept.last, kept.fresh, ?_⟩
    intro made
    simp only [if_true, window_marked]
    exact kept.ring made
  | false =>
    have first := kept.first
    have count := kept.count
    refine ⟨Nat.mod_lt _ (by decide), ?_, kept.range, ?_, ?_, ?_⟩
    · simp only [false_eq_true, if_false]
      omega
    · simp only [false_eq_true, if_false, evtMax] at *
      omega
    · intro fresh
      exact absurd (kept.fresh fresh).2.2 some
    · intro made
      have ring := kept.ring made
      -- the window loses the event that was returned
      obtain ⟨n, eq⟩ : ∃ n, t.eventCount = 1 + n := ⟨t.eventCount - 1, by omega⟩
      have front : window t.event evtMax t.firstEvent 1 = [t.event t.firstEvent] := by
        simp [window, Nat.mod_eq_of_lt first]
      rw [eq, window_add, front] at ring
      have rest : 1 + n - 1 = n := by omega
      simp only [false_eq_true, if_false, window_marked, window_mod, eq, rest]
      rw [ring]
      simp [plain_firstSeen]

theorem ordered_iff (kept : Kept t) : Ordered t ↔ t.made ≠ .fork := by
  have last := kept.last
  have first := kept.first
  have count := kept.count
  obtain ⟨low, high⟩ := kept.range
  constructor
  · intro ordered made
    rw [made] at last
    rcases ordered.placed with placed | ⟨empty, -, -⟩
    · simp only [ahead, evtMax] at *
      omega
    · exact (kept.fresh empty).1 made
  · intro made
    have zero : ahead t.made = 0 := by
      revert made
      cases t.made <;> simp [ahead]
    rw [zero] at last
    constructor
    · by_cases empty : t.lastEvent = -1
      · exact .inr ⟨empty, (kept.fresh empty).2⟩
      · simp only [evtMax] at *
        omega
    · intro n e get
      have ring := congrArg (·[n]?) (kept.ring made)
      have lt : n < t.returned.length := (List.getElem?_eq_some_iff.mp get).1
      have got : (t.returned.map plain)[n]? = some (plain e) := by rw [getElem?_map, get]; rfl
      simp only [getElem?_append_left (by simpa using lt : n < (t.returned.map plain).length), got,
        getElem?_map, Option.map_eq_some_iff] at ring
      obtain ⟨a, at_n, same⟩ := ring
      exact ⟨a, at_n, same.symm⟩

def AllKept (s : Sys) : Prop := ∀ i t, s.task i = some t → Kept t

theorem allKept_setTask (all : AllKept s) (kept : ∀ t, new = some t → Kept t) :
    AllKept (setTask s i new) := by
  intro j t at_j
  by_cases same : j = i
  · subst same
    simp only [setTask, update_self] at at_j
    exact kept t at_j
  · simp only [setTask, update_of_ne same] at at_j
    exact all j t at_j

theorem allKept_step (all : AllKept s) (act : Act) : AllKept (step s act) := by
  cases act with
  | creat mem pgdir =>
    simp only [step]
    split
    · exact all
    simp only [taskCreat]
    split
    · exact all
    apply allKept_setTask all
    intro t new
    split at new
    · cases new
      exact kept_creatTask _
    · cases new
  | fork mem =>
    simp only [step]
    split
    · exact all
    simp only [doFork]
    split
    · exact all
    apply allKept_setTask all
    rintro t ⟨⟩
    exact kept_forkTask _
  | exec =>
    simp only [step]
    split
    · exact all
    apply allKept_setTask all
    rintro t ⟨⟩
    exact kept_doExec _
  | send i e =>
    simp only [step]
    split
    · exact all
    rename_i t live
    split
    · exact all
    rename_i sent
    apply allKept_setTask all
    rintro t ⟨⟩
    exact kept_sendEvent (all i _ live) sent
  | wait fault =>
    simp only [step]
    split
    · exact all
    rename_i t live
    apply allKept_setTask all
    rintro t ⟨⟩
    exact kept_evtWait (all _ _ live) fault
  | sched i => exact all
  | putslot i => exact allKept_setTask all (fun _ new => nomatch new)

theorem allKept_start : AllKept start := by
  have none : AllKept { task := fun _ => none, curr := 0 } := by
    intro i t at_i
    cases at_i
  have first : ∀ t, some initTask = some t → Kept t := by
    rintro t ⟨⟩
    exact kept_initTask
  exact allKept_setTask none first

theorem allKept_run (acts : List Act) : AllKept (run acts) := by
  suffices all : ∀ s, AllKept s → AllKept (acts.foldl step s) from all _ allKept_start
  induction acts with
  | nil => exact fun s all => all
  | cons act acts ih => exact fun s all => ih _ (allKept_step all act)

/-- In every state, exactly the queues that `do_fork` set up are out of order. -/
theorem events_in_order (acts : List Act) (i : Nat) (t : Task) (live : (run acts).task i = some t) :
    Ordered t ↔ t.made ≠ .fork :=
  ordered_iff (allKept_run acts i t live)

def keyEvent : Event := ⟨eWingui, 0, 0, 1, 0, [7]⟩

def moveEvent : Event := ⟨eWingui, 0, 0, winEPtrMove, 0, [3, 4]⟩

/-- The first task gets two pointer moves and a key, and takes two of them: more moves follow the first one. -/
theorem events_in_order_moves : ∃ t, (run [.send 0 moveEvent, .send 0 moveEvent, .wait false, .send 0 keyEvent,
      .wait false]).task 0 = some t ∧ t.accepted = [moveEvent, moveEvent, keyEvent] ∧
    t.returned = [{ moveEvent with more := 1 }, moveEvent] ∧ t.eventCount = 1 ∧ Ordered t := by
  refine ⟨_, rfl, rfl, rfl, rfl, ?_⟩
  exact (events_in_order [.send 0 moveEvent, .send 0 moveEvent, .wait false, .send 0 keyEvent, .wait false] 0 _ rfl).mpr
    nofun

/-- The first event to a task that `do_fork` made is stored in cell 1, and cell 0 is returned for it. -/
theorem events_not_in_order_fork : ∃ t, (run [.fork true, .send 1 keyEvent, .sched 1, .wait false]).task 1 = some t ∧
    t.accepted = [keyEvent] ∧ t.returned = [zeroEvent] ∧ ¬ Ordered t := by
  refine ⟨_, rfl, rfl, rfl, ?_⟩
  intro ordered
  obtain ⟨a, at_zero, same⟩ := ordered.fifo 0 zeroEvent rfl
  have key : keyEvent = a := Option.some.inj at_zero
  subst key
  exact absurd same (by decide)

end Events
