import Mathlib.Data.Finset.Card
import Newsys.Lib.Cmd
import Newsys.Kern.Errno

/- The tree of tasks, their pids, and waiting for children (kern/task.c, kern/fork.c, kern/syscall.c). A pointer to a
   task is the number of its slot in task[]. The kernel does not preempt itself: a call goes on until it sleeps, and
   one that sleeps is one step up to there and one step from there on. -/
namespace Procs
open Cmds Cmd Kern Function List Nat

def taskMax : Nat := 64
def pidMax : Nat := 16383
def pidRestart : Nat := 1024

def init : Nat := 0

inductive Handler where
  | dfl
  | ign
  | proc (addr : Nat)
  deriving DecidableEq

/-- `sigChld` is the handler of SIGCHLD. Not in the source: `leaving` is the argument of the call of `task_exit` that
    the task is in, and `nr` counts the tasks that there have been. -/
structure Task where
  parent : Option Nat
  pid : Nat
  execName : String
  exitStatus : Nat
  exited : Bool
  sigChld : Handler
  leaving : Option Nat
  nr : Nat

def zeroTask : Task := ⟨none, 0, "", 0, false, .dfl, none, 0⟩

/-- A `struct _xstatus` that a task has got, with the numbers of the child and of that task. -/
structure Got where
  execName : String
  status : Nat
  pid : Nat
  nr : Nat
  waiter : Nat

/-- `last` is that of `newpid`. Not in the source: how many tasks there have been, which have exited with which
    status, and what their parents have got. -/
structure State where
  task : Nat → Option Task
  last : Nat
  born : Nat
  exits : List (Nat × Nat)
  got : List Got

abbrev Call (α : Type) : Type := Cmd Errno State α

/- Slots and pids -/

def getTask (i : Nat) : Call Task := do
  let s ← get
  match s.task i with
  | none => crash
  | some p => pure p

def setTask (i : Nat) (f : Task → Task) : Call Unit :=
  modify fun s => { s with task := update s.task i ((s.task i).map f) }

def forTasks (f : Task → Task) : Call Unit :=
  modify fun s => { s with task := fun i => if i < taskMax then (s.task i).map f else s.task i }

def nextPid (last : Nat) : Nat := if pidMax < last + 1 then pidRestart else last + 1

def taken (s : State) (pid : Nat) : Bool := (range taskMax).any fun i => ((s.task i).map Task.pid) == some pid

def newpidLoop (s : State) : Nat → Nat → Option Nat
  | 0, _ => none
  | n + 1, last => if taken s (nextPid last) then newpidLoop s n (nextPid last) else some (nextPid last)

def newpid : Call Nat := do
  let s ← get
  match newpidLoop s (taskMax + 1) s.last with
  | none => crash
  | some pid => do
    modify fun s => { s with last := pid }
    pure pid

def taskGetslot (mem : Bool) : Call Nat := do
  let s ← get
  match (range taskMax).find? fun i => (s.task i).isNone with
  | none => fail .EAGAIN
  | some i =>
    if mem then do
      modify fun s => { s with task := update s.task i (some zeroTask) }
      pure i
    else fail .ENOMEM

def taskPutslot (i : Nat) : Call Unit := modify fun s => { s with task := update s.task i none }

def count (i : Nat) : Call Unit :=
  modify fun s => { s with task := update s.task i ((s.task i).map fun p => { p with nr := s.born }), born := s.born + 1 }

/-- `task_creat`, from behind `fs_fqname`, which gives `fqn`. `dir` says whether `pg_newdir` finds memory. -/
def taskCreat (curr : Nat) (fqn : String) (mem dir : Bool) : Call Nat := do
  let i ← taskGetslot mem
  let c ← getTask curr
  setTask i fun _ => c
  setTask i fun p => { p with parent := some curr }
  let pid ← newpid
  setTask i fun p => { p with pid := pid }
  if dir then do
    setTask i fun p => { p with execName := fqn, sigChld := if p.sigChld = .ign then .ign else .dfl }
    count i
    pure pid
  else do
    taskPutslot i
    fail .ENOMEM

/-- `pages` says whether there is memory for a copy of all pages; if not, the new task gets a SIGOOM. -/
def doFork (curr : Nat) (mem pages : Bool) : Call Nat := do
  let i ← taskGetslot mem
  let c ← getTask curr
  setTask i fun p => { p with parent := some curr }
  let pid ← newpid
  setTask i fun p => { p with pid := pid, sigChld := c.sigChld, execName := c.execName }
  count i
  if pages then pure pid else fail .ENOMEM

/- task_exit -/

/-- Up to `win_detach`, `uclean` and `fs_clean`, in which the task may sleep. -/
def taskLeave (curr status : Nat) : Call Unit := do
  let p ← getTask curr
  if p.exited then pure ()
  else if curr = init then crash
  else setTask curr fun p => { p with leaving := some status }

def adopt (curr : Nat) (p : Task) : Task := if p.parent = some curr then { p with parent := some init } else p

def handOver (handler : Handler) (p : Task) : Task := if handler = .ign then { p with parent := some init } else p

def taskExit (curr : Nat) : Call Unit := do
  forTasks (adopt curr)
  let p ← getTask curr
  match p.parent, p.leaving with
  | some j, some status => do
    let parent ← getTask j
    setTask curr (handOver parent.sigChld)
    setTask curr fun p => { p with exitStatus := status, exited := true }
    modify fun s => { s with exits := (p.nr, status) :: s.exits }
  | _, _ => crash

/- System calls and signals -/

def setupChld (curr : Nat) : Handler → Call Unit
  | .ign =>
    if curr = init then pure ()
    else forTasks fun p => if p.parent = some curr ∧ p.exited then { p with parent := some init } else p
  | _ => pure ()

def sysSignal (curr : Nat) (handler : Handler) : Call Unit := do
  setTask curr fun p => { p with sigChld := handler }
  setupChld curr handler

def signalDispatch (curr : Nat) : Call Unit := setTask curr fun p => { p with sigChld := .dfl }

def taskExec (curr : Nat) (fqn : String) : Call Unit :=
  setTask curr fun p => { p with execName := fqn, sigChld := if p.sigChld = .ign then .ign else .dfl }

/-- The loop of `sys___xwait`: the first slot with an exited child, and whether there is a child. -/
def waitScan (s : State) (curr : Nat) (pid : Int) : List Nat → Bool → Option Nat × Bool
  | [], exist => (none, exist)
  | i :: rest, exist =>
    match s.task i with
    | none => waitScan s curr pid rest exist
    | some p =>
      if p.parent ≠ some curr ∨ 0 < pid ∧ (p.pid : Int) ≠ pid then waitScan s curr pid rest exist
      else if p.exited then (some i, true)
      else waitScan s curr pid rest true

/-- `fault` says that the status cannot be written to the memory of the task. -/
def sysXwait (curr : Nat) (pid : Int) (nohang fault : Bool) : Call Unit := do
  let s ← get
  match waitScan s curr pid (range taskMax) false with
  | (some i, _) =>
    if fault then fail .EFAULT
    else do
      let p ← getTask i
      let c ← getTask curr
      modify fun s => { s with got := ⟨p.execName, p.exitStatus, p.pid, p.nr, c.nr⟩ :: s.got }
      taskPutslot i
  | (none, true) => if nohang then if fault then fail .EFAULT else pure () else fail .EINTR
  | (none, false) => fail .ECHILD

inductive Op where
  | creat (fqn : String) (mem dir : Bool)
  | fork (mem pages : Bool)
  | leave (status : Nat)
  | exit
  | signal (handler : Handler)
  | dispatch
  | exec (fqn : String)
  | xwait (pid : Int) (nohang fault : Bool)

def Op.run (curr : Nat) : Op → State → Res Errno Unit × State
  | .creat fqn mem dir => (do let _ ← taskCreat curr fqn mem dir; pure () : Call Unit)
  | .fork mem pages => (do let _ ← doFork curr mem pages; pure () : Call Unit)
  | .leave status => taskLeave curr status
  | .exit => taskExit curr
  | .signal handler => sysSignal curr handler
  | .dispatch => signalDispatch curr
  | .exec fqn => taskExec curr fqn
  | .xwait pid nohang fault => sysXwait curr pid nohang fault

def Op.leaves : Op → Bool
  | .exit => true
  | _ => false

def Able (s : State) (curr : Nat) (op : Op) : Prop :=
  ∃ p, s.task curr = some p ∧ p.exited = false ∧ p.leaving.isSome = op.leaves

def boot : State :=
  { task := update (fun _ => none) init (some ⟨some init, 1, "", 0, false, .ign, none, 0⟩)
    last := 1, born := 1, exits := [], got := [] }

inductive Reach : State → Prop where
  | boot : Reach boot
  | step {s t : State} {r : Res Errno Unit} (before : Reach s) (curr : Nat) (op : Op) (able : Able s curr op)
      (run : op.run curr s = (r, t)) : Reach t

/- newpid -/

variable {s t : State}

variable {last : Nat}

theorem nextPid_iterate (bound : last ≤ pidMax) (few : k ≤ taskMax + 1) :
    nextPid^[k] last = if last + k ≤ pidMax then last + k else pidRestart + (last + k - pidMax - 1) := by
  induction k with
  | zero => exact (if_pos bound).symm
  | succ k ih =>
    rw [iterate_succ_apply', ih (by omega), nextPid]
    unfold taskMax pidMax pidRestart at *
    split_ifs <;> omega

variable {j : Nat}

theorem nextPid_differs (bound : last ≤ pidMax) (few : j ≤ taskMax + 1) (few' : k ≤ taskMax + 1)
    (same : nextPid^[j] last = nextPid^[k] last) : j = k := by
  rw [nextPid_iterate bound few, nextPid_iterate bound few'] at same
  unfold taskMax pidMax pidRestart at *
  split_ifs at same <;> omega

theorem taken_iff (s : State) (pid : Nat) : taken s pid = true ↔ ∃ i p, i < taskMax ∧ s.task i = some p ∧ p.pid = pid := by
  rw [taken, any_eq_true]
  constructor
  · rintro ⟨i, mem, same⟩
    obtain ⟨p, here, eq⟩ := Option.map_eq_some_iff.mp (eq_of_beq same)
    exact ⟨i, p, mem_range.mp mem, here, eq⟩
  · rintro ⟨i, p, bound, here, eq⟩
    refine ⟨i, mem_range.mpr bound, ?_⟩
    rw [here, ← eq]
    exact beq_self_eq_true _

theorem newpidLoop_free (bound : last ≤ pidMax) (found : newpidLoop s n last = some pid) :
    taken s pid = false ∧ pid ≤ pidMax := by
  induction n generalizing last with
  | zero => cases found
  | succ n ih =>
    have small : nextPid last ≤ pidMax := by
      unfold nextPid pidMax pidRestart at *
      split <;> omega
    rw [newpidLoop] at found
    cases free : taken s (nextPid last) with
    | true =>
      rw [free] at found
      exact ih small found
    | false =>
      rw [free] at found
      cases found
      exact ⟨free, small⟩

theorem taken_of_none {n : Nat} (none : newpidLoop s n last = none) {k : Nat} (few : k < n) :
    taken s (nextPid^[k + 1] last) = true := by
  induction n generalizing last k with
  | zero => omega
  | succ n ih =>
    rw [newpidLoop] at none
    cases free : taken s (nextPid last) with
    | true =>
      rw [free] at none
      cases k with
      | zero => exact free
      | succ k => exact ih none (by omega)
    | false =>
      rw [free] at none
      cases none

theorem newpid_ends (s : State) (bound : last ≤ pidMax) (enough : taskMax < tries) :
    ∃ pid, newpidLoop s tries last = some pid := by
  by_contra never
  have none : newpidLoop s tries last = none := by
    rw [Option.eq_none_iff_forall_ne_some]
    exact fun pid found => never ⟨pid, found⟩
  have slots : ∀ k, ∃ i, k ∈ Finset.range (taskMax + 1) →
      i < taskMax ∧ (s.task i).map Task.pid = some (nextPid^[k + 1] last) := by
    intro k
    by_cases few : k ∈ Finset.range (taskMax + 1)
    · have below : k < tries := by
        rw [Finset.mem_range] at few
        omega
      obtain ⟨i, p, small, here, eq⟩ := (taken_iff ..).mp (taken_of_none none below)
      refine ⟨i, fun _ => ⟨small, ?_⟩⟩
      rw [here, ← eq]
      rfl
    · exact ⟨0, fun few' => absurd few' few⟩
  choose slot has using slots
  have card : (Finset.range taskMax).card < (Finset.range (taskMax + 1)).card := by
    rw [Finset.card_range, Finset.card_range]
    exact lt_succ_self _
  obtain ⟨j, few, k, few', differs, same⟩ := Finset.exists_ne_map_eq_of_card_lt_of_maps_to card
    (f := slot) fun k few => Finset.mem_coe.mpr (Finset.mem_range.mpr (has k few).1)
  have pids : some (nextPid^[j + 1] last) = some (nextPid^[k + 1] last) := by
    rw [← (has j few).2, ← (has k few').2, same]
  rw [Finset.mem_range] at few few'
  have eq := nextPid_differs bound (by omega) (by omega) (Option.some.inj pids)
  omega

theorem wp_newpid {Q : Res Errno Nat → State → Prop} (bound : s.last ≤ pidMax)
    (next : ∀ pid, pid ≤ pidMax → (∀ i p, i < taskMax → s.task i = some p → p.pid ≠ pid) →
      Q (.ok pid) { s with last := pid }) : wp newpid Q s := by
  obtain ⟨pid, found⟩ := newpid_ends s bound (lt_succ_self taskMax)
  obtain ⟨free, small⟩ := newpidLoop_free bound found
  rw [newpid, wp_bind, wp_get, after_ok, found, wp_bind, wp_modify, after_ok]
  refine next pid small fun i p slot here same => ?_
  rw [(taken_iff ..).mpr ⟨i, p, slot, here, same⟩] at free
  cases free

variable {i : Nat} {p : Task}

theorem wp_getTask {Q : Res Errno Task → State → Prop} (here : s.task i = some p)
    (next : Q (.ok p) s) : wp (getTask i) Q s := by
  rw [getTask, wp_bind, wp_get, after_ok, here]
  exact next

theorem wp_taskGetslot {mem : Bool} {Q : Res Errno Nat → State → Prop} (failed : ∀ e, Q (.err e) s)
    (next : ∀ i, i < taskMax → s.task i = none → Q (.ok i) { s with task := update s.task i (some zeroTask) }) :
    wp (taskGetslot mem) Q s := by
  rw [taskGetslot, wp_bind, wp_get, after_ok]
  cases first : (range taskMax).find? fun i => (s.task i).isNone with
  | none => exact failed .EAGAIN
  | some i =>
    have free := find?_some (p := fun i => (s.task i).isNone) first
    have bound := mem_range.mp (mem_of_find?_eq_some first)
    cases mem with
    | false => exact failed .ENOMEM
    | true => exact next i bound (Option.isNone_iff_eq_none.mp free)

def Distinct (key : Task → Nat) (s : State) : Prop :=
  ∀ i j p q, s.task i = some p → s.task j = some q → key p = key q → i = j

def Live (s : State) (i : Nat) : Prop := ∃ p, s.task i = some p ∧ p.exited = false

structure Tree (s : State) : Prop where
  last : s.last ≤ pidMax
  slots : ∀ i p, s.task i = some p → i < taskMax
  parents : ∀ i p, s.task i = some p → ∃ j, p.parent = some j ∧ Live s j
  pids : Distinct Task.pid s
  init : ∃ p, s.task init = some p ∧ p.exited = false ∧ p.leaving = none

theorem Tree.liveInit (tree : Tree s) : Live s Procs.init := by
  obtain ⟨p, here, runs, _⟩ := tree.init
  exact ⟨p, here, runs⟩

/-- The tasks that there have been: those that have exited, and those whose parents have got their status. -/
structure Books (s : State) : Prop where
  numbers : Distinct Task.nr s
  known : ∀ i p, s.task i = some p → p.nr < s.born
  zombie : ∀ i p, s.task i = some p → p.exited = true → (p.nr, p.exitStatus) ∈ s.exits
  alive : ∀ i p, s.task i = some p → p.exited = false → ∀ e ∈ s.exits, e.1 ≠ p.nr
  past : ∀ e ∈ s.exits, e.1 < s.born
  once : (s.exits.map Prod.fst).Nodup
  gone : ∀ g ∈ s.got, ∀ i p, s.task i = some p → p.nr ≠ g.nr
  sent : ∀ g ∈ s.got, (g.nr, g.status) ∈ s.exits
  single : (s.got.map Got.nr).Nodup
  all : ∀ n, n < s.born → (∃ i p, s.task i = some p ∧ p.nr = n) ∨ ∃ g ∈ s.got, g.nr = n

/-- The task in slot i may change like this in a call: a new parent is the first task, which does not exit. -/
structure Alike (i : Nat) (p q : Task) : Prop where
  pid : q.pid = p.pid
  nr : q.nr = p.nr
  exited : q.exited = p.exited
  exitStatus : q.exitStatus = p.exitStatus
  parent : q.parent = p.parent ∨ q.parent = some Procs.init
  leaving : i = Procs.init → q.leaving = p.leaving

structure Edited (s t : State) : Prop where
  task : ∀ i, Option.Rel (Alike i) (s.task i) (t.task i)
  last : s.last ≤ pidMax → t.last ≤ pidMax
  born : t.born = s.born
  exits : t.exits = s.exits
  got : t.got = s.got

theorem alike_refl (i : Nat) (p : Task) : Alike i p p := ⟨rfl, rfl, rfl, rfl, .inl rfl, fun _ => rfl⟩

theorem rel_alike_refl (i : Nat) (p : Option Task) : Option.Rel (Alike i) p p := by
  cases p with
  | none => exact .none
  | some p => exact .some (alike_refl i p)

variable {f : Task → Task}

theorem rel_alike_map (alike : ∀ p, Alike i p (f p)) (p : Option Task) : Option.Rel (Alike i) p (p.map f) := by
  cases p with
  | none => exact .none
  | some p => exact .some (alike p)

theorem edited_refl (s : State) : Edited s s := ⟨fun _ => rel_alike_refl _ _, id, rfl, rfl, rfl⟩

theorem edited_setTask (i : Nat) (alike : ∀ p, Alike i p (f p)) :
    Edited s { s with task := update s.task i ((s.task i).map f) } := by
  refine ⟨fun j => ?_, id, rfl, rfl, rfl⟩
  show Option.Rel (Alike j) (s.task j) (update s.task i ((s.task i).map f) j)
  by_cases eq : j = i
  · rw [eq, update_self]
    exact rel_alike_map alike _
  · rw [update_of_ne eq]
    exact rel_alike_refl ..

theorem edited_forTasks (alike : ∀ i p, Alike i p (f p)) :
    Edited s { s with task := fun i => if i < taskMax then (s.task i).map f else s.task i } := by
  refine ⟨fun j => ?_, id, rfl, rfl, rfl⟩
  show Option.Rel (Alike j) (s.task j) (if j < taskMax then (s.task j).map f else s.task j)
  split
  · exact rel_alike_map (alike j) _
  · exact rel_alike_refl ..

theorem Edited.before (edited : Edited s t) (here : t.task i = some q) :
    ∃ p, s.task i = some p ∧ Alike i p q := by
  have rel := edited.task i
  rw [here] at rel
  generalize s.task i = p at rel
  cases rel with
  | some alike => exact ⟨_, rfl, alike⟩

theorem Edited.later (edited : Edited s t) (here : s.task i = some p) : ∃ q, t.task i = some q ∧ Alike i p q := by
  have rel := edited.task i
  rw [here] at rel
  generalize t.task i = q at rel
  cases rel with
  | some alike => exact ⟨_, rfl, alike⟩

theorem Edited.live (edited : Edited s t) (live : Live s i) : Live t i := by
  obtain ⟨p, here, runs⟩ := live
  obtain ⟨q, there, alike⟩ := edited.later here
  exact ⟨q, there, alike.exited.trans runs⟩

theorem distinct_edited (same : ∀ i p q, Alike i p q → key q = key p) (edited : Edited s t)
    (distinct : Distinct key s) : Distinct key t := by
  intro i j p q first second eq
  obtain ⟨p', first', alike⟩ := edited.before first
  obtain ⟨q', second', alike'⟩ := edited.before second
  exact distinct i j p' q' first' second' (((same _ _ _ alike).symm.trans eq).trans (same _ _ _ alike'))

theorem tree_edited (edited : Edited s t) (tree : Tree s) : Tree t := by
  refine ⟨edited.last tree.last, fun i q here => ?_, fun i q here => ?_,
    distinct_edited (fun _ _ _ alike => alike.pid) edited tree.pids, ?_⟩
  · obtain ⟨p, there, _⟩ := edited.before here
    exact tree.slots i p there
  · obtain ⟨p, there, alike⟩ := edited.before here
    rcases alike.parent with same | same
    · obtain ⟨j, parent, live⟩ := tree.parents i p there
      exact ⟨j, same.trans parent, edited.live live⟩
    · exact ⟨_, same, edited.live tree.liveInit⟩
  · obtain ⟨p, here, runs, stays⟩ := tree.init
    obtain ⟨q, there, alike⟩ := edited.later here
    exact ⟨q, there, alike.exited.trans runs, (alike.leaving rfl).trans stays⟩

theorem books_edited (edited : Edited s t) (books : Books s) : Books t where
  numbers := distinct_edited (fun _ _ _ alike => alike.nr) edited books.numbers
  known := by
    intro i q here
    obtain ⟨p, there, alike⟩ := edited.before here
    rw [edited.born, alike.nr]
    exact books.known i p there
  zombie := by
    intro i q here exited
    obtain ⟨p, there, alike⟩ := edited.before here
    rw [edited.exits, alike.nr, alike.exitStatus]
    exact books.zombie i p there (alike.exited.symm.trans exited)
  alive := by
    intro i q here runs
    obtain ⟨p, there, alike⟩ := edited.before here
    rw [edited.exits, alike.nr]
    exact books.alive i p there (alike.exited.symm.trans runs)
  past := by
    rw [edited.exits, edited.born]
    exact books.past
  once := by
    rw [edited.exits]
    exact books.once
  gone := by
    rw [edited.got]
    intro g mem i q here
    obtain ⟨p, there, alike⟩ := edited.before here
    rw [alike.nr]
    exact books.gone g mem i p there
  sent := by
    rw [edited.got, edited.exits]
    exact books.sent
  single := by
    rw [edited.got]
    exact books.single
  all := by
    rw [edited.born, edited.got]
    intro n before
    refine (books.all n before).imp_left ?_
    rintro ⟨i, p, here, eq⟩
    obtain ⟨q, there, alike⟩ := edited.later here
    exact ⟨i, q, there, alike.nr.trans eq⟩

theorem of_update (here : update s.task i new j = some p) :
    j = i ∧ new = some p ∨ j ≠ i ∧ s.task j = some p := by
  by_cases eq : j = i
  · rw [eq, update_self] at here
    exact .inl ⟨eq, here⟩
  · rw [update_of_ne eq] at here
    exact .inr ⟨eq, here⟩

theorem update_ne_of_free {new : Option Task} (free : s.task i = none)
    (here : s.task j = some p) : update s.task i new j = some p := by
  have other : j ≠ i := by
    rintro rfl
    rw [free] at here
    cases here
  exact (update_of_ne other ..).trans here

variable {new : Task}

theorem distinct_grown (distinct : Distinct key s)
    (fresh : ∀ j p, s.task j = some p → key p ≠ key new) (last born : Nat) :
    Distinct key { s with task := update s.task i (some new), last := last, born := born } := by
  intro j k p q first second eq
  rcases of_update first with ⟨rfl, ⟨⟩⟩ | ⟨_, first'⟩
  · rcases of_update second with ⟨rfl, _⟩ | ⟨_, second'⟩
    · rfl
    · exact absurd eq.symm (fresh k q second')
  · rcases of_update second with ⟨rfl, ⟨⟩⟩ | ⟨_, second'⟩
    · exact absurd eq (fresh j p first')
    · exact distinct j k p q first' second' eq

variable {curr : Nat}

theorem tree_grown (tree : Tree s) (bound : i < taskMax) (free : s.task i = none)
    (fresh : ∀ j p, s.task j = some p → p.pid ≠ new.pid) (small : last ≤ pidMax) (parent : new.parent = some curr)
    (live : Live s curr) : Tree { s with task := update s.task i (some new), last := last, born := s.born + 1 } := by
  have lives : ∀ j, Live s j →
      Live { s with task := update s.task i (some new), last := last, born := s.born + 1 } j := by
    rintro j ⟨p, here, runs⟩
    exact ⟨p, update_ne_of_free free here, runs⟩
  refine ⟨small, fun j p here => ?_, fun j p here => ?_, distinct_grown tree.pids fresh _ _, ?_⟩
  · rcases of_update here with ⟨rfl, _⟩ | ⟨_, here'⟩
    · exact bound
    · exact tree.slots j p here'
  · rcases of_update here with ⟨rfl, ⟨⟩⟩ | ⟨_, here'⟩
    · exact ⟨curr, parent, lives curr live⟩
    · obtain ⟨k, parent', live'⟩ := tree.parents j p here'
      exact ⟨k, parent', lives k live'⟩
  · obtain ⟨p, here, rest⟩ := tree.init
    exact ⟨p, update_ne_of_free free here, rest⟩

theorem books_grown (books : Books s) (free : s.task i = none) (nr : new.nr = s.born)
    (runs : new.exited = false) (last : Nat) :
    Books { s with task := update s.task i (some new), last := last, born := s.born + 1 } where
  numbers := by
    refine distinct_grown books.numbers (fun j p here => ?_) _ _
    have known := books.known j p here
    omega
  known := by
    intro j p here
    show p.nr < s.born + 1
    rcases of_update here with ⟨rfl, ⟨⟩⟩ | ⟨_, here'⟩
    · omega
    · have known := books.known j p here'
      omega
  zombie := by
    intro j p here exited
    rcases of_update here with ⟨rfl, ⟨⟩⟩ | ⟨_, here'⟩
    · rw [runs] at exited
      cases exited
    · exact books.zombie j p here' exited
  alive := by
    intro j p here _ e mem
    rcases of_update here with ⟨rfl, ⟨⟩⟩ | ⟨_, here'⟩
    · have past := books.past e mem
      omega
    · exact books.alive j p here' ‹_› e mem
  past := fun e mem => lt_succ_of_lt (books.past e mem)
  once := books.once
  gone := by
    intro g mem j p here
    rcases of_update here with ⟨rfl, ⟨⟩⟩ | ⟨_, here'⟩
    · have past : g.nr < s.born := books.past _ (books.sent g mem)
      omega
    · exact books.gone g mem j p here'
  sent := books.sent
  single := books.single
  all := by
    intro n before
    rcases Nat.lt_succ_iff_lt_or_eq.mp before with old | rfl
    · refine (books.all n old).imp_left ?_
      rintro ⟨j, p, here, eq⟩
      exact ⟨j, p, update_ne_of_free free here, eq⟩
    · exact .inl ⟨i, new, update_self .., nr⟩

/- The end of a task -/

def ended (s : State) (curr : Nat) (p : Task) (status : Nat) : State :=
  { s with
    task := update s.task curr (some { p with exitStatus := status, exited := true })
    exits := (p.nr, status) :: s.exits }

section Ended
variable {curr status : Nat} {p : Task}

theorem distinct_ended (distinct : Distinct key s) (here : s.task curr = some p)
    (same : key { p with exitStatus := status, exited := true } = key p) : Distinct key (ended s curr p status) := by
  have known : ∀ j q, (ended s curr p status).task j = some q → ∃ q', s.task j = some q' ∧ key q = key q' := by
    intro j q there
    rcases of_update there with ⟨rfl, ⟨⟩⟩ | ⟨_, there'⟩
    · exact ⟨p, here, same⟩
    · exact ⟨q, there', rfl⟩
  intro j k q r first second eq
  obtain ⟨q', first', same'⟩ := known j q first
  obtain ⟨r', second', same''⟩ := known k r second
  exact distinct j k q' r' first' second' (same'.symm.trans (eq.trans same''))

theorem tree_ended (tree : Tree s) (here : s.task curr = some p) (other : curr ≠ Procs.init)
    (orphan : ∀ i q, s.task i = some q → q.parent ≠ some curr) : Tree (ended s curr p status) := by
  have lives : ∀ j, j ≠ curr → Live s j → Live (ended s curr p status) j := by
    rintro j differs ⟨q, there, runs⟩
    exact ⟨q, (update_of_ne differs ..).trans there, runs⟩
  have parents : ∀ i q, s.task i = some q → ∃ j, q.parent = some j ∧ Live (ended s curr p status) j := by
    intro i q there
    obtain ⟨j, parent, live⟩ := tree.parents i q there
    have differs : j ≠ curr := by
      rintro rfl
      exact orphan i q there parent
    exact ⟨j, parent, lives j differs live⟩
  refine ⟨tree.last, fun i q there => ?_, fun i q there => ?_, distinct_ended tree.pids here rfl,
    ?_⟩
  · rcases of_update there with ⟨rfl, _⟩ | ⟨_, there'⟩
    · exact tree.slots i p here
    · exact tree.slots i q there'
  · rcases of_update there with ⟨rfl, ⟨⟩⟩ | ⟨_, there'⟩
    · exact parents i p here
    · exact parents i q there'
  · obtain ⟨q, there, rest⟩ := tree.init
    exact ⟨q, (update_of_ne other.symm ..).trans there, rest⟩

theorem books_ended (books : Books s) (here : s.task curr = some p) (runs : p.exited = false) :
    Books (ended s curr p status) where
  numbers := distinct_ended books.numbers here rfl
  known := by
    intro i q there
    rcases of_update there with ⟨rfl, ⟨⟩⟩ | ⟨_, there'⟩
    · exact books.known i p here
    · exact books.known i q there'
  zombie := by
    intro i q there exited
    rcases of_update there with ⟨rfl, ⟨⟩⟩ | ⟨_, there'⟩
    · exact mem_cons_self ..
    · exact mem_cons_of_mem _ (books.zombie i q there' exited)
  alive := by
    intro i q there runs' e mem
    rcases of_update there with ⟨rfl, ⟨⟩⟩ | ⟨differs, there'⟩
    · cases runs'
    · rcases mem_cons.mp mem with rfl | mem'
      · exact fun eq => differs (books.numbers _ _ _ _ there' here eq.symm)
      · exact books.alive i q there' runs' e mem'
  past := by
    intro e mem
    rcases mem_cons.mp mem with rfl | mem'
    · exact books.known curr p here
    · exact books.past e mem'
  once := by
    refine nodup_cons.mpr ⟨fun mem => ?_, books.once⟩
    obtain ⟨e, mem', eq⟩ := mem_map.mp mem
    exact books.alive curr p here runs e mem' eq
  gone := by
    intro g mem i q there
    rcases of_update there with ⟨rfl, ⟨⟩⟩ | ⟨_, there'⟩
    · exact books.gone g mem i p here
    · exact books.gone g mem i q there'
  sent := fun g mem => mem_cons_of_mem _ (books.sent g mem)
  single := books.single
  all := by
    intro n before
    refine (books.all n before).imp_left ?_
    rintro ⟨i, q, there, eq⟩
    by_cases same : i = curr
    · subst same
      rw [here] at there
      cases there
      exact ⟨i, _, update_self .., eq⟩
    · exact ⟨i, q, (update_of_ne same ..).trans there, eq⟩

end Ended

/- The status of a task that has exited -/

def collected (s : State) (i : Nat) (g : Got) : State := { s with task := update s.task i none, got := g :: s.got }

section Collected
variable {i : Nat} {p : Task} {g : Got}

theorem of_collected (there : (collected s i g).task j = some q) : j ≠ i ∧ s.task j = some q := by
  rcases of_update there with ⟨_, ⟨⟩⟩ | kept
  exact kept

theorem distinct_collected (distinct : Distinct key s) : Distinct key (collected s i g) :=
  fun j k p q first second eq => distinct j k p q (of_collected first).2 (of_collected second).2 eq

theorem tree_collected (tree : Tree s) (here : s.task i = some p) (exited : p.exited = true) :
    Tree (collected s i g) := by
  have kept : ∀ j q, s.task j = some q → q.exited = false → (collected s i g).task j = some q := by
    intro j q there runs
    have differs : j ≠ i := by
      rintro rfl
      rw [here] at there
      cases there
      rw [exited] at runs
      cases runs
    exact (update_of_ne differs ..).trans there
  refine ⟨tree.last, fun j q there => tree.slots j q (of_collected there).2, fun j q there => ?_,
    distinct_collected tree.pids, ?_⟩
  · obtain ⟨k, parent, r, live, runs⟩ := tree.parents j q (of_collected there).2
    exact ⟨k, parent, r, kept k r live runs, runs⟩
  · obtain ⟨q, there, runs, stays⟩ := tree.init
    exact ⟨q, kept _ q there runs, runs, stays⟩

theorem books_collected (books : Books s) (here : s.task i = some p) (exited : p.exited = true) (nr : g.nr = p.nr)
    (status : g.status = p.exitStatus) : Books (collected s i g) where
  numbers := distinct_collected books.numbers
  known := fun j q there => books.known j q (of_collected there).2
  zombie := fun j q there => books.zombie j q (of_collected there).2
  alive := fun j q there => books.alive j q (of_collected there).2
  past := books.past
  once := books.once
  gone := by
    intro g' mem j q there
    obtain ⟨differs, there'⟩ := of_collected there
    rcases mem_cons.mp mem with rfl | mem'
    · exact fun eq => differs (books.numbers _ _ _ _ there' here (eq.trans nr))
    · exact books.gone g' mem' j q there'
  sent := by
    intro g' mem
    rcases mem_cons.mp mem with rfl | mem'
    · rw [nr, status]
      exact books.zombie i p here exited
    · exact books.sent g' mem'
  single := by
    refine nodup_cons.mpr ⟨fun mem => ?_, books.single⟩
    obtain ⟨g', mem', eq⟩ := mem_map.mp mem
    exact books.gone g' mem' i p here (nr.symm.trans eq.symm)
  all := by
    intro n before
    rcases books.all n before with ⟨j, q, there, eq⟩ | ⟨g', mem, eq⟩
    · by_cases same : j = i
      · subst same
        rw [here] at there
        cases there
        exact .inr ⟨g, mem_cons_self .., nr.trans eq⟩
      · exact .inl ⟨j, q, (update_of_ne same ..).trans there, eq⟩
    · exact .inr ⟨g', mem_cons_of_mem _ mem, eq⟩

end Collected

inductive Change (curr : Nat) (s : State) : State → Prop where
  | edited {t : State} (edited : Edited s t) : Change curr s t
  | grown (i last : Nat) (new : Task) (bound : i < taskMax) (free : s.task i = none)
      (fresh : ∀ j p, s.task j = some p → p.pid ≠ new.pid) (small : last ≤ pidMax) (parent : new.parent = some curr)
      (nr : new.nr = s.born) (runs : new.exited = false) :
      Change curr s { s with task := update s.task i (some new), last := last, born := s.born + 1 }
  | ended {u : State} (p : Task) (status : Nat) (edited : Edited s u) (here : u.task curr = some p)
      (runs : p.exited = false) (other : curr ≠ init) (orphan : ∀ i q, u.task i = some q → q.parent ≠ some curr) :
      Change curr s (ended u curr p status)
  | collected (i : Nat) (p c : Task) (here : s.task i = some p) (exited : p.exited = true)
      (parent : p.parent = some curr) (there : s.task curr = some c) :
      Change curr s (collected s i ⟨p.execName, p.exitStatus, p.pid, p.nr, c.nr⟩)

def Does {α : Type} (curr : Nat) (s : State) (r : Res Errno α) (t : State) : Prop := r ≠ .crash ∧ Change curr s t

theorem does_same {α : Type} {r : Res Errno α} (alive : r ≠ .crash) : Does curr s r s :=
  ⟨alive, .edited (edited_refl s)⟩

theorem wp_setTask_slot {born : Nat} {task : Nat → Option Task}
    {exits : List (Nat × Nat)} {got : List Got} {Q : Res Errno Unit → State → Prop}
    (next : Q (.ok ()) ⟨update task i (some (f p)), last, born, exits, got⟩) :
    wp (setTask i f) Q ⟨update task i (some p), last, born, exits, got⟩ := by
  rw [setTask, wp_modify]
  dsimp only
  rw [update_self, Option.map_some, update_idem]
  exact next

theorem wp_count_slot {born : Nat} {task : Nat → Option Task} {exits : List (Nat × Nat)}
    {got : List Got} {Q : Res Errno Unit → State → Prop}
    (next : Q (.ok ()) ⟨update task i (some { p with nr := born }), last, born + 1, exits, got⟩) :
    wp (count i) Q ⟨update task i (some p), last, born, exits, got⟩ := by
  rw [count, wp_modify]
  dsimp only
  rw [update_self, Option.map_some, update_idem]
  exact next

variable {c : Task}

theorem wp_taskCreat (tree : Tree s) (here : s.task curr = some c) (runs : c.exited = false)
    (fqn : String) (mem dir : Bool) : wp (taskCreat curr fqn mem dir) (Does curr s) s := by
  rw [taskCreat, wp_bind]
  refine wp_taskGetslot (fun e => does_same nofun) fun i bound free => ?_
  rw [after_ok, wp_bind]
  refine wp_getTask (update_ne_of_free free here) ?_
  rw [after_ok, wp_bind]
  refine wp_setTask_slot ?_
  rw [after_ok, wp_bind]
  refine wp_setTask_slot ?_
  rw [after_ok, wp_bind]
  refine wp_newpid tree.last fun pid small fresh => ?_
  have fresh' : ∀ j p, s.task j = some p → p.pid ≠ pid := fun j p there =>
    fresh j p (tree.slots j p there) (update_ne_of_free free there)
  rw [after_ok, wp_bind]
  refine wp_setTask_slot ?_
  rw [after_ok]
  cases dir with
  | true =>
    rw [if_pos rfl, wp_bind]
    refine wp_setTask_slot ?_
    rw [after_ok, wp_bind]
    refine wp_count_slot ?_
    rw [after_ok, wp_pure]
    exact ⟨nofun, .grown i pid _ bound free fresh' small rfl rfl runs⟩
  | false =>
    rw [if_neg Bool.false_ne_true, taskPutslot, wp_bind, wp_modify, after_ok, wp_fail]
    dsimp only
    -- the slot is free again
    rw [update_idem, ← free, update_eq_self]
    exact ⟨nofun, .edited ⟨fun _ => rel_alike_refl _ _, fun _ => small, rfl, rfl, rfl⟩⟩

theorem wp_doFork (tree : Tree s) (here : s.task curr = some c) (mem pages : Bool) :
    wp (doFork curr mem pages) (Does curr s) s := by
  rw [doFork, wp_bind]
  refine wp_taskGetslot (fun e => does_same nofun) fun i bound free => ?_
  rw [after_ok, wp_bind]
  refine wp_getTask (update_ne_of_free free here) ?_
  rw [after_ok, wp_bind]
  refine wp_setTask_slot ?_
  rw [after_ok, wp_bind]
  refine wp_newpid tree.last fun pid small fresh => ?_
  have fresh' : ∀ j p, s.task j = some p → p.pid ≠ pid := fun j p there =>
    fresh j p (tree.slots j p there) (update_ne_of_free free there)
  rw [after_ok, wp_bind]
  refine wp_setTask_slot ?_
  rw [after_ok, wp_bind]
  refine wp_count_slot ?_
  rw [after_ok]
  have grown : Change curr s _ := .grown i pid
    { zeroTask with parent := some curr, pid := pid, sigChld := c.sigChld, execName := c.execName, nr := s.born } bound
    free fresh' small rfl rfl rfl
  cases pages with
  | true => exact ⟨nofun, grown⟩
  | false => exact ⟨nofun, grown⟩

theorem wp_setTask (alike : ∀ p, Alike curr p (f p)) : wp (setTask curr f) (Does curr s) s :=
  ⟨nofun, .edited (edited_setTask curr alike)⟩

theorem wp_taskLeave (here : s.task curr = some c) (status : Nat) :
    wp (taskLeave curr status) (fun r t => (r = .crash → curr = init) ∧ Change curr s t) s := by
  rw [taskLeave, wp_bind]
  refine wp_getTask here ?_
  rw [after_ok]
  split
  · exact ⟨nofun, .edited (edited_refl s)⟩
  · split
    · exact ⟨fun _ => ‹_›, .edited (edited_refl s)⟩
    · refine ⟨nofun, .edited (edited_setTask curr fun _ => ?_)⟩
      exact ⟨rfl, rfl, rfl, rfl, .inl rfl, fun first => absurd first ‹_›⟩

theorem adopt_alike (curr i : Nat) (p : Task) : Alike i p (adopt curr p) := by
  rw [adopt]
  split
  · exact ⟨rfl, rfl, rfl, rfl, .inr rfl, fun _ => rfl⟩
  · exact alike_refl i p

theorem adopt_parent (other : curr ≠ init) (p : Task) : (adopt curr p).parent ≠ some curr := by
  rw [adopt]
  split
  · exact fun eq => other (Option.some.inj eq).symm
  · assumption

theorem handOver_alike (handler : Handler) (i : Nat) (p : Task) : Alike i p (handOver handler p) := by
  rw [handOver]
  split
  · exact ⟨rfl, rfl, rfl, rfl, .inr rfl, fun _ => rfl⟩
  · exact alike_refl i p

theorem handOver_parent (other : curr ≠ init) (handler : Handler)
    (parent : p.parent ≠ some curr) : (handOver handler p).parent ≠ some curr := by
  rw [handOver]
  split
  · exact fun eq => other (Option.some.inj eq).symm
  · exact parent

theorem Edited.trans (first : Edited s t) (second : Edited t u) : Edited s u := by
  refine ⟨fun i => ?_, fun small => second.last (first.last small), second.born.trans first.born,
    second.exits.trans first.exits, second.got.trans first.got⟩
  have rel := first.task i
  have rel' := second.task i
  generalize s.task i = p at rel
  generalize t.task i = q at rel rel'
  generalize u.task i = r at rel'
  cases rel with
  | none =>
    cases rel'
    exact .none
  | some alike =>
    cases rel' with
    | some alike' =>
      refine .some ⟨alike'.pid.trans alike.pid, alike'.nr.trans alike.nr, alike'.exited.trans alike.exited,
        alike'.exitStatus.trans alike.exitStatus, ?_,
        fun first => (alike'.leaving first).trans (alike.leaving first)⟩
      rcases alike'.parent with same | same
      · rw [same]
        exact alike.parent
      · exact .inr same

theorem wp_taskExit {status : Nat} (tree : Tree s) (here : s.task curr = some c)
    (runs : c.exited = false) (leaving : c.leaving = some status) (other : curr ≠ init) :
    wp (taskExit curr) (Does curr s) s := by
  have bound := tree.slots curr c here
  rw [taskExit, wp_bind, forTasks, wp_modify, after_ok, wp_bind]
  have edited : Edited s { s with task := fun i => if i < taskMax then (s.task i).map (adopt curr) else s.task i } :=
    edited_forTasks (adopt_alike curr)
  have orphan : ∀ i q, (if i < taskMax then (s.task i).map (adopt curr) else s.task i) = some q →
      q.parent ≠ some curr := by
    intro i q there
    split at there
    · obtain ⟨p, _, rfl⟩ := Option.map_eq_some_iff.mp there
      exact adopt_parent other p
    · exact absurd (tree.slots i q there) ‹_›
  have here' : (if curr < taskMax then (s.task curr).map (adopt curr) else s.task curr) = some (adopt curr c) := by
    rw [if_pos bound, here]
    rfl
  have leaving' : (adopt curr c).leaving = some status := by
    rw [adopt]
    split
    · exact leaving
    · exact leaving
  obtain ⟨j, parent, q, there, _⟩ := (tree_edited edited tree).parents curr _ here'
  refine wp_getTask here' ?_
  rw [after_ok, parent, leaving']
  dsimp only
  rw [wp_bind]
  refine wp_getTask there ?_
  -- the task itself
  have edited' := edited.trans (edited_setTask curr (handOver_alike q.sigChld curr))
  dsimp only at edited'
  rw [here', Option.map_some] at edited'
  rw [after_ok, setTask, wp_bind, wp_modify, after_ok, setTask, wp_bind, wp_modify, after_ok, wp_modify]
  dsimp only
  rw [here', Option.map_some, update_self, Option.map_some, ← (handOver_alike q.sigChld curr (adopt curr c)).nr]
  refine ⟨nofun, .ended (handOver q.sigChld (adopt curr c)) status edited' ?_ ?_ other fun i p found => ?_⟩
  · exact update_self (f := fun i => if i < taskMax then (s.task i).map (adopt curr) else s.task i) ..
  · rw [(handOver_alike q.sigChld curr (adopt curr c)).exited, (adopt_alike curr curr c).exited]
    exact runs
  · have found' : update (fun i => if i < taskMax then (s.task i).map (adopt curr) else s.task i) curr
        (some (handOver q.sigChld (adopt curr c))) i = some p := found
    by_cases eq : i = curr
    · rw [eq, update_self] at found'
      cases found'
      exact handOver_parent other _ (adopt_parent other c)
    · rw [update_of_ne eq] at found'
      exact orphan i p found'

theorem wp_sysSignal (curr : Nat) (handler : Handler) : wp (sysSignal curr handler) (Does curr s) s := by
  have edited : Edited s _ := edited_setTask curr (f := fun p => { p with sigChld := handler })
    fun _ => ⟨rfl, rfl, rfl, rfl, .inl rfl, fun _ => rfl⟩
  rw [sysSignal, setTask, wp_bind, wp_modify, after_ok]
  cases handler with
  | dfl => exact ⟨nofun, .edited edited⟩
  | proc addr => exact ⟨nofun, .edited edited⟩
  | ign =>
    rw [setupChld]
    split
    · exact ⟨nofun, .edited edited⟩
    · refine ⟨nofun, .edited (edited.trans (edited_forTasks fun i p => ?_))⟩
      split
      · exact ⟨rfl, rfl, rfl, rfl, .inr rfl, fun _ => rfl⟩
      · exact alike_refl i p

theorem waitScan_found {pid : Int} {slots : List Nat} {exist exist' : Bool}
    (found : waitScan s curr pid slots exist = (some i, exist')) :
    ∃ p, s.task i = some p ∧ p.parent = some curr ∧ p.exited = true ∧ (0 < pid → (p.pid : Int) = pid) := by
  induction slots generalizing exist with
  | nil => cases found
  | cons j rest ih =>
    rw [waitScan] at found
    cases here : s.task j with
    | none =>
      rw [here] at found
      exact ih found
    | some p =>
      rw [here] at found
      dsimp only at found
      by_cases passed : p.parent ≠ some curr ∨ 0 < pid ∧ (p.pid : Int) ≠ pid
      · rw [if_pos passed] at found
        exact ih found
      · rw [if_neg passed] at found
        obtain ⟨parent, same⟩ := not_or.mp passed
        split at found
        · cases found
          exact ⟨p, here, not_not.mp parent, ‹_›, fun given => not_not.mp fun other => same ⟨given, other⟩⟩
        · exact ih found

theorem wp_sysXwait (here : s.task curr = some c) (pid : Int) (nohang fault : Bool) :
    wp (sysXwait curr pid nohang fault) (Does curr s) s := by
  rw [sysXwait, wp_bind, wp_get, after_ok]
  rcases scan : waitScan s curr pid (range taskMax) false with ⟨_ | i, exist⟩
  · cases exist with
    | true =>
      cases nohang with
      | true =>
        cases fault with
        | true => exact does_same nofun
        | false => exact does_same nofun
      | false => exact does_same nofun
    | false => exact does_same nofun
  · obtain ⟨p, there, parent, exited, _⟩ := waitScan_found scan
    cases fault with
    | true => exact does_same nofun
    | false =>
      dsimp only
      rw [if_neg Bool.false_ne_true, wp_bind]
      refine wp_getTask there ?_
      rw [after_ok, wp_bind]
      refine wp_getTask here ?_
      rw [after_ok, wp_bind, wp_modify, after_ok, taskPutslot, wp_modify]
      exact ⟨nofun, .collected i p c there exited parent here⟩

theorem wp_ignore {α : Type} {m : Call α} (does : wp m (Does curr s) s) :
    wp (do let _ ← m; pure ()) (Does curr s) s := by
  rw [wp_bind]
  refine wp_mono does fun r t done => ?_
  rcases r with _ | _ | _
  · exact ⟨nofun, done.2⟩
  · exact ⟨nofun, done.2⟩
  · exact absurd rfl done.1

/-- Everything a step can do. The kernel panics if the first task exits, and not otherwise. -/
theorem step_change (tree : Tree s) {op : Op}
    (able : Able s curr op) {r : Res Errno Unit} (run : op.run curr s = (r, t)) :
    (r = .crash → curr = init ∧ ∃ status, op = .leave status) ∧ Change curr s t := by
  have done : ∀ m : Call Unit, op.run curr s = m s → wp m (Does curr s) s →
      (r = .crash → curr = init ∧ ∃ status, op = .leave status) ∧ Change curr s t := by
    intro m eq does
    rw [wp, ← eq, run] at does
    exact ⟨fun crash => absurd crash does.1, does.2⟩
  obtain ⟨c, here, runs, leaves⟩ := able
  cases op with
  | creat fqn mem dir => exact done _ rfl (wp_ignore (wp_taskCreat tree here runs fqn mem dir))
  | fork mem pages => exact done _ rfl (wp_ignore (wp_doFork tree here mem pages))
  | leave status =>
    have left := wp_taskLeave here status
    have run' : taskLeave curr status s = (r, t) := run
    rw [wp, run'] at left
    exact ⟨fun crash => ⟨left.1 crash, status, rfl⟩, left.2⟩
  | exit =>
    obtain ⟨status, leaving⟩ := Option.isSome_iff_exists.mp leaves
    refine done _ rfl (wp_taskExit tree here runs leaving ?_)
    rintro rfl
    obtain ⟨p, there, _, stays⟩ := tree.init
    rw [here] at there
    cases there
    rw [stays] at leaving
    cases leaving
  | signal handler => exact done _ rfl (wp_sysSignal curr handler)
  | dispatch => exact done _ rfl (wp_setTask fun _ => ⟨rfl, rfl, rfl, rfl, .inl rfl, fun _ => rfl⟩)
  | exec fqn => exact done _ rfl (wp_setTask fun _ => ⟨rfl, rfl, rfl, rfl, .inl rfl, fun _ => rfl⟩)
  | xwait pid nohang fault => exact done _ rfl (wp_sysXwait here pid nohang fault)

theorem tree_change (tree : Tree s) (live : Live s curr) (change : Change curr s t) : Tree t := by
  cases change with
  | edited edited => exact tree_edited edited tree
  | grown i last new bound free fresh small parent nr runs => exact tree_grown tree bound free fresh small parent live
  | ended p status edited here runs other orphan => exact tree_ended (tree_edited edited tree) here other orphan
  | collected i p c here exited parent there => exact tree_collected tree here exited

theorem books_change (books : Books s) (change : Change curr s t) : Books t := by
  cases change with
  | edited edited => exact books_edited edited books
  | grown i last new bound free fresh small parent nr runs => exact books_grown books free nr runs last
  | ended p status edited here runs other orphan => exact books_ended (books_edited edited books) here runs
  | collected i p c here exited parent there => exact books_collected books here exited rfl rfl

theorem of_boot (here : boot.task i = some p) : i = init ∧ p = ⟨some init, 1, "", 0, false, .ign, none, 0⟩ := by
  have found : update (fun _ => none) init (some ⟨some init, 1, "", 0, false, .ign, none, 0⟩) i = some p := here
  by_cases eq : i = init
  · rw [eq, update_self] at found
    cases found
    exact ⟨eq, rfl⟩
  · rw [update_of_ne eq] at found
    cases found

theorem distinct_boot (key : Task → Nat) : Distinct key boot := fun _ _ _ _ first second _ =>
  (of_boot first).1.trans (of_boot second).1.symm

theorem tree_boot : Tree boot := by
  refine ⟨by decide, fun i p here => ?_, fun i p here => ?_, distinct_boot _, _, rfl, rfl, rfl⟩
  · rw [(of_boot here).1]
    decide
  · rw [(of_boot here).2]
    exact ⟨init, rfl, _, rfl, rfl⟩

theorem books_boot : Books boot where
  numbers := distinct_boot _
  known := by
    intro i p here
    rw [(of_boot here).2]
    exact Nat.zero_lt_one
  zombie := by
    intro i p here exited
    rw [(of_boot here).2] at exited
    cases exited
  alive := fun _ _ _ _ _ mem => absurd mem not_mem_nil
  past := fun _ mem => absurd mem not_mem_nil
  once := nodup_nil
  gone := fun _ mem => absurd mem not_mem_nil
  sent := fun _ mem => absurd mem not_mem_nil
  single := nodup_nil
  all := by
    intro n before
    refine .inl ⟨init, _, rfl, ?_⟩
    exact (lt_one_iff.mp before).symm

theorem reach_kept (reach : Reach s) : Tree s ∧ Books s := by
  induction reach with
  | boot => exact ⟨tree_boot, books_boot⟩
  | step before curr op able run ih =>
    obtain ⟨p, here, runs, leaves⟩ := able
    have change := (step_change ih.1 ⟨p, here, runs, leaves⟩ run).2
    exact ⟨tree_change ih.1 ⟨p, here, runs⟩ change, books_change ih.2 change⟩

/-- What a step may do with statuses and slots: the task that makes the call may get the status of an exited child of
    its own, whose slot is then free; every other task stays in its slot. -/
def Hands (curr : Nat) (s t : State) : Prop :=
  t.got = s.got ∧ (∀ i p, s.task i = some p → ∃ q, t.task i = some q ∧ q.nr = p.nr) ∨
  ∃ i p c, s.task i = some p ∧ p.exited = true ∧ p.parent = some curr ∧ s.task curr = some c ∧
    t = collected s i ⟨p.execName, p.exitStatus, p.pid, p.nr, c.nr⟩

theorem change_hands (change : Change curr s t) : Hands curr s t := by
  cases change with
  | edited edited =>
    refine .inl ⟨edited.got, fun i p here => ?_⟩
    obtain ⟨q, there, alike⟩ := edited.later here
    exact ⟨q, there, alike.nr⟩
  | grown i last new bound free fresh small parent nr runs =>
    exact .inl ⟨rfl, fun j p here => ⟨p, update_ne_of_free free here, rfl⟩⟩
  | @ended u p status edited here runs other orphan =>
    refine .inl ⟨edited.got, fun i q there => ?_⟩
    obtain ⟨r, found, alike⟩ := edited.later there
    by_cases eq : i = curr
    · subst eq
      rw [here] at found
      cases found
      exact ⟨_, update_self .., alike.nr⟩
    · exact ⟨r, (update_of_ne eq ..).trans found, alike.nr⟩
  | collected i p c here exited parent there => exact .inr ⟨i, p, c, here, exited, parent, there, rfl⟩

structure Sound (s : State) : Prop where
  /-- A parent is in a slot and has not exited. -/
  parents : ∀ i p, s.task i = some p → ∃ j q, p.parent = some j ∧ s.task j = some q ∧ q.exited = false
  pids : ∀ i j p q, s.task i = some p → s.task j = some q → p.pid = q.pid → i = j
  newpid : ∀ task tries, taskMax < tries → ∃ pid, newpidLoop { s with task := task } tries s.last = some pid
  /-- Nobody exits twice, and no status is handed out twice, or is another than that of the exit. -/
  exits : (s.exits.map Prod.fst).Nodup
  single : (s.got.map Got.nr).Nodup
  sent : ∀ g ∈ s.got, (g.nr, g.status) ∈ s.exits
  /-- A task is in its slot until its status has been handed out. -/
  all : ∀ n, n < s.born → (∃ i p, s.task i = some p ∧ p.nr = n) ∨ ∃ g ∈ s.got, g.nr = n
  steps : ∀ curr op r t, Able s curr op → op.run curr s = (r, t) → Hands curr s t
  /-- There is no panic but for the exit of the first task. -/
  panics : ∀ curr op, Able s curr op → (op.run curr s).1 = .crash → curr = init ∧ ∃ status, op = .leave status

theorem tree_kept (reach : Reach s) : Sound s := by
  obtain ⟨tree, books⟩ := reach_kept reach
  refine ⟨fun i p here => ?_, tree.pids, fun task tries enough => newpid_ends _ tree.last enough, books.once,
    books.single, books.sent, books.all, fun curr op r t able run => ?_, fun curr op able crash => ?_⟩
  · obtain ⟨j, parent, q, there, runs⟩ := tree.parents i p here
    exact ⟨j, q, parent, there, runs⟩
  · exact change_hands (step_change tree able run).2
  · exact (step_change tree able rfl).1 crash

theorem Reach.next (reach : Reach s) (curr : Nat) (op : Op) (able : Able s curr op) : Reach (op.run curr s).2 :=
  .step (r := (op.run curr s).1) reach curr op able rfl

def left : State :=
  ((Op.leave 256).run 1 ((Op.fork true true).run 1 ((Op.creat "/bin/sh" true true).run init boot).2).2).2

def reaped : State := ((Op.xwait (-1) false false).run init (Op.exit.run 1 left).2).2

theorem tree_kept_sample : Sound reaped ∧ reaped.got.map Got.status = [256] ∧
    (reaped.task 1).isNone ∧ (reaped.task 2).map Task.parent = some (some init) := by
  have start : Reach left :=
    ((Reach.boot.next init (.creat "/bin/sh" true true) ⟨_, rfl, rfl, rfl⟩).next 1 (.fork true true)
      ⟨_, rfl, rfl, rfl⟩).next 1 (.leave 256) ⟨_, rfl, rfl, rfl⟩
  have reach : Reach reaped :=
    (start.next 1 .exit ⟨_, rfl, rfl, rfl⟩).next init (.xwait (-1) false false) ⟨_, rfl, rfl, rfl⟩
  exact ⟨tree_kept reach, by decide +kernel, by decide +kernel, by decide +kernel⟩

end Procs
