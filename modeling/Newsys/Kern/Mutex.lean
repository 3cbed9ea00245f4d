import Newsys.Lib.Ints
import Newsys.Kern.Sched

/- Mutexes (kern/mutex.c) over the scheduler: a mutex whose queue is the wait queue `nr`, which nothing else uses. The
   kernel does not preempt itself, so no task reads the mutex in the middle of a call but while it sleeps in
   `task_suspend`; the loop of `mtx_leave` runs with interrupts on, and a step of it is one round. -/
namespace Mutex
open Cmds Cmd Chains Kern Tasks Ints Option
open Function (update update_self update_of_ne update_idem update_eq_self)

structure Mtx where
  owner : Option Nat
  lockcnt : Int
  deriving DecidableEq

def mtxInit : Mtx := ⟨none, 0⟩

inductive Panic where
  | task (p : Tasks.Panic)
  | mtxLeave

/-- What a task has of `mtx_enter`: it returned 0 or an error, or it sleeps in `task_suspend`. -/
inductive Outcome where
  | entered
  | failed (e : Errno)
  | asleep
  deriving DecidableEq

/-- `waiting t` is the argument of the `mtx_enter` that the task is in, `leaving` is the task that is in the loop of
    `mtx_leave`; `entries` and `leaves` count the calls that succeeded. -/
structure State where
  sys : Sys
  mtx : Mtx
  waiting : Nat → Option Wait
  leaving : Option Nat
  entries : Nat → Nat
  leaves : Nat → Nat

abbrev MtxM := Cmd Panic State

def onSys {α : Type} (m : TaskM α) : MtxM α := fun σ =>
  match m σ.sys with
  | (.ok a, s) => (.ok a, { σ with sys := s })
  | (.err p, s) => (.err (.task p), { σ with sys := s })
  | (.crash, s) => (.crash, { σ with sys := s })

def setMtx (x : Mtx) : MtxM Unit := modify fun σ => { σ with mtx := x }

def interrupted (T : Task) (type : Wait) : Bool :=
  decide ((T.signalPending ∨ T.unseenEvents ≠ 0) ∧ T.stopped = false ∧ type = .intr)

section Calls
variable (nr : Nat)

def mtxLoop (wait : Option Wait) : MtxM Outcome := do
  let c ← onSys current
  let σ ← get
  if σ.mtx.lockcnt ≠ 0 then
    match wait with
    | none => pure (.failed .EAGAIN)
    | some type => do
      let T ← onSys (fetch c)
      onSys (taskSuspend (some nr) type)
      pure (if interrupted T type then .failed .EINTR else .asleep)
  else do
    setMtx ⟨some c, 1⟩
    pure .entered

def mtxEnter (wait : Option Wait) : MtxM Outcome := do
  let c ← onSys current
  let σ ← get
  if σ.mtx.owner = none then do
    setMtx ⟨some c, 1⟩
    pure .entered
  else if σ.mtx.owner = some c then do
    setMtx { σ.mtx with lockcnt := int (σ.mtx.lockcnt + 1) }
    pure .entered
  else mtxLoop nr wait

def mtxLeave : MtxM Bool := do
  let c ← onSys current
  let σ ← get
  if σ.mtx.owner ≠ some c then fail .mtxLeave
  else
    let n := int (σ.mtx.lockcnt - 1)
    if n ≠ 0 then do
      setMtx { σ.mtx with lockcnt := n }
      pure false
    else do
      setMtx ⟨none, n⟩
      pure true

/-- A round of the loop up to `task_resume`, which is what a waker does next. -/
def mtxWake : MtxM Unit := do
  match ← onSys (taskDequeue (.wait nr)) with
  | none => modify fun σ => { σ with leaving := none }
  | some t => modify fun σ => { σ with sys := { σ.sys with woken := t :: σ.sys.woken } }

inductive Act where
  | sys (a : Tasks.Act)
  | enter (wait : Option Wait)
  | again        -- behind task_suspend
  | leave
  | wake         -- in the loop of mtx_leave

def settle (c : Nat) (wait : Option Wait) (r : Outcome) (σ : State) : State :=
  match r with
  | .entered =>
    { σ with entries := update σ.entries c (σ.entries c + 1), waiting := update σ.waiting c none }
  | .failed _ => { σ with waiting := update σ.waiting c none }
  | .asleep => { σ with waiting := update σ.waiting c wait }

def Act.run : Act → MtxM (Option Outcome)
  | .sys a => do
    onSys a.run
    pure none
  | .enter wait => do
    let c ← onSys current
    let r ← mtxEnter nr wait
    modify (settle c wait r)
    pure (some r)
  | .again => do
    let c ← onSys current
    let σ ← get
    let r ← mtxLoop nr (σ.waiting c)
    modify (settle c (σ.waiting c) r)
    pure (some r)
  | .leave => do
    let c ← onSys current
    let last ← mtxLeave
    modify fun σ => { σ with leaves := update σ.leaves c (σ.leaves c + 1)
                             leaving := if last then some c else none }
    pure none
  | .wake => do
    mtxWake nr
    pure none

def isCall : Tasks.Act → Bool
  | .fork _ | .creat _ | .suspend _ _ | .exit | .sched | .nice _ _ | .xwait _ | .setupChld _ | .poll _ => true
  | _ => false

/-- When an action can happen: a task that is inside `mtx_enter` or `mtx_leave` goes on there, nothing else uses the
    queue, a task leaves what it entered, and it has `depth` entries at most. -/
def Act.can (depth : Nat) (σ : State) : Act → Prop
  | .sys a => a.can σ.sys ∧ a ≠ .dequeue nr ∧ (∀ type, a ≠ .suspend (some nr) type) ∧
      (isCall a = true → σ.leaving = none ∧ ∀ c, σ.sys.curr = some c → σ.waiting c = none)
  | .enter _ => σ.sys.pc = .run ∧ σ.sys.woken = [] ∧ σ.leaving = none ∧
      ∀ c, σ.sys.curr = some c → σ.waiting c = none ∧ σ.entries c < σ.leaves c + depth
  | .again => σ.sys.pc = .run ∧ σ.sys.woken = [] ∧ σ.leaving = none ∧
      ∀ c, σ.sys.curr = some c → σ.waiting c ≠ none ∧ σ.entries c < σ.leaves c + depth
  | .leave => σ.sys.pc = .run ∧ σ.sys.woken = [] ∧ σ.leaving = none ∧
      ∀ c, σ.sys.curr = some c → σ.waiting c = none ∧ σ.leaves c < σ.entries c
  | .wake => σ.sys.pc = .run ∧ σ.sys.woken = [] ∧ σ.leaving ≠ none ∧ σ.sys.curr = σ.leaving

/-- The mutex is initialised in any state of the system in which its queue is empty. -/
def fresh (s : Sys) : State :=
  { sys := s, mtx := mtxInit, waiting := fun _ => none, leaving := none, entries := fun _ => 0, leaves := fun _ => 0 }

inductive Reached (depth : Nat) : State → Prop where
  | init {s : Sys} (before : Tasks.Reached s) (empty : s.heads (.wait nr) = Head.null) : Reached depth (fresh s)
  | next {σ σ' : State} {r : Option Outcome} (before : Reached depth σ) (a : Act) (can : a.can nr depth σ)
      (run : a.run nr σ = (.ok r, σ')) : Reached depth σ'

end Calls

/- Operations that put no task into a queue -/

def Out (q : Queue) (t : Nat) (s : Sys) : Prop := ∀ T, s.task t = some T → T.queue ≠ some q

section Queues
variable {q : Queue} {t : Nat}

theorem out_yields_fetch (u : Nat) : Yields (Out q t) (fun T => u = t → T.queue ≠ some q) (fetch u) := by
  refine yields_bind yields_get fun s out => ?_
  cases here : s.task u with
  | none => exact yields_crash
  | some T =>
    refine yields_pure ?_
    rintro rfl
    exact out T here

theorem out_store {u : Nat} {T : Task} (other : u = t → T.queue ≠ some q) : Stable (Out q t) (store u T) := by
  refine stable_modify fun s out U here => ?_
  by_cases eq : t = u
  · subst eq
    rw [Sched.setTask_self] at here
    cases here
    exact other rfl
  · simp only [setTask, update_of_ne eq] at here
    exact out U here

theorem out_modify {g : Sys → Sys} (same : ∀ s, (g s).task = s.task) : Stable (Out q t) (modify g : TaskM Unit) := by
  refine stable_modify fun s out U here => ?_
  rw [same] at here
  exact out U here

theorem out_fetch {α : Type} {u : Nat} {f : Task → TaskM α}
    (next : ∀ T, (u = t → T.queue ≠ some q) → Stable (Out q t) (f T)) : Stable (Out q t) (fetch u >>= f) :=
  (yields_bind (out_yields_fetch u) fun T out => yields_of_stable (next T out)).stable

theorem out_current : Stable (Out q t) current := by
  refine stable_bind stable_get fun s => ?_
  cases s.curr with
  | none => exact stable_crash
  | some c => exact stable_pure c

theorem out_goto (pc : Pc) : Stable (Out q t) (goto pc) := out_modify fun _ => rfl

theorem out_edit {u : Nat} {f : Task → Task} (same : ∀ T, (f T).queue = T.queue) : Stable (Out q t) (edit u f) :=
  out_fetch fun T out => out_store (by rw [same]; exact out)

theorem out_taskInsert {q' : Queue} (other : q' ≠ q) (u : Nat) : Stable (Out q t) (taskInsert q' u) := by
  refine out_fetch fun T _ => ?_
  split
  · exact stable_fail _
  · refine stable_bind stable_get fun s => ?_
    have last : Stable (Out q t) (store u { T with queue := some q' }) := out_store fun _ eq => other (some.inj eq)
    cases (s.heads q').first with
    | none => exact stable_bind (out_modify fun _ => rfl) fun _ => last
    | some _ =>
      dsimp only
      cases (s.heads q').last with
      | none => exact stable_bind stable_crash fun _ => last
      | some l => exact stable_bind (out_modify fun _ => rfl) fun _ => last

theorem out_taskDequeue (q' : Queue) : Stable (Out q t) (taskDequeue q') := by
  refine stable_bind stable_get fun s => ?_
  cases (s.heads q').first with
  | none => exact stable_pure _
  | some u =>
    have last : Stable (Out q t) (do edit u fun T => { T with queue := none }; pure (some u)) :=
      stable_bind (out_fetch fun T _ => out_store nofun) fun _ => stable_pure _
    dsimp only
    cases (s.links u).next with
    | none => exact stable_bind (out_modify fun _ => rfl) fun _ => last
    | some n => exact stable_bind (out_modify fun _ => rfl) fun _ => last

theorem out_taskRemove (u : Nat) : Stable (Out q t) (taskRemove u) := by
  refine out_fetch fun T _ => ?_
  have last : Stable (Out q t) (store u { T with queue := none }) := out_store fun _ => nofun
  cases T.queue with
  | none => exact stable_fail _
  | some q' =>
    refine stable_bind stable_get fun s => ?_
    dsimp only
    have linked : ∀ g : Sys → Sys, (∀ s, (g s).task = s.task) →
        Stable (Out q t) (do Cmd.modify g; store u { T with queue := none }) :=
      fun g same => stable_bind (out_modify same) fun _ => last
    split
    · split
      · exact linked _ fun _ => rfl
      · split
        · exact stable_bind stable_crash fun _ => last
        · exact linked _ fun _ => rfl
    · split
      · split
        · exact stable_bind stable_crash fun _ => last
        · exact linked _ fun _ => rfl
      · split
        · exact linked _ fun _ => rfl
        · exact stable_bind stable_crash fun _ => last

section Ready
variable {nr : Nat}

theorem out_ready (prio u : Nat) : Stable (Out (.wait nr) t) (taskInsert (.ready prio) u) :=
  out_taskInsert Queue.noConfusion u

theorem out_schedEnter : Stable (Out (.wait nr) t) schedEnter := by
  refine stable_bind (out_modify fun _ => rfl) fun _ => stable_bind out_current fun c => out_fetch fun T out => ?_
  refine stable_bind stable_get fun s => ?_
  split
  · exact stable_bind (out_store out) fun _ => out_goto _
  · refine stable_bind (out_modify fun _ => rfl) fun _ => stable_bind ?_ fun _ => out_goto _
    rw [putAway]
    split
    · exact out_ready _ _
    · exact stable_pure _

theorem out_taskSuspend {tq : Option Nat} (other : tq ≠ some nr) (type : Wait) :
    Stable (Out (.wait nr) t) (taskSuspend tq type) := by
  refine stable_bind out_current fun c => out_fetch fun T out => ?_
  split
  · exact stable_fail _
  · split
    · exact out_store out
    · refine stable_bind (out_store out) fun _ => stable_bind (out_modify fun _ => rfl) fun _ =>
        stable_bind ?_ fun _ => out_schedEnter
      cases tq with
      | none => exact stable_pure _
      | some w => exact out_taskInsert (fun eq => other (congrArg some (Queue.wait.inj eq))) c

theorem out_taskResume (u : Nat) : Stable (Out (.wait nr) t) (taskResume u) := by
  refine out_fetch fun T out => ?_
  split
  · exact stable_fail _
  · split
    · exact stable_pure _
    · refine stable_bind (out_store out) fun _ => stable_bind (out_modify fun _ => rfl) fun _ =>
        stable_bind stable_get fun s => ?_
      split
      · exact stable_fail _
      · refine stable_bind ?_ fun _ => stable_bind ?_ fun _ => ?_
        · rw [leaveQueue]
          split
          · exact out_taskRemove _
          · exact stable_pure _
        · rw [makeReady]
          split
          · exact out_ready _ _
          · exact stable_pure _
        · cases s.curr with
          | none => exact stable_pure _
          | some c =>
            refine out_fetch fun C _ => ?_
            split
            · exact out_modify fun _ => rfl
            · exact stable_pure _

theorem out_resumeIntr (u : Nat) : Stable (Out (.wait nr) t) (resumeIntr u) := by
  refine out_fetch fun T _ => ?_
  split
  · exact out_taskResume u
  · exact stable_pure _

theorem out_signalSendK (u : Nat) (sig : Int) : Stable (Out (.wait nr) t) (signalSendK u sig) := by
  rw [signalSendK]
  split
  · exact stable_pure _
  · split
    · exact stable_pure _
    · refine out_fetch fun T _ => ?_
      split
      · exact stable_pure _
      · refine stable_bind ?_ fun _ => stable_bind (out_edit fun _ => rfl) fun _ =>
          stable_bind (out_edit fun _ => rfl) fun _ => stable_bind (out_resumeIntr u) fun _ => stable_pure _
        rw [signalCont]
        split
        · exact stable_bind (out_edit fun _ => rfl) fun _ => out_resumeIntr u
        · exact stable_pure _

theorem out_signal (u : Nat) (sig : Int) : Stable (Out (.wait nr) t) (do let _ ← signalSendK u sig) :=
  stable_bind (out_signalSendK u sig) fun _ => stable_pure _

theorem out_putslot (i : Nat) : Stable (Out (.wait nr) t) (taskPutslot i) := by
  refine stable_modify fun s out U here => ?_
  by_cases eq : t = i
  · subst eq
    rw [Sched.setTask_self] at here
    cases here
  · simp only [setTask, update_of_ne eq] at here
    exact out U here

theorem out_taskGetslot (mem : Bool) : Stable (Out (.wait nr) t) (taskGetslot mem) := by
  refine stable_bind stable_get fun s => ?_
  split
  · exact stable_pure _
  · rename_i i _
    split
    · refine stable_bind (stable_modify fun s out U here => ?_) fun _ => stable_pure _
      by_cases eq : t = i
      · subst eq
        simp only [setTask, update_self] at here
        cases here
        rintro ⟨⟩
      · simp only [setTask, update_of_ne eq] at here
        exact out U here
    · exact stable_pure _

theorem out_doFork (mem : Bool) : Stable (Out (.wait nr) t) (doFork mem) := by
  refine stable_bind (out_taskGetslot mem) fun slot => ?_
  cases slot with
  | none => exact stable_pure _
  | some i => exact out_goto _

theorem out_adopt {i : Nat} {T : Task} {p : Option Nat} (out : i = t → T.queue ≠ some (.wait nr)) {m : TaskM Unit}
    (next : Stable (Out (.wait nr) t) m) : Stable (Out (.wait nr) t) (do store i { T with parent := p }; m) :=
  stable_bind (out_store out) fun _ => next

theorem out_exitChild (i : Nat) : Stable (Out (.wait nr) t) (exitChild i) := by
  refine stable_bind out_current fun c => (yields_bind yields_get fun s out => yields_of_stable ?_).stable
  cases here : s.task i with
  | none => exact stable_pure _
  | some T =>
    dsimp only
    split
    · refine out_adopt (fun eq => out T (by rw [← eq]; exact here)) ?_
      split
      · exact out_signal _ _
      · exact stable_pure _
    · exact stable_pure _

theorem out_setupChld (i : Nat) : Stable (Out (.wait nr) t) (Tasks.setupChld i) := by
  refine stable_bind out_current fun c => (yields_bind yields_get fun s out => yields_of_stable ?_).stable
  cases here : s.task i with
  | none => exact stable_pure _
  | some T =>
    dsimp only
    split
    · exact out_adopt (fun eq => out T (by rw [← eq]; exact here)) (out_signal _ _)
    · exact stable_pure _

theorem out_xwait (i : Nat) : Stable (Out (.wait nr) t) (Tasks.xwait i) := by
  refine stable_bind out_current fun c => stable_bind stable_get fun s => ?_
  cases s.task i with
  | none => exact stable_pure _
  | some T =>
    dsimp only
    split
    · exact out_putslot i
    · exact stable_pure _

theorem out_exitParent : Stable (Out (.wait nr) t) exitParent := by
  refine stable_bind out_current fun c => out_fetch fun T out => ?_
  cases T.parent with
  | none => exact stable_crash
  | some p =>
    refine out_fetch fun P _ => ?_
    split
    · exact out_signal _ _
    · exact out_adopt out (out_signal _ _)

theorem out_taskExit : Stable (Out (.wait nr) t) taskExit := by
  refine stable_bind out_current fun c => out_fetch fun T _ => ?_
  split
  · exact stable_pure _
  · split
    · exact stable_fail _
    · exact out_goto _

theorem out_schedPicked (u : Nat) : Stable (Out (.wait nr) t) (schedPicked u) := by
  refine out_fetch fun T out => stable_bind (out_store out) fun _ => ?_
  split
  · exact stable_bind (out_ready _ _) fun _ => out_goto _
  · split
    · exact stable_fail _
    · exact out_goto _

theorem out_enqueue (i : Nat) (pc : Pc) : Stable (Out (.wait nr) t) (do
    let T ← fetch i
    taskInsert (.ready T.priority) i
    goto pc) := out_fetch fun _ _ => stable_bind (out_ready _ _) fun _ => out_goto _

theorem out_goOn (mem : Bool) : Stable (Out (.wait nr) t) (Tasks.goOn mem) := by
  refine stable_bind stable_get fun s => ?_
  cases s.pc with
  | run => exact stable_pure _
  | forkSlot i => exact stable_bind (out_modify fun _ => rfl) fun _ => out_goto _
  | forkCounted i => exact out_enqueue i _
  | forkQueued i =>
    exact stable_bind (stable_bind out_current fun c => out_fetch fun C _ => out_edit fun _ => rfl)
      fun _ => out_goto _
  | creatSlot i =>
    cases mem with
    | true => exact out_enqueue i _
    | false => exact stable_bind (out_putslot i) fun _ => out_goto _
  | creatQueued i => exact stable_bind (out_modify fun _ => rfl) fun _ => out_goto _
  | exitChildren i =>
    dsimp only
    split
    · exact stable_bind (out_exitChild i) fun _ => out_goto _
    · exact stable_bind out_exitParent fun _ => out_goto _
  | exitCount =>
    refine stable_bind (out_modify fun _ => rfl) fun _ => stable_bind stable_get fun s => ?_
    split
    · exact stable_fail _
    · exact out_goto _
  | exitFlag => exact stable_bind out_current fun c => stable_bind (out_edit fun _ => rfl) fun _ => out_goto _
  | exitSched => exact out_schedEnter
  | idle =>
    dsimp only
    split
    · exact stable_pure _
    · exact out_goto _
  | scan i =>
    refine stable_bind (out_taskDequeue _) fun next => ?_
    cases next with
    | some u => exact out_goto _
    | none =>
      dsimp only
      split
      · exact out_goto _
      · exact stable_fail _
  | picked u => exact out_schedPicked u
  | chosen u => exact stable_bind (out_modify fun _ => rfl) fun _ => out_goto _
  | returned =>
    refine stable_bind out_current fun c => out_fetch fun T _ => ?_
    split
    · exact stable_fail _
    · split
      · exact out_schedEnter
      · exact out_goto _

theorem out_taskSetPrio (prio : Int) : Stable (Out (.wait nr) t) (taskSetPrio prio) := by
  refine stable_bind out_current fun c => ?_
  split
  · exact stable_fail _
  · exact out_edit fun _ => rfl

theorem out_sysNice (inc : Int) (root : Bool) : Stable (Out (.wait nr) t) (sysNice inc root) := by
  refine stable_bind out_current fun c => out_fetch fun T _ => ?_
  split
  · exact stable_pure _
  · exact out_taskSetPrio _

theorem out_clockIntr : Stable (Out (.wait nr) t) clockIntr := by
  refine stable_bind stable_get fun s => ?_
  cases s.curr with
  | none => exact stable_pure _
  | some c =>
    refine out_fetch fun T out => stable_bind (out_store out) fun _ => ?_
    split
    · exact out_modify fun _ => rfl
    · exact stable_pure _

theorem out_taskCreat (inv : Sched.Inv s) (pc : s.pc = .run) (mem : Bool) (out : Out (.wait nr) t s) :
    Out (.wait nr) t (taskCreat mem s).2 := by
  obtain ⟨c, C, curr, here, _⟩ := inv.run pc
  obtain ⟨_, free⟩ := inv.of_holds here (.inl curr)
  show wp (taskCreat mem) (fun _ s' => Out (.wait nr) t s') s
  rw [taskCreat, wp_bind]
  refine Sched.wp_taskGetslot mem out ?_
  intro i _ empty
  have ne : c ≠ i := by
    rintro rfl
    rw [empty] at here
    cases here
  rw [after_ok]
  simp only [wp_bind]
  refine Sched.wp_current (c := c) curr ?_
  rw [after_ok, wp_bind]
  refine Sched.wp_fetch (T := C) ?_ ?_
  · simp only [setTask, update_of_ne ne]
    exact here
  rw [after_ok, wp_bind, wp_modify, after_ok, wp_bind, Sched.wp_store, after_ok, Sched.wp_goto]
  intro U now
  simp only [setTask] at now
  by_cases eq : t = i
  · rw [eq, update_self] at now
    cases now
    dsimp only
    rw [free]
    rintro ⟨⟩
  · rw [update_of_ne eq, update_of_ne eq] at now
    exact out U now

theorem out_act {s : Sys} (reached : Tasks.Reached s) {a : Tasks.Act} (can : a.can s)
    (other : ∀ type, a ≠ .suspend (some nr) type) (out : Out (.wait nr) t s) : Out (.wait nr) t (a.run s).2 := by
  cases a with
  | fork mem => exact out_doFork mem s out
  | creat mem => exact out_taskCreat (Sched.inv_reached reached) can.1 mem out
  | suspend tq type => exact out_taskSuspend (fun eq => other type (by rw [eq])) type s out
  | exit => exact out_taskExit s out
  | sched => exact out_schedEnter s out
  | nice inc root => exact out_sysNice inc root s out
  | xwait i => exact out_xwait i s out
  | setupChld i => exact out_setupChld i s out
  | poll on =>
    have kept : Stable (Out (.wait nr) t) (Act.poll on).run := stable_bind out_current fun c => out_modify fun _ => rfl
    exact kept s out
  | goOn mem => exact out_goOn mem s out
  | dequeue w =>
    refine stable_bind (out_taskDequeue _) (fun next => ?_) s out
    cases next with
    | none => exact stable_pure _
    | some u => exact out_modify fun _ => rfl
  | resumeWoken =>
    refine stable_bind stable_get (fun s => ?_) s out
    cases s.woken with
    | nil => exact stable_pure _
    | cons u rest => exact stable_bind (out_modify fun _ => rfl) fun _ => out_taskResume u
  | resumePolling u => exact out_taskResume u s out
  | signal u sig => exact out_signal u sig s out
  | clock => exact out_clockIntr s out
  | flags u ignored signalPending unseenEvents =>
    have kept : Stable (Out (.wait nr) t) (Act.flags u ignored signalPending unseenEvents).run := out_edit fun _ => rfl
    exact kept s out

end Ready

end Queues

/- The invariant -/

def lifted {α : Type} (Q : Res Panic α → State → Prop) (σ : State) : Res Tasks.Panic α → Sys → Prop
  | .ok a, s => Q (.ok a) { σ with sys := s }
  | .err p, s => Q (.err (.task p)) { σ with sys := s }
  | .crash, s => Q .crash { σ with sys := s }

theorem wp_onSys {α : Type} {m : TaskM α} {Q : Res Panic α → State → Prop} {σ : State} (post : wp m (lifted Q σ) σ.sys) :
    wp (onSys m) Q σ := by
  rw [wp, onSys]
  rw [wp] at post
  rcases run : m σ.sys with ⟨a | p | _, s⟩ <;> rw [run] at post <;> exact post

theorem wp_current {Q : Res Panic Nat → State → Prop} {σ : State} {c : Nat} (curr : σ.sys.curr = some c) (ok : Q (.ok c) σ) :
    wp (onSys current) Q σ := wp_onSys (Sched.wp_current curr ok)

theorem wp_fetch {Q : Res Panic Task → State → Prop} {σ : State} {t : Nat} {T : Task} (here : σ.sys.task t = some T)
    (ok : Q (.ok T) σ) : wp (onSys (fetch t)) Q σ := wp_onSys (Sched.wp_fetch here ok)

/-- The state of a mutex, its owner's entries and the tasks in its queue. -/
structure Held (nr depth : Nat) (σ : State) : Prop where
  reached : Tasks.Reached σ.sys
  owned : ∀ c, σ.mtx.owner = some c → σ.mtx.lockcnt = (σ.entries c : Int) - σ.leaves c ∧ σ.leaves c < σ.entries c ∧
    σ.entries c ≤ σ.leaves c + depth
  free : σ.mtx.owner = none → σ.mtx.lockcnt = 0
  others : ∀ t, σ.mtx.owner ≠ some t → σ.entries t = σ.leaves t
  empty : σ.mtx.owner = none → σ.leaving = none → ∀ t, Out (.wait nr) t σ.sys

section Steps
variable {nr depth : Nat} {σ : State} {c : Nat}

section
variable (held : Held nr depth σ)
include held

theorem Held.lockcnt : σ.mtx.lockcnt = 0 ↔ σ.mtx.owner = none := by
  constructor
  · intro zero
    cases owner : σ.mtx.owner with
    | none => rfl
    | some c =>
      obtain ⟨count, more, _⟩ := held.owned c owner
      omega
  · exact held.free

theorem Held.take (free : σ.mtx.owner = none) (room : σ.entries c < σ.leaves c + depth)
    (wait : Option Wait) : Held nr depth (settle c wait .entered { σ with mtx := ⟨some c, 1⟩ }) where
  reached := held.reached
  owned := by
    rintro _ ⟨⟩
    have even := held.others c (by rw [free]; nofun)
    simp only [settle, update_self]
    omega
  free := nofun
  others := by
    intro t other
    have ne : t ≠ c := fun eq => other (congrArg some eq.symm)
    simp only [settle, update_of_ne ne]
    exact held.others t (by rw [free]; nofun)
  empty := nofun

theorem Held.reenter (limit : depth < 2 ^ 31) (own : σ.mtx.owner = some c)
    (room : σ.entries c < σ.leaves c + depth) (wait : Option Wait) :
    Held nr depth (settle c wait .entered { σ with mtx := { σ.mtx with lockcnt := int (σ.mtx.lockcnt + 1) } }) where
  reached := held.reached
  owned := by
    intro d eq
    cases own.symm.trans eq
    obtain ⟨count, more, _⟩ := held.owned c own
    simp only [settle, update_self]
    rw [int_eq (by omega) (by omega)]
    omega
  free no := by cases own.symm.trans no
  others := by
    intro t other
    have ne : t ≠ c := fun eq => other (by rw [eq]; exact own)
    simp only [settle, update_of_ne ne]
    exact held.others t other
  empty no := by cases own.symm.trans no

theorem Held.left (own : σ.mtx.owner = some c) :
    if σ.mtx.lockcnt - 1 ≠ 0 then
      Held nr depth { σ with mtx := { σ.mtx with lockcnt := σ.mtx.lockcnt - 1 }, leaving := none
                             leaves := update σ.leaves c (σ.leaves c + 1) }
    else
      Held nr depth { σ with mtx := ⟨none, σ.mtx.lockcnt - 1⟩, leaving := some c
                             leaves := update σ.leaves c (σ.leaves c + 1) } := by
  obtain ⟨count, more, le⟩ := held.owned c own
  have others : ∀ t, t ≠ c → σ.entries t = update σ.leaves c (σ.leaves c + 1) t := by
    intro t ne
    rw [update_of_ne ne]
    exact held.others t (by rw [own]; exact fun eq => ne (some.inj eq).symm)
  split
  · rename_i inside
    refine { reached := held.reached, owned := fun d eq => ?_, free := fun no => ?_, others := fun t other => ?_
             empty := fun no => ?_ }
    · cases own.symm.trans eq
      simp only [update_self]
      omega
    · cases own.symm.trans no
    · exact others t fun eq => other (by rw [eq]; exact own)
    · cases own.symm.trans no
  · rename_i out
    refine { reached := held.reached, owned := nofun, free := fun _ => not_not.1 out, others := fun t _ => ?_
             empty := fun _ => nofun }
    by_cases eq : t = c
    · rw [eq]
      simp only [update_self]
      omega
    · exact others t eq

theorem Held.sleeps {s : Sys} (reached : Tasks.Reached s) (locked : σ.mtx.owner ≠ none)
    (waiting : Nat → Option Wait) : Held nr depth { σ with sys := s, waiting := waiting } where
  reached := reached
  owned := held.owned
  free no := absurd no locked
  others := held.others
  empty no := absurd no locked

def Keeps (nr depth : Nat) {α : Type} (r : Res Panic α) (σ : State) : Prop := ∀ a, r = .ok a → Held nr depth σ

theorem keeps_loop (pc : σ.sys.pc = .run) (calm : σ.sys.woken = []) (curr : σ.sys.curr = some c)
    (room : σ.entries c < σ.leaves c + depth) (wait : Option Wait) :
    wp (mtxLoop nr wait) (after (fun r => do modify (settle c wait r); pure (some r)) (Keeps nr depth)) σ := by
  rw [mtxLoop, wp_bind]
  refine wp_current curr ?_
  rw [after_ok, wp_bind, wp_get, after_ok]
  by_cases zero : σ.mtx.lockcnt = 0
  · rw [if_neg (not_not.2 zero)]
    rintro _ ⟨⟩
    exact held.take (held.lockcnt.1 zero) room wait
  · have locked : σ.mtx.owner ≠ none := fun free => zero (held.lockcnt.2 free)
    rw [if_pos zero]
    cases wait with
    | none =>
      rintro _ ⟨⟩
      exact held.sleeps held.reached locked _
    | some type =>
      obtain ⟨d, T, curr', here, _⟩ := (Sched.inv_reached held.reached).run pc
      cases curr.symm.trans curr'
      dsimp only
      rw [wp_bind]
      refine wp_fetch here ?_
      rw [after_ok, wp_bind]
      refine wp_onSys (wp_run ?_)
      rw [wp]
      intro run
      cases result : (taskSuspend (some nr) type σ.sys).1 with
      | err p => rintro _ ⟨⟩
      | crash => rintro _ ⟨⟩
      | ok a =>
        rw [result] at run
        have next := held.reached.next (.suspend (some nr) type) ⟨pc, calm⟩ run
        rintro _ ⟨⟩
        cases interrupted T type <;> exact held.sleeps next locked _

theorem current_some (pc : σ.sys.pc = .run) : ∃ c, σ.sys.curr = some c := by
  obtain ⟨c, _, curr, _⟩ := (Sched.inv_reached held.reached).run pc
  exact ⟨c, curr⟩

theorem keeps_enter (limit : depth < 2 ^ 31)
    (can : (Act.enter wait).can nr depth σ) : wp ((Act.enter wait).run nr) (Keeps nr depth) σ := by
  obtain ⟨pc, calm, _, ready⟩ := can
  obtain ⟨c, curr⟩ := current_some held pc
  obtain ⟨_, room⟩ := ready c curr
  rw [Act.run, wp_bind]
  refine wp_current curr ?_
  rw [after_ok, wp_bind, mtxEnter, wp_bind]
  refine wp_current curr ?_
  rw [after_ok, wp_bind, wp_get, after_ok]
  by_cases free : σ.mtx.owner = none
  · rw [if_pos free]
    rintro _ ⟨⟩
    exact held.take free room wait
  · rw [if_neg free]
    by_cases own : σ.mtx.owner = some c
    · rw [if_pos own]
      rintro _ ⟨⟩
      exact held.reenter limit own room wait
    · rw [if_neg own]
      exact keeps_loop held pc calm curr room wait

theorem keeps_again (can : Act.again.can nr depth σ) : wp (Act.again.run nr) (Keeps nr depth) σ := by
  obtain ⟨pc, calm, _, ready⟩ := can
  obtain ⟨c, curr⟩ := current_some held pc
  obtain ⟨_, room⟩ := ready c curr
  rw [Act.run, wp_bind]
  refine wp_current curr ?_
  rw [after_ok, wp_bind, wp_get, after_ok, wp_bind]
  exact keeps_loop held pc calm curr room _

theorem Held.owner_of (inside : σ.leaves c < σ.entries c) : σ.mtx.owner = some c := by
  by_contra other
  have even := held.others c other
  omega

theorem keeps_leave (limit : depth < 2 ^ 31) (can : Act.leave.can nr depth σ) :
    wp (Act.leave.run nr) (fun r σ' => r = .ok none ∧ Held nr depth σ') σ := by
  obtain ⟨pc, _, quiet, ready⟩ := can
  obtain ⟨c, curr⟩ := current_some held pc
  have own := held.owner_of (ready c curr).2
  obtain ⟨count, more, le⟩ := held.owned c own
  have less : int (σ.mtx.lockcnt - 1) = σ.mtx.lockcnt - 1 := int_eq (by omega) (by omega)
  have left := held.left own
  rw [Act.run, wp_bind]
  refine wp_current curr ?_
  rw [after_ok, wp_bind, mtxLeave, wp_bind]
  refine wp_current curr ?_
  rw [after_ok, wp_bind, wp_get, after_ok, if_neg (not_not.2 own), less]
  dsimp only
  split at left
  · rename_i inside
    rw [if_pos inside]
    exact ⟨rfl, left⟩
  · rename_i out
    rw [if_neg out]
    exact ⟨rfl, left⟩

theorem keeps_wake (can : Act.wake.can nr depth σ) : wp (Act.wake.run nr) (Keeps nr depth) σ := by
  have inv := Sched.inv_reached held.reached
  rw [Act.run, wp_bind, mtxWake, wp_bind]
  refine wp_onSys (wp_run (Sched.wp_taskDequeue inv.queues ?_ ?_))
  · -- the queue is empty when the loop ends
    rintro absent _ _ _
    have out : ∀ t, Out (.wait nr) t σ.sys := by
      intro t T here queue
      exact absent t (by rw [Sched.owner_of here]; exact queue)
    exact { held with empty := fun _ _ => out }
  · intro t T h ln here queue queues run
    have same : (Tasks.Act.dequeue nr).run σ.sys = (.ok (), { Sched.moved t { T with queue := none } h ln σ.sys with
        woken := t :: σ.sys.woken }) := by
      rw [Tasks.Act.run]
      show Cmd.bind _ _ σ.sys = _
      rw [Cmd.bind, run]
      rfl
    have next := held.reached.next (.dequeue nr) trivial same
    rintro _ _
    refine { reached := next, owned := held.owned, free := held.free, others := held.others, empty := fun free idle => ?_ }
    exact absurd idle can.2.2.1

theorem keeps_sys {a : Tasks.Act} (can : (Act.sys a).can nr depth σ) :
    wp ((Act.sys a).run nr) (Keeps nr depth) σ := by
  obtain ⟨can, _, other, _⟩ := can
  rw [Act.run, wp_bind]
  refine wp_onSys (wp_run ?_)
  rw [wp]
  intro run
  cases result : (a.run σ.sys).1 with
  | err p => rintro _ ⟨⟩
  | crash => rintro _ ⟨⟩
  | ok x =>
    rw [result] at run
    rintro _ _
    exact { reached := held.reached.next a can run, owned := held.owned, free := held.free, others := held.others
            empty := fun free idle t => out_act held.reached can other (held.empty free idle t) }

theorem held_next (limit : depth < 2 ^ 31) {a : Act} (can : a.can nr depth σ) :
    wp (a.run nr) (Keeps nr depth) σ := by
  cases a with
  | sys a => exact keeps_sys held can
  | enter wait => exact keeps_enter held limit can
  | again => exact keeps_again held can
  | leave => exact wp_mono (keeps_leave held limit can) fun r σ' done _ _ => done.2
  | wake => exact keeps_wake held can

end

structure Unchanged (σ σ' : State) : Prop where
  mtx : σ'.mtx = σ.mtx
  entries : σ'.entries = σ.entries
  leaves : σ'.leaves = σ.leaves
  heads : σ'.sys.heads = σ.sys.heads
  links : σ'.sys.links = σ.sys.links
  queues : Sched.owner σ'.sys.task = Sched.owner σ.sys.task

theorem suspend_interrupted {s : Sys} {T : Task} {type : Wait} (curr : s.curr = some c) (here : s.task c = some T)
    (awake : T.paused = none) (yes : interrupted T type = true) :
    wp (taskSuspend (some nr) type) (fun _ s' => s' = setTask c (some { T with unseenEvents := 0 }) s) s := by
  rw [taskSuspend, wp_bind]
  refine Sched.wp_current curr ?_
  rw [after_ok, wp_bind]
  refine Sched.wp_fetch here ?_
  rw [after_ok, if_neg (not_not.2 awake), if_pos (of_decide_eq_true yes)]
  rfl

theorem fails_loop (held : Held nr depth σ) (pc : σ.sys.pc = .run) (curr : σ.sys.curr = some c) (wait : Option Wait) :
    wp (mtxLoop nr wait) (after (fun r => do modify (settle c wait r); pure (some r))
      fun r σ' => ∀ e, r = .ok (some (.failed e)) → Unchanged σ σ') σ := by
  rw [mtxLoop, wp_bind]
  refine wp_current curr ?_
  rw [after_ok, wp_bind, wp_get, after_ok]
  by_cases zero : σ.mtx.lockcnt = 0
  · rw [if_neg (not_not.2 zero)]
    rintro e ⟨⟩
  · rw [if_pos zero]
    cases wait with
    | none =>
      rintro e _
      exact ⟨rfl, rfl, rfl, rfl, rfl, rfl⟩
    | some type =>
      have inv := Sched.inv_reached held.reached
      obtain ⟨d, T, curr', here, _⟩ := inv.run pc
      cases curr.symm.trans curr'
      obtain ⟨awake, _⟩ := inv.of_holds here (.inl curr)
      dsimp only
      rw [wp_bind]
      refine wp_fetch here ?_
      rw [after_ok, wp_bind]
      refine wp_onSys ?_
      cases yes : interrupted T type with
      | true =>
        refine wp_mono (suspend_interrupted curr here awake yes) ?_
        rintro (a | p | _) s' rfl
        · rintro e _
          exact ⟨rfl, rfl, rfl, rfl, rfl, Sched.owner_update_same here rfl⟩
        · rintro e ⟨⟩
        · rintro e ⟨⟩
      | false =>
        rw [wp]
        cases (taskSuspend (some nr) type σ.sys).1 <;> rintro e ⟨⟩

theorem fails_unchanged (held : Held nr depth σ) {a : Act} (can : a.can nr depth σ) :
    wp (a.run nr) (fun r σ' => ∀ e, r = .ok (some (.failed e)) → Unchanged σ σ') σ := by
  have any : ∀ {α : Type} (m : MtxM α), Yields (fun _ => True) (fun _ => True) m :=
    fun m => yields_of_stable fun _ _ => trivial
  have silent : ∀ {m : MtxM (Option Outcome)}, Yields (fun _ => True) (fun r => r = none) m →
      wp m (fun r σ' => ∀ e, r = .ok (some (.failed e)) → Unchanged σ σ') σ := by
    intro m none e failed
    cases (none σ trivial).2 _ failed
  cases a with
  | sys a => exact silent (yields_bind (any _) fun _ _ => yields_pure rfl)
  | wake => exact silent (yields_bind (any _) fun _ _ => yields_pure rfl)
  | leave =>
    exact silent (yields_bind (any _) fun _ _ => yields_bind (any _) fun _ _ => yields_bind (any _) fun _ _ =>
      yields_pure rfl)
  | enter wait =>
    obtain ⟨c, curr⟩ := current_some held can.1
    rw [Act.run, wp_bind]
    refine wp_current curr ?_
    rw [after_ok, wp_bind, mtxEnter, wp_bind]
    refine wp_current curr ?_
    rw [after_ok, wp_bind, wp_get, after_ok]
    split
    · rintro e ⟨⟩
    · split
      · rintro e ⟨⟩
      · exact fails_loop held can.1 curr wait
  | again =>
    obtain ⟨c, curr⟩ := current_some held can.1
    rw [Act.run, wp_bind]
    refine wp_current curr ?_
    rw [after_ok, wp_bind, wp_get, after_ok, wp_bind]
    exact fails_loop held can.1 curr _

end Steps

/-- The task has entered more often than it has left. -/
def Inside (σ : State) (t : Nat) : Prop := σ.leaves t < σ.entries t

/-- A mutex that excludes: at most one task is inside, the owner is that task and `lockcnt` counts its entries, a call that
    fails changes nothing, `mtx_leave` does not panic, and nobody sleeps in the queue of a free mutex but while
    `mtx_leave` goes through it. -/
structure Excludes (nr depth : Nat) (σ : State) : Prop where
  one : ∀ t u, Inside σ t → Inside σ u → t = u
  owner : ∀ t, σ.mtx.owner = some t ↔ Inside σ t
  count : ∀ t, Inside σ t → σ.mtx.lockcnt = (σ.entries t : Int) - σ.leaves t
  free : σ.mtx.owner = none ↔ σ.mtx.lockcnt = 0
  fails : ∀ (a : Act) (e : Errno) (σ' : State), a.can nr depth σ → a.run nr σ = (.ok (some (.failed e)), σ') → Unchanged σ σ'
  leaves : Act.leave.can nr depth σ → ∃ σ', Act.leave.run nr σ = (.ok none, σ')
  awake : σ.mtx.owner = none → σ.leaving = none → ∀ t T, σ.sys.task t = some T → T.queue ≠ some (.wait nr)

section Runs
variable {nr depth : Nat} {σ : State}

theorem held_fresh {s : Sys} (reached : Tasks.Reached s) (empty : s.heads (.wait nr) = Head.null) :
    Held nr depth (fresh s) where
  reached := reached
  owned := nofun
  free _ := rfl
  others _ _ := rfl
  empty _ _ t T here queue := by
    have first : (s.heads (.wait nr)).first = none := by rw [empty]; rfl
    exact Threaded.empty (Sched.inv_reached reached).queues first t ((Sched.owner_of (s := s) here).trans queue)

theorem held_reached (limit : depth < 2 ^ 31) (reached : Reached nr depth σ) : Held nr depth σ := by
  induction reached with
  | init before empty => exact held_fresh before empty
  | next before a can run ih =>
    have kept := held_next ih limit can
    rw [wp, run] at kept
    exact kept _ rfl

theorem Held.excludes (held : Held nr depth σ) (limit : depth < 2 ^ 31) : Excludes nr depth σ where
  one t u inT inU := some.inj ((held.owner_of inT).symm.trans (held.owner_of inU))
  owner t := ⟨fun own => (held.owned t own).2.1, held.owner_of⟩
  count t inside := (held.owned t (held.owner_of inside)).1
  free := held.lockcnt.symm
  fails a e σ' can run := by
    have unchanged := fails_unchanged held can
    rw [wp, run] at unchanged
    exact unchanged e rfl
  leaves can := by
    have done := (keeps_leave held limit can).1
    exact ⟨_, Prod.ext done rfl⟩
  awake free idle t := held.empty free idle t

end Runs

theorem mutex_excludes (nr depth : Nat) (σ : State) (limit : depth < 2 ^ 31) (reached : Reached nr depth σ) :
    Excludes nr depth σ := (held_reached limit reached).excludes limit

def nested (n : Nat) : State :=
  { fresh start with mtx := ⟨some init, int n⟩, entries := update (fun _ => 0) init n }

theorem int_succ (n : Nat) : int (int (n : Int) + 1) = int ((n + 1 : Nat) : Int) := by
  simp only [int, signed]
  omega

theorem settle_nested (n : Nat) (x : Mtx) (k : Nat → Nat)
    (here : update k init (n + 1) = update (fun _ => 0) init (n + 1)) (count : k init = n) (same : x = ⟨some init, int (n + 1 : Nat)⟩) :
    settle init none .entered { fresh start with mtx := x, entries := k } = nested (n + 1) := by
  have nobody : update (fun _ => none) init none = fun _ : Nat => (none : Option Wait) := update_eq_self ..
  simp only [settle, fresh, nested, nobody, count, here, same]

theorem reached_nested (lt : n < depth) : Reached nr depth (nested (n + 1)) := by
  induction n with
  | zero =>
    refine .next (.init .start rfl) (.enter none) ⟨rfl, rfl, rfl, ?_⟩ (r := some .entered) ?_
    · rintro c ⟨⟩
      exact ⟨rfl, by simpa [fresh] using lt⟩
    · rw [← settle_nested 0 ⟨some init, 1⟩ (fun _ => 0) rfl rfl rfl]
      rfl
  | succ n ih =>
    refine .next (ih (by omega)) (.enter none) ⟨rfl, rfl, rfl, ?_⟩ (r := some .entered) ?_
    · rintro c ⟨⟩
      exact ⟨rfl, by simpa [nested, fresh] using lt⟩
    · rw [← settle_nested (n + 1) ⟨some init, int (int (n + 1 : Nat) + 1)⟩ (update (fun _ => 0) init (n + 1))
        (update_idem ..) (update_self ..) (by rw [int_succ])]
      rfl

def act (a : Act) (σ : State) : State := (a.run 0 σ).2

theorem reached_act (before : Reached 0 1 σ) (a : Act) (can : a.can 0 1 σ) (ok : (a.run 0 σ).1 = .ok r) :
    Reached 0 1 (act a σ) :=
  .next before a can (Prod.ext ok rfl)

/-- The first task forks inside of the mutex and sleeps, and its child waits at the mutex. -/
def contended : State :=
  [.sys (.fork true), .sys (.goOn true), .sys (.goOn true), .sys (.goOn true), .sys (.suspend none .intr),
    .sys (.goOn true), .sys (.goOn true), .sys (.goOn true), .sys (.goOn true), .sys (.goOn true),
    .enter (some .intr)].foldl (fun σ a => act a σ) (nested 1)

theorem reached_contended : Reached 0 1 contended := by
  have go {σ : State} (before : Reached 0 1 σ) (flow : σ.sys.pc ≠ .run) (calm : σ.sys.woken = [])
      (ok : ((Act.sys (.goOn true)).run 0 σ).1 = .ok none) : Reached 0 1 (act (.sys (.goOn true)) σ) :=
    reached_act before _ ⟨⟨flow, calm⟩, nofun, nofun, nofun⟩ ok
  have first : Reached 0 1 (nested 1) := reached_nested (n := 0) (by decide)
  have forks := reached_act first (.sys (.fork true)) ⟨⟨rfl, rfl⟩, nofun, nofun, fun _ => ⟨rfl, fun _ _ => rfl⟩⟩ rfl
  have made := go (go (go forks nofun rfl rfl) nofun rfl rfl) nofun rfl rfl
  have sleeps := reached_act made (.sys (.suspend none .intr))
    ⟨⟨rfl, rfl⟩, nofun, nofun, fun _ => ⟨rfl, fun _ _ => rfl⟩⟩ rfl
  have runs := go (go (go (go (go sleeps nofun rfl rfl) nofun rfl rfl) nofun rfl rfl) nofun rfl rfl) nofun rfl rfl
  refine reached_act runs (.enter (some .intr)) ⟨rfl, rfl, rfl, ?_⟩ (r := some .asleep) rfl
  rintro c ⟨⟩
  exact ⟨rfl, by decide⟩

theorem mutex_excludes_contended : Excludes 0 1 contended :=
  mutex_excludes 0 1 contended (by decide) reached_contended

/-- After 2 ^ 31 entries `lockcnt` is negative. -/
theorem lockcnt_wraps : ¬ ∀ (nr depth : Nat) (σ : State), Reached nr depth σ → Excludes nr depth σ := by
  intro all
  have reached : Reached 0 2147483648 (nested 2147483648) := reached_nested (n := 2147483647) (by omega)
  have entered : (nested 2147483648).entries init = 2147483648 := by
    show update (fun _ => 0) init 2147483648 init = 2147483648
    rw [update_self]
  have left : (nested 2147483648).leaves init = 0 := rfl
  have inside : Inside (nested 2147483648) init := by
    rw [Inside, entered, left]
    omega
  have count := (all 0 2147483648 (nested 2147483648) reached).count init inside
  have wrapped : (nested 2147483648).mtx.lockcnt = -2147483648 := by
    show int 2147483648 = -2147483648
    simp only [int, signed]
    omega
  rw [entered, left, wrapped] at count
  omega

end Mutex
