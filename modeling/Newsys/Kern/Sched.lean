import Newsys.Lib.Tally
import Newsys.Kern.Task

/- The bookkeeping of the scheduler: flags, counters and queues agree in every state that the kernel reaches, whatever
   the interrupts do in between, and so its panics are not reached. -/
namespace Sched
open Cmds Cmd Chains Kern Tasks Tally List Nat Option
open Function (update update_self update_of_ne update_idem update_eq_self)

variable {s s' : Sys} {t u : Nat} {T : Task} {q : Queue}

def owner (task : Nat → Option Task) (t : Nat) : Option Queue := (task t).bind (·.queue)

theorem owner_of (here : s.task t = some T) : owner s.task t = T.queue := by
  rw [owner, here]
  rfl

theorem owner_update (task : Nat → Option Task) (t : Nat) (T : Task) :
    owner (update task t (some T)) = update (owner task) t T.queue := by
  funext u
  by_cases eq : u = t
  · subst eq
    simp [owner]
  · simp [owner, update_of_ne eq]

variable {E : Task}

theorem owner_update_same (here : s.task t = some T) (queue : E.queue = T.queue) :
    owner (update s.task t (some E)) = owner s.task := by
  rw [owner_update, queue, ← owner_of here, update_eq_self]

def Queued (s : Sys) : Prop := Threaded s.heads s.links (owner s.task)

/-- A task changes, and with it the queues. -/
def moved (t : Nat) (T : Task) (h : Queue → Head Nat) (ln : Links Nat) (s : Sys) : Sys :=
  { s with task := update s.task t (some T), heads := h, links := ln }

theorem owner_moved (t : Nat) (T : Task) (h : Queue → Head Nat) (ln : Links Nat) (s : Sys) :
    owner (moved t T h ln s).task = update (owner s.task) t T.queue := owner_update ..

/- Reading and writing tasks -/

theorem wp_fetch {Q : Res Panic Task → Sys → Prop} (here : s.task t = some T) (ok : Q (.ok T) s) : wp (fetch t) Q s := by
  simp only [fetch, wp_bind, wp_get, after_ok, here]
  exact ok

@[simp] theorem wp_store (t : Nat) (T : Task) (Q : Res Panic Unit → Sys → Prop) :
    wp (store t T) Q s = Q (.ok ()) (setTask t (some T) s) := rfl

variable {Q : Res Panic Unit → Sys → Prop}

theorem wp_edit (here : s.task t = some T)
    (ok : Q (.ok ()) (setTask t (some (f T)) s)) : wp (edit t f) Q s := by
  rw [edit, wp_bind]
  exact wp_fetch here ok

variable {c : Nat}

theorem wp_current {Q : Res Panic Nat → Sys → Prop} (here : s.curr = some c) (ok : Q (.ok c) s) : wp current Q s := by
  simp only [current, wp_bind, wp_get, after_ok, here]
  exact ok

@[simp] theorem wp_goto (pc : Pc) (Q : Res Panic Unit → Sys → Prop) :
    wp (goto pc) Q s = Q (.ok ()) { s with pc := pc } := rfl

@[simp] theorem setTask_self (t : Nat) (T : Option Task) (s : Sys) : (setTask t T s).task t = T :=
  update_self ..

/- What the operations on queues do -/

theorem wp_taskInsert (k : Queued s) (here : s.task t = some T) (out : T.queue = none)
    (ok : ∀ h ln, Threaded h ln (update (owner s.task) t (some q)) →
      Q (.ok ()) (moved t { T with queue := some q } h ln s)) : wp (taskInsert q t) Q s := by
  have new : owner s.task t = none := by rw [owner_of here, out]
  have pushed := Threaded.pushBack k q new
  rw [taskInsert, wp_bind]
  apply wp_fetch here
  simp only [after_ok]
  rw [if_neg (by simp [out])]
  simp only [wp_bind, wp_get, after_ok]
  cases first : (s.heads q).first with
  | none =>
    rw [Chains.pushBack, Threaded.last_none k first] at pushed
    exact ok _ _ pushed
  | some f =>
    obtain ⟨l, last⟩ := Threaded.last_some k first
    rw [Chains.pushBack, last] at pushed
    simp only [last]
    rw [wp_bind, wp_modify, after_ok, wp_store, ← first]
    exact ok _ _ pushed

variable {ln : Links Nat}

theorem unlink_first (k : Linked h ln (t :: b)) (nodup : (t :: b).Nodup) :
    unlink h ln t = (⟨(ln t).next, if (ln t).next = none then none else h.last⟩, linkPrev ln (ln t).next none) := by
  have item := k.item [] t b rfl
  have first : h.first = some t := k.first
  have last : (if h.last = some t then (ln t).prev else h.last) = if (ln t).next = none then none else h.last := by
    rw [k.last, item]
    cases b with
    | nil => simp
    | cons n b =>
      have ne : (t :: n :: b).getLast? ≠ some t := by
        rw [getLast?_cons_cons]
        intro here
        exact (nodup_cons.mp nodup).1 (mem_of_getLast? here)
      rw [if_neg ne]
      simp
  rw [unlink, first, if_pos rfl, last, item]
  rfl

theorem wp_taskDequeue {Q : Res Panic (Option Nat) → Sys → Prop} (k : Queued s)
    (empty : (∀ t, owner s.task t ≠ some q) → Q (.ok none) s)
    (ok : ∀ t T h ln, s.task t = some T → T.queue = some q → Threaded h ln (update (owner s.task) t none) →
      Q (.ok (some t)) (moved t { T with queue := none } h ln s)) : wp (taskDequeue q) Q s := by
  simp only [taskDequeue, wp_bind, wp_get, after_ok]
  cases first : (s.heads q).first with
  | none => exact empty (Threaded.empty k first)
  | some t =>
    have here := Threaded.first_owner k first
    obtain ⟨T, task, queue⟩ := bind_eq_some_iff.mp here
    have unlinked := Threaded.unlink k here Item.null
    obtain ⟨a, b, linked, nodup⟩ := Threaded.linked k here
    have front : a = [] := by
      rw [linked.first] at first
      cases a with
      | nil => rfl
      | cons x a =>
        cases first
        exact absurd nodup (by simp)
    subst front
    rw [unlink_first linked nodup] at unlinked
    cases next : (s.links t).next with
    | none =>
      rw [next, if_pos rfl] at unlinked
      simp only [next]
      rw [wp_bind, wp_modify, after_ok, wp_bind]
      exact wp_edit task (ok t T _ _ task queue unlinked)
    | some n =>
      rw [next, if_neg (some_ne_none n)] at unlinked
      simp only [next]
      rw [wp_bind, wp_modify, after_ok, wp_bind]
      exact wp_edit task (ok t T _ _ task queue unlinked)

theorem setPrev_setNext_comm (ln : Links Nat) (p n : Nat) (x y : Option Nat) :
    setPrev (setNext ln p x) n y = setNext (setPrev ln n y) p x := by
  funext u
  by_cases at_p : u = p <;> by_cases at_n : u = n
  · subst at_p at_n
    simp [setPrev_same, setNext_same]
  · subst at_p
    rw [setPrev_ne _ _ at_n, setNext_same, setNext_same, setPrev_ne _ _ at_n]
  · subst at_n
    rw [setPrev_same, setNext_ne _ _ at_p, setNext_ne _ _ at_p, setPrev_same]
  · rw [setPrev_ne _ _ at_n, setNext_ne _ _ at_p, setNext_ne _ _ at_p, setPrev_ne _ _ at_n]

theorem wp_taskRemove (k : Queued s) (here : s.task t = some T) (queue : T.queue = some q)
    (ok : ∀ h ln, Threaded h ln (update (owner s.task) t none) →
      Q (.ok ()) (moved t { T with queue := none } h ln s)) : wp (taskRemove t) Q s := by
  have mine : owner s.task t = some q := by rw [owner_of here, queue]
  have unlinked := Threaded.unlink k mine Item.null
  obtain ⟨a, b, linked, nodup⟩ := Threaded.linked k mine
  have item := linked.item a t b rfl
  have out : t ∉ a ∧ t ∉ b := by
    have parts := nodup_append.mp nodup
    exact ⟨fun mem => parts.2.2 t mem t (mem_cons_self ..) rfl, (nodup_cons.mp parts.2.1).1⟩
  have isFirst : (s.heads q).first = some t ↔ a = [] := by
    rw [linked.first]
    cases a with
    | nil => simp
    | cons x a =>
      have ne : x ≠ t := fun eq => out.1 (eq ▸ mem_cons_self ..)
      simp [ne]
  have isLast : (s.heads q).last = some t ↔ b = [] := by
    rw [linked.last]
    rcases eq_nil_or_concat b with rfl | ⟨b, x, rfl⟩
    · simp
    · have ne : x ≠ t := fun eq => out.2 (by rw [eq]; simp)
      have split : a ++ t :: (b.concat x) = (a ++ t :: b) ++ [x] := by simp
      rw [split, getLast?_concat]
      simp [ne]
  have next : (s.links t).next = b.head? := by rw [item]
  have prev : (s.links t).prev = a.getLast? := by rw [item]
  rw [taskRemove, wp_bind]
  apply wp_fetch here
  simp only [after_ok, queue, wp_bind, wp_get]
  simp only [unlink, next, prev] at unlinked
  split
  · rename_i first
    rw [isFirst.mp first] at unlinked prev
    split
    · rename_i last
      rw [isLast.mp last] at unlinked
      rw [wp_bind, wp_modify, after_ok]
      simp only [first, last, if_true, head?_nil, getLast?_nil, linkNext, linkPrev] at unlinked
      exact ok _ _ unlinked
    · rename_i last
      cases b with
      | nil => exact absurd (isLast.mpr rfl) last
      | cons n b =>
        simp only [next, head?_cons]
        rw [wp_bind, wp_modify, after_ok]
        simp only [first, if_true, if_neg last, head?_cons, getLast?_nil, linkNext, linkPrev] at unlinked
        exact ok _ _ unlinked
  · rename_i first
    split
    · rename_i last
      rw [isLast.mp last] at unlinked
      rcases eq_nil_or_concat a with rfl | ⟨a, p, rfl⟩
      · exact absurd (isFirst.mpr rfl) first
      · simp only [concat_eq_append, getLast?_append, getLast?_singleton, some_or] at prev unlinked
        simp only [prev]
        rw [wp_bind, wp_modify, after_ok]
        simp only [if_neg first, last, if_true, head?_nil, linkNext, linkPrev] at unlinked
        exact ok _ _ unlinked
    · rename_i last
      cases b with
      | nil => exact absurd (isLast.mpr rfl) last
      | cons n b =>
        rcases eq_nil_or_concat a with rfl | ⟨a, p, rfl⟩
        · exact absurd (isFirst.mpr rfl) first
        · simp only [concat_eq_append, getLast?_append, getLast?_singleton, some_or] at prev unlinked
          simp only [prev, next, head?_cons]
          rw [wp_bind, wp_modify, after_ok, setPrev_setNext_comm]
          simp only [if_neg first, if_neg last, head?_cons, linkNext, linkPrev] at unlinked
          exact ok _ _ unlinked

/- The invariant -/

/-- The task that the flow of control holds outside the queues, besides the current one. -/
def held : Pc → Option Nat
  | .forkSlot i | .forkCounted i | .creatSlot i | .picked i | .chosen i => some i
  | _ => none

def uncounted : Pc → Int
  | .forkSlot _ | .creatSlot _ | .creatQueued _ | .exitFlag => 1
  | _ => 0

def newborn : Pc → Option Nat
  | .forkSlot i | .forkCounted i | .forkQueued i => some i
  | _ => none

def live : Option Task → Bool
  | some T => !T.exited
  | none => false

def asleep : Option Task → Bool
  | some T => T.paused.isSome
  | none => false

def holds (s : Sys) (t : Nat) : Prop := s.curr = some t ∨ held s.pc = some t

/-- Where a task is, given whether the flow of control holds it. -/
structure Placed (holding : Prop) (T : Task) : Prop where
  priority : T.priority ≤ taskPrioLow
  paused : T.paused ≠ none → T.exited = false ∧ ¬ holding ∧ ∀ p, T.queue ≠ some (.ready p)
  out : T.paused = none → T.exited = true ∨ holding → T.queue = none
  ready : T.paused = none → T.exited = false → ¬ holding → ∃ p, p ≤ taskPrioLow ∧ T.queue = some (.ready p)

/-- A task may go: the slots below `n` hold no child of it, and no object points to it. -/
structure Leaving (s : Sys) (c n : Nat) : Prop where
  notInit : c ≠ init
  notPolling : s.polling c = false
  childless : ∀ t T, t < n → s.task t = some T → T.parent ≠ some c

def Control (s : Sys) : Prop :=
  match s.pc with
  | .run | .returned | .creatQueued _ => ∃ c, s.curr = some c ∧ live (s.task c)
  | .forkSlot i | .forkCounted i | .forkQueued i =>
    ∃ c, s.curr = some c ∧ live (s.task c) ∧ c ≠ i ∧ live (s.task i)
  | .creatSlot i => ∃ c, s.curr = some c ∧ live (s.task c) ∧ c ≠ i ∧ live (s.task i) ∧ Leaving s i taskMax
  | .exitChildren n => n ≤ taskMax ∧ ∃ c, s.curr = some c ∧ live (s.task c) ∧ Leaving s c n
  | .exitCount | .exitFlag => ∃ c, s.curr = some c ∧ live (s.task c) ∧ Leaving s c taskMax
  | .exitSched => ∃ c, s.curr = some c ∧ s.task c ≠ none ∧ live (s.task c) = false
  | .idle => s.curr = none
  | .scan i => s.curr = none ∧ ∃ t p, owner s.task t = some (.ready p) ∧ i ≤ p ∧ p ≤ taskPrioLow
  | .picked t | .chosen t => s.curr = none ∧ live (s.task t)

structure Inv (s : Sys) : Prop where
  queues : Queued s
  bound : ∀ t, taskMax ≤ t → s.task t = none
  placed : ∀ t T, s.task t = some T → Placed (holds s t) T
  count : s.taskCount + uncounted s.pc = tally taskMax live s.task
  pcount : s.taskPcount = tally taskMax asleep s.task
  woken : ∀ t ∈ s.woken, live (s.task t)
  polling : ∀ t, s.polling t = true → live (s.task t)
  root : live (s.task init)
  parents : ∀ t T, s.task t = some T → newborn s.pc ≠ some t → ∃ p, T.parent = some p ∧ live (s.task p)
  control : Control s

theorem live_some (h : live (s.task t) = true) : ∃ T, s.task t = some T ∧ T.exited = false := by
  cases here : s.task t with
  | none =>
    rw [here] at h
    cases h
  | some T =>
    rw [here] at h
    exact ⟨T, rfl, by simpa [live] using h⟩

theorem live_of (here : s.task t = some T) (running : T.exited = false) : live (s.task t) = true := by
  rw [here]
  simp [live, running]

theorem Inv.lt (inv : Inv s) (here : s.task t = some T) : t < taskMax := by
  by_contra ge
  rw [inv.bound t (by omega)] at here
  cases here

/- Changes that interrupt handlers may make -/

structure Woke (s s' : Sys) : Prop where
  pc : s'.pc = s.pc
  curr : s'.curr = s.curr
  count : s'.taskCount = s.taskCount
  woken : ∀ t ∈ s'.woken, t ∈ s.woken ∨ live (s.task t)
  polling : s'.polling = s.polling
  states : ∀ t, (s'.task t).map (fun T => (T.exited, T.parent)) = (s.task t).map fun T => (T.exited, T.parent)
  ready : ∀ t p, owner s.task t = some (.ready p) → owner s'.task t = some (.ready p)

theorem Woke.live (w : Woke s s') (t : Nat) : live (s'.task t) = live (s.task t) := by
  have state := w.states t
  cases now : s'.task t <;> cases was : s.task t <;> simp [now, was, Sched.live] at state ⊢
  exact state.1

theorem Woke.parent (w : Woke s s') (here : s'.task t = some T) : ∃ T', s.task t = some T' ∧ T'.parent = T.parent := by
  have state := w.states t
  rw [here] at state
  obtain ⟨T', was, eq⟩ := map_eq_some_iff.mp state.symm
  exact ⟨T', was, (Prod.mk.inj eq).2⟩

theorem Woke.present (w : Woke s s') (here : s.task t = some T) : ∃ T', s'.task t = some T' ∧ T'.exited = T.exited := by
  have state := w.states t
  rw [here] at state
  obtain ⟨T', now, eq⟩ := map_eq_some_iff.mp state
  exact ⟨T', now, (Prod.mk.inj eq).1⟩

variable {n : Nat}

theorem Woke.leaving (w : Woke s s') (leaving : Leaving s c n) : Leaving s' c n := by
  refine ⟨leaving.notInit, ?_, ?_⟩
  · rw [w.polling]
    exact leaving.notPolling
  · intro t T lt here
    obtain ⟨T', was, parent⟩ := w.parent here
    rw [← parent]
    exact leaving.childless t T' lt was

theorem Woke.control (w : Woke s s') (control : Control s) : Control s' := by
  unfold Control at *
  rw [w.pc, w.curr]
  cases pc : s.pc <;> simp only [pc, w.live] at control ⊢
  case creatSlot i =>
    obtain ⟨c, curr, running, ne, made, leaving⟩ := control
    exact ⟨c, curr, running, ne, made, w.leaving leaving⟩
  case exitChildren n =>
    obtain ⟨le, c, curr, running, leaving⟩ := control
    exact ⟨le, c, curr, running, w.leaving leaving⟩
  case exitCount =>
    obtain ⟨c, curr, running, leaving⟩ := control
    exact ⟨c, curr, running, w.leaving leaving⟩
  case exitFlag =>
    obtain ⟨c, curr, running, leaving⟩ := control
    exact ⟨c, curr, running, w.leaving leaving⟩
  case exitSched =>
    obtain ⟨c, curr, present, gone⟩ := control
    obtain ⟨C, here⟩ := ne_none_iff_exists'.mp present
    obtain ⟨C', now, _⟩ := w.present here
    exact ⟨c, curr, by simp [now], gone⟩
  case scan i =>
    obtain ⟨none, t, p, ready, range⟩ := control
    exact ⟨none, t, p, w.ready t p ready, range⟩
  all_goals exact control

theorem Inv.woke (inv : Inv s) (w : Woke s s') (queues : Queued s')
    (placed : ∀ t T, s'.task t = some T → Placed (holds s' t) T)
    (pcount : s'.taskPcount = tally taskMax asleep s'.task) : Inv s' where
  queues := queues
  bound := by
    intro t ge
    have state := w.states t
    rw [inv.bound t ge] at state
    exact map_eq_none_iff.mp state
  placed := placed
  count := by
    rw [w.count, w.pc, inv.count, tally_congr fun i _ => w.live i]
  pcount := pcount
  woken := by
    intro t mem
    rw [w.live]
    exact (w.woken t mem).elim (inv.woken t) id
  polling := by
    intro t on
    rw [w.polling] at on
    rw [w.live]
    exact inv.polling t on
  root := by
    rw [w.live]
    exact inv.root
  parents := by
    intro t T here old
    obtain ⟨T', was, parent⟩ := w.parent here
    rw [w.pc] at old
    obtain ⟨p, eq, running⟩ := inv.parents t T' was old
    refine ⟨p, parent ▸ eq, ?_⟩
    rw [w.live]
    exact running
  control := w.control inv.control

variable {T' : Task}

theorem woke_update (here : s.task t = some T) (task : s'.task = update s.task t (some T'))
    (pc : s'.pc = s.pc) (curr : s'.curr = s.curr) (count : s'.taskCount = s.taskCount)
    (woken : ∀ t ∈ s'.woken, t ∈ s.woken ∨ live (s.task t)) (polling : s'.polling = s.polling)
    (exited : T'.exited = T.exited) (parent : T'.parent = T.parent)
    (ready : ∀ p, T.queue = some (.ready p) → T'.queue = some (.ready p)) : Woke s s' := by
  refine ⟨pc, curr, count, woken, polling, ?_, ?_⟩
  · intro u
    rw [task]
    by_cases eq : u = t
    · subst eq
      simp [here, exited, parent]
    · rw [update_of_ne eq]
  · intro u p
    rw [task, owner_update]
    by_cases eq : u = t
    · subst eq
      rw [owner_of here, update_self]
      exact ready p
    · rw [update_of_ne eq]
      exact id

theorem placed_update {T' : Option Task} (inv : Inv s) (task : s'.task = update s.task t T')
    (others : ∀ u, u ≠ t → (holds s' u ↔ holds s u)) (here : ∀ T, T' = some T → Placed (holds s' t) T) :
    ∀ u U, s'.task u = some U → Placed (holds s' u) U := by
  intro u U mem
  rw [task] at mem
  by_cases eq : u = t
  · subst eq
    rw [update_self] at mem
    exact here U mem
  · rw [update_of_ne eq] at mem
    rw [propext (others u eq)]
    exact inv.placed u U mem

theorem Woke.holds (w : Woke s s') (u : Nat) : holds s' u ↔ Sched.holds s u := by
  rw [Sched.holds, w.pc, w.curr]
  rfl

theorem Woke.refl (s : Sys) : Woke s s :=
  ⟨rfl, rfl, rfl, fun _ mem => .inl mem, rfl, fun _ => rfl, fun _ _ => id⟩

theorem Woke.trans {s'' : Sys} (w : Woke s s') (w' : Woke s' s'') : Woke s s'' where
  pc := w'.pc.trans w.pc
  curr := w'.curr.trans w.curr
  count := w'.count.trans w.count
  woken := by
    intro t mem
    rcases w'.woken t mem with mem | running
    · exact w.woken t mem
    · rw [w.live] at running
      exact .inr running
  polling := w'.polling.trans w.polling
  states := fun t => (w'.states t).trans (w.states t)
  ready := fun t p ready => w'.ready t p (w.ready t p ready)

/-- The outcome of what an interrupt handler may do. -/
def Quiet {α : Type} (s : Sys) (r : Res Panic α) (s' : Sys) : Prop :=
  (∃ a, r = .ok a) ∧ Inv s' ∧ Woke s s' ∧ s'.woken = s.woken

variable {α : Type}

theorem Quiet.seq {β : Type} {m : TaskM α} {f : α → TaskM β} (first : wp m (Quiet s) s)
    (second : ∀ a s', Inv s' → Woke s s' → wp (f a) (Quiet s') s') : wp (m >>= f) (Quiet s) s := by
  rw [wp_bind]
  refine wp_mono first ?_
  rintro r s' ⟨⟨a, rfl⟩, inv, w, same⟩
  rw [after_ok]
  refine wp_mono (second a s' inv w) ?_
  rintro r s'' ⟨ok, inv', w', same'⟩
  exact ⟨ok, inv', w.trans w', same'.trans same⟩

theorem Inv.edit (inv : Inv s) (here : s.task t = some T) (exited : E.exited = T.exited)
    (paused : E.paused = T.paused) (queue : E.queue = T.queue) (parent : E.parent = T.parent)
    (priority : E.priority ≤ taskPrioLow) : Inv (setTask t (some E) s) ∧ Woke s (setTask t (some E) s) := by
  have w : Woke s (setTask t (some E) s) := by
    refine woke_update here rfl rfl rfl rfl (fun _ mem => .inl mem) rfl exited parent ?_
    intro p
    rw [queue]
    exact id
  refine ⟨inv.woke w ?_ ?_ ?_, w⟩
  · have same : owner (setTask t (some E) s).task = owner s.task := owner_update_same here queue
    rw [Queued, same]
    exact inv.queues
  · refine placed_update inv rfl (fun u _ => w.holds u) ?_
    rintro _ ⟨⟩
    have old := inv.placed t T here
    rw [← propext (w.holds t)] at old
    refine ⟨priority, ?_, ?_, ?_⟩
    · rw [paused, exited, queue]
      exact old.paused
    · rw [paused, exited, queue]
      exact old.out
    · rw [paused, exited, queue]
      exact old.ready
  · have change := tally_update (P := asleep) (g := s.task) (inv.lt here) (some E)
    have same : asleep (some E) = asleep (s.task t) := by
      rw [here]
      simp [asleep, paused]
    rw [same] at change
    show s.taskPcount = tally taskMax asleep (update s.task t (some E))
    rw [inv.pcount]
    omega

theorem Woke.resched (w : Woke s s') (b : Bool) : Woke s { s' with resched := b } :=
  ⟨w.pc, w.curr, w.count, w.woken, w.polling, w.states, w.ready⟩

theorem Inv.resched (inv : Inv s) (b : Bool) : Inv { s with resched := b } :=
  inv.woke ((Woke.refl s).resched b) inv.queues inv.placed inv.pcount

/- task_resume -/

variable {h : Queue → Head Nat}

theorem Inv.resumed (inv : Inv s) (here : s.task t = some T) (sleeping : T.paused ≠ none)
    (queues : Threaded h ln (update (owner s.task) t (some (.ready T.priority)))) :
    Inv { moved t { T with timeSlice := timeSlice, paused := none, queue := some (.ready T.priority) } h ln s with
      taskPcount := s.taskPcount - 1 } ∧
    Woke s { moved t { T with timeSlice := timeSlice, paused := none, queue := some (.ready T.priority) } h ln s with
      taskPcount := s.taskPcount - 1 } := by
  have old := inv.placed t T here
  obtain ⟨running, free, notReady⟩ := old.paused sleeping
  generalize next : ({ moved t _ h ln s with taskPcount := _ } : Sys) = s'
  have task : s'.task = update s.task t
      (some { T with timeSlice := timeSlice, paused := none, queue := some (.ready T.priority) }) := by
    rw [← next]
    rfl
  have w : Woke s s' := by
    rw [← next]
    refine woke_update here rfl rfl rfl rfl (fun _ mem => .inl mem) rfl rfl rfl ?_
    intro p ready
    exact absurd ready (notReady p)
  refine ⟨inv.woke w ?_ ?_ ?_, w⟩
  · rw [Queued, task, owner_update, ← next]
    exact queues
  · refine placed_update inv task (fun u _ => w.holds u) ?_
    rintro _ ⟨⟩
    rw [propext (w.holds t)]
    refine ⟨old.priority, fun none => absurd rfl none, ?_, fun _ _ _ => ⟨T.priority, old.priority, rfl⟩⟩
    rintro _ (gone | holding)
    · simp [running] at gone
    · exact absurd holding free
  · have change := tally_update (P := asleep) (g := s.task) (inv.lt here)
      (some { T with timeSlice := timeSlice, paused := none, queue := some (.ready T.priority) })
    have was : asleep (s.task t) = true := by
      rw [here]
      exact isSome_iff_ne_none.mpr sleeping
    rw [was, if_pos rfl, if_neg (by simp [asleep])] at change
    rw [task, ← next]
    show s.taskPcount - 1 = _
    rw [inv.pcount]
    omega

theorem wp_leaveQueue (k : Queued s) (here : s.task t = some T)
    (ok : ∀ h ln, Threaded h ln (update (owner s.task) t none) →
      Q (.ok ()) (moved t { T with queue := none } h ln s)) : wp (leaveQueue t T) Q s := by
  rw [leaveQueue]
  split
  · rename_i queued
    obtain ⟨q, queue⟩ := ne_none_iff_exists'.mp queued
    exact wp_taskRemove k here queue ok
  · rename_i out
    have out : T.queue = none := by simpa using out
    have same : moved t { T with queue := none } s.heads s.links s = s := by
      rw [moved, ← out, ← here, update_eq_self]
    have queues : Threaded s.heads s.links (update (owner s.task) t none) := by
      rw [← out, ← owner_of here, update_eq_self]
      exact k
    rw [wp_pure, ← same]
    exact ok _ _ queues

theorem wp_preempt (present : ∀ c, curr = some c → ∃ C, s.task c = some C) :
    wp (preempt T curr) (fun r s' => r = .ok () ∧ (s' = s ∨ s' = { s with resched := true })) s := by
  cases curr with
  | none => exact ⟨rfl, .inl rfl⟩
  | some c =>
    obtain ⟨C, here⟩ := present c rfl
    simp only [preempt, wp_bind]
    apply wp_fetch here
    rw [after_ok]
    split
    · exact ⟨rfl, .inr rfl⟩
    · exact ⟨rfl, .inl rfl⟩

section
variable (inv : Inv s)
include inv

theorem Inv.current_present (curr : s.curr = some c) : ∃ C, s.task c = some C := by
  have control := inv.control
  unfold Control at control
  rw [curr] at control
  have of_live : ∀ {d}, some c = some d → live (s.task d) = true → ∃ C, s.task c = some C := by
    rintro d ⟨⟩ running
    obtain ⟨C, here, _⟩ := live_some running
    exact ⟨C, here⟩
  cases pc : s.pc <;> simp only [pc] at control
  case exitChildren n =>
    obtain ⟨_, d, eq, running, _⟩ := control
    exact of_live eq running
  case exitSched =>
    obtain ⟨d, eq, present, _⟩ := control
    cases eq
    exact ne_none_iff_exists'.mp present
  case idle => cases control
  case scan => cases control.1
  case picked => cases control.1
  case chosen => cases control.1
  case run | returned | creatQueued =>
    obtain ⟨d, eq, running⟩ := control
    exact of_live eq running
  all_goals
    obtain ⟨d, eq, running, _⟩ := control
    exact of_live eq running

theorem wp_taskResume (running : live (s.task t)) :
    wp (taskResume t) (Quiet s) s := by
  obtain ⟨T, here, awake⟩ := live_some running
  have old := inv.placed t T here
  rw [taskResume, wp_bind]
  apply wp_fetch here
  rw [after_ok, if_neg (by simp [awake])]
  split
  · exact ⟨⟨(), rfl⟩, inv, Woke.refl s, rfl⟩
  · rename_i sleeping
    obtain ⟨_, free, _⟩ := old.paused sleeping
    have positive : 0 < tally taskMax asleep s.task := by
      refine tally_pos (inv.lt here) ?_
      rw [here]
      exact isSome_iff_ne_none.mpr sleeping
    have pcount : ¬ s.taskPcount - 1 < 0 := by
      rw [inv.pcount]
      omega
    have apart : s.curr ≠ some t := fun eq => free (.inl eq)
    rw [wp_bind, wp_store, after_ok, wp_bind, wp_modify, after_ok, wp_bind, wp_get, after_ok]
    -- the flags are changed, and the queues not yet
    generalize mid : ({ setTask t _ s with taskPcount := _ } : Sys) = s₁
    have task : s₁.task = update s.task t (some { T with timeSlice := timeSlice, paused := none }) := by
      rw [← mid]
      rfl
    have counted : s₁.taskPcount = s.taskPcount - 1 := by
      rw [← mid]
      rfl
    have curr : s₁.curr = s.curr := by
      rw [← mid]
      rfl
    have same : owner s₁.task = owner s.task := by
      rw [task]
      exact owner_update_same here rfl
    have queued : Queued s₁ := by
      rw [Queued, same, ← mid]
      exact inv.queues
    have here₁ : s₁.task t = some { T with timeSlice := timeSlice, paused := none } := by
      rw [task, update_self]
    rw [counted, curr, if_neg pcount, wp_bind]
    refine wp_leaveQueue (T := { T with timeSlice := timeSlice, paused := none }) queued here₁ ?_
    intro h ln left
    rw [after_ok, wp_bind, makeReady, if_pos apart]
    refine wp_taskInsert ?_ (update_self ..) rfl ?_
    · rw [Queued, owner_moved]
      exact left
    · intro h' ln' entered
      rw [owner_moved, update_idem, same] at entered
      obtain ⟨inv', w⟩ := inv.resumed here sleeping entered
      have final : moved t { T with timeSlice := timeSlice, paused := none, queue := some (.ready T.priority) } h' ln'
          (moved t { T with timeSlice := timeSlice, paused := none, queue := none } h ln s₁) =
          { moved t { T with timeSlice := timeSlice, paused := none, queue := some (.ready T.priority) } h' ln' s with
            taskPcount := s.taskPcount - 1 } := by
        rw [← mid]
        simp only [moved, setTask, update_idem]
      rw [after_ok]
      refine wp_mono (wp_preempt ?_) ?_
      · intro c eq
        rw [final]
        exact inv'.current_present (by rw [w.curr, eq])
      · rintro r s' ⟨rfl, rfl | rfl⟩
        · rw [final]
          exact ⟨⟨(), rfl⟩, inv', w, rfl⟩
        · rw [final]
          exact ⟨⟨(), rfl⟩, inv'.resched true, w.resched true, rfl⟩

/- Signals, wakers and the clock -/

theorem quiet_pure (a : α) : wp (pure a : TaskM α) (Quiet s) s :=
  ⟨⟨a, rfl⟩, inv, Woke.refl s, rfl⟩

section
variable (here : s.task t = some T)
include here

theorem quiet_edit {f : Task → Task} (exited : (f T).exited = T.exited)
    (paused : (f T).paused = T.paused) (queue : (f T).queue = T.queue) (parent : (f T).parent = T.parent)
    (priority : (f T).priority ≤ taskPrioLow) : wp (edit t f) (Quiet s) s := by
  obtain ⟨inv', w⟩ := inv.edit here exited paused queue parent priority
  exact wp_edit here ⟨⟨(), rfl⟩, inv', w, rfl⟩

theorem quiet_resumeIntr : wp (resumeIntr t) (Quiet s) s := by
  rw [resumeIntr, wp_bind]
  apply wp_fetch here
  rw [after_ok]
  split
  · rename_i sleeping
    obtain ⟨running, _⟩ := (inv.placed t T here).paused (by simp [sleeping])
    exact wp_taskResume inv (live_of here running)
  · exact quiet_pure inv ()

theorem quiet_signalCont (sig : Int) :
    wp (signalCont t sig) (Quiet s) s := by
  rw [signalCont]
  split
  · refine Quiet.seq (quiet_edit inv here rfl rfl rfl rfl (inv.placed t T here).priority) ?_
    intro _ s' inv' w
    obtain ⟨T', here', _⟩ := w.present here
    exact quiet_resumeIntr inv' here'
  · exact quiet_pure inv ()

theorem quiet_signalSendK (sig : Int) :
    wp (signalSendK t sig) (Quiet s) s := by
  rw [signalSendK]
  split
  · exact quiet_pure inv _
  split
  · exact quiet_pure inv _
  rw [wp_bind]
  apply wp_fetch here
  rw [after_ok]
  split
  · exact quiet_pure inv _
  refine Quiet.seq (quiet_signalCont inv here sig) ?_
  intro _ s₁ inv₁ w₁
  obtain ⟨T₁, here₁, _⟩ := w₁.present here
  refine Quiet.seq (quiet_edit inv₁ here₁ rfl rfl rfl rfl (inv₁.placed t T₁ here₁).priority) ?_
  intro _ s₂ inv₂ w₂
  obtain ⟨T₂, here₂, _⟩ := w₂.present here₁
  refine Quiet.seq (quiet_edit inv₂ here₂ rfl rfl rfl rfl (inv₂.placed t T₂ here₂).priority) ?_
  intro _ s₃ inv₃ w₃
  obtain ⟨T₃, here₃, _⟩ := w₃.present here₂
  refine Quiet.seq (quiet_resumeIntr inv₃ here₃) ?_
  intro _ s₄ inv₄ _
  exact quiet_pure inv₄ _

theorem Inv.dequeued
    (queue : T.queue = some (.wait w)) (queues : Threaded h ln (update (owner s.task) t none)) :
    Inv { moved t { T with queue := none } h ln s with woken := t :: s.woken } ∧
      Woke s { moved t { T with queue := none } h ln s with woken := t :: s.woken } := by
  have old := inv.placed t T here
  have sleeping : T.paused ≠ none := by
    intro awake
    by_cases gone : T.exited = true
    · rw [old.out awake (.inl gone)] at queue
      cases queue
    · by_cases holding : holds s t
      · rw [old.out awake (.inr holding)] at queue
        cases queue
      · obtain ⟨p, _, ready⟩ := old.ready awake (by simpa using gone) holding
        rw [ready] at queue
        cases queue
  obtain ⟨running, free, notReady⟩ := old.paused sleeping
  generalize next : ({ moved t _ h ln s with woken := _ } : Sys) = s'
  have task : s'.task = update s.task t (some { T with queue := none }) := by
    rw [← next]
    rfl
  have woke : Woke s s' := by
    rw [← next]
    refine woke_update here rfl rfl rfl rfl ?_ rfl rfl rfl ?_
    · intro u mem
      rcases mem_cons.mp mem with rfl | mem
      · exact .inr (live_of here running)
      · exact .inl mem
    · intro p ready
      exact absurd ready (notReady p)
  refine ⟨inv.woke woke ?_ ?_ ?_, woke⟩
  · rw [Queued, task, owner_update, ← next]
    exact queues
  · refine placed_update inv task (fun u _ => woke.holds u) ?_
    rintro _ ⟨⟩
    rw [propext (woke.holds t)]
    refine ⟨old.priority, fun _ => ⟨running, free, nofun⟩, ?_, ?_⟩
    · intro awake
      exact absurd awake sleeping
    · intro awake
      exact absurd awake sleeping
  · have change := tally_update (P := asleep) (g := s.task) (inv.lt here) (some { T with queue := none })
    have same : asleep (some { T with queue := none }) = asleep (s.task t) := by
      rw [here]
      rfl
    rw [same] at change
    rw [task, ← next]
    show s.taskPcount = _
    rw [inv.pcount]
    omega

end

theorem quiet_clockIntr : wp clockIntr (Quiet s) s := by
  simp only [clockIntr, wp_bind, wp_get, after_ok]
  cases curr : s.curr with
  | none => exact quiet_pure inv ()
  | some c =>
    obtain ⟨C, here⟩ := inv.current_present curr
    obtain ⟨inv', w⟩ := Inv.edit (E := { C with timeSlice := C.timeSlice - 1 }) inv here rfl rfl rfl rfl
      (inv.placed c C here).priority
    simp only [wp_bind]
    apply wp_fetch here
    rw [after_ok, wp_bind, wp_store, after_ok]
    split
    · exact ⟨⟨(), rfl⟩, inv'.resched true, w.resched true, rfl⟩
    · exact ⟨⟨(), rfl⟩, inv', w, rfl⟩

/- Steps of the flow of control -/

def one (b : Bool) : Nat := if b then 1 else 0

theorem Inv.turn {E : Option Task} (lt : t < taskMax) (task : s'.task = update s.task t E)
    (queues : Queued s') (others : ∀ u, u ≠ t → (holds s' u ↔ holds s u))
    (placed : ∀ T, E = some T → Placed (holds s' t) T)
    (count : s'.taskCount + uncounted s'.pc + one (live (s.task t)) = s.taskCount + uncounted s.pc + one (live E))
    (pcount : s'.taskPcount + one (asleep (s.task t)) = s.taskPcount + one (asleep E))
    (woken : s'.woken = []) (polling : s'.polling = s.polling)
    (stays : live (s.task t) = true → live E = true ∨ Leaving s t taskMax)
    (parents : ∀ T, E = some T → newborn s'.pc ≠ some t → ∃ p, T.parent = some p ∧ live (s'.task p))
    (births : ∀ u, u ≠ t → newborn s.pc = some u → newborn s'.pc = some u) (control : Control s') : Inv s' := by
  have other : ∀ u, u ≠ t → s'.task u = s.task u := by
    intro u ne
    rw [task, update_of_ne ne]
  have self : s'.task t = E := by rw [task, update_self]
  have alive : ∀ u, live (s.task u) = true → (u = t → ¬ Leaving s t taskMax) → live (s'.task u) = true := by
    intro u running not_left
    by_cases eq : u = t
    · subst eq
      rw [self]
      exact (stays running).resolve_right (not_left rfl)
    · rw [other u eq]
      exact running
  refine ⟨queues, ?_, placed_update inv task others placed, ?_, ?_, ?_, ?_, ?_, ?_, control⟩
  · intro u ge
    rw [other u (by omega)]
    exact inv.bound u ge
  · have change := tally_update (P := live) (g := s.task) lt E
    have before := inv.count
    rw [task]
    unfold one at count
    omega
  · have change := tally_update (P := asleep) (g := s.task) lt E
    have before := inv.pcount
    rw [task]
    unfold one at pcount
    omega
  · intro u mem
    rw [woken] at mem
    cases mem
  · intro u on
    rw [polling] at on
    refine alive u (inv.polling u on) ?_
    rintro rfl leaving
    rw [leaving.notPolling] at on
    cases on
  · refine alive init inv.root ?_
    rintro eq leaving
    exact leaving.notInit eq.symm
  · intro u U here old
    by_cases eq : u = t
    · subst eq
      rw [self] at here
      exact parents U here old
    · rw [other u eq] at here
      obtain ⟨p, parent, running⟩ := inv.parents u U here fun new => old (births u eq new)
      refine ⟨p, parent, alive p running ?_⟩
      rintro rfl leaving
      exact leaving.childless u U (inv.lt here) here parent

theorem Inv.go (task : s'.task = s.task) (queues : Queued s') (same : ∀ u, holds s' u ↔ holds s u)
    (count : s'.taskCount + uncounted s'.pc = s.taskCount + uncounted s.pc) (pcount : s'.taskPcount = s.taskPcount)
    (woken : s'.woken = []) (polling : s'.polling = s.polling)
    (births : ∀ u, newborn s.pc = some u → newborn s'.pc = some u) (control : Control s') : Inv s' := by
  have unchanged : s'.task = update s.task init (s.task init) := by rw [update_eq_self, task]
  refine inv.turn (t := init) (by decide) unchanged queues (fun u _ => same u) ?_ (by omega) (by omega) woken polling
    (fun running => .inl running) ?_ (fun u _ => births u) control
  · intro T here
    rw [propext (same init)]
    exact inv.placed init T here
  · intro T here old
    rw [task]
    exact inv.parents init T here fun new => old (births init new)

theorem Inv.pass {pc pc' : Pc} (here : s.pc = pc) (there : s'.pc = pc') (task : s'.task = s.task)
    (curr : s'.curr = s.curr) (queues : Queued s') (hold : held pc' = held pc) (born : newborn pc' = newborn pc)
    (count : s'.taskCount + uncounted pc' = s.taskCount + uncounted pc) (pcount : s'.taskPcount = s.taskPcount)
    (woken : s'.woken = []) (polling : s'.polling = s.polling) (control : Control s') : Inv s' := by
  subst here there
  refine inv.go task queues ?_ count pcount woken polling ?_ control
  · intro u
    rw [holds, holds, curr, hold]
  · intro u new
    rw [born]
    exact new

end

theorem queued_moved {q : Option Queue}
    (queues : Threaded h ln (update (owner s.task) t q)) (queue : T'.queue = q) :
    Queued (moved t T' h ln s) := by
  rw [Queued, owner_moved, queue]
  exact queues

variable {p : Nat}

theorem placed_ready {holding : Prop} (free : ¬ holding) (priority : T.priority ≤ taskPrioLow)
    (awake : T.paused = none) (running : T.exited = false) (le : p ≤ taskPrioLow) (queue : T.queue = some (.ready p)) :
    Placed holding T := by
  refine ⟨priority, fun asleep => absurd awake asleep, ?_, fun _ _ _ => ⟨p, le, queue⟩⟩
  rintro _ (gone | holding)
  · rw [running] at gone
    cases gone
  · exact absurd holding free

theorem placed_held {holding : Prop} (held : holding) (priority : T.priority ≤ taskPrioLow) (awake : T.paused = none)
    (queue : T.queue = none) : Placed holding T :=
  ⟨priority, fun asleep => absurd awake asleep, fun _ _ => queue, fun _ _ free => absurd held free⟩

theorem queued_same (inv : Inv s) (here : s.task t = some T) (queue : E.queue = T.queue) :
    Threaded s.heads s.links (owner (update s.task t (some E))) := by
  rw [owner_update_same here queue]
  exact inv.queues

theorem queued_putslot (inv : Inv s) (here : s.task t = some T) (out : T.queue = none) :
    Threaded s.heads s.links (owner (update s.task t none)) := by
  have same : owner (update s.task t none) = owner s.task := by
    funext u
    by_cases eq : u = t
    · subst eq
      rw [owner_of here, out]
      simp [owner]
    · simp [owner, update_of_ne eq]
  rw [same]
  exact inv.queues

theorem Inv.of_holds (inv : Inv s) (here : s.task t = some T) (holding : holds s t) : T.paused = none ∧ T.queue = none := by
  have old := inv.placed t T here
  have awake : T.paused = none := by
    by_contra asleep
    exact (old.paused asleep).2.1 holding
  exact ⟨awake, old.out awake (.inr holding)⟩

theorem live_update (task : s'.task = update s.task t (some T')) (running : T'.exited = false)
    (up : live (s.task u) = true) : live (s'.task u) = true := by
  rw [task]
  by_cases eq : u = t
  · subst eq
    simp [live, running]
  · rw [update_of_ne eq]
    exact up

theorem Inv.parents_update (inv : Inv s) (here : s.task t = some T) (old : newborn s.pc ≠ some t)
    (task : s'.task = update s.task t (some T')) (running : T'.exited = false) (same : T'.parent = T.parent) :
    ∀ U, some T' = some U → newborn s'.pc ≠ some t → ∃ p, U.parent = some p ∧ live (s'.task p) := by
  rintro _ ⟨⟩ _
  obtain ⟨p, parent, up⟩ := inv.parents t T here old
  exact ⟨p, same.trans parent, live_update task running up⟩

def Fine (r : Res Panic Unit) (s' : Sys) : Prop := r = .ok () ∧ Inv s'

/- sched and task_suspend -/

theorem fine_schedEnter_off (curr : s.curr = some c) (here : s.task c = some C)
    (off : C.exited = true ∨ C.paused ≠ none) (inv : Inv { s with curr := none, pc := .idle, resched := false }) :
    wp schedEnter Fine s := by
  have stop : ¬ (C.paused = none ∧ C.exited = false) := by
    rintro ⟨awake, running⟩
    rcases off with gone | asleep
    · rw [running] at gone
      cases gone
    · exact asleep awake
  rw [schedEnter, wp_bind, wp_modify, after_ok, wp_bind]
  refine wp_current (c := c) curr ?_
  rw [after_ok, wp_bind]
  refine wp_fetch (T := C) here ?_
  rw [after_ok, wp_bind, wp_get, after_ok, if_neg fun early => stop early.2, wp_bind, wp_modify, after_ok, wp_bind, putAway,
    if_neg fun ready => stop ⟨ready.2, ready.1⟩, wp_pure, after_ok, wp_goto]
  exact ⟨rfl, inv⟩

theorem fine_schedEnter_on (inv : Inv s) (pc : s.pc = .run) (calm : s.woken = []) (curr : s.curr = some c)
    (running : live (s.task c)) : wp schedEnter Fine s := by
  obtain ⟨C, here, awake⟩ := live_some running
  have holding : holds s c := .inl curr
  obtain ⟨unpaused, out⟩ := inv.of_holds here holding
  have old := inv.placed c C here
  rw [schedEnter, wp_bind, wp_modify, after_ok, wp_bind]
  refine wp_current (c := c) curr ?_
  rw [after_ok, wp_bind]
  refine wp_fetch (T := C) here ?_
  rw [after_ok, wp_bind, wp_get, after_ok]
  split
  · obtain ⟨inv', w⟩ := Inv.edit (E := { C with timeSlice := timeSlice }) inv here rfl rfl rfl rfl old.priority
    rw [wp_bind, wp_store, after_ok, wp_goto]
    refine ⟨rfl, (inv'.resched false).go rfl inv'.queues ?_ ?_ rfl calm rfl ?_ ?_⟩
    · intro u
      simp [holds, setTask, pc, held]
    · simp [setTask, pc, uncounted]
    · simp [setTask, pc, newborn]
    · exact ⟨c, curr, by rw [← w.live] at running; exact running⟩
  · rw [wp_bind, wp_modify, after_ok, wp_bind, putAway, if_pos ⟨awake, unpaused⟩]
    refine wp_taskInsert (T := C) inv.queues here out ?_
    intro h ln queues
    rw [after_ok, wp_goto]
    refine ⟨rfl, inv.turn (t := c) (inv.lt here) rfl (queued_moved queues rfl) ?_ ?_ ?_ ?_ calm rfl ?_ ?_ ?_ rfl⟩
    · intro u ne
      have other : some c ≠ some u := fun eq => ne (some.inj eq).symm
      simp [holds, moved, held, pc, curr, other]
    · rintro _ ⟨⟩
      exact placed_ready (by simp [holds, moved, held]) old.priority unpaused awake old.priority rfl
    · simp [moved, uncounted, pc, here, live]
    · simp [moved, here, asleep]
    · intro _
      exact .inl (by simp [live, awake])
    · exact inv.parents_update here (by simp [pc, newborn]) rfl awake rfl
    · simp [pc, newborn]

theorem Inv.suspended {C : Task} {tq : Option Nat} {t : Wait}
    (inv : Inv s) (pc : s.pc = .run) (calm : s.woken = []) (curr : s.curr = some c) (here : s.task c = some C)
    (running : C.exited = false) (queues : Threaded h ln (update (owner s.task) c (tq.map .wait))) :
    Inv { moved c { C with paused := some t, queue := tq.map .wait } h ln s with
      taskPcount := s.taskPcount + 1, curr := none, pc := .idle, resched := false } := by
  have holding : holds s c := .inl curr
  obtain ⟨unpaused, _⟩ := inv.of_holds here holding
  have old := inv.placed c C here
  refine inv.turn (inv.lt here) rfl (queued_moved queues rfl) ?_ ?_ ?_ ?_ calm rfl ?_ ?_ ?_ rfl
  · intro u ne
    have other : some c ≠ some u := fun eq => ne (some.inj eq).symm
    simp [holds, held, pc, curr, other]
  · rintro _ ⟨⟩
    refine ⟨old.priority, fun _ => ⟨running, by simp [holds, held], ?_⟩, nofun, nofun⟩
    intro p
    cases tq <;> simp
  · simp [moved, uncounted, pc, here, live]
  · simp [here, asleep, unpaused, one]
  · intro _
    exact .inl (by simp [live, running])
  · exact inv.parents_update here (by simp [pc, newborn]) rfl running rfl
  · simp [pc, newborn]

theorem Inv.run (inv : Inv s) (pc : s.pc = .run) : ∃ c C, s.curr = some c ∧ s.task c = some C ∧ C.exited = false := by
  have control := inv.control
  rw [Control, pc] at control
  obtain ⟨c, curr, running⟩ := control
  obtain ⟨C, here, awake⟩ := live_some running
  exact ⟨c, C, curr, here, awake⟩

theorem wp_waitIn (k : Queued s) (here : s.task t = some T) (out : T.queue = none)
    (tq : Option Nat) (ok : ∀ h ln, Threaded h ln (update (owner s.task) t (tq.map .wait)) →
      Q (.ok ()) (moved t { T with queue := tq.map .wait } h ln s)) : wp (waitIn tq t) Q s := by
  cases tq with
  | none =>
    have queues : Threaded s.heads s.links (update (owner s.task) t none) := by
      rw [← out, ← owner_of here, update_eq_self]
      exact k
    have same : moved t { T with queue := none } s.heads s.links s = s := by
      rw [moved, ← out, ← here, update_eq_self]
    have done := ok s.heads s.links queues
    rw [map_none, same] at done
    exact done
  | some w => exact wp_taskInsert k here out ok

theorem fine_taskSuspend (inv : Inv s) (pc : s.pc = .run) (calm : s.woken = []) (tq : Option Nat) (type : Wait) :
    wp (taskSuspend tq type) Fine s := by
  obtain ⟨c, C, curr, here, running⟩ := inv.run pc
  have holding : holds s c := .inl curr
  obtain ⟨unpaused, out⟩ := inv.of_holds here holding
  have old := inv.placed c C here
  rw [taskSuspend, wp_bind]
  refine wp_current curr ?_
  rw [after_ok, wp_bind]
  refine wp_fetch here ?_
  rw [after_ok, if_neg (by simp [unpaused])]
  split
  · rw [wp_store]
    exact ⟨rfl, (Inv.edit (E := { C with unseenEvents := 0 }) inv here rfl rfl rfl rfl old.priority).1⟩
  · rw [wp_bind, wp_store, after_ok, wp_bind, wp_modify, after_ok, wp_bind]
    generalize mid : ({ setTask c _ s with taskPcount := _ } : Sys) = s₁
    have task : s₁.task = update s.task c (some { C with paused := some type }) := by
      rw [← mid]
      rfl
    have same : owner s₁.task = owner s.task := by
      rw [task]
      exact owner_update_same here rfl
    have queued : Queued s₁ := by
      rw [Queued, same, ← mid]
      exact inv.queues
    have here₁ : s₁.task c = some { C with paused := some type } := by rw [task, update_self]
    refine wp_waitIn queued here₁ out tq ?_
    intro h ln queues
    rw [same] at queues
    have asleep := inv.suspended (t := type) pc calm curr here running queues
    have curr₁ : s₁.curr = some c := by
      rw [← mid]
      exact curr
    rw [after_ok]
    refine fine_schedEnter_off (c := c) (C := { C with paused := some type, queue := tq.map .wait }) curr₁
      (update_self ..) (.inr (by simp)) ?_
    rw [← mid]
    simpa only [moved, setTask, update_idem] using asleep

/- do_fork and task_creat -/

theorem wp_taskGetslot {Q : Res Panic (Option Nat) → Sys → Prop} (mem : Bool) (full : Q (.ok none) s)
    (ok : ∀ i, i < taskMax → s.task i = none →
      Q (.ok (some i)) { setTask i (some zeroTask) s with links := setItem s.links i Item.null }) :
    wp (taskGetslot mem) Q s := by
  simp only [taskGetslot, wp_bind, wp_get, after_ok]
  cases found : (range taskMax).find? fun i => (s.task i).isNone with
  | none => exact full
  | some i =>
    have free : s.task i = none := by simpa using find?_some found
    have lt : i < taskMax := mem_range.mp (mem_of_find?_eq_some found)
    cases mem with
    | false => exact full
    | true => exact ok i lt free

variable {i : Nat}

theorem queued_new (k : Queued s) (free : s.task i = none) (out : T.queue = none)
    (same : ∀ u, u ≠ i → ln u = s.links u) : Threaded s.heads ln (owner (update s.task i (some T))) := by
  have absent : owner s.task i = none := by rw [owner, free]; rfl
  have owners : owner (update s.task i (some T)) = owner s.task := by
    rw [owner_update, out, ← absent, update_eq_self]
  rw [owners]
  refine Threaded.congr k ?_
  intro u queued
  apply same
  rintro rfl
  exact queued absent

section
variable (inv : Inv s)
include inv

theorem fine_doFork (pc : s.pc = .run) (calm : s.woken = []) (mem : Bool) : wp (doFork mem) Fine s := by
  obtain ⟨c, C, curr, here, running⟩ := inv.run pc
  rw [doFork, wp_bind]
  refine wp_taskGetslot mem ⟨rfl, inv⟩ ?_
  intro i lt free
  have ne : c ≠ i := by
    rintro rfl
    rw [free] at here
    cases here
  rw [after_ok, wp_goto]
  refine ⟨rfl, inv.turn (t := i) lt rfl ?_ ?_ ?_ ?_ ?_ calm rfl ?_ ?_ ?_ ?_⟩
  · exact queued_new inv.queues free rfl fun u ne => setItem_ne _ _ ne
  · intro u other
    simp [holds, setTask, held, pc, Ne.symm other]
  · rintro _ ⟨⟩
    exact placed_held (.inr rfl) (zero_le _) rfl rfl
  · simp [setTask, uncounted, pc, free, live, one, zeroTask]
  · simp [setTask, free, asleep, one, zeroTask]
  · intro _
    exact .inl rfl
  · rintro _ ⟨⟩ old
    exact absurd rfl old
  · simp [pc, newborn]
  · refine ⟨c, curr, ?_, ne, ?_⟩
    · simp only [setTask, update_of_ne ne]
      exact live_of here running
    · simp [setTask, live, zeroTask]

theorem Inv.ready {pc : Pc} (was : held s.pc = some i)
    (calm : s.woken = []) (curr : s.curr = some c) (ne : c ≠ i) (here : s.task i = some T) (awake : T.exited = false)
    (queues : Threaded h ln (update (owner s.task) i (some (.ready T.priority)))) (free : held pc = none)
    (count : uncounted pc = uncounted s.pc) (births : newborn pc = newborn s.pc)
    (control : Control { moved i { T with queue := some (.ready T.priority) } h ln s with pc := pc }) :
    Inv { moved i { T with queue := some (.ready T.priority) } h ln s with pc := pc } := by
  have old := inv.placed i T here
  have holding : holds s i := .inr was
  obtain ⟨unpaused, _⟩ := inv.of_holds here holding
  have apart : s.curr ≠ some i := by
    rw [curr]
    exact fun eq => ne (some.inj eq)
  refine inv.turn (t := i) (inv.lt here) rfl (queued_moved queues rfl) ?_ ?_ ?_ ?_ calm rfl ?_ ?_ ?_ control
  · intro u other
    simp [holds, moved, free, was, Ne.symm other]
  · rintro _ ⟨⟩
    exact placed_ready (by simp [holds, moved, free, apart]) old.priority unpaused awake old.priority rfl
  · simp [moved, count, here, live]
  · simp [moved, here, asleep]
  · intro _
    exact .inl (by simp [live, awake])
  · rintro _ ⟨⟩ not_new
    rw [births] at not_new
    obtain ⟨p, parent, up⟩ := inv.parents i T here not_new
    refine ⟨p, parent, live_update (t := i) rfl ?_ up⟩
    exact awake
  · intro u _ new
    rw [births]
    exact new

theorem fine_forkSlot (pc : s.pc = .forkSlot i) (calm : s.woken = []) (mem : Bool) :
    wp (goOn mem) Fine s := by
  have control := inv.control
  rw [Control, pc] at control
  simp only [goOn, wp_bind, wp_get, after_ok, pc, wp_modify, wp_goto]
  refine ⟨rfl, inv.pass pc rfl rfl rfl inv.queues rfl rfl (by simp [uncounted]) rfl calm rfl control⟩

theorem fine_forkCounted (pc : s.pc = .forkCounted i) (calm : s.woken = []) (mem : Bool) :
    wp (goOn mem) Fine s := by
  have control := inv.control
  rw [Control, pc] at control
  obtain ⟨c, curr, running, ne, made⟩ := control
  obtain ⟨T, here, awake⟩ := live_some made
  have was : held s.pc = some i := by rw [pc]; rfl
  obtain ⟨_, out⟩ := inv.of_holds here (.inr was)
  simp only [goOn, wp_bind, wp_get, after_ok, pc]
  refine wp_fetch here ?_
  rw [after_ok, wp_bind]
  refine wp_taskInsert inv.queues here out ?_
  intro h ln queues
  rw [after_ok, wp_goto]
  refine ⟨rfl, inv.ready was calm curr ne here awake queues rfl (by rw [pc]; rfl) (by rw [pc]; rfl) ?_⟩
  exact ⟨c, curr, live_update (t := i) rfl awake running, ne, live_update (t := i) rfl awake made⟩

theorem fine_forkQueued (pc : s.pc = .forkQueued i) (calm : s.woken = []) (mem : Bool) :
    wp (goOn mem) Fine s := by
  have control := inv.control
  rw [Control, pc] at control
  obtain ⟨c, curr, running, ne, made⟩ := control
  obtain ⟨T, here, awake⟩ := live_some made
  obtain ⟨C, here', _⟩ := live_some running
  have old := inv.placed i T here
  simp only [goOn, wp_bind, wp_get, after_ok, pc, forkFill]
  refine wp_current curr ?_
  rw [after_ok, wp_bind]
  refine wp_fetch here' ?_
  rw [after_ok]
  refine wp_edit here ?_
  rw [after_ok, wp_goto]
  refine ⟨rfl, inv.turn (t := i) (inv.lt here) rfl ?_ ?_ ?_ ?_ ?_ calm rfl ?_ ?_ ?_ ?_⟩
  · exact queued_same inv here rfl
  · intro u other
    simp [holds, setTask, held, pc]
  · rintro _ ⟨⟩
    have same : holds s i ↔ holds { setTask i (some { T with
        parent := some c, priority := C.priority, ignored := C.ignored, signalPending := C.signalPending }) s with
        pc := .run } i := by
      simp [holds, setTask, held, pc]
    rw [propext same] at old
    exact ⟨(inv.placed c C here').priority, old.paused, old.out, old.ready⟩
  · simp [setTask, uncounted, pc, here, live]
  · simp [setTask, here, asleep]
  · intro _
    exact .inl (by simp [live, awake])
  · rintro _ ⟨⟩ _
    exact ⟨c, rfl, live_update (t := i) rfl awake running⟩
  · intro u other new
    rw [pc] at new
    exact absurd (some.inj new).symm other
  · exact ⟨c, curr, live_update (t := i) rfl awake running⟩

theorem fine_taskCreat (pc : s.pc = .run) (calm : s.woken = []) (mem : Bool) :
    wp (taskCreat mem) Fine s := by
  obtain ⟨c, C, curr, here, running⟩ := inv.run pc
  obtain ⟨unpaused, out⟩ := inv.of_holds here (.inl curr)
  have old := inv.placed c C here
  rw [taskCreat, wp_bind]
  refine wp_taskGetslot mem ⟨rfl, inv⟩ ?_
  intro i lt free
  have ne : c ≠ i := by
    rintro rfl
    rw [free] at here
    cases here
  rw [after_ok]
  simp only [wp_bind]
  refine wp_current (c := c) curr ?_
  rw [after_ok, wp_bind]
  refine wp_fetch (T := C) ?_ ?_
  · simp only [setTask, update_of_ne ne]
    exact here
  rw [after_ok, wp_bind, wp_modify, after_ok, wp_bind, wp_store, after_ok, wp_goto]
  have twice : ∀ T, update (update s.task i (some zeroTask)) i T = update s.task i T :=
    fun T => update_idem ..
  refine ⟨rfl, inv.turn (t := i) (E := some { C with
    parent := some c, timeSlice := -1, unseenEvents := 0, signalPending := false }) lt (twice _) ?_ ?_ ?_ ?_ ?_ calm rfl
    ?_ ?_ ?_ ?_⟩
  · simp only [Queued, setTask, twice]
    exact queued_new inv.queues free out fun u ne => by rw [setItem_ne _ _ ne, setItem_ne _ _ ne]
  · intro u other
    simp [holds, setTask, held, pc, Ne.symm other]
  · rintro _ ⟨⟩
    exact placed_held (.inr rfl) old.priority unpaused out
  · simp [setTask, uncounted, pc, free, live, one, running]
  · simp [setTask, free, asleep, one, unpaused]
  · intro _
    exact .inl (by simp [live, running])
  · rintro _ ⟨⟩ _
    refine ⟨c, rfl, ?_⟩
    simp only [setTask, twice, update_of_ne ne]
    exact live_of here running
  · simp [pc, newborn]
  · have absent : ∀ u, live (s.task u) = true → u ≠ i := by
      rintro u up rfl
      rw [free] at up
      cases up
    refine ⟨c, curr, ?_, ne, ?_, ?_, ?_, ?_⟩
    · simp only [setTask, twice, update_of_ne ne]
      exact live_of here running
    · simp [setTask, live, running]
    · exact (absent init inv.root).symm
    · show s.polling i = false
      by_contra on
      exact absent i (inv.polling i (by simpa using on)) rfl
    · intro u U _ task
      simp only [setTask, twice] at task
      by_cases eq : u = i
      · subst eq
        rw [update_self] at task
        cases task
        exact fun eq => ne (some.inj eq)
      · rw [update_of_ne eq] at task
        obtain ⟨p, parent, up⟩ := inv.parents u U task (by simp [pc, newborn])
        rw [parent]
        exact fun eq => absent p up (some.inj eq)

theorem fine_creatSlot (pc : s.pc = .creatSlot i) (calm : s.woken = []) (mem : Bool) :
    wp (goOn mem) Fine s := by
  have control := inv.control
  rw [Control, pc] at control
  obtain ⟨c, curr, running, ne, made, leaving⟩ := control
  obtain ⟨T, here, awake⟩ := live_some made
  have was : held s.pc = some i := by rw [pc]; rfl
  obtain ⟨unpaused, out⟩ := inv.of_holds here (.inr was)
  simp only [goOn, wp_bind, wp_get, after_ok, pc]
  split
  · rw [wp_bind]
    refine wp_fetch here ?_
    rw [after_ok, wp_bind]
    refine wp_taskInsert inv.queues here out ?_
    intro h ln queues
    rw [after_ok, wp_goto]
    refine ⟨rfl, inv.ready was calm curr ne here awake queues rfl (by rw [pc]; rfl) (by rw [pc]; rfl) ?_⟩
    exact ⟨c, curr, live_update (t := i) rfl awake running⟩
  · rw [taskPutslot, wp_bind, wp_modify, after_ok, wp_goto]
    refine ⟨rfl, inv.turn (t := i) (inv.lt here) rfl ?_ ?_ nofun ?_ ?_ calm rfl (fun _ => .inr leaving) nofun ?_ ?_⟩
    · exact queued_putslot inv here out
    · intro u other
      simp [holds, setTask, held, pc, Ne.symm other]
    · simp [setTask, uncounted, pc, here, live, awake, one]
    · simp [setTask, here, asleep, unpaused, one]
    · simp [pc, newborn]
    · refine ⟨c, curr, ?_⟩
      simp only [setTask, update_of_ne ne]
      exact running

theorem fine_creatQueued (pc : s.pc = .creatQueued i) (calm : s.woken = []) (mem : Bool) :
    wp (goOn mem) Fine s := by
  have control := inv.control
  rw [Control, pc] at control
  simp only [goOn, wp_bind, wp_get, after_ok, pc, wp_modify, wp_goto]
  refine ⟨rfl, inv.pass pc rfl rfl rfl inv.queues rfl rfl (by simp [uncounted]) rfl calm rfl control⟩

/- task_exit -/

theorem wp_taskExit (pc : s.pc = .run) (calm : s.woken = [])
    (idle : ∀ c, s.curr = some c → s.polling c = false) :
    wp taskExit (fun r s' => (s.curr = some init ∧ r = .err .taskExitInit) ∨ (s.curr ≠ some init ∧ Fine r s')) s := by
  obtain ⟨c, C, curr, here, running⟩ := inv.run pc
  rw [taskExit, wp_bind]
  refine wp_current curr ?_
  rw [after_ok, wp_bind]
  refine wp_fetch here ?_
  rw [after_ok, if_neg (by simp [running])]
  split
  · rename_i root
    exact .inl ⟨by rw [curr, root], rfl⟩
  · rename_i notInit
    rw [wp_goto]
    refine .inr ⟨by rw [curr]; exact fun eq => notInit (some.inj eq), rfl, inv.pass pc rfl rfl rfl inv.queues rfl
      rfl (by simp [uncounted]) rfl calm rfl ?_⟩
    refine ⟨zero_le _, c, curr, live_of here running, notInit, idle c curr, ?_⟩
    intro u U lt
    omega

theorem Inv.adopted (here : s.task t = some T) (calm : s.woken = [])
    (control : Control (setTask t (some { T with parent := some init }) s)) :
    Inv (setTask t (some { T with parent := some init }) s) := by
  have old := inv.placed t T here
  refine inv.turn (t := t) (inv.lt here) rfl (queued_same inv here rfl) (fun u _ => Iff.rfl) ?_ ?_ ?_ calm rfl ?_ ?_
    (fun _ _ new => new) control
  · rintro _ ⟨⟩
    exact ⟨old.priority, old.paused, old.out, old.ready⟩
  · simp [setTask, here, live]
  · simp [setTask, here, asleep]
  · intro up
    rw [here] at up
    exact .inl up
  · rintro _ ⟨⟩ _
    refine ⟨init, rfl, ?_⟩
    by_cases eq : init = t
    · have up := inv.root
      rw [eq, here] at up
      simp only [setTask, eq, update_self]
      exact up
    · simp only [setTask, update_of_ne eq]
      exact inv.root

theorem quiet_sigChld (up : live (s.task p)) : wp (signalSendK p sigChld) (Quiet s) s := by
  obtain ⟨P, here, _⟩ := live_some up
  exact quiet_signalSendK inv here sigChld

end

def Round (s : Sys) (c i : Nat) (r : Res Panic Unit) (s' : Sys) : Prop :=
  r = .ok () ∧ Inv s' ∧ s'.pc = s.pc ∧ s'.woken = [] ∧ s'.curr = some c ∧ live (s'.task c) = true ∧ Leaving s' c i

theorem Round.of_quiet (quiet : Quiet s₁ r s')
    (pc : s₁.pc = s.pc) (calm : s₁.woken = []) (curr : s₁.curr = some c) (running : live (s₁.task c) = true)
    (leaving : Leaving s₁ c i) : Round s c i (.ok ()) s' := by
  obtain ⟨_, inv, w, same⟩ := quiet
  refine ⟨rfl, inv, w.pc.trans pc, same.trans calm, w.curr.trans curr, ?_, w.leaving leaving⟩
  rw [w.live]
  exact running

theorem Leaving.congr (leaving : Leaving s c n) (task : s'.task = s.task) (polling : s'.polling = s.polling) :
    Leaving s' c n := by
  refine ⟨leaving.notInit, ?_, ?_⟩
  · rw [polling]
    exact leaving.notPolling
  · rw [task]
    exact leaving.childless

theorem Leaving.succ (leaving : Leaving s c i) (here : ∀ T, s.task i = some T → T.parent ≠ some c) :
    Leaving s c (i + 1) := by
  refine ⟨leaving.notInit, leaving.notPolling, ?_⟩
  intro u U lt task
  rcases Nat.lt_succ_iff_lt_or_eq.mp lt with lt | rfl
  · exact leaving.childless u U lt task
  · exact here U task

theorem Leaving.adopted (leaving : Leaving s c n) :
    Leaving (setTask t (some { T with parent := some init }) s) c n := by
  refine ⟨leaving.notInit, leaving.notPolling, ?_⟩
  intro u U lt task
  by_cases eq : u = t
  · subst eq
    rw [setTask_self] at task
    cases task
    exact fun eq => leaving.notInit (some.inj eq).symm
  · simp only [setTask, update_of_ne eq] at task
    exact leaving.childless u U lt task

theorem live_adopted (here : s.task t = some T) (up : live (s.task u) = true) :
    live ((setTask t (some { T with parent := some init }) s).task u) = true := by
  by_cases eq : u = t
  · subst eq
    rw [here] at up
    rw [setTask_self]
    exact up
  · simp only [setTask, update_of_ne eq]
    exact up

section
variable (inv : Inv s)
include inv

theorem wp_exitChild (pc : s.pc = .exitChildren i) (calm : s.woken = [])
    (curr : s.curr = some c) (running : live (s.task c) = true) (le : i ≤ taskMax) (leaving : Leaving s c i) :
    wp (exitChild i) (Round s c (i + 1)) s := by
  have stay : (∀ T, s.task i = some T → T.parent ≠ some c) → Round s c (i + 1) (.ok ()) s :=
    fun none => ⟨rfl, inv, rfl, calm, curr, running, leaving.succ none⟩
  rw [exitChild, wp_bind]
  refine wp_current curr ?_
  rw [after_ok, wp_bind, wp_get, after_ok]
  cases here : s.task i with
  | none => exact stay fun T task => by rw [here] at task; cases task
  | some T =>
    simp only
    split
    · have left : Leaving (setTask i (some { T with parent := some init }) s) c (i + 1) := by
        refine leaving.adopted.succ ?_
        intro U task
        rw [setTask_self] at task
        cases task
        exact fun eq => leaving.notInit (some.inj eq).symm
      have inv' : Inv (setTask i (some { T with parent := some init }) s) := by
        refine inv.adopted here calm ?_
        unfold Control
        have same : (setTask i (some { T with parent := some init }) s).pc = .exitChildren i := pc
        rw [same]
        exact ⟨le, c, curr, live_adopted here running, leaving.adopted⟩
      rw [wp_bind, wp_store, after_ok]
      split
      · rw [wp_bind]
        refine wp_mono (quiet_sigChld inv' inv'.root) ?_
        intro r s' quiet
        obtain ⟨e, rfl⟩ := quiet.1
        exact Round.of_quiet quiet rfl calm curr (live_adopted here running) left
      · exact ⟨rfl, inv', rfl, calm, curr, live_adopted here running, left⟩
    · rename_i other
      refine stay ?_
      intro U task
      rw [here] at task
      cases task
      exact other

theorem wp_exitParent (pc : s.pc = .exitChildren taskMax) (calm : s.woken = [])
    (curr : s.curr = some c) (running : live (s.task c) = true) (leaving : Leaving s c taskMax) :
    wp exitParent (Round s c taskMax) s := by
  obtain ⟨C, here, _⟩ := live_some running
  obtain ⟨p, parent, up⟩ := inv.parents c C here (by simp [pc, newborn])
  obtain ⟨P, here', _⟩ := live_some up
  rw [exitParent, wp_bind]
  refine wp_current curr ?_
  rw [after_ok, wp_bind]
  refine wp_fetch here ?_
  simp only [after_ok, parent]
  rw [wp_bind]
  refine wp_fetch here' ?_
  rw [after_ok]
  split
  · rw [wp_bind]
    refine wp_mono (quiet_sigChld inv up) ?_
    intro r s' quiet
    obtain ⟨e, rfl⟩ := quiet.1
    exact Round.of_quiet quiet rfl calm curr running leaving
  · have inv' : Inv (setTask c (some { C with parent := some init }) s) := by
      refine inv.adopted here calm ?_
      unfold Control
      have same : (setTask c (some { C with parent := some init }) s).pc = .exitChildren taskMax := pc
      rw [same]
      exact ⟨le_refl _, c, curr, live_adopted here running, leaving.adopted⟩
    rw [wp_bind, wp_store, after_ok, wp_bind]
    refine wp_mono (quiet_sigChld inv' inv'.root) ?_
    intro r s' quiet
    obtain ⟨e, rfl⟩ := quiet.1
    exact Round.of_quiet quiet rfl calm curr (live_adopted here running) leaving.adopted

theorem fine_exitChildren (pc : s.pc = .exitChildren i) (calm : s.woken = []) (mem : Bool) :
    wp (goOn mem) Fine s := by
  have control := inv.control
  rw [Control, pc] at control
  obtain ⟨le, c, curr, running, leaving⟩ := control
  simp only [goOn, wp_bind, wp_get, after_ok, pc]
  split
  · rename_i lt
    rw [wp_bind]
    refine wp_mono (wp_exitChild inv pc calm curr running le leaving) ?_
    rintro r s' ⟨rfl, inv', pc', calm', curr', running', leaving'⟩
    rw [pc] at pc'
    rw [after_ok, wp_goto]
    refine ⟨rfl, inv'.go rfl inv'.queues ?_ ?_ rfl calm' rfl ?_ ⟨lt, c, curr', running', leaving'.congr rfl rfl⟩⟩
    · intro u
      simp [holds, pc', held]
    · simp [pc', uncounted]
    · simp [pc', newborn]
  · have last : i = taskMax := by omega
    subst last
    rw [wp_bind]
    refine wp_mono (wp_exitParent inv pc calm curr running leaving) ?_
    rintro r s' ⟨rfl, inv', pc', calm', curr', running', leaving'⟩
    rw [pc] at pc'
    rw [after_ok, wp_goto]
    refine ⟨rfl, inv'.go rfl inv'.queues ?_ ?_ rfl calm' rfl ?_ ⟨c, curr', running', leaving'.congr rfl rfl⟩⟩
    · intro u
      simp [holds, pc', held]
    · simp [pc', uncounted]
    · simp [pc', newborn]

theorem fine_exitCount (pc : s.pc = .exitCount) (calm : s.woken = []) (mem : Bool) :
    wp (goOn mem) Fine s := by
  have control := inv.control
  rw [Control, pc] at control
  obtain ⟨c, curr, running, leaving⟩ := control
  obtain ⟨C, here, _⟩ := live_some running
  have positive : 0 < tally taskMax live s.task := tally_pos (inv.lt here) running
  have count : s.taskCount + 0 = tally taskMax live s.task := by
    have count := inv.count
    rw [pc] at count
    exact count
  simp only [goOn, wp_bind, wp_get, after_ok, pc, wp_modify]
  rw [if_neg (by omega), wp_goto]
  refine ⟨rfl, inv.pass pc rfl rfl rfl inv.queues rfl rfl (by simp [uncounted]) rfl calm rfl ⟨c, curr, running, leaving.congr rfl rfl⟩⟩

theorem fine_exitFlag (pc : s.pc = .exitFlag) (calm : s.woken = []) (mem : Bool) :
    wp (goOn mem) Fine s := by
  have control := inv.control
  rw [Control, pc] at control
  obtain ⟨c, curr, running, leaving⟩ := control
  obtain ⟨C, here, awake⟩ := live_some running
  obtain ⟨unpaused, out⟩ := inv.of_holds here (.inl curr)
  have old := inv.placed c C here
  simp only [goOn, wp_bind, wp_get, after_ok, pc]
  refine wp_current curr ?_
  rw [after_ok, wp_bind]
  refine wp_edit here ?_
  rw [after_ok, wp_goto]
  refine ⟨rfl, inv.turn (t := c) (inv.lt here) rfl (queued_same inv here rfl) ?_ ?_ ?_ ?_ calm rfl (fun _ => .inr leaving)
    ?_ ?_ ?_⟩
  · intro u _
    simp [holds, setTask, held, pc]
  · rintro _ ⟨⟩
    exact placed_held (.inl curr) old.priority unpaused out
  · simp [setTask, uncounted, pc, here, live, awake, one]
  · simp [setTask, here, asleep]
  · rintro _ ⟨⟩ _
    obtain ⟨p, parent, up⟩ := inv.parents c C here (by simp [pc, newborn])
    have ne : p ≠ c := by
      rintro rfl
      exact leaving.childless p C (inv.lt here) here parent
    refine ⟨p, parent, ?_⟩
    simp only [setTask, update_of_ne ne]
    exact up
  · simp [pc, newborn]
  · refine ⟨c, curr, ?_, ?_⟩
    · simp [setTask]
    · simp [setTask, live]

theorem fine_exitSched (pc : s.pc = .exitSched) (calm : s.woken = []) (mem : Bool) :
    wp (goOn mem) Fine s := by
  have control := inv.control
  rw [Control, pc] at control
  obtain ⟨c, curr, present, gone⟩ := control
  obtain ⟨C, here⟩ := ne_none_iff_exists'.mp present
  have exited : C.exited = true := by
    rw [here] at gone
    simpa [live] using gone
  obtain ⟨unpaused, out⟩ := inv.of_holds here (.inl curr)
  simp only [goOn, wp_bind, wp_get, after_ok, pc]
  refine fine_schedEnter_off curr here (.inl exited) ?_
  have unchanged : s.task = update s.task c (some C) := by rw [← here, update_eq_self]
  refine inv.turn (t := c) (inv.lt here) unchanged inv.queues ?_ ?_ ?_ ?_ calm rfl ?_ ?_ ?_ rfl
  · intro u ne
    have other : some c ≠ some u := fun eq => ne (some.inj eq).symm
    simp [holds, held, pc, curr, other]
  · rintro _ ⟨⟩
    refine ⟨(inv.placed c C here).priority, fun asleep => absurd unpaused asleep, fun _ _ => out, ?_⟩
    intro _ running
    rw [exited] at running
    cases running
  · simp [uncounted, pc, here]
  · simp [here]
  · intro up
    rw [gone] at up
    cases up
  · rintro _ ⟨⟩ _
    exact inv.parents c C here (by simp [pc, newborn])
  · simp [pc, newborn]

/- The loop of sched -/

theorem Inv.exists_ready (pc : s.pc = .idle) (off : s.curr = none) (awake : s.taskCount ≠ s.taskPcount) :
    ∃ t p, owner s.task t = some (.ready p) ∧ p ≤ taskPrioLow := by
  by_contra none
  apply awake
  have same : tally taskMax live s.task = tally taskMax asleep s.task := by
    refine Finset.sum_congr rfl ?_
    intro i _
    cases here : s.task i with
    | none => rfl
    | some T =>
      have old := inv.placed i T here
      have free : ¬ holds s i := by simp [holds, off, pc, held]
      by_cases unpaused : T.paused = Option.none
      · by_cases running : T.exited = false
        · obtain ⟨p, le, queue⟩ := old.ready unpaused running free
          exact absurd ⟨i, p, by rw [owner_of here, queue], le⟩ none
        · simp [live, asleep, unpaused, running]
      · obtain ⟨running, _⟩ := old.paused unpaused
        simp [live, asleep, running, isSome_iff_ne_none, unpaused]
  have count := inv.count
  rw [pc, same, ← inv.pcount] at count
  simpa [uncounted] using count

theorem fine_idle (pc : s.pc = .idle) (calm : s.woken = []) (mem : Bool) : wp (goOn mem) Fine s := by
  have off : s.curr = none := by
    have control := inv.control
    rw [Control, pc] at control
    exact control
  simp only [goOn, wp_bind, wp_get, after_ok, pc]
  split
  · exact ⟨rfl, inv⟩
  · rename_i awake
    obtain ⟨t, p, ready, le⟩ := inv.exists_ready pc off awake
    rw [wp_goto]
    refine ⟨rfl, inv.pass pc rfl rfl rfl inv.queues rfl rfl (by simp [uncounted]) rfl calm rfl ⟨off, t, p, ready, zero_le p, le⟩⟩

theorem Inv.of_ready (here : s.task t = some T) (queue : T.queue = some (.ready p)) :
    T.exited = false ∧ T.paused = none ∧ ¬ holds s t := by
  have old := inv.placed t T here
  have unpaused : T.paused = none := by
    by_contra asleep
    exact (old.paused asleep).2.2 p queue
  refine ⟨?_, unpaused, ?_⟩
  · by_contra gone
    rw [old.out unpaused (.inl (by simpa using gone))] at queue
    cases queue
  · intro holding
    rw [old.out unpaused (.inr holding)] at queue
    cases queue

theorem fine_scan (pc : s.pc = .scan i) (calm : s.woken = []) (mem : Bool) : wp (goOn mem) Fine s := by
  have control := inv.control
  rw [Control, pc] at control
  obtain ⟨off, t, p, ready, ge, le⟩ := control
  simp only [goOn, wp_bind, wp_get, after_ok, pc]
  refine wp_taskDequeue inv.queues ?_ ?_
  · intro empty
    have ne : i ≠ p := by
      rintro rfl
      exact empty t ready
    rw [after_ok]
    simp only
    rw [if_pos (by omega), wp_goto]
    refine ⟨rfl, inv.pass pc rfl rfl rfl inv.queues rfl rfl (by simp [uncounted]) rfl calm rfl ⟨off, t, p, ready, by omega, le⟩⟩
  · intro t T h ln here queue queues
    obtain ⟨running, unpaused, free⟩ := inv.of_ready here queue
    rw [after_ok]
    simp only
    rw [wp_goto]
    refine ⟨rfl, inv.turn (t := t) (inv.lt here) rfl (queued_moved queues rfl) ?_ ?_ ?_ ?_ calm rfl ?_ ?_ ?_ ⟨off, ?_⟩⟩
    · intro u ne
      simp [holds, moved, held, pc, Ne.symm ne]
    · rintro _ ⟨⟩
      exact placed_held (.inr rfl) (inv.placed t T here).priority unpaused rfl
    · simp [moved, uncounted, pc, here, live]
    · simp [moved, here, asleep]
    · intro _
      exact .inl (by simp [live, running])
    · exact inv.parents_update here (by simp [pc, newborn]) rfl running rfl
    · simp [pc, newborn]
    · simp [moved, live, running]

theorem fine_picked (pc : s.pc = .picked t) (calm : s.woken = []) (mem : Bool) :
    wp (goOn mem) Fine s := by
  have control := inv.control
  rw [Control, pc] at control
  obtain ⟨off, up⟩ := control
  obtain ⟨T, here, running⟩ := live_some up
  have was : held s.pc = some t := by rw [pc]; rfl
  obtain ⟨unpaused, out⟩ := inv.of_holds here (.inr was)
  have old := inv.placed t T here
  obtain ⟨inv', w⟩ := Inv.edit (E := { T with timeSlice := min (T.timeSlice + timeSlice) timeSliceMax }) inv here rfl rfl
    rfl rfl old.priority
  simp only [goOn, wp_bind, wp_get, after_ok, pc, schedPicked]
  refine wp_fetch here ?_
  rw [after_ok]
  simp only [wp_bind, wp_store, after_ok]
  generalize next : setTask t _ s = s₁ at inv' w ⊢
  have here₁ : s₁.task t = some { T with timeSlice := min (T.timeSlice + timeSlice) timeSliceMax } := by
    rw [← next, setTask_self]
  have pc₁ : s₁.pc = .picked t := w.pc.trans pc
  have off₁ : s₁.curr = none := w.curr.trans off
  have calm₁ : s₁.woken = [] := by
    rw [← next]
    exact calm
  split
  · rw [wp_bind]
    refine wp_taskInsert inv'.queues here₁ out ?_
    intro h ln queues
    rw [after_ok, wp_goto]
    refine ⟨rfl, inv'.turn (t := t) (inv.lt here) rfl (queued_moved queues rfl) ?_ ?_ ?_ ?_ calm₁ rfl ?_ ?_ ?_ ?_⟩
    · intro u ne
      simp [holds, moved, held, pc₁, Ne.symm ne]
    · rintro _ ⟨⟩
      exact placed_ready (by simp [holds, moved, held, off₁]) old.priority unpaused running old.priority rfl
    · simp [moved, uncounted, pc₁, here₁, live]
    · simp [moved, here₁, asleep]
    · intro _
      exact .inl (by simp [live, running])
    · exact inv'.parents_update here₁ (by simp [pc₁, newborn]) rfl running rfl
    · simp [pc₁, newborn]
    · refine ⟨off₁, t, T.priority, ?_, zero_le _, old.priority⟩
      show owner (moved t _ h ln s₁).task t = _
      rw [owner_moved, update_self]
  · rw [if_neg (by simp [running, unpaused]), wp_goto]
    refine ⟨rfl, inv'.go rfl inv'.queues ?_ ?_ rfl calm₁ rfl ?_ ⟨off₁, live_of here₁ running⟩⟩
    · intro u
      simp [holds, pc₁, held]
    · simp [pc₁, uncounted]
    · simp [pc₁, newborn]

theorem fine_chosen (pc : s.pc = .chosen t) (calm : s.woken = []) (mem : Bool) :
    wp (goOn mem) Fine s := by
  have control := inv.control
  rw [Control, pc] at control
  obtain ⟨off, up⟩ := control
  simp only [goOn, wp_bind, wp_get, after_ok, pc, wp_modify, wp_goto]
  refine ⟨rfl, inv.go rfl inv.queues ?_ ?_ rfl calm rfl ?_ ⟨t, rfl, up⟩⟩
  · intro u
    simp [holds, pc, held, off]
  · simp [pc, uncounted]
  · simp [pc, newborn]

theorem fine_returned (pc : s.pc = .returned) (calm : s.woken = []) (mem : Bool) :
    wp (goOn mem) Fine s := by
  have control := inv.control
  rw [Control, pc] at control
  obtain ⟨c, curr, running⟩ := control
  obtain ⟨C, here, awake⟩ := live_some running
  obtain ⟨unpaused, _⟩ := inv.of_holds here (.inl curr)
  simp only [goOn, wp_bind, wp_get, after_ok, pc]
  refine wp_current curr ?_
  rw [after_ok, wp_bind]
  refine wp_fetch here ?_
  rw [after_ok, if_neg (by simp [awake]), if_neg (by simp [unpaused]), wp_goto]
  refine ⟨rfl, inv.pass pc rfl rfl rfl inv.queues rfl rfl (by simp [uncounted]) rfl calm rfl ⟨c, curr, running⟩⟩

theorem fine_goOn (busy : s.pc ≠ .run) (calm : s.woken = []) (mem : Bool) : wp (goOn mem) Fine s := by
  cases pc : s.pc with
  | run => exact absurd pc busy
  | forkSlot i => exact fine_forkSlot inv pc calm mem
  | forkCounted i => exact fine_forkCounted inv pc calm mem
  | forkQueued i => exact fine_forkQueued inv pc calm mem
  | creatSlot i => exact fine_creatSlot inv pc calm mem
  | creatQueued i => exact fine_creatQueued inv pc calm mem
  | exitChildren i => exact fine_exitChildren inv pc calm mem
  | exitCount => exact fine_exitCount inv pc calm mem
  | exitFlag => exact fine_exitFlag inv pc calm mem
  | exitSched => exact fine_exitSched inv pc calm mem
  | idle => exact fine_idle inv pc calm mem
  | scan i => exact fine_scan inv pc calm mem
  | picked t => exact fine_picked inv pc calm mem
  | chosen t => exact fine_chosen inv pc calm mem
  | returned => exact fine_returned inv pc calm mem

theorem quiet_sysNice (pc : s.pc = .run) (inc : Int) (root : Bool) : wp (sysNice inc root) (Quiet s) s := by
  obtain ⟨c, C, curr, here, _⟩ := inv.run pc
  rw [sysNice, wp_bind]
  refine wp_current curr ?_
  rw [after_ok, wp_bind]
  refine wp_fetch here ?_
  rw [after_ok]
  split
  · exact quiet_pure inv ()
  · simp only [taskSetPrio, wp_bind]
    refine wp_current curr ?_
    generalize Int.bmod _ _ = prio
    have range : 0 ≤ (if prio > taskPrioLow then (taskPrioLow : Int) else if prio < 0 then 0 else prio) ∧
        (if prio > taskPrioLow then (taskPrioLow : Int) else if prio < 0 then 0 else prio) ≤ taskPrioLow := by
      split
      · exact ⟨Int.natCast_nonneg _, le_refl _⟩
      · split
        · exact ⟨le_refl _, Int.natCast_nonneg _⟩
        · omega
    rw [after_ok, if_neg (by omega)]
    refine quiet_edit inv here rfl rfl rfl rfl ?_
    show Int.toNat _ ≤ taskPrioLow
    omega

theorem fine_xwait (pc : s.pc = .run) (calm : s.woken = []) (i : Nat) : wp (xwait i) Fine s := by
  obtain ⟨c, C, curr, here', running⟩ := inv.run pc
  rw [xwait, wp_bind]
  refine wp_current curr ?_
  rw [after_ok, wp_bind, wp_get, after_ok]
  cases here : s.task i with
  | none => exact ⟨rfl, inv⟩
  | some T =>
    simp only
    split
    · rename_i child
      have old := inv.placed i T here
      have unpaused : T.paused = none := by
        by_contra asleep
        have up := (old.paused asleep).1
        rw [child.2] at up
        cases up
      have gone : live (s.task i) = false := by
        rw [here]
        simp [live, child.2]
      have ne : c ≠ i := by
        rintro rfl
        rw [live_of here' running] at gone
        cases gone
      rw [taskPutslot, wp_modify]
      refine ⟨rfl, inv.turn (t := i) (inv.lt here) rfl (queued_putslot inv here (old.out unpaused (.inl child.2)))
        (fun u _ => Iff.rfl) nofun ?_ ?_ calm rfl ?_ nofun (fun _ _ new => new) ?_⟩
      · simp [setTask, here, live, child.2]
      · simp [setTask, here, asleep, unpaused]
      · intro up
        rw [gone] at up
        cases up
      · have same : (setTask i none s).pc = .run := pc
        rw [Control, same]
        refine ⟨c, curr, ?_⟩
        simp only [setTask, update_of_ne ne]
        exact live_of here' running
    · exact ⟨rfl, inv⟩

theorem fine_setupChld (pc : s.pc = .run) (calm : s.woken = []) (i : Nat) : wp (setupChld i) Fine s := by
  obtain ⟨c, C, curr, here', running⟩ := inv.run pc
  rw [setupChld, wp_bind]
  refine wp_current curr ?_
  rw [after_ok, wp_bind, wp_get, after_ok]
  cases here : s.task i with
  | none => exact ⟨rfl, inv⟩
  | some T =>
    simp only
    split
    · have inv' : Inv (setTask i (some { T with parent := some init }) s) := by
        refine inv.adopted here calm ?_
        have same : (setTask i (some { T with parent := some init }) s).pc = .run := pc
        rw [Control, same]
        exact ⟨c, curr, live_adopted here (live_of here' running)⟩
      rw [wp_bind, wp_store, after_ok, wp_bind]
      refine wp_mono (quiet_sigChld inv' inv'.root) ?_
      rintro r s' ⟨⟨e, rfl⟩, inv'', _⟩
      exact ⟨rfl, inv''⟩
    · exact ⟨rfl, inv⟩

theorem Inv.polled (pc : s.pc = .run) (curr : s.curr = some c) (running : live (s.task c) = true)
    (on : Bool) : Inv { s with polling := update s.polling c on } := by
  refine ⟨inv.queues, inv.bound, inv.placed, inv.count, inv.pcount, inv.woken, ?_, inv.root, inv.parents, ?_⟩
  · intro t set
    by_cases eq : t = c
    · rw [eq]
      exact running
    · simp only [update_of_ne eq] at set
      exact inv.polling t set
  · rw [Control]
    simp only [pc]
    exact ⟨c, curr, running⟩

theorem Inv.unwoken (sub : ∀ t ∈ rest, t ∈ s.woken) : Inv { s with woken := rest } := by
  have w : Woke s { s with woken := rest } :=
    ⟨rfl, rfl, rfl, fun t mem => .inl (sub t mem), rfl, fun _ => rfl, fun _ _ => id⟩
  exact inv.woke w inv.queues inv.placed inv.pcount

end

/-- The one panic that a task can reach is that of `task_exit` for the first task. -/
def Expected (a : Act) (s : Sys) (p : Panic) : Prop := a = .exit ∧ s.curr = some init ∧ p = .taskExitInit

theorem fine_of_quiet (quiet : Quiet s r s') : Fine r s' := by
  obtain ⟨⟨a, rfl⟩, inv, _⟩ := quiet
  exact ⟨rfl, inv⟩

theorem wp_act (inv : Inv s) {a : Act} (can : a.can s) :
    wp a.run (fun r s' => Fine r s' ∧ ¬ Expected a s .taskExitInit ∨ Expected a s .taskExitInit ∧ r = .err .taskExitInit) s := by
  have fine : ∀ {m : TaskM Unit}, a.run = m → a ≠ .exit → wp m Fine s →
      wp a.run (fun r s' => Fine r s' ∧ ¬ Expected a s .taskExitInit ∨ Expected a s .taskExitInit ∧ r = .err .taskExitInit) s := by
    rintro m rfl other ok
    exact wp_mono ok fun r s' good => .inl ⟨good, fun expected => other expected.1⟩
  have quiet : ∀ {m : TaskM Unit}, wp m (Quiet s) s → wp m Fine s := fun ok => wp_mono ok fun r s' => fine_of_quiet
  cases a with
  | fork mem => exact fine rfl nofun (fine_doFork inv can.1 can.2 mem)
  | creat mem => exact fine rfl nofun (fine_taskCreat inv can.1 can.2 mem)
  | suspend tq type => exact fine rfl nofun (fine_taskSuspend inv can.1 can.2 tq type)
  | exit =>
    refine wp_mono (wp_taskExit inv can.1 can.2.1 can.2.2) ?_
    rintro r s' (⟨root, rfl⟩ | ⟨notInit, good⟩)
    · exact .inr ⟨⟨rfl, root, rfl⟩, rfl⟩
    · exact .inl ⟨good, fun expected => notInit expected.2.1⟩
  | sched =>
    obtain ⟨c, C, curr, here, running⟩ := inv.run can.1
    exact fine rfl nofun (fine_schedEnter_on inv can.1 can.2 curr (live_of here running))
  | nice inc root => exact fine rfl nofun (quiet (quiet_sysNice inv can.1 inc root))
  | xwait i => exact fine rfl nofun (fine_xwait inv can.1 can.2 i)
  | setupChld i => exact fine rfl nofun (fine_setupChld inv can.1 can.2 i)
  | poll on =>
    obtain ⟨c, C, curr, here, running⟩ := inv.run can.1
    refine fine rfl nofun ?_
    rw [Act.run, wp_bind]
    refine wp_current curr ?_
    exact ⟨rfl, inv.polled can.1 curr (live_of here running) on⟩
  | goOn mem => exact fine rfl nofun (fine_goOn inv can.1 can.2 mem)
  | dequeue nr =>
    refine fine rfl nofun ?_
    rw [Act.run, wp_bind]
    refine wp_taskDequeue inv.queues (fun _ => ⟨rfl, inv⟩) ?_
    intro t T h ln here queue queues
    exact ⟨rfl, (inv.dequeued here queue queues).1⟩
  | resumeWoken =>
    refine fine rfl nofun ?_
    rw [Act.run, wp_bind, wp_get, after_ok]
    cases woken : s.woken with
    | nil => exact absurd woken can
    | cons t rest =>
      have inv' : Inv { s with woken := rest } := by
        refine inv.unwoken ?_
        intro u mem
        rw [woken]
        exact mem_cons_of_mem t mem
      have up : live (s.task t) = true := inv.woken t (by rw [woken]; exact mem_cons_self ..)
      simp only [wp_bind]
      rw [wp_modify, after_ok]
      exact wp_mono (wp_taskResume inv' up) fun r s' => fine_of_quiet
  | resumePolling t => exact fine rfl nofun (quiet (wp_taskResume inv (inv.polling t can)))
  | signal t sig =>
    obtain ⟨T, here⟩ := ne_none_iff_exists'.mp can
    refine fine rfl nofun ?_
    rw [Act.run, wp_bind]
    refine wp_mono (quiet_signalSendK inv here sig) ?_
    rintro r s' ⟨⟨e, rfl⟩, inv', _⟩
    exact ⟨rfl, inv'⟩
  | clock => exact fine rfl nofun (quiet (quiet_clockIntr inv))
  | flags t ignored signalPending unseenEvents =>
    obtain ⟨T, here⟩ := ne_none_iff_exists'.mp can
    exact fine rfl nofun (quiet (quiet_edit inv here rfl rfl rfl rfl (inv.placed t T here).priority))

theorem inv_start : Inv start := by
  have only : ∀ {t T}, start.task t = some T → t = init ∧ T = { zeroTask with
      priority := taskPrioUser, parent := some init, ignored := fun sig => sig ≠ sigCont } := by
    intro t T here
    by_cases eq : t = init
    · rw [start] at here
      simp only [eq, if_true] at here
      exact ⟨eq, (some.inj here).symm⟩
    · rw [start] at here
      simp only [if_neg eq] at here
      cases here
  refine ⟨⟨fun _ => [], ⟨fun _ => linked_nil _, fun _ => nodup_nil, ?_⟩, ?_⟩, ?_, ?_, ?_, ?_, ?_, ?_, rfl, ?_, ?_⟩
  · intro i j x mem
    cases mem
  · intro q t
    constructor
    · intro mem
      cases mem
    · intro queue
      obtain ⟨T, here, queue⟩ := bind_eq_some_iff.mp queue
      rw [(only here).2] at queue
      cases queue
  · intro t ge
    have ne : t ≠ init := by
      rintro rfl
      exact absurd ge (by decide)
    simp only [start, if_neg ne]
  · intro t T here
    obtain ⟨rfl, rfl⟩ := only here
    exact placed_held (.inl rfl) (by decide) rfl rfl
  · decide +kernel
  · decide +kernel
  · intro t mem
    cases mem
  · intro t set
    cases set
  · intro t T here _
    obtain ⟨rfl, rfl⟩ := only here
    exact ⟨init, rfl, rfl⟩
  · exact ⟨init, rfl, rfl⟩

theorem inv_reached (reached : Reached s) : Inv s := by
  induction reached with
  | start => exact inv_start
  | next before a can run ih =>
    have good := wp_act ih can
    rw [wp, run] at good
    rcases good with ⟨⟨_, inv⟩, _⟩ | ⟨_, bad⟩
    · exact inv
    · cases bad

/-- The sections in which a task is on its way: `do_fork` up to `task_insert`, `task_creat` up to `task_count++`,
    `task_exit` between `task_count--` and `exited = 1`, and `sched` from `task_dequeue` to the switch. -/
def critical : Pc → Bool
  | .forkSlot _ | .forkCounted _ | .creatSlot _ | .creatQueued _ | .exitFlag | .picked _ | .chosen _ => true
  | _ => false

structure Bookkeeping (s : Sys) : Prop where
  count : s.taskCount = tally taskMax live s.task
  pcount : s.taskPcount = tally taskMax asleep s.task
  queues : ∃ lists : Queue → List Nat,
    (∀ q, Linked (s.heads q) s.links (lists q) ∧ (lists q).Nodup ∧
      ∀ t ∈ lists q, ∃ T, s.task t = some T ∧ T.queue = some q) ∧
    (∀ t T, s.task t = some T → T.paused = none → T.exited = false → s.curr ≠ some t →
      ∃! p, t ∈ lists (.ready p) ∧ p ≤ taskPrioLow) ∧
    ∀ t T, s.task t = some T → T.paused ≠ none → (∀ p, t ∉ lists (.ready p)) ∧
      ∀ q q', t ∈ lists q → t ∈ lists q' → q = q'

theorem Inv.bookkeeping (inv : Inv s) (outside : critical s.pc = false) : Bookkeeping s := by
  have counted : uncounted s.pc = 0 := by
    cases pc : s.pc <;> rw [pc] at outside <;> first | rfl | cases outside
  have nobody : held s.pc = none := by
    cases pc : s.pc <;> rw [pc] at outside <;> first | rfl | cases outside
  obtain ⟨lists, family, member⟩ := inv.queues
  refine ⟨?_, inv.pcount, lists, ?_, ?_, ?_⟩
  · have count := inv.count
    rw [counted] at count
    omega
  · intro q
    refine ⟨family.linked q, family.nodup q, ?_⟩
    intro t mem
    exact bind_eq_some_iff.mp ((member q t).mp mem)
  · intro t T here awake running other
    have free : ¬ holds s t := by simp [holds, nobody, other]
    obtain ⟨p, le, queue⟩ := (inv.placed t T here).ready awake running free
    have mine : owner s.task t = some (.ready p) := by rw [owner_of here, queue]
    refine ⟨p, ⟨(member _ t).mpr mine, le⟩, ?_⟩
    rintro p' ⟨mem, _⟩
    cases family.apart _ _ t mem ((member _ t).mpr mine)
    rfl
  · intro t T here asleep
    refine ⟨?_, fun q q' mem mem' => family.apart q q' t mem mem'⟩
    intro p mem
    have mine := (member _ t).mp mem
    rw [owner_of here] at mine
    exact ((inv.placed t T here).paused asleep).2.2 p mine

/-- In every state that is reached outside the critical sections the bookkeeping is right. No action ends in a null
    pointer, and the only panic is that of `task_exit` when the first task calls it. -/
theorem bookkeeping_exact (reached : Reached s) : (critical s.pc = false → Bookkeeping s) ∧
    ∀ a : Act, a.can s → (a.run s).1 ≠ .crash ∧
      ∀ p, (a.run s).1 = .err p ↔ a = .exit ∧ s.curr = some init ∧ p = .taskExitInit := by
  have inv := inv_reached reached
  refine ⟨inv.bookkeeping, ?_⟩
  intro a can
  rcases wp_act inv can with ⟨⟨ok, _⟩, other⟩ | ⟨expected, bad⟩
  · rw [ok]
    refine ⟨nofun, fun p => ⟨nofun, ?_⟩⟩
    rintro ⟨exit, root, rfl⟩
    exact absurd ⟨exit, root, rfl⟩ other
  · rw [bad]
    refine ⟨nofun, fun p => ⟨?_, ?_⟩⟩
    · rintro ⟨⟩
      exact expected
    · rintro ⟨_, _, rfl⟩
      rfl

def act (a : Act) (s : Sys) : Sys := (a.run s).2

def forked : Sys :=
  act (.suspend none .intr) (act (.goOn true) (act (.goOn true) (act (.goOn true) (act (.fork true) start))))

theorem reached_forked : Reached forked := by
  refine .next (.next (.next (.next (.next .start (.fork true) ⟨rfl, rfl⟩ rfl) (.goOn true) ⟨nofun, rfl⟩ rfl)
    (.goOn true) ⟨nofun, rfl⟩ rfl) (.goOn true) ⟨nofun, rfl⟩ rfl) (.suspend none .intr) ⟨rfl, rfl⟩ rfl

theorem bookkeeping_exact_forked : Reached forked ∧ Bookkeeping forked ∧ forked.taskCount = 2 ∧ forked.taskPcount = 1 :=
  ⟨reached_forked, (bookkeeping_exact reached_forked).1 rfl, rfl, rfl⟩

/-- The first task can call `task_exit`. -/
theorem panics_reached_init : Reached start ∧ Act.exit.can start ∧ (Act.exit.run start).1 = .err .taskExitInit :=
  ⟨.start, ⟨rfl, rfl, fun _ _ => rfl⟩, rfl⟩

end Sched
