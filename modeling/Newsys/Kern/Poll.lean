import Newsys.Lib.Tally
import Newsys.Kern.Fdesc

/- Polling (kern/fs/syscall.c) and the changes of state that wake pollers (kern/fs/main.c). Objects and tasks
   are numbers. A task runs from one suspension to the next; `fs_state` may be called in between. -/
namespace Poll
open Cmds Cmd Kern Fdesc Tally Finset Function

abbrev Events := BitVec 32

def rOk : Events := 4
def wOk : Events := 2
def xOk : Events := 1

structure Fso where
  state : Events
  pollcnt : Nat
  polling : Option Nat

structure File where
  fso : Nat
  omode : Mode

structure Pollfd where
  fd : Int
  events : Events

/-- What a call finds: the answer of `uaa`, the descriptors of the task, and the answers of `fs_chk_perm`. -/
structure Caller where
  uaa : Option Errno
  desc : Nat → Option File
  perm : Nat → Events → Option Errno

abbrev Wait := Nat × Events

/-- Where a task is: not in `sys__poll`, or in front of its loop with the objects registered. -/
inductive Pc where
  | idle
  | polling (waits : List Wait)

structure Sys where
  fso : Nat → Fso
  pc : Nat → Pc
  paused : Nat → Bool
  multipoll : Nat → Bool
  pollq : List Nat

abbrev PollM := Cmd Errno Sys

def setFso (f : Nat) (g : Fso → Fso) (s : Sys) : Sys := { s with fso := update s.fso f (g (s.fso f)) }

def setMultipoll (t : Nat) (b : Bool) (s : Sys) : Sys := { s with multipoll := update s.multipoll t b }

def setPc (t : Nat) (pc : Pc) (s : Sys) : Sys := { s with pc := update s.pc t pc }

/-- The file of a descriptor, where `fd >= OPEN_MAX` is compared as unsigned. -/
def fileOf (c : Caller) (fd : Int) : Option File :=
  if unsigned fd ≥ openMax then none else c.desc (unsigned fd)

def fsFdaccess (c : Caller) (fd : Int) (mode : Events) : Option Errno :=
  match fileOf c fd with
  | none => some .EBADF
  | some f =>
    if mode &&& rOk ≠ 0 ∧ ¬ reads f.omode then some .EBADF
    else if mode &&& wOk ≠ 0 ∧ ¬ writes f.omode then some .EBADF
    else if mode &&& xOk ≠ 0 then some .EINVAL
    else c.perm f.fso mode

def unpoll1 (t f : Nat) : PollM Unit := do
  let s ← get
  if (s.fso f).pollcnt = 0 then crash
  else modify (setFso f fun e =>
    { e with polling := if e.polling = some t then none else e.polling, pollcnt := e.pollcnt - 1 })

def poll1 (t f : Nat) : PollM Unit := do
  let s ← get
  if (s.fso f).pollcnt ≠ 0 then do
    modify (setMultipoll t true)
    match (s.fso f).polling with
    | none => crash
    | some u => modify (setMultipoll u true)
    modify (setFso f fun e => { e with polling := none, pollcnt := e.pollcnt + 1 })
  else modify (setFso f fun e => { e with polling := some t, pollcnt := 1 })

/-- `err` after the first loop of `sys__poll`: every round overwrites it. -/
def lastAccess (c : Caller) (pfd : List Pollfd) : Option Errno :=
  match pfd.getLast? with
  | none => none
  | some p => fsFdaccess c p.fd p.events

def resolve (c : Caller) : List Pollfd → PollM (List Wait)
  | [] => pure []
  | p :: pfd => do
    match fileOf c p.fd with
    | none => crash
    | some f => do
      let waits ← resolve c pfd
      pure ((f.fso, p.events) :: waits)

def ready (s : Sys) (waits : List Wait) : Bool := waits.any fun w => (s.fso w.1).state &&& w.2 ≠ 0

def pollEnd (t : Nat) (waits : List Wait) (ndelay : Bool) : PollM Unit := do
  forEach waits fun w => if ndelay then pure () else unpoll1 t w.1
  modify (setMultipoll t false)
  modify (setPc t .idle)

/-- The loop of `sys__poll` up to its end or to the next suspension. `task_suspend` may return at once. -/
def pollLoop (t : Nat) (waits : List Wait) (ndelay intr : Bool) : PollM Unit := do
  let s ← get
  if ready s waits ∨ ndelay then pollEnd t waits ndelay
  else if intr then pollEnd t waits ndelay
  else do
    modify fun s => { s with paused := update s.paused t true, pollq := s.pollq ++ [t] }
    modify (setPc t (.polling waits))

def sysPoll (t : Nat) (c : Caller) (pfd : List Pollfd) (ndelay intr : Bool) : PollM Unit := do
  match c.uaa with
  | some e => fail e
  | none => pure ()
  match lastAccess c pfd with
  | some e => fail e
  | none => pure ()
  if ndelay then pure ()
  else forEach pfd fun p =>
    match fsFdaccess c p.fd p.events with
    | some _ => crash
    | none => match fileOf c p.fd with
      | none => crash
      | some f => poll1 t f.fso
  let waits ← resolve c pfd
  pollLoop t waits ndelay intr

def taskResume (t : Nat) (s : Sys) : Sys :=
  { s with paused := update s.paused t false, pollq := s.pollq.erase t }

def fsState (f : Nat) (state : Events) (s : Sys) : Sys :=
  if (s.fso f).state = state then s
  else
    let s := setFso f (fun e => { e with state := state }) s
    match (s.fso f).polling with
    | some t => taskResume t s
    | none =>
      if (s.fso f).pollcnt ≠ 0 then
        { s with paused := fun t => s.paused t && !decide (t ∈ s.pollq), pollq := [] }
      else s

/-- What happens: calls of idle tasks, tasks that go on after they were resumed, changes of state, and
    signals. -/
inductive Act where
  | call (t : Nat) (c : Caller) (pfd : List Pollfd) (ndelay intr : Bool)
  | wake (t : Nat) (intr : Bool)
  | fsState (f : Nat) (state : Events)
  | signal (t : Nat)

def Act.run : Act → PollM Unit
  | .call t c pfd ndelay intr => do
    let s ← get
    match s.pc t with
    | .idle => sysPoll t c pfd ndelay intr
    | .polling _ => pure ()
  | .wake t intr => do
    let s ← get
    match s.pc t with
    | .idle => pure ()
    | .polling waits => if s.paused t then pure () else pollLoop t waits false intr
  | .fsState f state => modify (Poll.fsState f state)
  | .signal t => modify (taskResume t)

def Act.inTable : Act → Prop
  | .call t _ _ _ _ => t < taskMax
  | .wake t _ => t < taskMax
  | .fsState _ _ => True
  | .signal t => t < taskMax

def start : Sys :=
  { fso := fun _ => ⟨0, 0, none⟩, pc := fun _ => .idle, paused := fun _ => false, multipoll := fun _ => false
    pollq := [] }

inductive Reached (fits : Sys → Act → Prop) : Sys → Prop where
  | start : Reached fits start
  | next {s : Sys} (before : Reached fits s) (a : Act) (table : a.inTable) (fit : fits s a) :
      Reached fits (a.run s).2

/- Registrations -/

def Pc.objects : Pc → List Nat
  | .idle => []
  | .polling waits => waits.map (·.1)

/-- The outstanding registrations of an object, where task `t` has registered `regs t`. -/
def total (regs : Nat → List Nat) (f : Nat) : Nat := ∑ t ∈ range taskMax, (regs t).count f

/-- The counter is the number of registrations, and the owner is the only one registered. -/
structure Kept (s : Sys) (regs : Nat → List Nat) : Prop where
  count : ∀ f, (s.fso f).pollcnt = total regs f
  owner : ∀ f t, (s.fso f).polling = some t → t < taskMax ∧ (regs t).count f = 1 ∧ total regs f = 1

variable {s s' : Sys} {regs : Nat → List Nat} {t f : Nat}

theorem total_update (lt : t < taskMax) (l : List Nat) (f : Nat) :
    total (update regs t l) f + (regs t).count f = total regs f + l.count f := by
  have sum := sum_range_update lt (fun t => (regs t).count f) (l.count f)
  have same : total (update regs t l) f =
      ∑ i ∈ range taskMax, update (fun t => (regs t).count f) t (l.count f) i := by
    apply sum_congr rfl
    intro i _
    by_cases eq : i = t
    · subst eq
      simp
    · simp [update_of_ne eq]
  rw [same]
  exact sum

theorem count_le_total (lt : t < taskMax) (regs : Nat → List Nat) (f : Nat) : (regs t).count f ≤ total regs f := by
  have change := @total_update regs t lt [] f
  rw [List.count_nil] at change
  omega

theorem counts_le_total (lt : t < taskMax) (lt' : u < taskMax) (ne : u ≠ t) (regs : Nat → List Nat) (f : Nat) :
    (regs t).count f + (regs u).count f ≤ total regs f := by
  have change := @total_update regs t lt [] f
  have other := count_le_total lt' (update regs t []) f
  rw [List.count_nil] at change
  rw [update_of_ne ne] at other
  omega

/-- How many more registrations an object takes before `poll1` looks for an owner that is not there. -/
def Room (e : Fso) (n : Nat) : Prop :=
  if e.pollcnt = 0 then n ≤ 2 else if e.polling = none then n = 0 else n ≤ 1

theorem setFso_other (ne : f' ≠ f) (g : Fso → Fso) (s : Sys) : (setFso f g s).fso f' = s.fso f' := by
  simp [setFso, update_of_ne ne]

@[simp] theorem setFso_self (f : Nat) (g : Fso → Fso) (s : Sys) : (setFso f g s).fso f = g (s.fso f) := by
  simp [setFso]

theorem Kept.change (kept : Kept s regs) (lt : t < taskMax)
    (others : ∀ f', f' ≠ f → l.count f' = (regs t).count f')
    (count : (g (s.fso f)).pollcnt = total (update regs t l) f)
    (owner : ∀ u, (g (s.fso f)).polling = some u → u < taskMax ∧ (update regs t l u).count f = 1 ∧
      total (update regs t l) f = 1) : Kept (setFso f g s) (update regs t l) := by
  have same : ∀ f', f' ≠ f → total (update regs t l) f' = total regs f' := by
    intro f' ne
    have change := @total_update regs t lt l f'
    rw [others f' ne] at change
    omega
  constructor
  · intro f'
    by_cases eq : f' = f
    · subst eq
      rw [setFso_self]
      exact count
    · rw [setFso_other eq, same f' eq]
      exact kept.count f'
  · intro f' u polling
    by_cases eq : f' = f
    · subst eq
      rw [setFso_self] at polling
      exact owner u polling
    · rw [setFso_other eq] at polling
      obtain ⟨lt', one, all⟩ := kept.owner f' u polling
      refine ⟨lt', ?_, by rw [same f' eq, all]⟩
      by_cases here : u = t
      · subst here
        rw [update_self, others f' eq, one]
      · rw [update_of_ne here, one]

theorem Kept.congr (kept : Kept s regs) (same : s'.fso = s.fso) : Kept s' regs := by
  constructor
  · intro f
    rw [same]
    exact kept.count f
  · intro f t polling
    rw [same] at polling
    exact kept.owner f t polling

variable {Q : Res Errno Unit → Sys → Prop}

theorem wp_poll1 (kept : Kept s regs) (lt : t < taskMax) (room : Room (s.fso f) (n + 1))
    (ok : ∀ s', Kept s' (update regs t (regs t ++ [f])) → s'.pc = s.pc →
      (∀ f', f' ≠ f → s'.fso f' = s.fso f') → Room (s'.fso f) n → Q (.ok ()) s') : wp (poll1 t f) Q s := by
  have count := kept.count f
  have change := @total_update regs t lt (regs t ++ [f]) f
  have others : ∀ f', f' ≠ f → (regs t ++ [f]).count f' = (regs t).count f' := by
    intro f' ne
    simp [List.count_append, Ne.symm ne]
  rw [List.count_append, List.count_singleton_self] at change
  simp only [poll1, wp_bind, wp_get, after_ok]
  split
  · rename_i some
    unfold Room at room
    rw [if_neg some] at room
    cases owner : (s.fso f).polling with
    | none =>
      rw [if_pos owner] at room
      omega
    | some u =>
      rw [if_neg (by simp [owner])] at room
      simp only [wp_bind, wp_modify, after_ok]
      refine ok _ ?_ rfl (fun f' ne => setFso_other ne _ _) ?_
      · have kept' : Kept (setMultipoll u true (setMultipoll t true s)) regs := kept.congr rfl
        apply kept'.change lt others
        · show (s.fso f).pollcnt + 1 = _
          omega
        · intro u polling
          cases polling
      · rw [setFso_self]
        simp only [Room, Nat.add_eq_zero_iff, one_ne_zero, and_false, if_false, if_true]
        omega
  · rename_i zero
    have none : (s.fso f).pollcnt = 0 := by omega
    unfold Room at room
    rw [if_pos none] at room
    simp only [wp_modify]
    refine ok _ ?_ rfl (fun f' ne => setFso_other ne _ _) ?_
    · apply kept.change lt others
      · show 1 = _
        omega
      · rintro u ⟨⟩
        have le := count_le_total lt regs f
        refine ⟨lt, ?_, by omega⟩
        rw [update_self, List.count_append, List.count_singleton_self]
        omega
    · rw [setFso_self]
      simp only [Room, one_ne_zero, if_false, reduceCtorEq]
      omega

theorem wp_unpoll1 (kept : Kept s regs) (lt : t < taskMax)
    (registered : regs t = f :: l) (ok : ∀ s', Kept s' (update regs t l) → s'.pc = s.pc → Q (.ok ()) s') :
    wp (unpoll1 t f) Q s := by
  have count := kept.count f
  have change := @total_update regs t lt l f
  have le := count_le_total lt regs f
  rw [registered, List.count_cons_self] at change le
  simp only [unpoll1, wp_bind, wp_get, after_ok]
  rw [if_neg (by omega), wp_modify]
  refine ok _ ?_ rfl
  apply kept.change lt
  · intro f' ne
    rw [registered, List.count_cons_of_ne (Ne.symm ne)]
  · show (s.fso f).pollcnt - 1 = _
    omega
  · intro u polling
    -- an owner would be the task itself, which has just given it up
    simp only at polling
    split at polling
    · cases polling
    · rename_i other
      obtain ⟨lt', one, all⟩ := kept.owner f u polling
      have ne : u ≠ t := by
        rintro rfl
        exact other polling
      have both := counts_le_total lt lt' ne regs f
      rw [registered, List.count_cons_self] at both
      omega

def registered (s : Sys) (t : Nat) : List Nat := (s.pc t).objects

variable {ndelay : Bool}

theorem wp_pollEnd (kept : Kept s (update regs t
    (if ndelay then [] else waits.map (·.1)))) (lt : t < taskMax) : wp (pollEnd t waits ndelay)
      (fun r s' => r = .ok () ∧ Kept s' (update regs t []) ∧ s'.pc = update s.pc t .idle) s := by
  simp only [pollEnd, wp_bind]
  apply wp_forEach (fun rest s' => Kept s' (update regs t (if ndelay then [] else rest.map (·.1))) ∧
    s'.pc = s.pc)
  · exact ⟨kept, rfl⟩
  · rintro s' ⟨kept', same⟩
    simp only [after_ok, wp_bind, wp_modify]
    refine ⟨trivial, ?_, ?_⟩
    · have empty : (if ndelay then [] else ([] : List Wait).map (·.1)) = ([] : List Nat) := by
        cases ndelay <;> rfl
      rw [empty] at kept'
      exact kept'.congr rfl
    · show update s'.pc t .idle = _
      rw [same]
  · rintro w rest s' ⟨kept', same⟩
    cases ndelay with
    | true => exact ⟨kept', same⟩
    | false =>
      simp only [Bool.false_eq_true, if_false] at kept' ⊢
      apply wp_unpoll1 (l := rest.map (·.1)) kept' lt
      · rw [update_self]
        rfl
      · intro s'' kept'' same'
        rw [update_idem] at kept''
        exact ⟨kept'', same'.trans same⟩

theorem wp_pollLoop (kept : Kept s (update regs t
    (if ndelay then [] else waits.map (·.1)))) (lt : t < taskMax) :
    wp (pollLoop t waits ndelay intr) (fun r s' => r = .ok () ∧ ∃ pc, s'.pc = update s.pc t pc ∧
      Kept s' (update regs t pc.objects)) s := by
  have done : wp (pollEnd t waits ndelay) (fun r s' => r = .ok () ∧ ∃ pc, s'.pc = update s.pc t pc ∧
      Kept s' (update regs t pc.objects)) s := by
    apply wp_mono (wp_pollEnd kept lt)
    rintro r s' ⟨rfl, kept', same⟩
    exact ⟨rfl, .idle, same, kept'⟩
  simp only [pollLoop, wp_bind, wp_get, after_ok]
  split
  · exact done
  rename_i waiting
  split
  · exact done
  · have delay : ndelay = false := by
      cases ndelay with
      | true => exact absurd (Or.inr rfl) waiting
      | false => rfl
    simp only [delay, Bool.false_eq_true, if_false] at kept
    simp only [wp_bind, wp_modify, after_ok]
    exact ⟨trivial, .polling waits, rfl, kept.congr rfl⟩

def objectsOf (c : Caller) (pfd : List Pollfd) : List Nat := pfd.filterMap fun p => (fileOf c p.fd).map (·.fso)

variable {c : Caller} {pfd : List Pollfd}

theorem wp_resolve {Q : Res Errno (List Wait) → Sys → Prop}
    (files : ∀ p ∈ pfd, fileOf c p.fd ≠ none) (ok : ∀ waits, waits.map (·.1) = objectsOf c pfd → Q (.ok waits) s) :
    wp (resolve c pfd) Q s := by
  induction pfd generalizing Q with
  | nil => exact ok [] rfl
  | cons p pfd ih =>
    obtain ⟨f, file⟩ := Option.ne_none_iff_exists'.mp (files p List.mem_cons_self)
    simp only [resolve, file, wp_bind]
    apply ih fun p mem => files p (List.mem_cons_of_mem _ mem)
    intro waits objects
    simp only [after_ok, wp_pure]
    apply ok
    rw [List.map_cons, objects]
    simp [objectsOf, file]

/-- The entries of a call that gets past the first loop are all open, and a call that waits registers no
    object more often than the object takes. -/
def CallFits (s : Sys) (c : Caller) (pfd : List Pollfd) (ndelay : Bool) : Prop :=
  c.uaa = none → lastAccess c pfd = none →
    if ndelay then ∀ p ∈ pfd, fileOf c p.fd ≠ none
    else (∀ p ∈ pfd, fsFdaccess c p.fd p.events = none) ∧ ∀ f, Room (s.fso f) ((objectsOf c pfd).count f)

theorem fileOf_of_access (access : fsFdaccess c fd mode = none) : ∃ f, fileOf c fd = some f := by
  unfold fsFdaccess at access
  split at access
  · cases access
  · rename_i f file
    exact ⟨f, file⟩

theorem wp_register (kept : Kept s regs)
    (lt : t < taskMax) (fresh : regs t = []) (access : ∀ p ∈ pfd, fsFdaccess c p.fd p.events = none)
    (room : ∀ f, Room (s.fso f) ((objectsOf c pfd).count f))
    (ok : ∀ s', Kept s' (update regs t (objectsOf c pfd)) → s'.pc = s.pc → Q (.ok ()) s') :
    wp (forEach pfd fun p => match fsFdaccess c p.fd p.events with
      | some _ => crash
      | none => match fileOf c p.fd with
        | none => crash
        | some f => poll1 t f.fso) Q s := by
  -- the invariant splits the entries into those registered and those still to come
  apply wp_forEach (fun rest s' => (∀ p ∈ rest, fsFdaccess c p.fd p.events = none) ∧
    (∀ f, Room (s'.fso f) ((objectsOf c rest).count f)) ∧ s'.pc = s.pc ∧
    ∃ done, done ++ objectsOf c rest = objectsOf c pfd ∧ Kept s' (update regs t done))
  · refine ⟨access, room, rfl, [], rfl, ?_⟩
    rw [← fresh, update_eq_self]
    exact kept
  · rintro s' ⟨-, -, same, done, whole, kept'⟩
    have all : done = objectsOf c pfd := by
      rw [← whole]
      simp [objectsOf]
    rw [all] at kept'
    exact ok s' kept' same
  · rintro p rest s' ⟨access', room', same, done, whole, kept'⟩
    obtain ⟨f, file⟩ := fileOf_of_access (access' p List.mem_cons_self)
    have split : objectsOf c (p :: rest) = f.fso :: objectsOf c rest := by simp [objectsOf, file]
    simp only [access' p List.mem_cons_self, file]
    rw [split] at whole
    have here := room' f.fso
    rw [split, List.count_cons_self] at here
    apply wp_poll1 kept' lt here
    intro s'' kept'' same' others room''
    refine ⟨fun q mem => access' q (List.mem_cons_of_mem _ mem), ?_, same'.trans same, done ++ [f.fso], ?_, ?_⟩
    · intro f'
      by_cases eq : f' = f.fso
      · rw [eq]
        exact room''
      · rw [others f' eq]
        have there := room' f'
        rw [split, List.count_cons_of_ne (Ne.symm eq)] at there
        exact there
    · rw [List.append_assoc]
      exact whole
    · rw [update_self, update_idem] at kept''
      exact kept''

def Left (r : Res Errno Unit) (s : Sys) : Prop := r ≠ .crash ∧ Kept s (registered s)

theorem registered_update (same : s'.pc = update s.pc t pc) :
    registered s' = update (registered s) t pc.objects := by
  funext u
  by_cases eq : u = t
  · subst eq
    simp [registered, same]
  · simp [registered, same, update_of_ne eq]

theorem wp_sysPoll (kept : Kept s (registered s)) (lt : t < taskMax)
    (idle : s.pc t = .idle) (fit : CallFits s c pfd ndelay) : wp (sysPoll t c pfd ndelay intr) Left s := by
  have fresh : registered s t = [] := by simp [registered, idle, Pc.objects]
  have loop : ∀ waits s', waits.map (·.1) = objectsOf c pfd → s'.pc = s.pc →
      Kept s' (update (registered s) t (if ndelay then [] else objectsOf c pfd)) →
      wp (pollLoop t waits ndelay intr) Left s' := by
    intro waits s' objects same kept'
    rw [← objects] at kept'
    apply wp_mono (wp_pollLoop kept' lt)
    rintro r s'' ⟨rfl, pc, same', kept''⟩
    rw [same] at same'
    refine ⟨nofun, ?_⟩
    rw [registered_update same']
    exact kept''
  rw [sysPoll]
  cases uaa : c.uaa with
  | some e => exact ⟨nofun, kept⟩
  | none =>
    cases last : lastAccess c pfd with
    | some e => exact ⟨nofun, kept⟩
    | none =>
      have fit := fit uaa last
      cases ndelay with
      | true =>
        simp only [if_true] at fit ⊢
        simp only [wp_bind]
        apply wp_resolve fit
        intro waits objects
        apply loop waits s objects rfl
        simp only [if_true]
        rw [← fresh, update_eq_self]
        exact kept
      | false =>
        simp only [Bool.false_eq_true, if_false] at fit ⊢
        rw [wp_bind]
        apply wp_register kept lt fresh fit.1 fit.2
        intro s' kept' same
        simp only [after_ok, wp_bind]
        apply wp_resolve
        · intro p mem
          obtain ⟨f, file⟩ := fileOf_of_access (fit.1 p mem)
          rw [file]
          exact nofun
        · intro waits objects
          exact loop waits s' objects same kept'

def Fits (s : Sys) : Act → Prop
  | .call t c pfd ndelay _ => s.pc t = .idle → CallFits s c pfd ndelay
  | _ => True

theorem kept_fsState (kept : Kept s regs) (f : Nat) (state : Events) : Kept (fsState f state s) regs := by
  have changed : Kept (setFso f (fun e => { e with state := state }) s) regs := by
    constructor
    · intro f'
      by_cases eq : f' = f
      · subst eq
        rw [setFso_self]
        exact kept.count f'
      · rw [setFso_other eq]
        exact kept.count f'
    · intro f' t polling
      by_cases eq : f' = f
      · subst eq
        rw [setFso_self] at polling
        exact kept.owner f' t polling
      · rw [setFso_other eq] at polling
        exact kept.owner f' t polling
  unfold fsState
  split
  · exact kept
  · simp only
    split
    · exact changed.congr rfl
    · split
      · exact changed.congr rfl
      · exact changed

theorem fsState_pc (f : Nat) (state : Events) (s : Sys) : (fsState f state s).pc = s.pc := by
  unfold fsState
  split
  · rfl
  · simp only
    split
    · rfl
    · split <;> rfl

theorem wp_act (kept : Kept s (registered s)) (table : a.inTable) (fit : Fits s a) : wp a.run Left s := by
  cases a with
  | call t c pfd ndelay intr =>
    simp only [Act.run, wp_bind, wp_get, after_ok]
    split
    · rename_i idle
      exact wp_sysPoll kept table idle (fit idle)
    · exact ⟨nofun, kept⟩
  | wake t intr =>
    simp only [Act.run, wp_bind, wp_get, after_ok]
    split
    · exact ⟨nofun, kept⟩
    · rename_i waits polling
      split
      · exact ⟨nofun, kept⟩
      · have here : registered s t = waits.map (·.1) := by simp [registered, polling, Pc.objects]
        have same : Kept s (update (registered s) t (if false then [] else waits.map (·.1))) := by
          simp only [Bool.false_eq_true, if_false]
          rw [← here, update_eq_self]
          exact kept
        apply wp_mono (wp_pollLoop same table)
        rintro r s' ⟨rfl, pc, same', kept'⟩
        refine ⟨nofun, ?_⟩
        rw [registered_update same']
        exact kept'
  | fsState f state =>
    refine ⟨nofun, ?_⟩
    have same : registered (fsState f state s) = registered s := by
      funext t
      rw [registered, fsState_pc]
      rfl
    show Kept (fsState f state s) (registered (fsState f state s))
    rw [same]
    exact kept_fsState kept f state
  | signal t => exact ⟨nofun, kept.congr rfl⟩

theorem kept_start : Kept start (registered start) := by
  constructor
  · intro f
    symm
    apply sum_eq_zero
    intro t _
    rfl
  · intro f t polling
    cases polling

theorem kept_reached (reached : Reached Fits s) : Kept s (registered s) := by
  induction reached with
  | start => exact kept_start
  | next before a table fit ih => exact (wp_act ih table fit).2

/-- In every run of actions that fit, the counter of every object is the number of its registrations, the
    owner is the only one registered, and no action crashes. -/
theorem poll_safe (reached : Reached Fits s) : (∀ f, (s.fso f).pollcnt = total (registered s) f) ∧
    (∀ f t, (s.fso f).polling = some t → (registered s t).count f = 1 ∧ total (registered s) f = 1) ∧
    ∀ a : Act, a.inTable → Fits s a → (a.run s).1 ≠ .crash := by
  have kept := kept_reached reached
  refine ⟨kept.count, ?_, fun a table fit => (wp_act kept table fit).1⟩
  intro f t polling
  exact (kept.owner f t polling).2

def reader : Caller :=
  { uaa := none, desc := fun n => if n = 3 then some ⟨5, oRdonly⟩ else none, perm := fun _ _ => none }

def waiting : Act := .call 0 reader [⟨3, rOk⟩] false false

def polled : Sys := (waiting.run start).2

theorem reached_polled : Reached Fits polled := by
  refine .next .start waiting (by decide : (0 : Nat) < taskMax) ?_
  intro _ _ _
  refine ⟨?_, ?_⟩
  · intro p mem
    rw [List.mem_singleton.mp mem]
    decide
  · intro f
    have le := List.count_le_length (a := f) (l := objectsOf reader [⟨3, rOk⟩])
    exact Nat.le_trans le (by decide)

theorem poll_safe_polled : Reached Fits polled ∧ (polled.fso 5).polling = some 0 ∧ total (registered polled) 5 = 1 := by
  refine ⟨reached_polled, rfl, ?_⟩
  exact ((poll_safe reached_polled).2.1 5 0 rfl).2

/-- Three entries for one descriptor make `poll1` look for an owner that is not there, and a bad descriptor in
    front of a good one gets past the first loop. -/
theorem poll_not_safe : Reached (fun _ _ => True) start ∧
    ((Act.call 0 reader [⟨3, rOk⟩, ⟨3, rOk⟩, ⟨3, rOk⟩] false false).run start).1 = .crash ∧
    ((Act.call 0 reader [⟨-1, rOk⟩, ⟨3, rOk⟩] false false).run start).1 = .crash :=
  ⟨.start, rfl, rfl⟩

end Poll
