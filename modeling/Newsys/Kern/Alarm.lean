import Newsys.Lib.Cmd
import Newsys.Kern.Errno
import Newsys.Kern.Machine

/- Alarms (kern/clock.c, and sys_alarm and sys_ualarm in kern/syscall.c). The clock interrupt may arrive at every place
   of a call at which interrupts are enabled; those places are marked `point`, and the state says how often it does at
   the next ones. The clock has the frequency `hz`. -/
namespace Alarm
open Cmds Cmd Kern Function List Option

def taskMax : Nat := 64
def clockHz : Nat := 250

/-- The alarm of a task, and how often it has been sent SIGALRM for it. -/
structure Task where
  alarm : Int
  alarmTicks : Nat
  alarmRepeat : Nat
  exited : Bool
  signals : Nat

def newTask : Task := ⟨0, 0, 0, false, 0⟩

/-- `alarmTime` and `alarmTicks` are those of the next alarm; `zeroed` is not in the source and says that `set_alarm`
    has been called with the time 0. -/
structure State where
  time : Int
  ticks : Nat
  alarmTime : Int
  alarmTicks : Nat
  task : Nat → Option Task
  due : List Nat
  zeroed : Bool

abbrev Call (α : Type) : Type := Cmd Errno State α

def toLong (M : Machine) (n : Int) : Int := (n + M.word / 2) % M.word - M.word / 2

def toUnsigned (n : Int) : Nat := (n % 2 ^ 32).toNat

/-- The time (a, t) is not later than (b, u), as seconds and ticks. -/
def Upto (a : Int) (t : Nat) (b : Int) (u : Nat) : Prop := a = b ∧ t ≤ u ∨ a < b

instance (a : Int) (t : Nat) (b : Int) (u : Nat) : Decidable (Upto a t b u) := inferInstanceAs (Decidable (_ ∨ _))

/- kern/clock.c -/

def setAlarm (time : Int) (ticks : Nat) (s : State) : State :=
  let s := { s with zeroed := s.zeroed || decide (time = 0) }
  if s.alarmTime = 0 ∨ time < s.alarmTime ∨ time = s.alarmTime ∧ ticks < s.alarmTicks then
    { s with alarmTicks := ticks, alarmTime := time }
  else s

def rearm (M : Machine) (hz : Nat) (time : Int) (ticks : Nat) (p : Task) : Task :=
  let p := { p with signals := p.signals + 1, alarm := 0 }
  if p.alarmRepeat = 0 then p
  else
    let later := toUnsigned (ticks + p.alarmRepeat)
    if hz ≤ later then
      { p with alarmTicks := later % hz, alarm := toLong M (toLong M time + (later / hz : Nat)) }
    else { p with alarmTicks := later, alarm := toLong M time }

def chkAlarm (M : Machine) (hz : Nat) (s : State) (i : Nat) : State :=
  match s.task i with
  | none => s
  | some p =>
    if p.alarm = 0 then s
    else if Upto p.alarm p.alarmTicks s.time s.ticks then
      let q := rearm M hz s.time s.ticks p
      let s := { s with task := update s.task i (some q) }
      if p.alarmRepeat = 0 then s else setAlarm q.alarm q.alarmTicks s
    else setAlarm p.alarm p.alarmTicks s

def advance (hz : Nat) (s : State) : State :=
  if hz ≤ s.ticks + 1 then { s with ticks := 0, time := s.time + 1 } else { s with ticks := s.ticks + 1 }

def clockIntr (M : Machine) (hz : Nat) (s : State) : State :=
  let s := advance hz s
  if s.alarmTime = 0 then s
  else if Upto s.alarmTime s.alarmTicks s.time s.ticks then
    (range taskMax).foldl (chkAlarm M hz) { s with alarmTime := 0 }
  else s

/- Interrupts and calls -/

/-- Interrupts are enabled: the clock interrupts that are due here arrive. -/
def point (M : Machine) (hz : Nat) : Call Unit := do
  let s ← get
  match s.due with
  | [] => pure ()
  | n :: later => modify fun s => { (clockIntr M hz)^[n] s with due := later }

def setTask (curr : Nat) (f : Task → Task) : Call Unit :=
  modify fun s => { s with task := update s.task curr ((s.task curr).map f) }

def currTask (curr : Nat) : Call Task := do
  let s ← get
  match s.task curr with
  | none => crash
  | some p => pure p

def withdraw (M : Machine) (hz : Nat) (curr : Nat) (left : Task → Nat) : Call Nat := do
  let p ← currTask curr
  if p.alarm = 0 then pure 0
  else do
    point M hz
    let p ← currTask curr
    point M hz
    setTask curr fun p => { p with alarm := 0 }
    pure (left p)

def sysAlarm (M : Machine) (hz : Nat) (curr delay : Nat) : Call Nat := do
  let s ← get
  let tc := s.ticks
  let tm := toLong M s.time
  point M hz
  let ret ← withdraw M hz curr fun p => toUnsigned (p.alarm - tm)
  point M hz
  if delay = 0 then do
    setTask curr fun p => { p with alarmTicks := 0, alarm := 0 }
    point M hz
    pure ret
  else do
    -- with interrupts off up to the call of set_alarm
    setTask curr fun p => { p with alarm := toLong M (tm + delay), alarmTicks := tc }
    modify (setAlarm (toLong M (tm + delay)) tc)
    point M hz
    pure ret

/-- `set_alarm(curr->alarm, curr->alarm_ticks)` with interrupts on. Which argument is read first is up to the
    compiler. -/
def setCurrAlarm (M : Machine) (hz : Nat) (curr : Nat) (ticksFirst : Bool) : Call Unit := do
  let p ← currTask curr
  point M hz
  let q ← currTask curr
  point M hz
  modify (if ticksFirst then setAlarm q.alarm p.alarmTicks else setAlarm p.alarm q.alarmTicks)

/-- The delay in ticks; `u_delay * hz` is an `unsigned`. -/
def delayTicks (hz uDelay : Nat) : Nat := uDelay * hz % 2 ^ 32 / 1000000

def repeatTicks (hz uDelay : Nat) : Nat := (uDelay * hz + hz - 1) % 2 ^ 32 / 1000000

def giveAlarm (M : Machine) (hz : Nat) (tm : Int) (atc : Nat) (p : Task) : Task :=
  if hz ≤ atc then { p with alarmTicks := atc % hz, alarm := toLong M (tm + (atc / hz : Nat)) }
  else { p with alarmTicks := atc, alarm := toLong M tm }

def sysUalarm (M : Machine) (hz curr uDelay rep : Nat) (ticksFirst : Bool) : Call Nat :=
  if 1000000 < uDelay then fail .EINVAL
  else do
    let s ← get
    let tc := s.ticks
    let tm := s.time
    point M hz
    let ret ← withdraw M hz curr fun p => toUnsigned (p.alarmTicks - tc + (p.alarm - tm) * 1000000)
    point M hz
    if uDelay = 0 then do
      setTask curr fun p => { p with alarmTicks := 0, alarm := 0 }
      point M hz
      pure ret
    else do
      setTask curr fun p => { p with alarmRepeat := if rep = 0 then 0 else repeatTicks hz uDelay }
      point M hz
      setTask curr (giveAlarm M hz tm (toUnsigned (tc + delayTicks hz uDelay : Nat)))
      point M hz
      setCurrAlarm M hz curr ticksFirst
      point M hz
      pure ret

def taskExit (curr : Nat) : Call Unit := setTask curr fun p => { p with exited := true }

inductive Step where
  | alarm (curr delay : Nat) (due : List Nat)
  | ualarm (curr uDelay rep : Nat) (ticksFirst : Bool) (due : List Nat)
  | exit (curr : Nat)
  | creat (i : Nat)        -- task_creat or do_fork, in a free slot
  | put (i : Nat)          -- the slot of a task that has exited is freed
  | tick

def Step.run (M : Machine) (hz : Nat) (s : State) : Step → Res Errno Unit × State
  | .alarm curr delay due => (do let _ ← sysAlarm M hz curr delay; pure ()) { s with due := due }
  | .ualarm curr uDelay rep ticksFirst due =>
    (do let _ ← sysUalarm M hz curr uDelay rep ticksFirst; pure ()) { s with due := due }
  | .exit curr => taskExit curr s
  | .creat i => (.ok (), { s with task := update s.task i (some newTask) })
  | .put i => (.ok (), { s with task := update s.task i none })
  | .tick => (.ok (), clockIntr M hz s)

def Live (s : State) (i : Nat) : Prop := i < taskMax ∧ ∃ p, s.task i = some p ∧ p.exited = false

def Step.able (s : State) : Step → Prop
  | .alarm curr _ _ => Live s curr
  | .ualarm curr _ _ _ _ => Live s curr
  | .exit curr => Live s curr
  | .creat i => i < taskMax ∧ s.task i = none
  | .put i => ∃ p, s.task i = some p ∧ p.exited = true
  | .tick => True

def boot : State :=
  { time := 1, ticks := 0, alarmTime := 0, alarmTicks := 0
    task := update (fun _ => none) 0 (some newTask), due := [], zeroed := false }

inductive Reach (M : Machine) (hz : Nat) : State → Prop where
  | boot : Reach M hz boot
  | step {s t : State} {r : Res Errno Unit} (before : Reach M hz s) (step : Step) (able : step.able s)
      (run : step.run M hz s = (r, t)) : Reach M hz t

/- The next alarm -/

variable {M : Machine} {hz : Nat} {s t : State}

variable {i : Nat}

theorem upto_trans (first : Upto a i b j) (second : Upto b j c k) : Upto a i c k := by
  unfold Upto at *
  omega

def ArmedFor (s : State) (i : Nat) : Prop :=
  ∀ p, s.task i = some p → p.alarm ≠ 0 → s.alarmTime ≠ 0 ∧ Upto s.alarmTime s.alarmTicks p.alarm p.alarmTicks

structure Lowered (s : State) (time : Int) (ticks : Nat) (t : State) : Prop where
  task : t.task = s.task
  now : t.time = s.time ∧ t.ticks = s.ticks
  zeroed : t.zeroed = (s.zeroed || decide (time = 0))
  set : time ≠ 0 → t.alarmTime ≠ 0 ∧ Upto t.alarmTime t.alarmTicks time ticks
  lower : time ≠ 0 → s.alarmTime ≠ 0 → Upto t.alarmTime t.alarmTicks s.alarmTime s.alarmTicks

theorem setAlarm_lowered (time : Int) (ticks : Nat) (s : State) : Lowered s time ticks (setAlarm time ticks s) := by
  rw [setAlarm]
  by_cases lower : s.alarmTime = 0 ∨ time < s.alarmTime ∨ time = s.alarmTime ∧ ticks < s.alarmTicks
  · dsimp only
    rw [if_pos lower]
    refine ⟨rfl, ⟨rfl, rfl⟩, rfl, fun some => ⟨some, .inl ⟨rfl, le_refl _⟩⟩, fun _ armed => ?_⟩
    show Upto time ticks s.alarmTime s.alarmTicks
    unfold Upto
    omega
  · dsimp only
    rw [if_neg lower]
    refine ⟨rfl, ⟨rfl, rfl⟩, rfl, fun _ => ?_, fun _ _ => .inl ⟨rfl, le_refl _⟩⟩
    show s.alarmTime ≠ 0 ∧ Upto s.alarmTime s.alarmTicks time ticks
    unfold Upto
    omega

variable {time : Int} {ticks : Nat}

theorem Lowered.armedFor (lowered : Lowered s time ticks t) (some : time ≠ 0)
    (armed : ArmedFor s i) : ArmedFor t i := by
  intro p task alarm
  rw [lowered.task] at task
  obtain ⟨set, upto⟩ := armed p task alarm
  exact ⟨(lowered.set some).1, upto_trans (lowered.lower some set) upto⟩

def rung (M : Machine) (hz : Nat) (time : Int) (ticks : Nat) (p : Task) : Task :=
  if p.alarm = 0 then p else if Upto p.alarm p.alarmTicks time ticks then rearm M hz time ticks p else p

theorem toLong_toLong (M : Machine) (n : Int) : toLong M (toLong M n) = toLong M n := by
  unfold toLong
  rw [Int.sub_add_cancel, Int.emod_emod_of_dvd _ (Int.dvd_refl _)]

structure Rung (M : Machine) (hz : Nat) (time : Int) (ticks : Nat) (p q : Task) : Prop where
  signals : q.signals = p.signals + 1
  once : p.alarmRepeat = 0 → q.alarm = 0
  again : p.alarmRepeat ≠ 0 → q.alarmTicks = toUnsigned (ticks + p.alarmRepeat) % hz ∧
    q.alarm = toLong M (toLong M time + (toUnsigned (ticks + p.alarmRepeat) / hz : Nat))

theorem rearm_rung (M : Machine) (hz : Nat) (time : Int) (ticks : Nat) (p : Task) :
    Rung M hz time ticks p (rearm M hz time ticks p) := by
  by_cases once : p.alarmRepeat = 0
  · have eq : rearm M hz time ticks p = { p with signals := p.signals + 1, alarm := 0 } := if_pos once
    rw [eq]
    exact ⟨rfl, fun _ => rfl, fun again => absurd once again⟩
  · by_cases late : hz ≤ toUnsigned (ticks + p.alarmRepeat)
    · have eq : rearm M hz time ticks p = { p with
          signals := p.signals + 1, alarmTicks := toUnsigned (ticks + p.alarmRepeat) % hz
          alarm := toLong M (toLong M time + (toUnsigned (ticks + p.alarmRepeat) / hz : Nat)) } :=
        (if_neg once).trans (if_pos late)
      rw [eq]
      exact ⟨rfl, fun zero => absurd zero once, fun _ => ⟨rfl, rfl⟩⟩
    · have eq : rearm M hz time ticks p = { p with
          signals := p.signals + 1, alarmTicks := toUnsigned (ticks + p.alarmRepeat), alarm := toLong M time } :=
        (if_neg once).trans (if_neg late)
      have small : toUnsigned (ticks + p.alarmRepeat) < hz := by omega
      rw [eq]
      refine ⟨rfl, fun zero => absurd zero once, fun _ => ⟨(Nat.mod_eq_of_lt small).symm, ?_⟩⟩
      rw [Nat.div_eq_of_lt small]
      show toLong M time = toLong M (toLong M time + 0)
      rw [add_zero, toLong_toLong]

theorem rearm_repeat (M : Machine) (hz : Nat) (time : Int) (ticks : Nat) (p : Task) :
    (rearm M hz time ticks p).alarmRepeat = p.alarmRepeat := by
  rw [rearm]
  dsimp only
  split
  · rfl
  · split
    · rfl
    · rfl

theorem rung_repeat (M : Machine) (hz : Nat) (time : Int) (ticks : Nat) (p : Task) :
    (rung M hz time ticks p).alarmRepeat = p.alarmRepeat := by
  rw [rung]
  split
  · rfl
  · split
    · exact rearm_repeat M hz time ticks p
    · rfl

/-- No alarm is repeated at the time 0. -/
def Rearms (M : Machine) (hz : Nat) (s : State) : Prop := ∀ i p, s.task i = some p → p.alarmRepeat ≠ 0 →
  toLong M (toLong M s.time + (toUnsigned (s.ticks + p.alarmRepeat) / hz : Nat)) ≠ 0

structure Checked (M : Machine) (hz : Nat) (s : State) (i : Nat) (t : State) : Prop where
  now : t.time = s.time ∧ t.ticks = s.ticks
  zeroed : t.zeroed = false ∨ Rearms M hz s → t.zeroed = s.zeroed
  task : t.task i = (s.task i).map (rung M hz s.time s.ticks)
  other : ∀ j, j ≠ i → t.task j = s.task j
  armed : ArmedFor t i
  keeps : t.zeroed = false ∨ Rearms M hz s → ∀ j, ArmedFor s j → ArmedFor t j

theorem Checked.rearms (checked : Checked M hz s i t) (rearms : Rearms M hz s) : Rearms M hz t := by
  intro j p there again
  rw [checked.now.1, checked.now.2]
  by_cases eq : j = i
  · rw [eq, checked.task] at there
    obtain ⟨q, here, rfl⟩ := map_eq_some_iff.mp there
    rw [rung_repeat] at again ⊢
    exact rearms i q here again
  · rw [checked.other j eq] at there
    exact rearms j p there again

variable {p : Task}

theorem set_zeroed (lowered : Lowered s time ticks t) (some : time ≠ 0) : t.zeroed = s.zeroed := by
  rw [lowered.zeroed, decide_eq_false some, Bool.or_false]

theorem not_zeroed (lowered : Lowered s time ticks t) (never : t.zeroed = false) : s.zeroed = false ∧ time ≠ 0 := by
  rw [lowered.zeroed, Bool.or_eq_false_iff] at never
  exact ⟨never.1, of_decide_eq_false never.2⟩

theorem checked_same (task : s.task i = (s.task i).map (rung M hz s.time s.ticks)) (armed : ArmedFor s i) :
    Checked M hz s i s :=
  ⟨⟨rfl, rfl⟩, fun _ => rfl, task, fun _ _ => rfl, armed, fun _ _ armed => armed⟩

theorem checked_setAlarm (lowered : Lowered { s with task := update s.task i (some q) } time ticks t)
    (here : s.task i = some p) (rings : rung M hz s.time s.ticks p = q) (alarm : q.alarm = time)
    (alarmTicks : q.alarmTicks = ticks) (nonzero : Rearms M hz s → time ≠ 0) : Checked M hz s i t := by
  have called : t.zeroed = false ∨ Rearms M hz s → time ≠ 0 := fun safe =>
    safe.elim (fun never => (not_zeroed lowered never).2) nonzero
  have set : ArmedFor t i := by
    intro r task pending
    rw [lowered.task] at task
    have same : q = r := some.inj ((update_self (f := s.task) i (some q)).symm.trans task)
    rw [← same, alarm] at pending
    rw [← same, alarm, alarmTicks]
    exact lowered.set pending
  refine ⟨lowered.now, fun safe => (set_zeroed lowered (called safe) :), ?_, fun j other => ?_, set, ?_⟩
  · rw [lowered.task, here, map_some, rings]
    exact update_self ..
  · rw [lowered.task]
    exact update_of_ne other ..
  · intro safe j armed
    by_cases eq : j = i
    · exact eq ▸ set
    · refine lowered.armedFor (called safe) ?_
      intro r task pending
      exact armed r ((update_of_ne (f := s.task) eq _).symm.trans task) pending

theorem checked_off (here : s.task i = some p) (rings : rung M hz s.time s.ticks p = q)
    (off : q.alarm = 0) : Checked M hz s i { s with task := update s.task i (some q) } := by
  have armed : ∀ j, j = i ∨ ArmedFor s j → ArmedFor { s with task := update s.task i (some q) } j := by
    intro j known r task pending
    have task' : update s.task i (some q) j = some r := task
    by_cases eq : j = i
    · rw [eq, update_self] at task'
      cases task'
      exact absurd off pending
    · rw [update_of_ne eq] at task'
      exact known.resolve_left eq r task' pending
  refine ⟨⟨rfl, rfl⟩, fun _ => rfl, ?_, fun j other => update_of_ne other .., armed i (.inl rfl), ?_⟩
  · rw [here, map_some, rings]
    exact update_self ..
  · exact fun _ j here => armed j (.inr here)

theorem chkAlarm_checked (M : Machine) (hz : Nat) (s : State) (i : Nat) : Checked M hz s i (chkAlarm M hz s i) := by
  cases here : s.task i with
  | none =>
    rw [chkAlarm, here]
    refine checked_same (by rw [here, map_none]) fun p task => ?_
    rw [here] at task
    cases task
  | some p =>
    rw [chkAlarm, here]
    dsimp only
    by_cases off : p.alarm = 0
    · rw [if_pos off]
      refine checked_same (by rw [here, map_some, rung, if_pos off]) fun q task pending => ?_
      rw [here] at task
      cases task
      exact absurd off pending
    · rw [if_neg off]
      by_cases due : Upto p.alarm p.alarmTicks s.time s.ticks
      · have rings : rung M hz s.time s.ticks p = rearm M hz s.time s.ticks p := by rw [rung, if_neg off, if_pos due]
        have rung := rearm_rung M hz s.time s.ticks p
        rw [if_pos due]
        by_cases once : p.alarmRepeat = 0
        · rw [if_pos once]
          exact checked_off here rings (rung.once once)
        · rw [if_neg once]
          refine checked_setAlarm (setAlarm_lowered ..) here rings rfl rfl fun rearms => ?_
          rw [(rung.again once).2]
          exact rearms i p here once
      · have rings : rung M hz s.time s.ticks p = p := by rw [rung, if_neg off, if_neg due]
        rw [if_neg due]
        have same : s = { s with task := update s.task i (some p) } := by
          rw [← here, update_eq_self]
        have lowered := setAlarm_lowered p.alarm p.alarmTicks s
        refine checked_setAlarm (q := p) ?_ here rings rfl rfl fun _ => off
        rw [← same]
        exact lowered

theorem foldl_chkAlarm (M : Machine) (hz : Nat) {l : List Nat} (nodup : l.Nodup) (s : State) :
    let t := l.foldl (chkAlarm M hz) s
    (t.time = s.time ∧ t.ticks = s.ticks) ∧ (t.zeroed = false ∨ Rearms M hz s → t.zeroed = s.zeroed) ∧
      (∀ i, t.task i = if i ∈ l then (s.task i).map (rung M hz s.time s.ticks) else s.task i) ∧
      (t.zeroed = false ∨ Rearms M hz s → ∀ i, i ∈ l ∨ ArmedFor s i → ArmedFor t i) := by
  induction l generalizing s with
  | nil => exact ⟨⟨rfl, rfl⟩, fun _ => rfl, fun _ => rfl, fun _ i known => known.resolve_left not_mem_nil⟩
  | cons i rest ih =>
    obtain ⟨out, nodup'⟩ := nodup_cons.mp nodup
    have first := chkAlarm_checked M hz s i
    obtain ⟨now, zeroed, task, armed⟩ := ih nodup' (chkAlarm M hz s i)
    rw [foldl_cons]
    have begun : _ ∨ Rearms M hz s → (chkAlarm M hz s i).zeroed = false ∨ Rearms M hz s := Or.imp_left fun never =>
      (zeroed (.inl never)).symm.trans never
    refine ⟨⟨now.1.trans first.now.1, now.2.trans first.now.2⟩, fun safe => ?_, fun j => ?_, fun safe j known => ?_⟩
    · exact (zeroed (safe.imp_right first.rearms)).trans (first.zeroed (begun safe))
    · rw [task j, first.now.1, first.now.2]
      by_cases eq : j = i
      · subst eq
        rw [if_neg out, if_pos (mem_cons_self ..)]
        exact first.task
      · rw [first.other j eq]
        have same : j ∈ i :: rest ↔ j ∈ rest := by
          rw [mem_cons]
          exact or_iff_right eq
        simp only [same]
    · refine armed (safe.imp_right first.rearms) j ?_
      rcases known with mem | known
      · rcases mem_cons.mp mem with rfl | mem
        · exact .inr first.armed
        · exact .inl mem
      · exact .inr (first.keeps (begun safe) j known)

theorem advance_same (hz : Nat) (s : State) : (advance hz s).alarmTime = s.alarmTime ∧
    (advance hz s).alarmTicks = s.alarmTicks ∧ (advance hz s).task = s.task ∧ (advance hz s).zeroed = s.zeroed := by
  rw [advance]
  split
  · exact ⟨rfl, rfl, rfl, rfl⟩
  · exact ⟨rfl, rfl, rfl, rfl⟩

def Due (hz : Nat) (s : State) : Prop :=
  s.alarmTime ≠ 0 ∧ Upto s.alarmTime s.alarmTicks (advance hz s).time (advance hz s).ticks

theorem clockIntr_of_due (due : Due hz s) :
    clockIntr M hz s = (range taskMax).foldl (chkAlarm M hz) { advance hz s with alarmTime := 0 } := by
  obtain ⟨time, ticks, _⟩ := advance_same hz s
  rw [clockIntr, time, ticks]
  dsimp only
  rw [if_neg due.1, if_pos due.2, ticks]

theorem clockIntr_of_not (not : ¬ Due hz s) : clockIntr M hz s = advance hz s := by
  obtain ⟨time, ticks, _⟩ := advance_same hz s
  rw [clockIntr, time, ticks]
  split
  · rfl
  · exact if_neg fun upto => not ⟨‹_›, upto⟩

structure Ticked (M : Machine) (hz : Nat) (s t : State) : Prop where
  now : t.time = (advance hz s).time ∧ t.ticks = (advance hz s).ticks
  zeroed : t.zeroed = false ∨ Rearms M hz (advance hz s) → t.zeroed = s.zeroed
  task : ∀ i, t.task i = s.task i ∨ t.task i = (s.task i).map (rung M hz t.time t.ticks)
  rings : ∀ i, i < taskMax → ArmedFor s i → t.task i = (s.task i).map (rung M hz t.time t.ticks)
  armed : t.zeroed = false ∨ Rearms M hz (advance hz s) → ∀ i, i < taskMax → ArmedFor s i → ArmedFor t i
  fresh : t.zeroed = false ∨ Rearms M hz (advance hz s) → ∀ i, i < taskMax → ArmedFor t i ∨ t.task = s.task

theorem Ticked.never (ticked : Ticked M hz s t) (never : t.zeroed = false) : s.zeroed = false :=
  (ticked.zeroed (.inl never)).symm.trans never

theorem clockIntr_ticked (M : Machine) (hz : Nat) (s : State) : Ticked M hz s (clockIntr M hz s) := by
  obtain ⟨time, ticks, task, zeroed⟩ := advance_same hz s
  by_cases due : Due hz s
  · rw [clockIntr_of_due due]
    obtain ⟨now, zeroed', task', armed⟩ :=
      foldl_chkAlarm M hz (nodup_range (n := taskMax)) { advance hz s with alarmTime := 0 }
    have rings : ∀ i, i < taskMax → _ := fun i bound => (task' i).trans (if_pos (mem_range.mpr bound))
    rw [← now.1, ← now.2, task] at rings
    refine ⟨now, fun safe => (zeroed' safe).trans zeroed, fun i => ?_, fun i bound _ => rings i bound,
      fun safe i bound _ => armed safe i (.inl (mem_range.mpr bound)),
      fun safe i bound => .inl (armed safe i (.inl (mem_range.mpr bound)))⟩
    by_cases bound : i < taskMax
    · exact .inr (rings i bound)
    · rw [task', if_neg fun mem => bound (mem_range.mp mem)]
      exact .inl (congrFun task i)
  · rw [clockIntr_of_not due]
    refine ⟨⟨rfl, rfl⟩, fun _ => zeroed, fun i => .inl (congrFun task i), fun i _ armed => ?_, fun _ i _ armed => ?_,
      fun _ _ _ => .inr task⟩
    · rw [task]
      cases here : s.task i with
      | none => rfl
      | some p =>
        rw [map_some, rung]
        split
        · rfl
        · rename_i pending
          -- the next alarm would have been due, too
          obtain ⟨set, lower⟩ := armed p here pending
          rw [if_neg fun upto => due ⟨set, upto_trans lower upto⟩]
    · intro p here pending
      rw [task] at here
      rw [time, ticks]
      exact armed p here pending

/-- Unless `set_alarm` has been called with the time 0, the state has the property. -/
def Unless (P : State → Prop) (s : State) : Prop := s.zeroed = false → P s

def Armed (s : State) : Prop := ∀ i, i < taskMax → ArmedFor s i

def ArmedBut (curr : Nat) (s : State) : Prop :=
  (∀ i, i < taskMax → i ≠ curr → ArmedFor s i) ∧ ∃ p, s.task curr = some p

def Given (curr : Nat) (alarm : Int) (alarmTicks : Nat) (s : State) : Prop :=
  ArmedFor s curr ∨ ∃ p, s.task curr = some p ∧ p.alarm = alarm ∧ p.alarmTicks = alarmTicks

def Steady (M : Machine) (hz : Nat) (P : State → Prop) : Prop :=
  (∀ s, P s → P (clockIntr M hz s)) ∧ ∀ s due, P s → P { s with due := due }

variable {P : State → Prop}

theorem Steady.iterate (steady : Steady M hz P) (n : Nat) (here : P s) : P ((clockIntr M hz)^[n] s) :=
  Iterate.rec P here steady.1 n

theorem steady_and {Q : State → Prop} (first : Steady M hz P) (second : Steady M hz Q) :
    Steady M hz fun s => P s ∧ Q s :=
  ⟨fun s here => ⟨first.1 s here.1, second.1 s here.2⟩, fun s due here => ⟨first.2 s due here.1, second.2 s due here.2⟩⟩

theorem steady_armed : Steady M hz (Unless Armed) := by
  refine ⟨fun s here never i bound => ?_, fun s due here => here⟩
  have ticked := clockIntr_ticked M hz s
  exact ticked.armed (.inl never) i bound (here (ticked.never never) i bound)

theorem steady_armedBut (curr : Nat) : Steady M hz (Unless (ArmedBut curr)) := by
  refine ⟨fun s here never => ?_, fun s due here never => here never⟩
  have ticked := clockIntr_ticked M hz s
  obtain ⟨armed, p, task⟩ := here (ticked.never never)
  refine ⟨fun i bound other => ticked.armed (.inl never) i bound (armed i bound other), ?_⟩
  rcases ticked.task curr with same | same
  · exact ⟨p, same.trans task⟩
  · rw [task] at same
    exact ⟨_, same⟩

variable {curr : Nat}

theorem steady_given (bound : curr < taskMax) (alarm : Int) (alarmTicks : Nat) :
    Steady M hz (Unless (Given curr alarm alarmTicks)) := by
  refine ⟨fun s here never => ?_, fun s due here never => here never⟩
  have ticked := clockIntr_ticked M hz s
  rcases here (ticked.never never) with armed | ⟨p, task, eqs⟩
  · exact .inl (ticked.armed (.inl never) curr bound armed)
  · rcases ticked.fresh (.inl never) curr bound with armed | same
    · exact .inl armed
    · exact .inr ⟨p, (congrFun same curr).trans task, eqs⟩

theorem steady_armedFor (bound : curr < taskMax) (q : Prop) : Steady M hz (Unless fun s => ArmedFor s curr ∨ q) := by
  refine ⟨fun s here never => ?_, fun s due here never => here never⟩
  have ticked := clockIntr_ticked M hz s
  exact (here (ticked.never never)).imp_left (ticked.armed (.inl never) curr bound)

theorem wp_point {Q : Res Errno Unit → State → Prop} (steady : Steady M hz P) (here : P s)
    (next : ∀ t, P t → Q (.ok ()) t) : wp (point M hz) Q s := by
  rw [point, wp_bind, wp_get, after_ok]
  cases s.due with
  | nil => exact next s here
  | cons n later => exact next _ (steady.2 _ _ (steady.iterate n here))

theorem wp_currTask (none : s.task curr = none → Q .crash s)
    (some : ∀ p, s.task curr = some p → Q (.ok p) s) : wp (currTask curr) Q s := by
  rw [currTask, wp_bind, wp_get, after_ok]
  cases here : s.task curr with
  | none => exact none here
  | some p => exact some p here

variable {alarm : Int} {alarmTicks : Nat}

theorem armed_setAlarm (but : Unless (ArmedBut curr) s) (given : Unless (Given curr alarm alarmTicks) s)
    (read : Unless (fun s => ArmedFor s curr ∨ time = alarm ∧ ticks = alarmTicks) s) :
    Unless Armed (setAlarm time ticks s) := by
  intro never i bound
  have lowered := setAlarm_lowered time ticks s
  obtain ⟨never', nonzero⟩ := not_zeroed lowered never
  by_cases eq : i = curr
  · rw [eq]
    rcases read never' with armed | ⟨rfl, rfl⟩
    · exact lowered.armedFor nonzero armed
    · rcases given never' with armed | ⟨p, task, rfl, rfl⟩
      · exact lowered.armedFor nonzero armed
      · intro q task' pending
        rw [lowered.task, task] at task'
        cases task'
        exact lowered.set nonzero
  · exact lowered.armedFor nonzero ((but never').1 i bound eq)

theorem read_given (task : s.task curr = some p) (given : Unless (Given curr alarm alarmTicks) s) :
    Unless (fun s => ArmedFor s curr ∨ p.alarm = alarm ∧ p.alarmTicks = alarmTicks) s := by
  intro never
  refine (given never).imp_right ?_
  rintro ⟨q, here, eqs⟩
  rw [task] at here
  cases here
  exact eqs

theorem wp_setCurrAlarm (bound : curr < taskMax) (ticksFirst : Bool)
    (but : Unless (ArmedBut curr) s) (given : Unless (Given curr alarm alarmTicks) s) :
    wp (setCurrAlarm M hz curr ticksFirst) (fun _ t => Unless Armed t) s := by
  have present : ∀ {t : State}, Unless (ArmedBut curr) t → t.task curr = none → Unless Armed t := by
    intro t but none never
    obtain ⟨_, p, task⟩ := but never
    rw [none] at task
    cases task
  have steady : Steady M hz fun s => Unless (ArmedBut curr) s ∧ Unless (Given curr alarm alarmTicks) s :=
    steady_and (steady_armedBut curr) (steady_given bound alarm alarmTicks)
  rw [setCurrAlarm, wp_bind]
  refine wp_currTask (present but) fun p task => ?_
  rw [after_ok, wp_bind]
  refine wp_point (steady_and steady (steady_armedFor bound (p.alarm = alarm ∧ p.alarmTicks = alarmTicks)))
    ⟨⟨but, given⟩, read_given task given⟩ ?_
  rintro t ⟨⟨but', given'⟩, first⟩
  rw [after_ok, wp_bind]
  refine wp_currTask (present but') fun q task' => ?_
  have second := read_given task' given'
  rw [after_ok, wp_bind]
  refine wp_point (steady_and steady (steady_and
    (steady_armedFor bound (p.alarm = alarm ∧ p.alarmTicks = alarmTicks))
    (steady_armedFor bound (q.alarm = alarm ∧ q.alarmTicks = alarmTicks)))) ⟨⟨but', given'⟩, first, second⟩ ?_
  rintro u ⟨⟨but'', given''⟩, first', second'⟩
  rw [after_ok, wp_modify]
  cases ticksFirst with
  | true =>
    refine armed_setAlarm but'' given'' fun never => ?_
    rcases first' never with armed | ⟨_, eq⟩
    · exact .inl armed
    · exact (second' never).imp_right fun eqs => ⟨eqs.1, eq⟩
  | false =>
    refine armed_setAlarm but'' given'' fun never => ?_
    rcases first' never with armed | ⟨eq, _⟩
    · exact .inl armed
    · exact (second' never).imp_right fun eqs => ⟨eq, eqs.2⟩

/- The calls keep what they find -/

theorem stable_point (steady : Steady M hz P) : Stable P (point M hz) :=
  fun _ here => wp_point (Q := fun _ t => P t) steady here fun _ kept => kept

theorem stable_currTask (P : State → Prop) (curr : Nat) : Stable P (currTask curr) := by
  refine stable_bind stable_get fun t => ?_
  cases t.task curr with
  | none => exact stable_crash
  | some p => exact stable_pure p

def Running (curr : Nat) (s : State) : Prop := Armed s ∧ ∃ p, s.task curr = some p

theorem steady_running (curr : Nat) : Steady M hz (Unless (Running curr)) := by
  refine ⟨fun s here never => ?_, fun s due here never => here never⟩
  have armed := (steady_armed (M := M)).1 s (fun never => (here never).1) never
  have but : Unless (ArmedBut curr) s := fun never => ⟨fun i bound _ => (here never).1 i bound, (here never).2⟩
  exact ⟨armed, ((steady_armedBut (M := M) curr).1 s but never).2⟩

theorem stable_setTask {f : Task → Task}
    (quiet : ∀ p, (f p).alarm = 0 ∨ (f p).alarm = p.alarm ∧ (f p).alarmTicks = p.alarmTicks) :
    Stable (Unless (Running curr)) (setTask curr f) := by
  refine stable_modify fun s here never => ?_
  obtain ⟨armed, p, task⟩ := here never
  refine ⟨fun i bound q task' pending => ?_, f p, ?_⟩
  · have task'' : update s.task curr ((s.task curr).map f) i = some q := task'
    by_cases eq : i = curr
    · rw [eq, update_self, task] at task''
      cases task''
      rcases quiet p with off | ⟨alarm, ticks⟩
      · exact absurd off pending
      · rw [alarm] at pending ⊢
        rw [ticks]
        exact armed curr (eq ▸ bound) p task pending
    · rw [update_of_ne eq] at task''
      exact armed i bound q task'' pending
  · show update s.task curr ((s.task curr).map f) curr = some (f p)
    rw [update_self, task]
    rfl

theorem stable_withdraw (curr : Nat) (left : Task → Nat) :
    Stable (Unless (Running curr)) (withdraw M hz curr left) := by
  refine stable_bind (stable_currTask _ curr) fun p => ?_
  split
  · exact stable_pure 0
  · refine stable_bind (stable_point (steady_running curr)) fun _ => ?_
    refine stable_bind (stable_currTask _ curr) fun q => ?_
    refine stable_bind (stable_point (steady_running curr)) fun _ => ?_
    exact stable_bind (stable_setTask fun _ => .inl rfl) fun _ => stable_pure _

theorem given_setTask {f : Task → Task} (here : Unless (Running curr) s)
    (set : ∀ p, (f p).alarm = alarm ∧ (f p).alarmTicks = alarmTicks) :
    let t := { s with task := update s.task curr ((s.task curr).map f) }
    Unless (ArmedBut curr) t ∧ Unless (Given curr alarm alarmTicks) t := by
  have task : ∀ p, s.task curr = some p → update s.task curr ((s.task curr).map f) curr = some (f p) := by
    intro p task
    rw [update_self, task]
    rfl
  refine ⟨fun never => ?_, fun never => ?_⟩
  · obtain ⟨armed, p, present⟩ := here never
    refine ⟨fun i bound other q task' pending => ?_, f p, task p present⟩
    exact armed i bound q ((update_of_ne (f := s.task) other _).symm.trans task') pending
  · obtain ⟨_, p, present⟩ := here never
    exact .inr ⟨f p, task p present, set p⟩

theorem Running.armed (here : Unless (Running curr) s) : Unless Armed s := fun never => (here never).1

theorem wp_running {α β : Type} {m : Call α} {f : α → Call β} (all : Stable (Unless (Running curr)) m)
    (here : Unless (Running curr) s)
    (next : ∀ a t, Unless (Running curr) t → wp (f a) (fun _ t => Unless Armed t) t) :
    wp (m >>= f) (fun _ t => Unless Armed t) s :=
  wp_bind_of_stable all here (fun _ => Running.armed) next

theorem wp_cancel (ret : Nat) (here : Unless (Running curr) s) :
    wp (do
      setTask curr fun p => { p with alarmTicks := 0, alarm := 0 }
      point M hz
      pure ret) (fun _ t => Unless Armed t) s := by
  refine wp_running (stable_setTask fun _ => .inl rfl) here fun _ t here' => ?_
  exact wp_running (stable_point (steady_running curr)) here' fun _ u here'' => Running.armed here''

theorem sysAlarm_armed (delay : Nat) (here : Unless (Running curr) s) :
    wp (sysAlarm M hz curr delay) (fun _ t => Unless Armed t) s := by
  rw [sysAlarm, wp_bind, wp_get, after_ok]
  generalize toLong M s.time = tm
  generalize s.ticks = tc
  refine wp_running (stable_point (steady_running curr)) here fun _ t1 here1 => ?_
  refine wp_running (stable_withdraw curr _) here1 fun ret t2 here2 => ?_
  refine wp_running (stable_point (steady_running curr)) here2 fun _ t3 here3 => ?_
  split
  · exact wp_cancel ret here3
  · obtain ⟨but, given⟩ := given_setTask (f := fun p => { p with alarm := toLong M (tm + delay), alarmTicks := tc })
      here3 fun _ => ⟨rfl, rfl⟩
    rw [setTask, wp_bind, wp_modify, after_ok, wp_bind, wp_modify, after_ok, wp_bind]
    exact wp_point steady_armed (armed_setAlarm but given fun _ => .inr ⟨rfl, rfl⟩) fun t5 here5 => here5

theorem giveAlarm_set (M : Machine) (hz : Nat) (tm : Int) (atc : Nat) : ∃ alarm alarmTicks, ∀ p,
    (giveAlarm M hz tm atc p).alarm = alarm ∧ (giveAlarm M hz tm atc p).alarmTicks = alarmTicks := by
  by_cases late : hz ≤ atc
  · refine ⟨toLong M (tm + (atc / hz : Nat)), atc % hz, fun p => ?_⟩
    rw [giveAlarm, if_pos late]
    exact ⟨rfl, rfl⟩
  · refine ⟨toLong M tm, atc, fun p => ?_⟩
    rw [giveAlarm, if_neg late]
    exact ⟨rfl, rfl⟩

theorem sysUalarm_armed (bound : curr < taskMax) (uDelay rep : Nat) (ticksFirst : Bool)
    (here : Unless (Running curr) s) :
    wp (sysUalarm M hz curr uDelay rep ticksFirst) (fun _ t => Unless Armed t) s := by
  rw [sysUalarm]
  split
  · exact Running.armed here
  rw [wp_bind, wp_get, after_ok]
  generalize s.time = tm
  generalize s.ticks = tc
  refine wp_running (stable_point (steady_running curr)) here fun _ t1 here1 => ?_
  refine wp_running (stable_withdraw curr _) here1 fun ret t2 here2 => ?_
  refine wp_running (stable_point (steady_running curr)) here2 fun _ t3 here3 => ?_
  split
  · exact wp_cancel ret here3
  · refine wp_running (stable_setTask fun _ => .inr ⟨rfl, rfl⟩) here3 fun _ t4 here4 => ?_
    refine wp_running (stable_point (steady_running curr)) here4 fun _ t5 here5 => ?_
    obtain ⟨alarm, alarmTicks, set⟩ := giveAlarm_set M hz tm (toUnsigned (tc + delayTicks hz uDelay : Nat))
    obtain ⟨but, given⟩ := given_setTask here5 set
    rw [setTask, wp_bind, wp_modify, after_ok, wp_bind]
    refine wp_point (steady_and (steady_armedBut curr) (steady_given bound alarm alarmTicks)) ⟨but, given⟩ ?_
    rintro t6 ⟨but', given'⟩
    rw [after_ok, wp_bind]
    refine wp_mono (wp_setCurrAlarm bound ticksFirst but' given') fun r t7 armed => ?_
    rcases r with _ | _ | _
    · rw [after_ok, wp_bind]
      exact wp_point steady_armed armed fun t8 armed' => armed'
    · exact armed
    · exact armed

theorem running_of_live (here : Unless Armed s) (live : Live s curr) (due : List Nat) :
    Unless (Running curr) { s with due := due } := by
  obtain ⟨_, p, task, _⟩ := live
  intro never
  exact ⟨here never, p, task⟩

theorem armed_of_wp {α : Type} {m : Call α} (all : wp m (fun _ t => Unless Armed t) s) {r : Res Errno Unit}
    (run : (m >>= fun _ => pure ()) s = (r, t)) : Unless Armed t := by
  have same : (m s).2 = t := (bind_pure_snd ..).symm.trans (congrArg Prod.snd run)
  exact same ▸ all

theorem armed_update (quiet : ∀ p, q = some p → p.alarm = 0) (here : Unless Armed s) :
    Unless Armed { s with task := update s.task i q } := by
  intro never j bound p task pending
  have task' : update s.task i q j = some p := task
  by_cases eq : j = i
  · rw [eq, update_self] at task'
    exact absurd (quiet p task') pending
  · rw [update_of_ne eq] at task'
    exact here never j bound p task' pending

theorem armed_step (here : Unless Armed s) {step : Step} (able : step.able s) {r : Res Errno Unit}
    (run : step.run M hz s = (r, t)) : Unless Armed t := by
  cases step with
  | alarm curr delay due => exact armed_of_wp (sysAlarm_armed delay (running_of_live here able due)) run
  | ualarm curr uDelay rep ticksFirst due =>
    exact armed_of_wp (sysUalarm_armed able.1 uDelay rep ticksFirst (running_of_live here able due)) run
  | exit curr =>
    have kept : Stable (Unless (Running curr)) (taskExit curr) :=
      stable_setTask (f := fun p => { p with exited := true }) fun _ => .inr ⟨rfl, rfl⟩
    have here' : Unless (Running curr) (taskExit curr s).2 := kept s (running_of_live here able s.due)
    have run' : (taskExit curr s).2 = t := congrArg Prod.snd run
    rw [← run']
    exact Running.armed here'
  | creat i =>
    cases run
    refine armed_update ?_ here
    rintro p ⟨⟩
    rfl
  | put i =>
    cases run
    refine armed_update ?_ here
    rintro p ⟨⟩
  | tick =>
    cases run
    exact (steady_armed (M := M)).1 s here

theorem armed_boot : Unless Armed boot := by
  have empty : Unless Armed { boot with task := fun _ => none } := by
    intro _ i _ p task
    cases task
  refine armed_update (s := { boot with task := fun _ => none }) ?_ empty
  rintro p ⟨⟩
  rfl

theorem reach_armed (reach : Reach M hz s) : Unless Armed s := by
  induction reach with
  | boot => exact armed_boot
  | step before step able run ih => exact armed_step ih able run

/- A clock interrupt -/

/-- In every reached state every alarm is covered by the next one, and the next clock interrupt sends the task one
    SIGALRM if its alarm is due, and leaves it alone if not. It has to be that no call of `set_alarm` had the time 0. -/
theorem alarms_kept (reach : Reach M hz s) (never : s.zeroed = false) {i : Nat} {p : Task} (bound : i < taskMax)
    (task : s.task i = some p) (pending : p.alarm ≠ 0) :
    (s.alarmTime ≠ 0 ∧ Upto s.alarmTime s.alarmTicks p.alarm p.alarmTicks) ∧
    (Upto p.alarm p.alarmTicks (clockIntr M hz s).time (clockIntr M hz s).ticks →
      ∃ q, (clockIntr M hz s).task i = some q ∧ Rung M hz (clockIntr M hz s).time (clockIntr M hz s).ticks p q) ∧
    (¬ Upto p.alarm p.alarmTicks (clockIntr M hz s).time (clockIntr M hz s).ticks →
      (clockIntr M hz s).task i = some p) := by
  have armed := reach_armed reach never
  have next := (clockIntr_ticked M hz s).rings i bound (armed i bound)
  rw [task, map_some] at next
  refine ⟨armed i bound p task pending, fun due => ?_, fun not => ?_⟩
  · rw [rung, if_neg pending, if_pos due] at next
    exact ⟨_, next, rearm_rung ..⟩
  · rw [rung, if_neg pending, if_neg not] at next
    exact next

theorem Reach.next (reach : Reach M hz s) (step : Step) (able : step.able s) : Reach M hz (step.run M hz s).2 :=
  .step (r := (step.run M hz s).1) reach step able rfl

def waiting : State := ((Step.alarm 0 10 []).run .amd64 clockHz boot).2

theorem alarms_kept_sample :
    (waiting.alarmTime ≠ 0 ∧ Upto waiting.alarmTime waiting.alarmTicks 11 0) ∧
    (Upto 11 0 (clockIntr .amd64 clockHz waiting).time (clockIntr .amd64 clockHz waiting).ticks →
      ∃ q, (clockIntr .amd64 clockHz waiting).task 0 = some q ∧
        Rung .amd64 clockHz (clockIntr .amd64 clockHz waiting).time (clockIntr .amd64 clockHz waiting).ticks
          ⟨11, 0, 0, false, 0⟩ q) ∧
    (¬ Upto 11 0 (clockIntr .amd64 clockHz waiting).time (clockIntr .amd64 clockHz waiting).ticks →
      (clockIntr .amd64 clockHz waiting).task 0 = some ⟨11, 0, 0, false, 0⟩) :=
  alarms_kept (Reach.boot.next (.alarm 0 10 []) ⟨by decide, newTask, rfl, rfl⟩) (by decide) (i := 0)
    (p := ⟨11, 0, 0, false, 0⟩) (by decide) rfl (by decide)

def crowd : State :=
  let s := ((Step.creat 2).run .amd64 clockHz ((Step.creat 1).run .amd64 clockHz boot).2).2
  ((Step.alarm 1 10 []).run .amd64 clockHz ((Step.ualarm 0 4000 0 false []).run .amd64 clockHz s).2).2

/-- The other asks for an alarm after one microsecond, and gets it before `set_alarm` is called. -/
def late : State := ((Step.ualarm 2 1 0 false [0, 0, 0, 1]).run .amd64 clockHz crowd).2

theorem alarms_not_kept :
    Reach .amd64 clockHz late ∧ Live late 1 ∧ (late.task 1).map (fun p => (p.alarm, p.alarmTicks)) = some (11, 0) ∧
      late.alarmTime = 0 := by
  have crowded : Reach .amd64 clockHz crowd :=
    (((Reach.boot.next (.creat 1) ⟨by decide, rfl⟩).next (.creat 2) ⟨by decide, rfl⟩).next (.ualarm 0 4000 0 false [])
      ⟨by decide, newTask, rfl, rfl⟩).next (.alarm 1 10 []) ⟨by decide, newTask, rfl, rfl⟩
  refine ⟨crowded.next (.ualarm 2 1 0 false [0, 0, 0, 1]) ⟨by decide, newTask, rfl, rfl⟩, ?_, ?_, ?_⟩
  · exact ⟨by decide, ⟨11, 0, 0, false, 0⟩, rfl, rfl⟩
  · rfl
  · decide +kernel

end Alarm
