import Mathlib.Tactic.Linarith
import Newsys.Kern.Alarm

/- Repeating alarms (sys_ualarm in kern/syscall.c, chk_alarm and clock_intr in kern/clock.c), and which steps call
   set_alarm with the time 0. As in `Alarm`, clock interrupts arrive within the call, too. A run is made of clock
   interrupts and of what other tasks do. -/
namespace Ualarm
open Cmds Cmd Alarm Kern Function List Nat Option

/-- A run with so many clock interrupts. Other tasks change, and set alarms of their own. Their `alarm_repeat` is an
    `unsigned` by a million. -/
inductive Run (M : Machine) (hz i : Nat) : Nat → State → State → Prop
  | start (s : State) : Run M hz i 0 s s
  | tick {n : Nat} {s t : State} (before : Run M hz i n s t) : Run M hz i (n + 1) s (clockIntr M hz t)
  | other {n j : Nat} {s t : State} {q : Option Task} (before : Run M hz i n s t) (other : j ≠ i)
      (small : ∀ p, q = some p → p.alarmRepeat < 4295) : Run M hz i n s { t with task := update t.task j q }
  | armed {n ticks : Nat} {time : Int} {s t : State} (before : Run M hz i n s t) (some : time ≠ 0) :
      Run M hz i n s (setAlarm time ticks t)

section Times
variable {M : Machine} {hz : Nat}

theorem toLong_id {n : Int} (low : 0 ≤ n) (high : n < M.word / 2) : toLong M n = n := by
  rw [toLong, Int.emod_eq_of_lt (by omega) (by omega)]
  omega

theorem toUnsigned_id {n : Nat} (small : n < 2 ^ 32) : toUnsigned n = n := by
  rw [toUnsigned]
  omega

def pos (hz : Nat) (time : Int) (ticks : Nat) : Int := time * hz + ticks

theorem upto_iff (lt : t < hz) (lt' : u < hz) : Upto a t b u ↔ pos hz a t ≤ pos hz b u := by
  have step : ∀ {a b : Int}, a < b → a * hz + hz ≤ b * hz := by
    intro a b less
    have le := Int.mul_le_mul_of_nonneg_right (show a + 1 ≤ b from less) (Int.natCast_nonneg hz)
    rw [add_mul, one_mul] at le
    exact le
  unfold Alarm.Upto pos
  constructor
  · rintro (⟨rfl, le⟩ | less)
    · omega
    · have le := step less
      omega
  · intro le
    rcases lt_trichotomy a b with less | rfl | more
    · exact .inr less
    · exact .inl ⟨rfl, by omega⟩
    · have le' := step more
      omega

theorem pos_split (time : Int) (later : Nat) :
    pos hz (time + (later / hz : Nat)) (later % hz) = pos hz time later := by
  have parts : ((later / hz : Nat) : Int) * hz + (later % hz : Nat) = later := by
    exact_mod_cast div_add_mod' later hz
  unfold pos
  rw [add_mul]
  omega

variable {ticks : Nat}

theorem seconds_le (two : 2 ≤ hz) {more : Nat} (lt : ticks < hz) (small : more < 4295) :
    (ticks + more) / hz < 2149 := by
  rw [div_lt_iff_lt_mul (by omega)]
  omega

structure Early (M : Machine) (hz : Nat) (time : Int) (ticks : Nat) : Prop where
  two : 2 ≤ hz
  most : hz < 2 ^ 31
  start : 0 < time
  room : time + 2200 < M.word / 2
  ticks : ticks < hz

structure After (hz : Nat) (time : Int) (ticks more : Nat) (q : Task) : Prop where
  alarm : 0 < q.alarm
  below : q.alarmTicks < hz
  due : pos hz q.alarm q.alarmTicks = pos hz time ticks + more

theorem giveAlarm_after {time : Int} {more : Nat} (early : Early M hz time ticks) (small : more < 4295) (p : Task) :
    After hz time ticks more (giveAlarm M hz time (toUnsigned ((ticks + more : Nat) : Int)) p) := by
  obtain ⟨two, most, start, room, lt⟩ := early
  have seconds := seconds_le two lt small
  have nonneg : (0 : Int) ≤ ((ticks + more) / hz : Nat) := Int.natCast_nonneg _
  have eq : giveAlarm M hz time (toUnsigned ((ticks + more : Nat) : Int)) p =
      { p with alarmTicks := (ticks + more) % hz, alarm := time + ((ticks + more) / hz : Nat) } := by
    rw [toUnsigned_id (by omega), giveAlarm, toLong_id (by omega) (by omega), toLong_id (by omega) (by omega)]
    split
    · rfl
    · rename_i less
      rw [mod_eq_of_lt (by omega), div_eq_of_lt (by omega), cast_zero, add_zero]
  rw [eq]
  refine ⟨by dsimp only; omega, mod_lt _ (by omega), ?_⟩
  dsimp only
  rw [pos_split]
  unfold pos
  push_cast
  omega

theorem giveAlarm_alarmRepeat (M : Machine) (hz : Nat) (tm : Int) (atc : Nat) (p : Task) :
    (giveAlarm M hz tm atc p).alarmRepeat = p.alarmRepeat := by
  rw [giveAlarm]
  split
  · rfl
  · rfl

theorem rearm_after {time : Int} (early : Early M hz time ticks) {p : Task} (some : p.alarmRepeat ≠ 0)
    (small : p.alarmRepeat < 4295) : After hz time ticks p.alarmRepeat (rearm M hz time ticks p) := by
  have seconds : toLong M time = time := by
    obtain ⟨two, most, start, room, lt⟩ := early
    exact toLong_id (by omega) (by omega)
  have eq : rearm M hz time ticks p = giveAlarm M hz time (toUnsigned ((ticks + p.alarmRepeat : Nat) : Int))
      { p with signals := p.signals + 1 } := by
    rw [rearm, giveAlarm]
    dsimp only
    rw [if_neg some, seconds]
    push_cast
    rfl
  rw [eq]
  exact giveAlarm_after early small _

end Times

/- A clock interrupt -/

section Tick
variable {M : Machine} {hz i : Nat} {s t : State} {K : Option Task → Prop}

def Small (s : State) : Prop := ∀ i p, s.task i = some p → p.alarmRepeat < 4295

theorem Early.rearms (early : Early M hz s.time s.ticks) (small : Small s) : Rearms M hz s := by
  intro i p here again zero
  have positive := (rearm_after early again (small i p here)).alarm
  rw [((rearm_rung ..).again again).2] at positive
  omega

theorem advance_pos (lt : s.ticks < hz) : (advance hz s).ticks < hz ∧ s.time ≤ (advance hz s).time ∧
    pos hz (advance hz s).time (advance hz s).ticks = pos hz s.time s.ticks + 1 := by
  rw [advance]
  split
  · have full : s.ticks + 1 = hz := by omega
    refine ⟨by dsimp only; omega, by dsimp only; omega, ?_⟩
    unfold pos
    dsimp only
    rw [add_mul, ← full]
    push_cast
    omega
  · refine ⟨by dsimp only; omega, by dsimp only; omega, ?_⟩
    unfold pos
    dsimp only
    push_cast
    omega

theorem clockIntr_keeps (rings : ∀ time ticks q, K q → K (q.map (rung M hz time ticks))) (here : K (s.task i)) :
    K ((clockIntr M hz s).task i) := by
  rcases (clockIntr_ticked M hz s).task i with same | rung
  · rw [same]
    exact here
  · rw [rung]
    exact rings _ _ _ here

def Every (P : Nat → Prop) (q : Option Task) : Prop := ∀ p, q = some p → P p.alarmRepeat

theorem every_map {P : Nat → Prop} {f : Task → Task} (same : ∀ p, (f p).alarmRepeat = p.alarmRepeat) (q : Option Task)
    (all : Every P q) : Every P (q.map f) := by
  intro p there
  obtain ⟨q, here, rfl⟩ := map_eq_some_iff.mp there
  rw [same q]
  exact all q here

theorem small_tick (small : Small s) : Small (clockIntr M hz s) := fun i =>
  clockIntr_keeps (K := Every (· < 4295)) (fun time ticks => every_map (rung_repeat M hz time ticks)) (small i)

end Tick

/- A task that does not repeat its alarm -/

section Once
variable {M : Machine} {hz i n : Nat} {s t : State} {p : Task} {K : Option Task → Prop} {P : State → Prop}

theorem wp_point_run {Q : Res Errno Unit → State → Prop} (none : s.due = [] → Q (.ok ()) s)
    (some : ∀ n due, s.due = n :: due → Q (.ok ()) { (clockIntr M hz)^[n] s with due := due }) :
    wp (point M hz) Q s := by
  rw [point, wp_bind, wp_get, after_ok]
  cases eq : s.due with
  | nil => exact none eq
  | cons n due => exact some n due eq

theorem stable_point (tick : ∀ s, P s → P (clockIntr M hz s)) (later : ∀ s due, P s → P { s with due := due }) :
    Stable P (point M hz) := fun _ here =>
  wp_point_run (Q := fun _ t => P t) (fun _ => here) fun n due _ => later _ due (Iterate.rec P here tick n)

def sent (p : Task) : Task := { p with signals := p.signals + 1, alarm := 0 }

/-- The task has its alarm still, or has been sent one SIGALRM and has no alarm. -/
def Once (p : Task) (q : Option Task) : Prop := q = some p ∨ q = some (sent p)

theorem once_rung (once : p.alarmRepeat = 0) (time : Int) (ticks : Nat) (q : Option Task) (known : Once p q) :
    Once p (q.map (rung M hz time ticks)) := by
  rcases known with rfl | rfl
  · rw [map_some, rung]
    split
    · exact .inl rfl
    · split
      · exact .inr (congrArg some (if_pos once))
      · exact .inl rfl
  · exact .inr (congrArg some (if_pos rfl))

/-- With no `alarm_repeat` there is one SIGALRM at most, and no alarm after it. -/
theorem run_once (once : p.alarmRepeat = 0) (task : s.task i = some p) (run : Run M hz i n s t) :
    Once p (t.task i) := by
  induction run with
  | start => exact .inl task
  | tick before ih => exact clockIntr_keeps (once_rung once) (ih task)
  | other before other small ih =>
    refine (congrArg (Once p) ?_).mp (ih task)
    exact (update_of_ne (Ne.symm other) ..).symm
  | armed before some ih =>
    rw [(setAlarm_lowered ..).task]
    exact ih task

/-- A call that is not to repeat the alarm, or rounds the ticks down to none. -/
theorem sysUalarm_silent (delay : uDelay ≠ 0) (never : rep = 0 ∨ (uDelay * hz + hz - 1) % 2 ^ 32 < 1000000)
    (ticksFirst : Bool) :
    wp (sysUalarm M hz i uDelay rep ticksFirst) (fun r t => ∀ v, r = .ok v → Every (· = 0) (t.task i)) s := by
  have setTask : ∀ {f : Task → Task}, (∀ p, (f p).alarmRepeat = p.alarmRepeat) →
      Stable (fun s => Every (· = 0) (s.task i)) (setTask i f) := fun same => stable_modify fun s silent => by
    dsimp only
    rw [update_self]
    exact every_map same _ silent
  have point : Stable (fun s => Every (· = 0) (s.task i)) (point M hz) :=
    stable_point (fun s => clockIntr_keeps fun time ticks => every_map (rung_repeat M hz time ticks))
      fun _ _ here => here
  rw [sysUalarm]
  split
  · rintro v ⟨⟩
  have any : ∀ {α : Type} {m : Call α}, Stable (fun _ => True) m := fun _ _ => trivial
  refine wp_ok_of_stable any trivial fun s0 _ _ => wp_ok_of_stable any trivial fun _ _ _ => ?_
  refine wp_ok_of_stable any trivial fun ret _ _ => wp_ok_of_stable any trivial fun _ t _ => ?_
  rw [Alarm.setTask, wp_bind, wp_modify, after_ok]
  refine wp_of_stable (I := fun s => Every (· = 0) (s.task i)) ?_ ?_ fun r t silent _ _ => silent
  · refine stable_bind point fun _ => stable_bind (setTask fun p => giveAlarm_alarmRepeat ..) fun _ => ?_
    refine stable_bind point fun _ => stable_bind ?_ fun _ => stable_bind point fun _ => stable_pure _
    refine stable_bind (stable_currTask _ i) fun p => stable_bind point fun _ => ?_
    refine stable_bind (stable_currTask _ i) fun q => stable_bind point fun _ => ?_
    refine stable_modify fun s silent => ?_
    split
    · rw [(setAlarm_lowered ..).task]
      exact silent
    · rw [(setAlarm_lowered ..).task]
      exact silent
  · dsimp only
    rw [update_self]
    intro p there
    obtain ⟨q, _, rfl⟩ := map_eq_some_iff.mp there
    dsimp only
    rcases never with rfl | small
    · rfl
    · split
      · rfl
      · exact div_eq_of_lt small

end Once

section Held
variable {M : Machine} {hz i r bound n : Nat} {low : Int} {s t : State}

/-- The clock goes, and no task repeats its alarm too rarely. -/
structure Calm (hz : Nat) (s : State) : Prop where
  start : 0 < s.time
  ticks : s.ticks < hz
  small : Small s

theorem calm_next (calm : Calm hz s) : Calm hz (clockIntr M hz s) ∧
    pos hz (clockIntr M hz s).time (clockIntr M hz s).ticks = pos hz s.time s.ticks + 1 := by
  obtain ⟨start, ticks, small⟩ := calm
  obtain ⟨ticks', later, next⟩ := advance_pos ticks
  obtain ⟨now, now'⟩ := (clockIntr_ticked M hz s).now
  refine ⟨⟨by omega, by omega, small_tick small⟩, ?_⟩
  rw [now, now']
  exact next

theorem calm_tick (two : 2 ≤ hz) (most : hz < 2 ^ 31) (calm : Calm hz s)
    (room : (clockIntr M hz s).time + 2200 < M.word / 2) :
    Calm hz (clockIntr M hz s) ∧ Rearms M hz (advance hz s) ∧
      Early M hz (clockIntr M hz s).time (clockIntr M hz s).ticks ∧
      pos hz (clockIntr M hz s).time (clockIntr M hz s).ticks = pos hz s.time s.ticks + 1 := by
  obtain ⟨calm', next⟩ := calm_next (M := M) calm
  obtain ⟨now, now'⟩ := (clockIntr_ticked M hz s).now
  have early : Early M hz (clockIntr M hz s).time (clockIntr M hz s).ticks :=
    ⟨two, most, calm'.start, room, calm'.ticks⟩
  refine ⟨calm', ?_, early, next⟩
  rw [now, now'] at early
  refine early.rearms fun i p here => calm.small i p ?_
  rw [← (advance_same hz s).2.2.1]
  exact here

/-- The task repeats its alarm every `r` ticks. The next one comes in so many ticks at the latest, and not before
    `low`. -/
structure Repeating (hz i r bound : Nat) (low : Int) (s : State) (p : Task) : Prop where
  calm : Calm hz s
  task : s.task i = some p
  alarm : 0 < p.alarm
  below : p.alarmTicks < hz
  again : p.alarmRepeat = r
  past : low ≤ pos hz s.time s.ticks
  since : low ≤ pos hz p.alarm p.alarmTicks
  soon : pos hz p.alarm p.alarmTicks ≤ pos hz s.time s.ticks + bound

variable {p : Task}

theorem repeating_tick (two : 2 ≤ hz) (most : hz < 2 ^ 31) (slot : i < taskMax) (some : r ≠ 0) (le : r ≤ bound)
    (here : Repeating hz i r bound low s p) (room : (clockIntr M hz s).time + 2200 < M.word / 2) :
    ∃ q, Repeating hz i r bound low (clockIntr M hz s) q ∧ (q = p ∨ ArmedFor (clockIntr M hz s) i) ∧
      (ArmedFor s i → ArmedFor (clockIntr M hz s) i ∧
        (pos hz p.alarm p.alarmTicks ≤ pos hz s.time s.ticks + 1 → q.signals = p.signals + 1 ∧
          pos hz q.alarm q.alarmTicks = pos hz s.time s.ticks + 1 + r) ∧
        (pos hz s.time s.ticks + 1 < pos hz p.alarm p.alarmTicks → q = p)) := by
  obtain ⟨calm, task, alarm, below, again, past, since, soon⟩ := here
  obtain ⟨calm', rearms, early, next⟩ := calm_tick two most calm room
  have ticked := clockIntr_ticked M hz s
  have small := calm.small i p task
  -- the alarm is left alone, or set again
  have kept : (clockIntr M hz s).task i = Option.some p → Repeating hz i r bound low (clockIntr M hz s) p := by
    intro same
    exact ⟨calm', same, alarm, below, again, by omega, since, by omega⟩
  by_cases due : Upto p.alarm p.alarmTicks (clockIntr M hz s).time (clockIntr M hz s).ticks
  · have rings : rung M hz (clockIntr M hz s).time (clockIntr M hz s).ticks p =
        rearm M hz (clockIntr M hz s).time (clockIntr M hz s).ticks p := by
      rw [rung, if_neg (by omega), if_pos due]
    have after := rearm_after early (by omega) small
    have signals := (rearm_rung M hz (clockIntr M hz s).time (clockIntr M hz s).ticks p).signals
    have again' := rearm_repeat M hz (clockIntr M hz s).time (clockIntr M hz s).ticks p
    have due := (upto_iff below early.ticks).mp due
    have later := after.due
    rw [again] at later
    have set : (clockIntr M hz s).task i = (s.task i).map (rung M hz (clockIntr M hz s).time (clockIntr M hz s).ticks) →
        Repeating hz i r bound low (clockIntr M hz s)
          (rearm M hz (clockIntr M hz s).time (clockIntr M hz s).ticks p) := by
      intro there
      rw [task, map_some, rings] at there
      exact ⟨calm', there, after.alarm, after.below, again'.trans again, by omega, by omega, by omega⟩
    by_cases covered : ArmedFor s i
    · have armed := ticked.armed (.inr rearms) i slot covered
      exact ⟨_, set (ticked.rings i slot covered), .inr armed, fun _ =>
        ⟨armed, fun _ => ⟨signals, by omega⟩, fun less => absurd due (by omega)⟩⟩
    · by_cases same : (clockIntr M hz s).task i = s.task i
      · exact ⟨p, kept (same.trans task), .inl rfl, fun covered' => absurd covered' covered⟩
      · have armed := (ticked.fresh (.inr rearms) i slot).resolve_right fun eq => same (congrFun eq i)
        exact ⟨_, set ((ticked.task i).resolve_left same), .inr armed, fun covered' => absurd covered' covered⟩
  · have quiet : rung M hz (clockIntr M hz s).time (clockIntr M hz s).ticks p = p := by
      rw [rung, if_neg (by omega), if_neg due]
    have due := mt (upto_iff below early.ticks).mpr due
    have same : (clockIntr M hz s).task i = Option.some p := by
      rcases ticked.task i with same | there
      · exact same.trans task
      · rw [there, task, map_some, quiet]
    exact ⟨p, kept same, .inl rfl, fun armed =>
      ⟨ticked.armed (.inr rearms) i slot armed, fun le => absurd (by omega) due, fun _ => rfl⟩⟩

def InTime (M : Machine) (P : State → Prop) (s : State) : Prop := s.time + 4400 < M.word / 2 → P s

theorem time_le (M : Machine) (hz : Nat) (s : State) : s.time ≤ (clockIntr M hz s).time := by
  rw [(clockIntr_ticked M hz s).now.1, advance]
  split
  · exact Int.le_add_one (le_refl _)
  · exact le_refl _

def Steady (M : Machine) (hz : Nat) (P : State → Prop) : Prop :=
  (∀ s, P s → (clockIntr M hz s).time + 4400 < M.word / 2 → P (clockIntr M hz s)) ∧
    ∀ s later, P s → P { s with due := later }

theorem wp_point (steady : Steady M hz P) (here : InTime M P s)
    (next : ∀ t, InTime M P t → Q (.ok ()) t) : wp (point M hz) Q s := by
  have tick : ∀ s, InTime M P s → InTime M P (clockIntr M hz s) := by
    refine fun s here room => steady.1 s (here ?_) room
    have le := time_le M hz s
    omega
  refine wp_point_run (fun _ => next s here) fun n later _ => next _ fun room => ?_
  exact steady.2 _ later (Iterate.rec (InTime M P) here tick n room)

structure Present (hz i : Nat) (low : Int) (P : Nat → Prop) (s : State) : Prop where
  calm : Calm hz s
  past : low ≤ pos hz s.time s.ticks
  task : ∃ p, s.task i = some p ∧ P p.alarmRepeat

theorem steady_present (P : Nat → Prop) : Steady M hz (Present hz i low P) := by
  constructor
  · rintro s ⟨calm, past, p, task, known⟩ room
    obtain ⟨calm', next⟩ := calm_next (M := M) calm
    refine ⟨calm', by omega, ?_⟩
    rcases (clockIntr_ticked M hz s).task i with same | rings
    · exact ⟨p, same.trans task, known⟩
    · rw [task] at rings
      refine ⟨_, rings, ?_⟩
      rw [rung_repeat]
      exact known
  · rintro s later ⟨calm, past, task⟩
    exact ⟨⟨calm.start, calm.ticks, calm.small⟩, past, task⟩

/-- The task repeats its alarm. It is covered, or has the first alarm still; then what has been read is known. -/
def Held (hz i r bound : Nat) (low : Int) (p₀ : Task) (read known : Prop) (s : State) : Prop :=
  known ∧ ∃ p, Repeating hz i r bound low s p ∧ (ArmedFor s i ∨ p = p₀ ∧ read)

theorem steady_held (two : 2 ≤ hz) (most : hz < 2 ^ 31) (slot : i < taskMax) (some : r ≠ 0) (le : r ≤ bound) (p₀ : Task)
    (read known : Prop) :
    Steady M hz (Held hz i r bound low p₀ read known) := by
  constructor
  · rintro s ⟨known, p, here, given⟩ room
    have room' : (clockIntr M hz s).time + 2200 < M.word / 2 := by omega
    obtain ⟨q, there, change, armed⟩ := repeating_tick two most slot some le here room'
    refine ⟨known, q, there, ?_⟩
    rcases given with covered | ⟨rfl, read⟩
    · exact .inl (armed covered).1
    · exact change.symm.imp_right fun eq => ⟨eq, read⟩
  · rintro s later ⟨known, p, ⟨calm, task, alarm, below, again, past, since, soon⟩, given⟩
    exact ⟨known, p, ⟨⟨calm.start, calm.ticks, calm.small⟩, task, alarm, below, again, past, since, soon⟩, given⟩

variable {P : Nat → Prop}

theorem present_setTask (here : Present hz i low P s)
    (keep : ∀ p, P p.alarmRepeat → p.alarmRepeat < 4295 → Q (f p).alarmRepeat ∧ (f p).alarmRepeat < 4295) :
    Present hz i low Q { s with task := update s.task i ((s.task i).map f) } := by
  obtain ⟨⟨start, ticks, small⟩, past, p, task, known⟩ := here
  obtain ⟨known', small'⟩ := keep p known (small i p task)
  refine ⟨⟨start, ticks, fun j q there => ?_⟩, past, f p, ?_, known'⟩
  · change update s.task i ((s.task i).map f) j = some q at there
    rw [update_apply] at there
    split at there
    · rw [task] at there
      cases there
      exact small'
    · exact small j q there
  · change update s.task i ((s.task i).map f) i = some (f p)
    rw [update_self, task]
    rfl

theorem wp_currTask_present
    (here : InTime M (Present hz i low P) s) (none : InTime M (fun _ => False) s → Q .crash s)
    (next : ∀ p, s.task i = some p → Q (.ok p) s) : wp (currTask i) Q s := by
  refine wp_currTask (fun empty => none fun room => ?_) next
  obtain ⟨p, task, _⟩ := (here room).task
  rw [empty] at task
  cases task

theorem wp_withdraw (left : Task → Nat) (here : InTime M (Present hz i low P) s)
    (none : ∀ t, InTime M (fun _ => False) t → Q .crash t)
    (next : ∀ v t, InTime M (Present hz i low P) t → Q (.ok v) t) : wp (withdraw M hz i left) Q s := by
  have steady : Steady M hz (Present hz i low P) := steady_present P
  rw [withdraw, wp_bind]
  refine wp_currTask_present here (none s) fun p task => ?_
  rw [after_ok]
  split
  · exact next 0 s here
  rw [wp_bind]
  refine wp_point steady here fun t here' => ?_
  rw [after_ok, wp_bind]
  refine wp_currTask_present here' (none t) fun q task' => ?_
  rw [after_ok, wp_bind]
  refine wp_point steady here' fun u here'' => ?_
  rw [after_ok, setTask, wp_bind, wp_modify, after_ok]
  exact next _ _ fun room => present_setTask (here'' room) fun _ known small => ⟨known, small⟩

theorem repeating_setAlarm (here : Repeating hz i r bound low s p)
    (nonzero : time ≠ 0) (given : ArmedFor s i ∨ p.alarm = time ∧ p.alarmTicks = ticks) :
    Repeating hz i r bound low (setAlarm time ticks s) p ∧ ArmedFor (setAlarm time ticks s) i := by
  obtain ⟨⟨start, tick, small⟩, task, alarm, below, again, past, since, soon⟩ := here
  have lowered := setAlarm_lowered time ticks s
  obtain ⟨now, now'⟩ := lowered.now
  constructor
  · refine ⟨⟨by rw [now]; exact start, by rw [now']; exact tick, fun k q there => ?_⟩, ?_, alarm, below, again, ?_,
      since, ?_⟩
    · rw [lowered.task] at there
      exact small k q there
    · rw [lowered.task]
      exact task
    · rw [now, now']
      exact past
    · rw [now, now']
      exact soon
  · rcases given with armed | ⟨rfl, rfl⟩
    · exact lowered.armedFor nonzero armed
    · intro q there _
      rw [lowered.task, task] at there
      cases there
      exact lowered.set nonzero

theorem wp_currTask_held {read known : Prop}
    (here : InTime M (Held hz i r bound low p₀ read known) s) (none : InTime M (fun _ => False) s → Q .crash s)
    (next : ∀ p, InTime M (Held hz i r bound low p₀ (read ∧ p = p₀) (known ∧ p.alarm ≠ 0)) s → Q (.ok p) s) :
    wp (currTask i) Q s := by
  refine wp_currTask (fun empty => none fun room => ?_) fun p task => next p fun room => ?_
  · obtain ⟨_, p, there, _⟩ := here room
    have task := there.task
    rw [empty] at task
    cases task
  · obtain ⟨known, q, there, given⟩ := here room
    have eq : p = q := Option.some.inj (task.symm.trans there.task)
    have positive := there.alarm
    refine ⟨⟨known, ?_⟩, q, there, given.imp_right fun first => ⟨first.1, first.2, eq.trans first.1⟩⟩
    rw [eq]
    omega

theorem wp_setCurrAlarm (two : 2 ≤ hz) (most : hz < 2 ^ 31) (slot : i < taskMax) (some : r ≠ 0) (le : r ≤ bound)
    (ticksFirst : Bool)
    (here : InTime M (Held hz i r bound low p₀ True True) s) (none : ∀ t, InTime M (fun _ => False) t → Q .crash t)
    (next : ∀ t, InTime M (Held hz i r bound low p₀ False True) t → Q (.ok ()) t) :
    wp (setCurrAlarm M hz i ticksFirst) Q s := by
  rw [setCurrAlarm, wp_bind]
  refine wp_currTask_held here (none s) fun p here => ?_
  rw [after_ok, wp_bind]
  refine wp_point (steady_held two most slot some le ..) here fun t here => ?_
  rw [after_ok, wp_bind]
  refine wp_currTask_held here (none t) fun q here => ?_
  rw [after_ok, wp_bind]
  refine wp_point (steady_held two most slot some le ..) here fun u here => ?_
  rw [after_ok, wp_modify]
  refine next _ fun room => ?_
  cases ticksFirst with
  | true =>
    rw [if_pos rfl] at room ⊢
    rw [(setAlarm_lowered ..).now.1] at room
    obtain ⟨⟨_, nonzero⟩, v, there, given⟩ := here room
    have known : ArmedFor u i ∨ v.alarm = q.alarm ∧ v.alarmTicks = p.alarmTicks := by
      refine given.imp_right ?_
      rintro ⟨rfl, ⟨_, rfl⟩, rfl⟩
      exact ⟨rfl, rfl⟩
    obtain ⟨there', armed⟩ := repeating_setAlarm there nonzero known
    exact ⟨trivial, v, there', .inl armed⟩
  | false =>
    rw [if_neg Bool.false_ne_true] at room ⊢
    rw [(setAlarm_lowered ..).now.1] at room
    obtain ⟨⟨⟨_, nonzero⟩, _⟩, v, there, given⟩ := here room
    have known : ArmedFor u i ∨ v.alarm = p.alarm ∧ v.alarmTicks = q.alarmTicks := by
      refine given.imp_right ?_
      rintro ⟨rfl, ⟨_, rfl⟩, rfl⟩
      exact ⟨rfl, rfl⟩
    obtain ⟨there', armed⟩ := repeating_setAlarm there nonzero known
    exact ⟨trivial, v, there', .inl armed⟩

theorem ticks_lt (hz uDelay : Nat) : delayTicks hz uDelay < 4295 ∧ repeatTicks hz uDelay < 4295 := by
  unfold delayTicks repeatTicks
  omega

theorem held_giveAlarm (two : 2 ≤ hz) (most : hz < 2 ^ 31) (uDelay : Nat)
    (start : 0 < tm) (ticks : tc < hz) (here : InTime M (Present hz i (pos hz tm tc) (· = r)) s) :
    let f := giveAlarm M hz tm (toUnsigned (tc + delayTicks hz uDelay : Nat))
    ∃ p₀, InTime M (Held hz i r (delayTicks hz uDelay + r) (pos hz tm tc) p₀ True True)
      { s with task := update s.task i ((s.task i).map f) } := by
  intro f
  by_cases room : s.time + 4400 < M.word / 2
  swap
  · exact ⟨newTask, fun room' => absurd room' room⟩
  obtain ⟨calm, past, p, task, known⟩ := here room
  have begun : tm ≤ s.time := by
    rcases (upto_iff ticks calm.ticks).mpr past with ⟨eq, _⟩ | less
    · omega
    · omega
  have early : Early M hz tm tc := ⟨two, most, start, by omega, ticks⟩
  have after : After hz tm tc (delayTicks hz uDelay) (f p) := giveAlarm_after early (ticks_lt hz uDelay).1 p
  have due := after.due
  have there := present_setTask (f := f) (P := (· = r)) (Q := (· = r)) ⟨calm, past, p, task, known⟩
    fun q known small => by
      rw [giveAlarm_alarmRepeat]
      exact ⟨known, small⟩
  have set : update s.task i ((s.task i).map f) i = some (f p) := by
    rw [update_self, task]
    rfl
  have soon : pos hz (f p).alarm (f p).alarmTicks ≤ pos hz s.time s.ticks + (delayTicks hz uDelay + r : Nat) := by
    rw [due, cast_add]
    omega
  have repeats : (f p).alarmRepeat = r := (giveAlarm_alarmRepeat ..).trans known
  exact ⟨f p, fun _ => ⟨trivial, f p,
    ⟨there.calm, set, after.alarm, after.below, repeats, there.past, by omega, soon⟩, .inr ⟨rfl, trivial⟩⟩⟩

theorem wp_sysUalarm (two : 2 ≤ hz) (most : hz < 2 ^ 31) (slot : i < taskMax) (ticksFirst : Bool)
    (delay : 0 < uDelay) (short : uDelay ≤ 1000000) (repeats : rep ≠ 0) (again : repeatTicks hz uDelay ≠ 0)
    (calm : Calm hz s) (task : ∃ p, s.task i = some p) :
    wp (sysUalarm M hz i uDelay rep ticksFirst) (fun r t => InTime M (fun t => (∃ v, r = .ok v) ∧
      ∃ p, Repeating hz i (repeatTicks hz uDelay) (delayTicks hz uDelay + repeatTicks hz uDelay)
        (pos hz s.time s.ticks) t p ∧ ArmedFor t i) t) s := by
  have steady : ∀ P, Steady M hz (Present hz i (pos hz s.time s.ticks) P) := fun P => steady_present P
  have none : ∀ t, InTime M (fun _ => False) t → InTime M (fun t => (∃ v, (Res.crash : Res Errno Nat) = .ok v) ∧
      ∃ p, Repeating hz i (repeatTicks hz uDelay) (delayTicks hz uDelay + repeatTicks hz uDelay)
        (pos hz s.time s.ticks) t p ∧ ArmedFor t i) t := fun t gone room => (gone room).elim
  have here : InTime M (Present hz i (pos hz s.time s.ticks) fun _ => True) s := fun _ =>
    ⟨calm, le_refl _, task.imp fun p here => ⟨here, trivial⟩⟩
  rw [sysUalarm, if_neg (by omega), wp_bind, wp_get, after_ok, wp_bind]
  refine wp_point (steady _) here fun t1 here => ?_
  rw [after_ok, wp_bind]
  refine wp_withdraw _ here none fun v t2 here => ?_
  rw [after_ok, wp_bind]
  refine wp_point (steady _) here fun t3 here => ?_
  rw [after_ok, if_neg (by omega), setTask, wp_bind, wp_modify, after_ok, wp_bind]
  refine wp_point (steady (· = repeatTicks hz uDelay)) (fun room => ?_) fun t4 here => ?_
  · refine present_setTask (here room) fun p _ _ => ?_
    rw [if_neg repeats]
    exact ⟨rfl, (ticks_lt hz uDelay).2⟩
  rw [after_ok, setTask, wp_bind, wp_modify, after_ok, wp_bind]
  obtain ⟨p₀, held⟩ := held_giveAlarm two most uDelay calm.start calm.ticks here
  have le : repeatTicks hz uDelay ≤ delayTicks hz uDelay + repeatTicks hz uDelay := by omega
  refine wp_point (steady_held two most slot again le ..) held fun t5 held => ?_
  rw [after_ok, wp_bind]
  refine wp_setCurrAlarm two most slot again le ticksFirst held none fun t6 held => ?_
  rw [after_ok, wp_bind]
  refine wp_point (steady_held two most slot again le ..) held fun t7 held => ?_
  intro room
  obtain ⟨_, p, there, armed | ⟨_, none⟩⟩ := held room
  · exact ⟨⟨v, rfl⟩, p, there, armed⟩
  · exact none.elim

theorem run_repeating (two : 2 ≤ hz) (most : hz < 2 ^ 31) (slot : i < taskMax) (again : r ≠ 0) (le : r ≤ bound)
    (here : Repeating hz i r bound low s p) (covered : ArmedFor s i) (run : Run M hz i n s t)
    (room : t.time + 4400 < M.word / 2) :
    ∃ q, Repeating hz i r bound low t q ∧ ArmedFor t i ∧ pos hz t.time t.ticks = pos hz s.time s.ticks + n ∧
      (q = p ∨ p.signals < q.signals) ∧
      (1 ≤ n → pos hz p.alarm p.alarmTicks ≤ pos hz s.time s.ticks + n → p.signals < q.signals) := by
  induction run with
  | start => exact ⟨p, here, covered, by rw [cast_zero, add_zero], .inl rfl, fun one => absurd one (by omega)⟩
  | @tick n _ t before ih =>
    have later := time_le M hz t
    have room' : (clockIntr M hz t).time + 2200 < M.word / 2 := by omega
    obtain ⟨q, there, armed, passed, known, sent⟩ := ih here covered (by omega)
    obtain ⟨_, _, _, next⟩ := calm_tick two most there.calm room'
    obtain ⟨q', there', _, ticked⟩ := repeating_tick two most slot again le there room'
    obtain ⟨armed', due, quiet⟩ := ticked armed
    refine ⟨q', there', armed', by rw [next, passed]; push_cast; omega, ?_, fun _ reached => ?_⟩
    · by_cases early : pos hz q.alarm q.alarmTicks ≤ pos hz t.time t.ticks + 1
      · have signals := (due early).1
        rcases known with rfl | more
        · exact .inr (by omega)
        · exact .inr (by omega)
      · rw [quiet (by omega)]
        exact known
    · by_cases early : pos hz q.alarm q.alarmTicks ≤ pos hz t.time t.ticks + 1
      · have signals := (due early).1
        rcases known with rfl | more
        · omega
        · omega
      · rw [quiet (by omega)]
        rcases known with rfl | more
        · push_cast at reached
          omega
        · exact more
  | @other n j _ t q before other small ih =>
    obtain ⟨v, ⟨calm, task, alarm, below, repeats, past, since, soon⟩, armed, passed, known, sent⟩ :=
      ih here covered room
    have same : update t.task j q i = t.task i := update_of_ne (Ne.symm other) ..
    refine ⟨v, ⟨⟨calm.start, calm.ticks, fun k p there => ?_⟩, same.trans task, alarm, below, repeats, past, since,
      soon⟩, fun p there => armed p (same.symm.trans there), passed, known, sent⟩
    change update t.task j q k = some p at there
    rw [update_apply] at there
    split at there
    · exact small p there
    · exact calm.small k p there
  | armed before some ih =>
    rw [(setAlarm_lowered ..).now.1] at room
    obtain ⟨v, there, armed, passed, known, sent⟩ := ih here covered room
    obtain ⟨there', armed'⟩ := repeating_setAlarm there some (.inl armed)
    refine ⟨v, there', armed', ?_, known, sent⟩
    rw [(setAlarm_lowered ..).now.1, (setAlarm_lowered ..).now.2]
    exact passed

/-- After every SIGALRM the task is armed again for a later tick, and it is sent SIGALRM again after so many clock
    interrupts. -/
def Repeats (M : Machine) (hz i bound : Nat) (s : State) : Prop :=
  ∀ n t, Run M hz i n s t → (clockIntr M hz t).time + 4400 < M.word / 2 →
    ∃ p q, t.task i = some p ∧ (clockIntr M hz t).task i = some q ∧
      (p.signals < q.signals →
        q.alarm ≠ 0 ∧ ¬ Upto q.alarm q.alarmTicks (clockIntr M hz t).time (clockIntr M hz t).ticks) ∧
      ∀ k u, Run M hz i k t u → u.time + 4400 < M.word / 2 → bound ≤ k →
        ∃ r, u.task i = some r ∧ p.signals < r.signals

theorem repeats_of_repeating (two : 2 ≤ hz) (most : hz < 2 ^ 31) (slot : i < taskMax) (again : r ≠ 0) (le : r ≤ bound)
    (here : Repeating hz i r bound low s p) (covered : ArmedFor s i) : Repeats M hz i bound s := by
  intro n t run room
  have later := time_le M hz t
  have room' : (clockIntr M hz t).time + 2200 < M.word / 2 := by omega
  obtain ⟨q, there, armed, _⟩ := run_repeating two most slot again le here covered run (by omega)
  obtain ⟨_, _, early, next⟩ := calm_tick two most there.calm room'
  obtain ⟨q', there', _, ticked⟩ := repeating_tick two most slot again le there room'
  obtain ⟨_, due, quiet⟩ := ticked armed
  refine ⟨q, q', there.task, there'.task, fun sent => ?_, fun k u more room'' enough => ?_⟩
  · have positive := there'.alarm
    refine ⟨by omega, ?_⟩
    rw [upto_iff there'.below early.ticks, next]
    by_cases reached : pos hz q.alarm q.alarmTicks ≤ pos hz t.time t.ticks + 1
    · rw [(due reached).2]
      omega
    · rw [quiet (by omega)] at sent
      exact absurd sent (lt_irrefl _)
  · obtain ⟨v, end', _, _, _, signals⟩ := run_repeating two most slot again le there armed more room''
    have soon := there.soon
    exact ⟨v, end'.task, signals (by omega) (by omega)⟩

end Held

/- No call of `set_alarm` has the time 0 -/

section Spared
variable {M : Machine} {curr : Nat} {low : Int} {s t : State}

structure Fresh (M : Machine) (low : Int) (s : State) : Prop where
  calm : Calm clockHz s
  since : low ≤ s.time
  zeroed : s.time + 4400 < M.word / 2 → s.zeroed = false

section
variable (here : Fresh M low s)
include here

theorem fresh_tick : Fresh M low (clockIntr M clockHz s) := by
  have later := time_le M clockHz s
  refine ⟨(calm_next here.calm).1, le_trans here.since later, fun room => ?_⟩
  have rearms := (calm_tick (M := M) (by decide) (by decide) here.calm (by omega)).2.1
  exact ((clockIntr_ticked M clockHz s).zeroed (.inr rearms)).trans (here.zeroed (by omega))

theorem fresh_update (small : Every (· < 4295) q) (i : Nat) :
    Fresh M low { s with task := update s.task i q } := by
  refine ⟨⟨here.calm.start, here.calm.ticks, fun j p there => ?_⟩, here.since, here.zeroed⟩
  change update s.task i q j = some p at there
  rw [update_apply] at there
  split at there
  · exact small p there
  · exact here.calm.small j p there

theorem fresh_setAlarm (some : s.time + 4400 < M.word / 2 → time ≠ 0) :
    Fresh M low (setAlarm time ticks s) := by
  have lowered := setAlarm_lowered time ticks s
  refine ⟨⟨?_, ?_, ?_⟩, ?_, fun room => ?_⟩
  · rw [lowered.now.1]
    exact here.calm.start
  · rw [lowered.now.2]
    exact here.calm.ticks
  · intro i
    rw [lowered.task]
    exact here.calm.small i
  · rw [lowered.now.1]
    exact here.since
  · rw [lowered.now.1] at room
    exact (set_zeroed lowered (some room)).trans (here.zeroed room)

theorem fresh_due (due : List Nat) : Fresh M low { s with due := due } :=
  ⟨⟨here.calm.start, here.calm.ticks, here.calm.small⟩, here.since, here.zeroed⟩

end

theorem stable_fresh (M : Machine) (low : Int) : Stable (Fresh M low) (point M clockHz) :=
  stable_point (fun _ => fresh_tick) fun _ due here => fresh_due here due

theorem fresh_setTask {f : Task → Task} (keep : ∀ p, p.alarmRepeat < 4295 → (f p).alarmRepeat < 4295)
    (here : Fresh M low s) : Fresh M low { s with task := update s.task curr ((s.task curr).map f) } := by
  refine fresh_update here (fun p there => ?_) curr
  obtain ⟨q, task, rfl⟩ := map_eq_some_iff.mp there
  exact keep q (here.calm.small curr q task)

theorem stable_withdraw {I : State → Prop} (point : Stable I (point M clockHz))
    (set : ∀ s, I s → I { s with task := update s.task curr ((s.task curr).map fun p => { p with alarm := 0 }) })
    (left : Task → Nat) : Stable I (withdraw M clockHz curr left) := by
  refine stable_bind (stable_currTask I curr) fun p => ?_
  split
  · exact stable_pure 0
  refine stable_bind point fun _ => stable_bind (stable_currTask I curr) fun q => ?_
  exact stable_bind point fun _ => stable_bind (stable_modify set) fun _ => stable_pure _

/-- No clock interrupt arrives from the next `k` points on. -/
def Still (k : Nat) (s : State) : Prop := ∀ n ∈ s.due.drop k, n = 0

theorem wp_point_still (here : Fresh M low s) (still : Still k s)
    (next : ∀ t, Fresh M low t → Still (k - 1) t → (k = 0 → t.task = s.task ∧ t.time = s.time) → Q (.ok ()) t) :
    wp (point M clockHz) Q s := by
  refine wp_point_run (fun none => ?_) fun n due eq => ?_
  · exact next s here (fun m mem => by rw [none, drop_nil] at mem; cases mem) fun _ => ⟨rfl, rfl⟩
  · have fresh : Fresh M low ((clockIntr M clockHz)^[n] s) := Iterate.rec (Fresh M low) here (fun _ => fresh_tick) n
    refine next _ (fresh_due fresh due) (fun m mem => still m ?_) fun first => ?_
    · rw [eq]
      cases k with
      | zero => exact mem_cons_of_mem n mem
      | succ k => exact mem
    · subst first
      rw [still n (eq ▸ mem_cons_self)]
      exact ⟨rfl, rfl⟩

/-- The task has an alarm, and no clock interrupt comes before it is read. -/
structure Ready (M : Machine) (curr : Nat) (low : Int) (s : State) : Prop where
  fresh : Fresh M low s
  still : Still 0 s
  pending : s.time + 4400 < M.word / 2 → ∀ p, s.task curr = some p → p.alarm ≠ 0

theorem wp_ready_point (here : Ready M curr low s)
    (next : ∀ t, Ready M curr low t → (t.time = s.time → Q (.ok ()) t)) : wp (point M clockHz) Q s := by
  refine wp_point_still here.fresh here.still fun t fresh still same => ?_
  obtain ⟨task, time⟩ := same rfl
  refine next t ⟨fresh, still, ?_⟩ time
  rw [task, time]
  exact here.pending

theorem ready_giveAlarm {tm : Int} {tc : Nat} (here : Fresh M tm s) (still : Still 0 s) (start : 0 < tm)
    (ticks : tc < clockHz) (uDelay : Nat) : Ready M curr tm { s with task := update s.task curr ((s.task curr).map
      (giveAlarm M clockHz tm (toUnsigned ((tc + delayTicks clockHz uDelay : Nat) : Int)))) } := by
  refine ⟨fresh_setTask (fun p small => ?_) here, still, fun room p task => ?_⟩
  · rw [giveAlarm_alarmRepeat]
    exact small
  · dsimp only at room task
    rw [update_self] at task
    obtain ⟨q, _, rfl⟩ := map_eq_some_iff.mp task
    have since := here.since
    have early : Early M clockHz tm tc := ⟨by decide, by decide, start, by omega, ticks⟩
    have positive := (giveAlarm_after early (ticks_lt clockHz uDelay).1 q).alarm
    omega

theorem ready_setCurrAlarm (ticksFirst : Bool) (here : Ready M curr low s) :
    wp (setCurrAlarm M clockHz curr ticksFirst) (fun _ t => Fresh M low t) s := by
  rw [setCurrAlarm, wp_bind]
  refine wp_currTask (fun _ => here.fresh) fun p task => ?_
  have first := fun room => here.pending room p task
  rw [after_ok, wp_bind]
  refine wp_ready_point here fun t here time => ?_
  rw [after_ok, wp_bind]
  refine wp_currTask (fun _ => here.fresh) fun q task => ?_
  have second := fun room => here.pending room q task
  rw [after_ok, wp_bind]
  refine wp_ready_point here fun u here time' => ?_
  rw [after_ok, wp_modify]
  rw [← time, ← time'] at first
  rw [← time'] at second
  cases ticksFirst with
  | true => exact fresh_setAlarm here.fresh second
  | false => exact fresh_setAlarm here.fresh first

theorem sysAlarm_fresh {delay : Nat} (some : toLong M (toLong M s.time + delay) ≠ 0) (here : Fresh M low s) :
    wp (sysAlarm M clockHz curr delay) (fun _ t => Fresh M low t) s := by
  have point : Stable (Fresh M low) (point M clockHz) := stable_fresh M low
  rw [sysAlarm, wp_bind, wp_get, after_ok]
  refine wp_of_stable ?_ here fun _ _ here => here
  refine stable_bind point fun _ => ?_
  refine stable_bind (stable_withdraw point (fun s => fresh_setTask fun _ => id) _) fun ret => ?_
  refine stable_bind point fun _ => ?_
  split
  · refine stable_bind (stable_modify fun s => fresh_setTask fun _ => id) fun _ => ?_
    exact stable_bind point fun _ => stable_pure ret
  · refine stable_bind (stable_modify fun s => fresh_setTask fun _ => id) fun _ => ?_
    refine stable_bind (stable_modify fun s here => fresh_setAlarm here fun _ => some) fun _ => ?_
    exact stable_bind point fun _ => stable_pure ret

theorem sysUalarm_fresh (here : Fresh M low s) (still : Still 3 s) (ticksFirst : Bool) :
    wp (sysUalarm M clockHz curr uDelay rep ticksFirst) (fun _ t => Fresh M low t) s := by
  suffices fresh : wp (sysUalarm M clockHz curr uDelay rep ticksFirst) (fun _ t => Fresh M s.time t) s from
    wp_mono fresh fun _ t fresh => ⟨fresh.calm, le_trans here.since fresh.since, fresh.zeroed⟩
  obtain ⟨start, ticks, -⟩ := here.calm
  have here : Fresh M s.time s := ⟨here.calm, le_refl _, here.zeroed⟩
  have point := stable_fresh M s.time
  rw [sysUalarm]
  split
  · exact here
  rw [wp_bind, wp_get, after_ok, wp_bind]
  refine wp_point_still here still fun t1 here still _ => ?_
  rw [after_ok]
  have calm : Stable (fun t => Fresh M s.time t ∧ Still 2 t) (Alarm.point M clockHz) := fun t here =>
    wp_point_still (Q := fun _ t => Fresh M s.time t ∧ Still 2 t) here.1 here.2 fun u fresh still _ =>
      ⟨fresh, fun n mem => still n (drop_subset_drop_left _ (by decide) mem)⟩
  refine wp_bind_of_stable (stable_withdraw calm (fun t here => ⟨fresh_setTask (fun _ => id) here.1, here.2⟩) _)
    ⟨here, still⟩ (fun _ => And.left) fun ret t2 here => ?_
  rw [wp_bind]
  refine wp_point_still here.1 here.2 fun t3 here still _ => ?_
  rw [after_ok]
  split
  · refine wp_of_stable ?_ here fun _ _ fresh => fresh
    refine stable_bind (stable_modify fun s => fresh_setTask fun _ => id) fun _ => ?_
    exact stable_bind point fun _ => stable_pure ret
  rw [Alarm.setTask, wp_bind, wp_modify, after_ok, wp_bind]
  refine wp_point_still (fresh_setTask (fun p small => ?_) here) still fun t4 here still _ => ?_
  · dsimp only
    split
    · decide
    · exact (ticks_lt clockHz uDelay).2
  rw [after_ok, Alarm.setTask, wp_bind, wp_modify, after_ok, wp_bind]
  refine wp_ready_point (ready_giveAlarm here still start ticks uDelay) fun t5 here _ => ?_
  rw [after_ok, wp_bind]
  refine wp_mono (ready_setCurrAlarm ticksFirst here) fun r t6 here => ?_
  rcases r with _ | _ | _
  · exact wp_of_stable (stable_bind point fun _ => stable_pure ret) here fun _ _ fresh => fresh
  · exact here
  · exact here

/-- The sum of the time and the delay of `sys_alarm` does not wrap to 0, and no clock interrupt arrives from the fourth
    point of `sys_ualarm` on. -/
def Spares (M : Machine) (s : State) : Alarm.Step → Prop
  | .alarm _ delay _ => toLong M (toLong M s.time + delay) ≠ 0
  | .ualarm _ _ _ _ due => ∀ n ∈ due.drop 3, n = 0
  | _ => True

inductive Spared (M : Machine) : State → Prop where
  | boot : Spared M boot
  | step {s : State} (before : Spared M s) (step : Alarm.Step) (able : step.able s) (spares : Spares M s step) :
      Spared M (step.run M clockHz s).2

theorem Spared.reach (spared : Spared M s) : Reach M clockHz s := by
  induction spared with
  | boot => exact .boot
  | step before step able spares ih => exact ih.next step able

theorem fresh_step (here : Fresh M 0 s) (step : Alarm.Step) (spares : Spares M s step) :
    Fresh M 0 (step.run M clockHz s).2 := by
  cases step with
  | alarm curr delay due =>
    exact (bind_pure_snd ..).symm ▸ sysAlarm_fresh spares (fresh_due here due)
  | ualarm curr uDelay rep ticksFirst due =>
    exact (bind_pure_snd ..).symm ▸ sysUalarm_fresh (fresh_due here due) spares ticksFirst
  | exit curr => exact fresh_setTask (fun _ => id) here
  | creat i => exact fresh_update here (by rintro p ⟨⟩; decide) i
  | put i => exact fresh_update here (by rintro p ⟨⟩) i
  | tick => exact fresh_tick here

theorem calm_boot : Calm clockHz boot := by
  refine ⟨by decide, by decide, fun i p task => ?_⟩
  change update (fun _ => none) 0 (some newTask) i = some p at task
  rw [update_apply] at task
  split at task
  · cases task
    decide
  · cases task

/-- Such steps do not call `set_alarm` with the time 0. -/
theorem spared_zeroed (spared : Spared M s) (room : s.time + 4400 < M.word / 2) : s.zeroed = false := by
  suffices fresh : Fresh M 0 s from fresh.zeroed room
  clear room
  induction spared with
  | boot => exact ⟨calm_boot, by decide, fun _ => rfl⟩
  | step before step able spares ih => exact fresh_step ih step spares

end Spared

/- The call from any state -/

/-- The first alarm does not come before the tick at which the call has begun, and the alarm repeats, at any frequency,
    as long as the times are positive `long`s. It has to be that the delay times the frequency comes to a million with
    `hz - 1` added, which is all that is added to round it up. -/
theorem ualarm_repeats {M : Machine} {hz i uDelay rep : Nat} {s : State} (ticksFirst : Bool) (two : 2 ≤ hz)
    (most : hz < 2 ^ 31) (slot : i < taskMax) (task : ∃ p, s.task i = some p) (calm : Calm hz s) (delay : 0 < uDelay)
    (short : uDelay ≤ 1000000) (repeats : rep ≠ 0) (long : 1000000 ≤ (uDelay * hz + hz - 1) % 2 ^ 32)
    (room : (sysUalarm M hz i uDelay rep ticksFirst s).2.time + 4400 < M.word / 2) :
    (∃ v, (sysUalarm M hz i uDelay rep ticksFirst s).1 = .ok v) ∧
    (∃ p, (sysUalarm M hz i uDelay rep ticksFirst s).2.task i = some p ∧ p.alarm ≠ 0 ∧
      Upto s.time s.ticks p.alarm p.alarmTicks) ∧
    Repeats M hz i (delayTicks hz uDelay + repeatTicks hz uDelay) (sysUalarm M hz i uDelay rep ticksFirst s).2 := by
  have again : repeatTicks hz uDelay ≠ 0 := by
    unfold repeatTicks
    omega
  obtain ⟨returned, p, here, covered⟩ :=
    wp_sysUalarm (M := M) two most slot ticksFirst delay short repeats again calm task room
  have positive := here.alarm
  refine ⟨returned, ⟨p, here.task, by omega, (upto_iff calm.ticks here.below).mpr here.since⟩, ?_⟩
  exact repeats_of_repeating two most slot again (by omega) here covered

/-- Every four milliseconds, which is a tick. -/
theorem ualarm_repeats_tick :
    (∃ v, (sysUalarm .amd64 clockHz 0 4000 1 false boot).1 = .ok v) ∧
    (∃ p, (sysUalarm .amd64 clockHz 0 4000 1 false boot).2.task 0 = some p ∧ p.alarm ≠ 0 ∧
      Upto 1 0 p.alarm p.alarmTicks) ∧
    Repeats .amd64 clockHz 0 (delayTicks clockHz 4000 + repeatTicks clockHz 4000)
      (sysUalarm .amd64 clockHz 0 4000 1 false boot).2 :=
  ualarm_repeats false (by decide) (by decide) (by decide) ⟨newTask, rfl⟩ calm_boot (by decide) (by decide) (by decide)
    (by decide) (by decide)

/-- Every millisecond, which is less: there is one SIGALRM, and no alarm any more. -/
theorem ualarm_not_repeats :
    ((clockIntr .amd64 clockHz (sysUalarm .amd64 clockHz 0 1000 1 false boot).2).task 0).map
      (fun p => (p.signals, p.alarm)) = some (1, 0) ∧
    ∀ bound, ¬ Repeats .amd64 clockHz 0 bound (sysUalarm .amd64 clockHz 0 1000 1 false boot).2 := by
  have before : (sysUalarm .amd64 clockHz 0 1000 1 false boot).2.task 0 = some ⟨1, 0, 0, false, 0⟩ := by rfl
  have after : (clockIntr .amd64 clockHz (sysUalarm .amd64 clockHz 0 1000 1 false boot).2).task 0 =
      some ⟨0, 0, 0, false, 1⟩ := by
    rfl
  refine ⟨by rw [after]; rfl, fun bound repeats => ?_⟩
  obtain ⟨p, q, task, task', armed, _⟩ := repeats 0 _ (.start _) (by decide)
  rw [before] at task
  rw [after] at task'
  cases task
  cases task'
  exact (armed (by decide)).1 rfl

end Ualarm
