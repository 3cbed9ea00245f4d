import Newsys.Wingui.Desktop

/- What the events and the handlers leave alone: the windows with their tasks and layers, their order, the focus and
   the tasks. They need a focus, a pointer capture and a taskbar that are there, and they keep them. -/
namespace Interrupts
open Cmds Cmd Kern Function Desktops List
open Events (evtMax taskMax)
open Wingui (Rect)

def Live (s : State) (i : Nat) : Prop := i < winMax ∧ (s.d.window i).task.isSome = true

structure Kept (s t : State) : Prop where
  stack : t.d.stack = s.d.stack
  windowCount : t.d.windowCount = s.d.windowCount
  focus : t.d.focus = s.d.focus
  taskbar : t.d.taskbar = s.d.taskbar
  task : ∀ i, (t.d.window i).task = (s.d.window i).task
  layer : ∀ i, (t.d.window i).layer = (s.d.window i).layer
  alive : t.alive = s.alive
  inh : t.inh = s.inh
  att : t.att = s.att
  born : t.born = s.born
  gaps : t.irqs.gaps ⊆ s.irqs.gaps

theorem Kept.refl (s : State) : Kept s s := ⟨rfl, rfl, rfl, rfl, fun _ => rfl, fun _ => rfl, rfl, rfl, rfl, rfl, .refl _⟩

variable {s t : State}

theorem Kept.trans {u : State} (first : Kept s t) (second : Kept t u) : Kept s u where
  stack := second.stack.trans first.stack
  windowCount := second.windowCount.trans first.windowCount
  focus := second.focus.trans first.focus
  taskbar := second.taskbar.trans first.taskbar
  task := fun i => (second.task i).trans (first.task i)
  layer := fun i => (second.layer i).trans (first.layer i)
  alive := second.alive.trans first.alive
  inh := second.inh.trans first.inh
  att := second.att.trans first.att
  born := second.born.trans first.born
  gaps := fun _ mem => first.gaps (second.gaps mem)

theorem Kept.live (kept : Kept s t) (i : Nat) : Live t i ↔ Live s i := by
  rw [Live, Live, kept.task]

def Valid (s : State) (wd : Int) : Prop := wd = -1 ∨ ∃ i : Nat, wd = i ∧ Live s i

/-- The window of the pointer-down, unless there was none or it has been closed since. -/
def Captured (s : State) : Prop :=
  s.input.ptrDownWd = -1 ∨ ∃ i : Nat, s.input.ptrDownWd = i ∧ Live s i ∧ s.caught = s.born i

/-- No pointer goes down. -/
def NoDown (due : List (List Irq)) : Prop := ∀ now ∈ due, Irq.ptrdown ∉ now

/-- What a desktop that is not `lax` keeps, where no pointer goes down in front of the removal of a window. -/
structure Safe (lax : Prop) (s : State) : Prop where
  listed : ∀ i ∈ s.d.stack, Live s i
  owner : ∀ i t, (s.d.window i).task = some t → s.alive t = true ∧ s.att t = true
  taskbar : ∀ t, s.d.taskbar = some t → s.alive t = true ∧ s.att t = true
  users : ∀ t, s.att t = true → s.alive t = true ∧ s.inh t = true
  focus : Valid s s.d.focus
  capture : lax ∨ (0 < s.input.ptrDown → Captured s)
  spared : lax ∨ NoDown s.irqs.gaps

variable {wd : Int}

theorem Kept.valid (kept : Kept s t) (valid : Valid s wd) : Valid t wd := by
  rcases valid with none | ⟨i, eq, live⟩
  · exact .inl none
  · exact .inr ⟨i, eq, (kept.live i).mpr live⟩

theorem Safe.kept (safe : Safe lax s) (kept : Kept s t)
    (capture : lax ∨ (0 < t.input.ptrDown → Captured t)) : Safe lax t where
  listed := by
    rw [kept.stack]
    exact fun i mem => (kept.live i).mpr (safe.listed i mem)
  owner := by
    intro i u
    rw [kept.task, kept.alive, kept.att]
    exact safe.owner i u
  taskbar := by
    rw [kept.taskbar, kept.alive, kept.att]
    exact safe.taskbar
  users := by
    rw [kept.alive, kept.inh, kept.att]
    exact safe.users
  focus := by
    rw [kept.focus]
    exact kept.valid safe.focus
  capture := capture
  spared := safe.spared.imp_right fun none now mem => none now (kept.gaps mem)

theorem Safe.same (safe : Safe lax s) (kept : Kept s t) (down : t.input.ptrDown = s.input.ptrDown)
    (wd : t.input.ptrDownWd = s.input.ptrDownWd) (caught : t.caught = s.caught) : Safe lax t := by
  refine safe.kept kept ?_
  rw [down]
  refine safe.capture.imp_right fun held pressed => ?_
  rcases held pressed with none | ⟨i, eq, live, serial⟩
  · exact .inl (wd.trans none)
  · refine .inr ⟨i, wd.trans eq, (kept.live i).mpr live, ?_⟩
    rw [caught, kept.born]
    exact serial

/- Commands that are calm -/

/-- From states like `s` the command leaves everything alone, and crashes only if the desktop is `lax`. -/
def Calm (lax : Prop) (s : State) {α : Type} (m : Call α) : Prop :=
  ∀ t, Kept s t → Safe lax t → wp m (fun r u => Kept s u ∧ Safe lax u ∧ (r = .crash → lax)) t

section Rules
variable {s : State} {α β ι : Type}

theorem calm_pure (a : α) : Calm lax s (pure a : Call α) := fun _ kept safe => ⟨kept, safe, fun eq => by cases eq⟩

theorem calm_fail (e : Errno) : Calm lax s (fail e : Call α) := fun _ kept safe => ⟨kept, safe, fun eq => by cases eq⟩

theorem calm_bind (first : Calm lax s m) (next : ∀ a, Calm lax s (f a)) : Calm lax s (m >>= f) := by
  intro t kept safe
  rw [wp_bind]
  refine wp_mono (first t kept safe) ?_
  rintro (a | e | _) u ⟨kept', safe', crashed⟩
  · exact next a u kept' safe'
  · exact ⟨kept', safe', fun eq => by cases eq⟩
  · exact ⟨kept', safe', fun _ => crashed rfl⟩

theorem calm_get (next : ∀ t, Kept s t → Safe lax t → Calm lax s (f t)) : Calm lax s (get >>= f) := by
  intro t kept safe
  rw [wp_bind, wp_get, after_ok]
  exact next t kept safe t kept safe

theorem calm_modify
    (step : ∀ t, Kept s t → Safe lax t → Kept t (g t) ∧ Safe lax (g t)) : Calm lax s (modify g : Call Unit) := by
  intro t kept safe
  obtain ⟨kept', safe'⟩ := step t kept safe
  exact ⟨kept.trans kept', safe', fun eq => by cases eq⟩

variable {p : Prop}

theorem calm_ite [Decidable p] (yes : p → Calm lax s m) (no : ¬ p → Calm lax s m') :
    Calm lax s (if p then m else m') := by
  split
  · exact yes ‹p›
  · exact no ‹¬ p›

theorem calm_failIf [Decidable p] (e : Errno) : Calm lax s (failIf p e) :=
  calm_ite (fun _ => calm_fail e) fun _ => calm_pure ()

theorem calm_crash (may : lax) : Calm lax s (crash : Call α) :=
  fun _ kept safe => ⟨kept, safe, fun _ => may⟩

theorem calm_crashIf [Decidable p] (may : p → lax) : Calm lax s (crashIf p) :=
  calm_ite (fun yes => calm_crash (may yes)) fun _ => calm_pure ()

theorem calm_doIf [Decidable p] (yes : p → Calm lax s m) : Calm lax s (doIf p m) :=
  calm_ite yes fun _ => calm_pure ()

theorem calm_quietly (calm : Calm lax s m) : Calm lax s (quietly m) := by
  refine calm_bind ?_ fun _ => calm_pure ()
  intro t kept safe
  rw [wp_attempt]
  refine wp_mono (calm t kept safe) ?_
  rintro (a | e | _) u ⟨kept', safe', crashed⟩
  · exact ⟨kept', safe', fun eq => by cases eq⟩
  · exact ⟨kept', safe', fun eq => by cases eq⟩
  · exact ⟨kept', safe', fun _ => crashed rfl⟩

theorem calm_forEach (is : List ι) (round : ∀ i ∈ is, Calm lax s (g i)) : Calm lax s (forEach is g) := by
  induction is with
  | nil => exact calm_pure ()
  | cons i rest ih =>
    refine calm_bind (round i (mem_cons_self ..)) fun _ => ?_
    exact ih fun j mem => round j (mem_cons_of_mem _ mem)

end Rules

variable {s : State}

theorem calm_sendEvent {t : Nat} (alive : lax ∨ s.alive t = true) : Calm lax s (sendEvent t) := by
  refine calm_get fun u kept safe => ?_
  refine calm_bind (calm_crashIf ?_) fun _ => calm_bind (calm_failIf _) fun _ => calm_modify fun v _ safe' => ?_
  · rw [kept.alive]
    intro gone
    refine alive.resolve_right ?_
    rw [gone]
    exact Bool.noConfusion
  · have same : Kept v { v with eventCount := update v.eventCount t (v.eventCount t + 1) } :=
      ⟨rfl, rfl, rfl, rfl, fun _ => rfl, fun _ => rfl, rfl, rfl, rfl, rfl, .refl _⟩
    exact ⟨same, safe'.same same rfl rfl rfl⟩

theorem calm_winEvent (valid : lax ∨ Valid s wd) (nonneg : ¬ wd < 0) : Calm lax s (winEvent wd) := by
  have here : lax ∨ ∃ i : Nat, wd = i ∧ Live s i := by
    refine valid.imp_right fun held => held.resolve_left ?_
    rintro rfl
    exact nonneg (by decide)
  refine calm_get fun t kept safe => ?_
  refine calm_bind (calm_crashIf ?_) fun _ => ?_
  · intro out
    refine here.resolve_right ?_
    rintro ⟨i, rfl, bound, _⟩
    omega
  · cases task : (t.d.window wd.toNat).task with
    | some u =>
      refine calm_sendEvent (.inr ?_)
      rw [← kept.alive]
      exact (safe.owner _ u task).1
    | none =>
      refine calm_crash (here.resolve_right ?_)
      rintro ⟨i, rfl, _, some⟩
      rw [Int.toNat_natCast, kept.task] at task
      rw [task] at some
      cases some

variable {i : Nat}

theorem calm_event_live (live : Live s i) : Calm lax s (winEvent i) :=
  calm_winEvent (.inr (.inr ⟨i, rfl, live⟩)) (by omega)

theorem calm_sendTaskbar : Calm lax s sendTaskbar := by
  refine calm_get fun t kept safe => ?_
  cases here : t.d.taskbar with
  | none => exact calm_pure ()
  | some u =>
    refine calm_sendEvent (.inr ?_)
    rw [← kept.alive]
    exact (safe.taskbar u here).1

theorem calm_winBcast : Calm lax s winBcast := by
  refine calm_forEach _ fun t _ => calm_get fun u kept safe => calm_doIf fun att => calm_quietly ?_
  refine calm_sendEvent (.inr ?_)
  rw [← kept.alive]
  exact (safe.users t att).1

theorem calm_setInput
    (step : ∀ i, (f i).ptrDown = i.ptrDown ∧ (f i).ptrDownWd = i.ptrDownWd) : Calm lax s (setInput f) := by
  refine calm_modify fun t _ safe => ?_
  have same : Kept t { t with input := f t.input } := ⟨rfl, rfl, rfl, rfl, fun _ => rfl, fun _ => rfl, rfl, rfl, rfl, rfl, .refl _⟩
  exact ⟨same, safe.same same (step t.input).1 (step t.input).2 rfl⟩

theorem valid_winXywd (safe : Safe lax t) (x y : Int) : Valid t (winXywd t.d x y) := by
  rw [winXywd]
  split
  · rename_i wd found
    exact .inr ⟨wd, rfl, safe.listed wd (mem_of_find?_eq_some found)⟩
  · exact .inl rfl

theorem calm_winSak : Calm lax s winSak :=
  calm_bind (calm_setInput fun _ => ⟨rfl, rfl⟩) fun _ => calm_winBcast

theorem Kept.valid_back (kept : Kept s t) (valid : Valid t wd) : Valid s wd := by
  rcases valid with none | ⟨i, eq, live⟩
  · exact .inl none
  · exact .inr ⟨i, eq, (kept.live i).mp live⟩

theorem calm_focus_event (kept : Kept s t) (safe : Safe lax t) :
    Calm lax s (if t.d.focus < 0 then pure () else winEvent t.d.focus) :=
  calm_ite (fun _ => calm_pure ()) fun nonneg => calm_winEvent (.inr (kept.valid_back safe.focus)) nonneg

theorem calm_winKeydown (ch : Nat) : Calm lax s (winKeydown ch) := by
  refine calm_bind (calm_setInput fun _ => ⟨rfl, rfl⟩) fun _ => calm_get fun t kept safe => ?_
  refine calm_ite (fun _ => calm_winSak) fun _ => calm_ite (fun _ => calm_sendTaskbar) fun _ => ?_
  exact calm_focus_event kept safe

theorem calm_winKeyup (ch : Nat) : Calm lax s (winKeyup ch) :=
  calm_bind (calm_setInput fun _ => ⟨rfl, rfl⟩) fun _ => calm_get fun _ kept safe => calm_focus_event kept safe

theorem calm_winClock : Calm lax s winClock := by
  refine calm_get fun t kept safe => calm_doIf fun blinks => calm_quietly ?_
  exact calm_winEvent (.inr (kept.valid_back safe.focus)) (by omega)

theorem valid_capture (kept : Kept s t) (safe : Safe lax t) (down : 0 < t.input.ptrDown) :
    lax ∨ Valid s t.input.ptrDownWd := by
  rcases safe.capture with may | held
  · exact .inl may
  · refine .inr (kept.valid_back ?_)
    rcases held down with none | ⟨i, eq, live, _⟩
    · exact .inl none
    · exact .inr ⟨i, eq, live⟩

theorem calm_winPtrmove (x y : Int) : Calm lax s (winPtrmove x y) := by
  refine calm_get fun t kept safe => calm_bind (calm_setInput fun _ => ⟨rfl, rfl⟩) fun _ => ?_
  refine calm_ite (fun _ => calm_pure ()) fun nonneg => calm_winEvent ?_ nonneg
  by_cases up : t.input.ptrDown = 0
  · rw [if_pos up]
    exact .inr (kept.valid_back (valid_winXywd safe _ _))
  · rw [if_neg up]
    exact valid_capture kept safe (by omega)

theorem wp_pressed (kept : Kept s t) (safe : Safe lax t) (captured : lax ∨ Captured t) :
    wp (do
      setInput fun i => { i with ptrDown := i.ptrDown + 1 }
      let s ← get
      if s.input.ptrDownWd < 0 then pure () else winEvent s.input.ptrDownWd)
    (fun r u => Kept s u ∧ Safe lax u ∧ (r = .crash → lax)) t := by
  rw [wp_bind, setInput, wp_modify, after_ok, wp_bind, wp_get, after_ok]
  have same : Kept t { t with input := { t.input with ptrDown := t.input.ptrDown + 1 } } :=
    ⟨rfl, rfl, rfl, rfl, fun _ => rfl, fun _ => rfl, rfl, rfl, rfl, rfl, .refl _⟩
  have safe' := safe.kept same (captured.imp_right fun held _ => held)
  refine calm_ite (fun _ => calm_pure ()) (fun nonneg => calm_winEvent ?_ nonneg) _ (kept.trans same) safe'
  exact valid_capture (kept.trans same) safe' (Nat.succ_pos _)

theorem calm_winPtrdown : Calm lax s winPtrdown := by
  intro t kept safe
  rw [winPtrdown, wp_bind, wp_get, after_ok, wp_bind, doIf]
  by_cases up : t.input.ptrDown = 0
  · rw [if_pos up, wp_modify, after_ok]
    have valid := valid_winXywd safe t.input.ptrX t.input.ptrY
    generalize winXywd t.d t.input.ptrX t.input.ptrY = wd at valid ⊢
    have same : Kept t { t with input := { t.input with ptrDownWd := wd }, caught := t.born wd.toNat } :=
      ⟨rfl, rfl, rfl, rfl, fun _ => rfl, fun _ => rfl, rfl, rfl, rfl, rfl, .refl _⟩
    have captured : Captured { t with input := { t.input with ptrDownWd := wd }, caught := t.born wd.toNat } := by
      rcases valid with none | ⟨i, rfl, live⟩
      · exact .inl none
      · exact .inr ⟨i, rfl, live, rfl⟩
    exact wp_pressed (kept.trans same) (safe.kept same (.inr fun _ => captured)) (.inr captured)
  · rw [if_neg up, wp_pure, after_ok]
    exact wp_pressed kept safe (safe.capture.imp_right fun held => held (by omega))

theorem calm_winPtrup : ∀ t, 0 < t.input.ptrDown → Kept s t → Safe lax t →
    wp winPtrup (fun r u => Kept s u ∧ Safe lax u ∧ (r = .crash → lax)) t := by
  intro t down kept safe
  have valid := valid_capture kept safe down
  have drop := kept.valid_back (valid_winXywd safe t.input.ptrX t.input.ptrY)
  have same : Kept t { t with input := { t.input with ptrDown := t.input.ptrDown - 1 } } :=
    ⟨rfl, rfl, rfl, rfl, fun _ => rfl, fun _ => rfl, rfl, rfl, rfl, rfl, .refl _⟩
  have safe' : Safe lax { t with input := { t.input with ptrDown := t.input.ptrDown - 1 } } :=
    safe.kept same (safe.capture.imp_right fun held _ => held down)
  rw [winPtrup, wp_bind, wp_get, after_ok, wp_bind, crashIf, if_neg (by omega), wp_pure, after_ok, wp_bind,
    setInput, wp_modify, after_ok]
  refine calm_bind (calm_doIf fun _ => ?_) (fun _ => ?_) _ (kept.trans same) safe'
  · refine calm_bind (calm_setInput fun _ => ⟨rfl, rfl⟩) fun _ => ?_
    refine calm_bind (calm_doIf fun nonneg => calm_quietly (calm_winEvent (.inr drop) (by omega))) fun _ => ?_
    exact calm_doIf fun nonneg => calm_quietly (calm_winEvent valid (by omega))
  · exact calm_ite (fun _ => calm_pure ()) fun nonneg => calm_winEvent valid nonneg

theorem calm_serve (irq : Irq) : Calm lax s (serve irq) := by
  cases irq with
  | keydown ch => exact calm_winKeydown ch
  | keyup ch => exact calm_winKeyup ch
  | ptrmove x y => exact calm_winPtrmove x y
  | ptrdown => exact calm_winPtrdown
  | clock => exact calm_winClock
  | ptrup =>
    intro t kept safe
    rw [serve, wp_bind, wp_get, after_ok]
    by_cases up : t.input.ptrDown = 0
    · rw [if_pos up]
      exact calm_pure () t kept safe
    · rw [if_neg up]
      exact calm_winPtrup t (by omega) kept safe

theorem calm_handlers (now : List Irq) : Calm lax s (forEach now fun irq => quietly (serve irq)) :=
  calm_forEach _ fun irq _ => calm_quietly (calm_serve irq)

theorem calm_point : Calm lax s point := by
  refine calm_get fun t _ _ => ?_
  cases t.irqs.points with
  | nil => exact calm_pure ()
  | cons now later =>
    refine calm_bind (calm_modify fun u _ safe => ?_) fun _ => calm_handlers now
    have same : Kept u { u with irqs := { u.irqs with points := later } } :=
      ⟨rfl, rfl, rfl, rfl, fun _ => rfl, fun _ => rfl, rfl, rfl, rfl, rfl, .refl _⟩
    exact ⟨same, safe.same same rfl rfl rfl⟩

theorem calm_gap : Calm lax s gap := by
  intro t kept safe
  rw [gap, wp_bind, wp_get, after_ok]
  cases gaps : t.irqs.gaps with
  | nil => exact calm_pure () t kept safe
  | cons now later =>
    dsimp only
    rw [wp_bind, wp_modify, after_ok]
    have same : Kept t { t with irqs := { t.irqs with gaps := later } } := by
      refine ⟨rfl, rfl, rfl, rfl, fun _ => rfl, fun _ => rfl, rfl, rfl, rfl, rfl, ?_⟩
      rw [gaps]
      exact subset_cons_self _ _
    exact calm_handlers now _ (kept.trans same) (safe.same same rfl rfl rfl)

/- Events and the other handlers do not capture a window -/

def Apart (i : Nat) (s : State) : Prop := s.input.ptrDown = 0 ∨ s.input.ptrDownWd ≠ i

section Clears
variable {I : State → Prop} {i : Nat} {p : Prop} [Decidable p] {m : Call Unit}

theorem stable_ite {α : Type} {m m' : Call α} (yes : Stable I m) (no : Stable I m') :
    Stable I (if p then m else m') := by
  split
  · exact yes
  · exact no

theorem stable_doIf (yes : Stable I m) : Stable I (doIf p m) := stable_ite yes (stable_pure _)

theorem stable_failIf (e : Errno) : Stable I (failIf p e) := stable_ite (stable_fail e) (stable_pure _)

theorem stable_crashIf : Stable I (crashIf p) := stable_ite stable_crash (stable_pure _)

theorem stable_quietly (all : Stable I m) : Stable I (quietly m) :=
  stable_bind (stable_attempt all) fun _ => stable_pure _

/-- The counts of the events do not matter, nor does any input but that a pointer goes down. -/
structure Shielded (I : State → Prop) : Prop where
  send : ∀ s counts, I s → I { s with eventCount := counts }
  input : ∀ s (f : Input → Input), (∀ k, (f k).ptrDown ≤ k.ptrDown) → (∀ k, (f k).ptrDownWd = k.ptrDownWd) → I s →
    I { s with input := f s.input }

section
variable (shield : Shielded I)
include shield

theorem Shielded.sendEvent (t : Nat) : Stable I (sendEvent t) :=
  stable_bind stable_get fun _ => stable_bind stable_crashIf fun _ => stable_bind (stable_failIf _) fun _ =>
    stable_modify fun s => shield.send s _

theorem Shielded.winEvent (wd : Int) : Stable I (winEvent wd) := by
  refine stable_bind stable_get fun s => stable_bind stable_crashIf fun _ => ?_
  cases (s.d.window wd.toNat).task with
  | none => exact stable_crash
  | some t => exact shield.sendEvent t

theorem Shielded.sendTaskbar : Stable I sendTaskbar := by
  refine stable_bind stable_get fun s => ?_
  cases s.d.taskbar with
  | none => exact stable_pure _
  | some t => exact shield.sendEvent t

theorem Shielded.setInput (f : Input → Input) (down : ∀ k, (f k).ptrDown ≤ k.ptrDown)
    (same : ∀ k, (f k).ptrDownWd = k.ptrDownWd) : Stable I (setInput f) :=
  stable_modify fun s => shield.input s f down same

theorem Shielded.event (wd : Int) : Stable I (if wd < 0 then pure () else Desktops.winEvent wd) :=
  stable_ite (stable_pure _) (shield.winEvent wd)

theorem Shielded.winSak : Stable I winSak :=
  stable_bind (shield.setInput _ (fun _ => le_rfl) fun _ => rfl) fun _ =>
    stable_forEach (fun t => stable_bind stable_get fun _ => stable_doIf (stable_quietly (shield.sendEvent t))) _

theorem Shielded.winPtrup : Stable I winPtrup := by
  refine stable_bind stable_get fun s => stable_bind stable_crashIf fun _ => ?_
  refine stable_bind (shield.setInput _ (fun _ => Nat.sub_le ..) fun _ => rfl) fun _ => ?_
  refine stable_bind (stable_doIf ?_) fun _ => shield.event _
  refine stable_bind (shield.setInput _ (fun _ => le_rfl) fun _ => rfl) fun _ => ?_
  refine stable_bind (stable_doIf (stable_quietly (shield.winEvent _))) fun _ => ?_
  exact stable_doIf (stable_quietly (shield.winEvent _))

theorem Shielded.serve (irq : Irq) (down : irq = .ptrdown → Stable I winPtrdown) : Stable I (serve irq) := by
  cases irq with
  | keydown ch =>
    refine stable_bind (shield.setInput _ (fun _ => le_rfl) fun _ => rfl) fun _ => stable_bind stable_get fun s => ?_
    exact stable_ite shield.winSak (stable_ite shield.sendTaskbar (shield.event _))
  | keyup ch =>
    exact stable_bind (shield.setInput _ (fun _ => le_rfl) fun _ => rfl) fun _ => stable_bind stable_get fun _ =>
      shield.event _
  | ptrmove x y =>
    exact stable_bind stable_get fun _ => stable_bind (shield.setInput _ (fun _ => le_rfl) fun _ => rfl) fun _ =>
      shield.event _
  | ptrdown => exact down rfl
  | ptrup => exact stable_bind stable_get fun _ => stable_ite (stable_pure _) shield.winPtrup
  | clock => exact stable_bind stable_get fun _ => stable_doIf (stable_quietly (shield.winEvent _))

theorem Shielded.handlers (now : List Irq) (down : Irq.ptrdown ∈ now → Stable I winPtrdown) :
    Stable I (forEach now fun irq => quietly (Desktops.serve irq)) := by
  induction now with
  | nil => exact stable_pure _
  | cons irq rest ih =>
    refine stable_bind (stable_quietly (shield.serve irq fun eq => down ?_)) fun _ =>
      ih fun mem => down (mem_cons_of_mem _ mem)
    rw [eq]
    exact mem_cons_self

theorem Shielded.winRedrawRect (point : Stable I point) (r : Rect) (start : Option Nat) :
    Stable I (winRedrawRect r start) := by
  refine stable_bind stable_get fun s => stable_forEach (fun wd => stable_bind stable_get fun _ => ?_) _
  exact stable_doIf (stable_bind (stable_quietly (shield.winEvent wd)) fun _ => point)

theorem Shielded.winRedraw (wd : Nat) : Stable I (winRedraw wd) :=
  stable_bind stable_get fun _ => stable_doIf (shield.winEvent wd)

end

theorem stable_winChkwd (curr : Nat) (wd : Int) : Stable I (winChkwd curr wd) := by
  refine stable_bind stable_get fun s => stable_bind (stable_failIf _) fun _ => ?_
  refine stable_bind (stable_failIf _) fun _ => ?_
  cases (s.d.window wd.toNat).task with
  | none => exact stable_fail _
  | some t => exact stable_failIf _

theorem shielded_apart (i : Nat) : Shielded (Apart i) where
  send _ _ apart := apart
  input s f down same apart := by
    refine Or.imp (fun up => ?_) (fun other => ?_) apart
    · exact Nat.le_zero.mp (up ▸ down s.input)
    · exact (same s.input).symm ▸ other

theorem apart_gap (apart : Apart i s) (spared : NoDown s.irqs.gaps) : wp gap (fun _ t => Apart i t) s := by
  rw [gap, wp_bind, wp_get, after_ok]
  cases gaps : s.irqs.gaps with
  | nil => exact apart
  | cons now later =>
    rw [gaps] at spared
    dsimp only
    rw [wp_bind, wp_modify, after_ok]
    exact wp_of_stable ((shielded_apart i).handlers now fun mem => absurd mem (spared now mem_cons_self)) apart
      fun _ _ apart => apart

/-- The same of a call in which no pointer goes down at all. -/
def Still (i : Nat) (s : State) : Prop := Apart i s ∧ NoDown s.irqs.points

theorem shielded_still (i : Nat) : Shielded (Still i) where
  send _ _ still := still
  input s f down same still := ⟨(shielded_apart i).input s f down same still.1, still.2⟩

theorem still_point : Stable (Still i) point := by
  intro s still
  show wp point (fun _ t => Still i t) s
  rw [point, wp_bind, wp_get, after_ok]
  cases points : s.irqs.points with
  | nil => exact still
  | cons now later =>
    obtain ⟨apart, spared⟩ := still
    rw [points] at spared
    dsimp only
    rw [wp_bind, wp_modify, after_ok]
    refine wp_of_stable ((shielded_still i).handlers now fun mem => absurd mem (spared now mem_cons_self)) ⟨apart, ?_⟩
      fun _ _ still => still
    exact fun late mem => spared late (mem_cons_of_mem _ mem)

theorem still_setDesktop (f : Desktop → Desktop) : Stable (Still i) (setDesktop f) := stable_modify fun _ still => still

theorem still_winChange (curr : Nat) (wd visible x y w h : Int) : Stable (Still i) (winChange curr wd visible x y w h) := by
  have shield := shielded_still i
  refine stable_bind (stable_winChkwd curr wd) fun _ => stable_bind stable_get fun s => ?_
  refine stable_bind (stable_doIf (stable_quietly shield.sendTaskbar)) fun _ => ?_
  refine stable_bind still_point fun _ => stable_ite ?_ (stable_ite ?_ (stable_ite (stable_pure _) ?_))
  · refine stable_bind (still_setDesktop _) fun _ => stable_bind still_point fun _ => ?_
    exact shield.winRedrawRect still_point _ _
  · exact stable_bind (still_setDesktop _) fun _ => stable_bind still_point fun _ => shield.winRedraw _
  · refine stable_ite (stable_bind (shield.winRedrawRect still_point _ _) fun _ => stable_bind still_point fun _ => ?_)
      (stable_pure _)
    exact stable_bind (still_setDesktop _) fun _ => stable_bind still_point fun _ => stable_doIf (shield.winRedraw _)

end Clears

/- Calls that only send events -/

theorem calm_winChkwd (curr : Nat) (wd : Int) : Calm lax s (winChkwd curr wd) := by
  refine calm_get fun t _ _ => calm_bind (calm_failIf _) fun _ => calm_bind (calm_failIf _) fun _ => ?_
  cases (t.d.window wd.toNat).task with
  | none => exact calm_fail _
  | some u => exact calm_failIf _

theorem calm_winRedraw (live : Live s i) : Calm lax s (winRedraw i) :=
  calm_get fun _ _ _ => calm_doIf fun _ => calm_event_live live

theorem calm_winRedrawRect (r : Rect) (live : ∀ i, start = some i → Live s i) :
    Calm lax s (winRedrawRect r start) := by
  refine calm_get fun t kept safe => calm_forEach _ fun i mem => calm_get fun u _ _ => calm_doIf fun _ => ?_
  refine calm_bind (calm_quietly (calm_event_live ?_)) fun _ => calm_point
  cases start with
  | none => cases mem
  | some first =>
    rcases List.mem_cons.mp mem with rfl | behind
    · exact live i rfl
    · exact (kept.live i).mp (safe.listed i (Layers.mem_of_mem_behind behind))

/-- What the check asks for: the window is there and is one of the task's. -/
def Own (s : State) (curr : Nat) (wd : Int) : Prop :=
  ∃ i : Nat, wd = i ∧ i < winMax ∧ (s.d.window i).task = some curr ∧ s.att curr = true

theorem wp_winChkwd
    (ok : Own t curr wd → Q (.ok ()) t) (err : ¬ Own t curr wd → ∀ e, Q (.err e) t) : wp (winChkwd curr wd) Q t := by
  rw [winChkwd, wp_bind, wp_get, after_ok, wp_bind, failIf]
  by_cases att : t.att curr = false
  · rw [if_pos att]
    refine err ?_ _
    rintro ⟨i, rfl, _, _, here⟩
    rw [att] at here
    cases here
  · rw [if_neg att, wp_pure, after_ok, wp_bind, failIf]
    by_cases out : wd < 0 ∨ winMax ≤ wd
    · rw [if_pos out]
      refine err ?_ _
      rintro ⟨i, rfl, bound, _⟩
      omega
    · rw [if_neg out, wp_pure, after_ok]
      cases task : (t.d.window wd.toNat).task with
      | none =>
        refine err ?_ _
        rintro ⟨i, rfl, _, here, _⟩
        rw [Int.toNat_natCast, here] at task
        cases task
      | some u =>
        show wp (failIf (curr ≠ u) .EPERM) Q t
        rw [failIf]
        by_cases other : curr ≠ u
        · rw [if_pos other]
          refine err ?_ _
          rintro ⟨i, rfl, _, here, _⟩
          rw [Int.toNat_natCast, here] at task
          cases task
          exact other rfl
        · rw [if_neg other, wp_pure]
          rw [← not_not.mp other] at task
          exact ok ⟨wd.toNat, by omega, by omega, task, Bool.of_not_eq_false att⟩

theorem calm_checked
    (next : ∀ i : Nat, wd = i → Live s i → Calm lax s (f ())) : Calm lax s (winChkwd curr wd >>= f) := by
  intro t kept safe
  rw [wp_bind]
  refine wp_winChkwd (fun own => ?_) fun _ e => ⟨kept, safe, fun eq => by cases eq⟩
  obtain ⟨i, eq, bound, task, _⟩ := own
  have live : Live t i := ⟨bound, Option.isSome_iff_exists.mpr ⟨curr, task⟩⟩
  exact next i eq ((kept.live i).mp live) t kept safe

theorem setWindow_field {α : Type} (field : Window → α) (d : Desktop) (i : Nat)
    (same : ∀ w, field (f w) = field w) (j : Nat) : field ((d.setWindow i f).window j) = field (d.window j) := by
  show field (update d.window i (f (d.window i)) j) = field (d.window j)
  by_cases eq : j = i
  · rw [eq, update_self]
    exact same _
  · rw [update_of_ne eq]

theorem calm_setWindow (task : ∀ w, (f w).task = w.task)
    (layer : ∀ w, (f w).layer = w.layer) : Calm lax s (setDesktop fun d => d.setWindow i f) := by
  refine calm_modify fun t _ safe => ?_
  have kept : Kept t { t with d := t.d.setWindow i f } :=
    ⟨rfl, rfl, rfl, rfl, setWindow_field Window.task t.d i task, setWindow_field Window.layer t.d i layer, rfl, rfl,
      rfl, rfl, .refl _⟩
  exact ⟨kept, safe.same kept rfl rfl rfl⟩

theorem live_below (kept : Kept s t) (safe : Safe lax t) {wd : Nat} (below : (t.d.behind wd).head? = some i) : Live s i :=
  (kept.live i).mp (safe.listed i (Layers.mem_of_mem_behind (mem_of_mem_head? below)))

theorem calm_winChange (curr : Nat) (wd visible x y w h : Int) : Calm lax s (winChange curr wd visible x y w h) := by
  refine calm_checked fun i eq live => ?_
  subst eq
  rw [Int.toNat_natCast]
  refine calm_get fun t kept safe => calm_bind (calm_doIf fun _ => calm_quietly calm_sendTaskbar) fun _ => ?_
  refine calm_bind calm_point fun _ => calm_ite (fun _ => ?_) fun _ => calm_ite (fun _ => ?_) fun _ => ?_
  · refine calm_bind (calm_setWindow (fun _ => rfl) fun _ => rfl) fun _ => calm_bind calm_point fun _ => ?_
    exact calm_winRedrawRect _ fun _ below => live_below kept safe below
  · refine calm_bind (calm_setWindow (fun _ => rfl) fun _ => rfl) fun _ => calm_bind calm_point fun _ => ?_
    exact calm_winRedraw live
  · refine calm_ite (fun _ => calm_pure ()) fun _ => calm_ite (fun _ => ?_) fun _ => calm_pure ()
    refine calm_bind (calm_winRedrawRect _ fun _ below => live_below kept safe below) fun _ => ?_
    refine calm_bind calm_point fun _ => calm_bind (calm_setWindow (fun _ => rfl) fun _ => rfl) fun _ => ?_
    exact calm_bind calm_point fun _ => calm_doIf fun _ => calm_winRedraw live

end Interrupts
