import Newsys.Wingui.Windows

/- Runs of a desktop: what each call does to the stack, and what holds in every state that is reached. -/
namespace Runs
open Cmds Cmd Kern Function Desktops Interrupts Windows List Bool Option

variable {lax : Prop} {s t : State}

structure Shrunk (lax : Prop) (s t : State) : Prop where
  good : Good lax t
  stack : t.d.stack.Sublist s.d.stack
  layer : ∀ i ∈ t.d.stack, (t.d.window i).layer = (s.d.window i).layer

theorem shrunk_refl (good : Good lax s) : Shrunk lax s s := ⟨good, .refl _, fun _ _ => rfl⟩

theorem Shrunk.trans {u : State} (first : Shrunk lax s t) (second : Shrunk lax t u) : Shrunk lax s u where
  good := second.good
  stack := second.stack.trans first.stack
  layer := fun i mem => (second.layer i mem).trans (first.layer i (second.stack.subset mem))

theorem Shrunk.of_kept (good : Good lax s) (kept : Kept s t) (safe : Safe lax t) : Shrunk lax s t := by
  refine ⟨good.kept kept safe, ?_, fun i _ => kept.layer i⟩
  rw [kept.stack]

theorem Shrunk.of_focused (good : Good lax s) (focused : Focused lax s wd t) : Shrunk lax s t := by
  obtain ⟨kept, safe, _⟩ := focused
  refine ⟨⟨safe, ?_, ?_, ?_⟩, ?_, fun i _ => kept.layer i⟩
  · rw [kept.stack]
    exact good.nodup
  · intro i
    rw [kept.stack, kept.task]
    exact good.complete i
  · rw [kept.stack, kept.windowCount]
    exact good.count
  · rw [kept.stack]
    exact .refl _

theorem Shrunk.of_closed (good : Good lax s) (closed : Closed lax s i t) : Shrunk lax s t := by
  refine ⟨closed.good, ?_, fun j mem => closed.layer j ?_⟩
  · rw [closed.stack]
    exact erase_sublist
  · rw [closed.stack] at mem
    exact (good.nodup.mem_erase_iff.mp mem).1

theorem ends_shrunk_of_calm (good : Good lax s) (calm : Calm lax s m) : wp m (Ends lax (Shrunk lax s)) s := by
  refine wp_mono (ends_calm calm (Kept.refl s) good.safe) ?_
  intro r u ends
  exact ends.mono fun here => .of_kept good here.1 here.2

/- Tasks come and go -/

theorem shrunk_tasks (good : Good lax s) (euid eventCount : Nat → Nat)
    (keeps : ∀ u, s.alive u = true → s.att u = true → (∃ i, (s.d.window i).task = some u) ∨ s.d.taskbar = some u →
      alive u = true ∧ att u = true) (users : ∀ u, att u = true → alive u = true ∧ inh u = true) :
    Shrunk lax s { s with alive := alive, inh := inh, att := att, euid := euid, eventCount := eventCount } := by
  refine ⟨⟨⟨good.safe.listed, ?_, ?_, users, good.safe.focus, good.safe.capture, good.safe.spared⟩,
    good.nodup, good.complete, good.count⟩, .refl _, fun _ _ => rfl⟩
  · intro i u task
    obtain ⟨here, there⟩ := good.safe.owner i u task
    exact keeps u here there (.inl ⟨i, task⟩)
  · intro u taskbar
    obtain ⟨here, there⟩ := good.safe.taskbar u taskbar
    exact keeps u here there (.inr taskbar)

structure Swept (lax : Prop) (s : State) (curr : Nat) (rest : List Nat) (t : State) : Prop where
  shrunk : Shrunk lax s t
  taskbar : t.d.taskbar ≠ some curr
  alive : t.alive = s.alive
  inh : t.inh = s.inh
  att : t.att = s.att
  gone : ∀ i, i < winMax → i ∉ rest → (t.d.window i).task ≠ some curr

structure Gone (lax : Prop) (s : State) (curr : Nat) (t : State) : Prop where
  shrunk : Shrunk lax s t
  taskbar : t.d.taskbar ≠ some curr
  alive : t.alive = s.alive
  inh : t.inh = s.inh
  att : t.att = update s.att curr false

variable {curr : Nat}

theorem gone_of_away (good : Good lax s) (away : s.att curr = false) : Gone lax s curr s := by
  refine ⟨shrunk_refl good, fun eq => ?_, rfl, rfl, ?_⟩
  · have here := (good.safe.taskbar curr eq).2
    rw [away] at here
    cases here
  · rw [← away, update_eq_self]

theorem wp_sweep {i : Nat} {rest : List Nat} (att : s.att curr = true) (swept : Swept lax s curr (i :: rest) t) :
    wp (do
      point
      let s ← get
      doIf ((s.d.window i).task = some curr) (quietly (winClose curr i))) (Ends lax (Swept lax s curr rest)) t := by
  refine ends_point (Kept.refl t) swept.shrunk.good.safe fun u kept safe => ends_get ?_
  have good := swept.shrunk.good.kept kept safe
  have shrunk : Shrunk lax s u := swept.shrunk.trans (.of_kept swept.shrunk.good kept safe)
  have gone : ∀ j, j < winMax → j ∉ i :: rest → (u.d.window j).task ≠ some curr := by
    intro j bound out
    rw [kept.task]
    exact swept.gone j bound out
  by_cases task : (u.d.window i).task = some curr
  · rw [doIf, if_pos task]
    refine wp_mono (ends_quietly (wp_winClose good curr i)) ?_
    intro r v ends
    refine ends.mono ?_
    have own : Own u curr i := by
      refine ⟨i, rfl, (good.safe.listed i (good.complete i ?_)).1, task, ?_⟩
      · rw [task]
        rfl
      · rw [kept.att, swept.att]
        exact att
    rintro (⟨other, _⟩ | ⟨k, eq, closed⟩)
    · exact absurd own other
    · obtain rfl : i = k := by omega
      refine ⟨shrunk.trans (.of_closed good closed), ?_, closed.alive.trans (kept.alive.trans swept.alive),
        closed.inh.trans (kept.inh.trans swept.inh), closed.att.trans (kept.att.trans swept.att), ?_⟩
      · rw [closed.taskbar, kept.taskbar]
        exact swept.taskbar
      · intro j bound out
        rw [closed.task]
        by_cases eq' : j = i
        · rw [if_pos eq']
          exact fun eq => by cases eq
        · rw [if_neg eq']
          refine gone j bound ?_
          rintro (_ | ⟨_, mem⟩)
          · exact eq' rfl
          · exact out mem
  · rw [doIf, if_neg task, wp_pure]
    refine ⟨shrunk, ?_, kept.alive.trans swept.alive, kept.inh.trans swept.inh, kept.att.trans swept.att, ?_⟩
    · rw [kept.taskbar]
      exact swept.taskbar
    · intro j bound out
      by_cases eq : j = i
      · rw [eq]
        exact task
      · refine gone j bound ?_
        rintro (_ | ⟨_, mem⟩)
        · exact eq rfl
        · exact out mem

theorem ends_doIf {p : Prop} [Decidable p]
    (mute : Fails m fun _ => False) (yes : p → wp m (Ends lax P) s) (no : ¬ p → P s)
    (next : ∀ t, P t → wp (f ()) (Ends lax Q) t) : wp (doIf p m >>= f) (Ends lax Q) s := by
  refine ends_mute (fails_doIf mute) ?_ fun _ t here => next t here
  by_cases here : p
  · rw [doIf, if_pos here]
    exact yes here
  · rw [doIf, if_neg here]
    exact no here

theorem fails_winBcast : Fails winBcast fun _ => False :=
  fails_forEach (fun _ => fails_bind fails_get fun _ => fails_doIf (fails_quietly _)) _

theorem gone_of_swept (swept : Swept lax s curr [] t) : Gone lax s curr { t with att := update t.att curr false } := by
  have good := swept.shrunk.good
  refine ⟨swept.shrunk.trans (shrunk_tasks good t.euid t.eventCount ?_ fun u att => ?_), swept.taskbar, swept.alive,
    swept.inh, ?_⟩
  · intro u alive att owns
    have other : u ≠ curr := by
      rintro rfl
      rcases owns with ⟨i, task⟩ | taskbar
      · refine swept.gone i (good.safe.listed i (good.complete i ?_)).1 not_mem_nil task
        rw [task]
        rfl
      · exact swept.taskbar taskbar
    rw [update_of_ne other]
    exact ⟨alive, att⟩
  · by_cases eq : u = curr
    · rw [eq, update_self] at att
      cases att
    · rw [update_of_ne eq] at att
      exact good.safe.users u att
  · show update t.att curr false = update s.att curr false
    rw [swept.att]

section
variable (good : Good lax s)
include good

theorem wp_winClean (curr : Nat) : wp (winClean curr) (Ends lax (Gone lax s curr)) s := by
  refine ends_get ?_
  by_cases att : s.att curr = true
  · have start : ∀ t, Shrunk lax s t → t.d.taskbar ≠ some curr → t.alive = s.alive → t.inh = s.inh → t.att = s.att →
        Swept lax s curr (range winMax) t :=
      fun t shrunk other alive inh att => ⟨shrunk, other, alive, inh, att,
        fun i bound out => absurd (mem_range.mpr bound) out⟩
    rw [doIf, if_pos att]
    refine ends_doIf (P := Swept lax s curr (range winMax)) ?_ (fun mine => ?_) (fun other => ?_) fun t swept => ?_
    · exact fails_bind fails_winBcast fun _ => fails_bind fails_point fun _ => fails_modify _
    · refine ends_mute fails_winBcast (ends_calm calm_winBcast (Kept.refl s) good.safe) fun _ t1 here1 => ?_
      refine ends_point here1.1 here1.2 fun t2 kept2 safe2 => ?_
      have safe3 : Safe lax { t2 with d := { t2.d with taskbar := none } } :=
        ⟨safe2.listed, safe2.owner, (fun _ eq => by cases eq), safe2.users, safe2.focus, safe2.capture,
          safe2.spared⟩
      have good2 := good.kept kept2 safe2
      refine start _ ⟨⟨safe3, good2.nodup, good2.complete, good2.count⟩, ?_, fun i _ => kept2.layer i⟩ ?_ kept2.alive
        kept2.inh kept2.att
      · show t2.d.stack.Sublist s.d.stack
        rw [kept2.stack]
      · exact fun eq => by cases eq
    · exact start s (shrunk_refl good) other rfl rfl rfl
    · have mute : ∀ i : Nat, Fails (do
          point
          let s ← get
          doIf ((s.d.window i).task = some curr) (quietly (winClose curr i))) fun _ => False :=
        fun i => fails_bind fails_point fun _ => fails_bind fails_get fun _ => fails_doIf (fails_quietly _)
      have sweep := ends_forEach (Swept lax s curr) swept mute fun i rest t here => wp_sweep att here
      exact ends_mute (fails_forEach mute _) sweep fun _ u here => gone_of_swept here
  · rw [doIf, if_neg att]
    exact gone_of_away good (of_not_eq_true att)

theorem wp_winDetach (curr : Nat) :
    wp (winDetach curr) (Ends lax fun t => Shrunk lax s t ∧ t.alive = s.alive ∧ t.att curr = false) s := by
  refine ends_get (ends_failIf (fun none => ⟨shrunk_refl good, rfl, ?_⟩) fun _ => ?_)
  · rw [eq_false_iff]
    intro att
    have inh := (good.safe.users curr att).2
    rw [none] at inh
    cases inh
  · refine ends_bind (wp_winClean good curr) (fun _ t gone => ?_) fun t gone => ?_
    · rw [wp_modify]
      have good' := gone.shrunk.good
      have away : t.att curr = false := by rw [gone.att, update_self]
      have same : update t.att curr false = t.att := by rw [← away, update_eq_self]
      refine ⟨gone.shrunk.trans (shrunk_tasks good' t.euid t.eventCount ?_ fun u att => ?_), gone.alive, ?_⟩
      · rw [same]
        exact fun u alive att _ => ⟨alive, att⟩
      · rw [same] at att
        obtain ⟨alive, inh⟩ := good'.safe.users u att
        refine ⟨alive, ?_⟩
        have other : u ≠ curr := by
          rintro rfl
          rw [away] at att
          cases att
        rw [update_of_ne other]
        exact inh
      · exact update_self ..
    · exact ⟨gone.shrunk, gone.alive, by rw [gone.att, update_self]⟩

theorem wp_taskExit (curr : Nat) : wp (taskExit curr) (Ends lax (Shrunk lax s)) s := by
  refine ends_mute (fails_quietly _) (ends_quietly (wp_winDetach good curr)) fun _ t here => ?_
  obtain ⟨shrunk, alive, away⟩ := here
  rw [wp_modify]
  have stays : ∀ u, t.att u = true → u ≠ curr := by
    rintro u att rfl
    rw [away] at att
    cases att
  refine shrunk.trans (shrunk_tasks shrunk.good t.euid t.eventCount (fun u here att _ => ?_) fun u att => ?_)
  · rw [update_of_ne (stays u att)]
    exact ⟨here, att⟩
  · rw [update_of_ne (stays u att)]
    exact shrunk.good.safe.users u att

theorem wp_doExec (curr : Nat) : wp (doExec curr) (Ends lax (Shrunk lax s)) s := by
  refine ends_bind (wp_winClean good curr) (fun _ t gone => ?_) fun t gone => gone.shrunk
  rw [wp_modify]
  exact gone.shrunk.trans (shrunk_tasks gone.shrunk.good t.euid _ (fun u here att _ => ⟨here, att⟩)
    gone.shrunk.good.safe.users)

theorem wp_sysWinAttach (here : s.alive curr = true) : wp (sysWinAttach curr) (Ends lax (Shrunk lax s)) s := by
  refine ends_get (ends_failIf (fun _ => shrunk_refl good) fun inh => ?_)
  rw [wp_modify]
  have inh' : s.inh curr = true := of_not_eq_false inh
  refine shrunk_tasks good s.euid s.eventCount (fun u alive att _ => ⟨alive, ?_⟩) fun u att => ?_
  · by_cases eq : u = curr
    · rw [eq, update_self]
    · rw [update_of_ne eq]
      exact att
  · by_cases eq : u = curr
    · rw [eq]
      exact ⟨here, inh'⟩
    · rw [update_of_ne eq] at att
      exact good.safe.users u att

theorem wp_sysWinTaskbar (curr : Nat) : wp (sysWinTaskbar curr) (Ends lax (Shrunk lax s)) s := by
  refine ends_get (ends_failIf (fun _ => shrunk_refl good) fun away => ends_failIf (fun _ => shrunk_refl good) fun _ => ?_)
  rw [setDesktop, wp_bind, wp_modify, after_ok]
  have att : s.att curr = true := of_not_eq_false away
  have safe : Safe lax { s with d := { s.d with taskbar := some curr } } := by
    refine ⟨good.safe.listed, good.safe.owner, ?_, good.safe.users, good.safe.focus, good.safe.capture,
      good.safe.spared⟩
    rintro u ⟨⟩
    exact ⟨(good.safe.users curr att).1, att⟩
  have good' : Good lax { s with d := { s.d with taskbar := some curr } } := ⟨safe, good.nodup, good.complete, good.count⟩
  refine wp_mono (ends_shrunk_of_calm good' (calm_quietly calm_sendTaskbar)) ?_
  intro r u ends
  refine ends.mono fun shrunk => ?_
  exact ⟨shrunk.good, shrunk.stack, shrunk.layer⟩

theorem wp_newTask (curr child : Nat) : wp (newTask curr child) (Ends lax (Shrunk lax s)) s := by
  refine ends_get (ends_failIf (fun _ => shrunk_refl good) fun free => ?_)
  rw [wp_modify]
  have other : ∀ u, s.alive u = true → u ≠ child := by
    rintro u alive rfl
    exact free (.inr alive)
  refine shrunk_tasks good _ _ (fun u alive att _ => ?_) fun u att => ?_
  · rw [update_of_ne (other u alive), update_of_ne (other u alive)]
    exact ⟨alive, att⟩
  · by_cases eq : u = child
    · rw [eq, update_self] at att
      cases att
    · rw [update_of_ne eq] at att ⊢
      rw [update_of_ne eq]
      exact good.safe.users u att

end

theorem calm_winBlink (curr : Nat) (wd : Int) (ena : Bool) : Calm lax s (winBlink curr wd ena) :=
  calm_bind (calm_winChkwd curr wd) fun _ => calm_setWindow (fun _ => rfl) fun _ => rfl

theorem calm_sysWinDragdrop (curr size : Nat) : Calm lax s (sysWinDragdrop curr size) := by
  refine calm_get fun t _ _ => calm_bind (calm_failIf _) fun _ => calm_bind (calm_winChkwd _ _) fun _ => ?_
  exact calm_bind (calm_failIf _) fun _ => calm_bind (calm_failIf _) fun _ => calm_setInput fun _ => ⟨rfl, rfl⟩

theorem calm_winSecUnlock (curr : Nat) : Calm lax s (winSecUnlock curr) :=
  calm_get fun _ _ _ => calm_bind (calm_failIf _) fun _ => calm_bind (calm_setInput fun _ => ⟨rfl, rfl⟩) fun _ =>
    calm_bind calm_point fun _ => calm_winBcast

/- Raising a window and giving it another layer -/

structure Raised (lax : Prop) (s : State) (i : Nat) (t : State) : Prop where
  good : Good lax t
  live : Live s i
  stack : t.d.stack = Layers.raise s.d.layer i s.d.stack
  layer : ∀ j, (t.d.window j).layer = (s.d.window j).layer

def Raises (s : State) (curr : Nat) (wd : Int) : Prop := s.att curr = true ∧ ∃ i : Nat, wd = i ∧ Live s i

theorem good_restacked (good : Good lax s) (kept : Kept s t) (safe : Safe lax t)
    (perm : stack.Perm s.d.stack) : Good lax { t with d := { t.d with stack := stack } } := by
  refine ⟨⟨?_, safe.owner, safe.taskbar, safe.users, safe.focus, safe.capture, safe.spared⟩, ?_, ?_, ?_⟩
  · intro i mem
    exact (kept.live i).mpr (good.safe.listed i (perm.subset mem))
  · exact perm.nodup_iff.mpr good.nodup
  · intro i some
    have known : (t.d.window i).task.isSome = true := some
    rw [kept.task] at known
    exact perm.mem_iff.mpr (good.complete i known)
  · show t.d.windowCount = (stack.length : Int)
    rw [kept.windowCount, good.count, perm.length_eq]

theorem wp_winRaise (good : Good lax s) (curr : Nat) (wd : Int) :
    wp (winRaise curr wd) (Ends lax fun t => ¬ Raises s curr wd ∧ t = s ∨
      Raises s curr wd ∧ ∃ i : Nat, wd = i ∧ Raised lax s i t) s := by
  refine ends_get (ends_failIf (fun away => .inl ⟨?_, rfl⟩) fun here => ?_)
  · rintro ⟨att, _⟩
    rw [away] at att
    cases att
  refine ends_failIf (fun out => .inl ⟨?_, rfl⟩) fun bound => ends_failIf (fun none => .inl ⟨?_, rfl⟩) fun some => ?_
  · rintro ⟨_, i, rfl, live⟩
    have here := live.1
    omega
  · rintro ⟨_, i, rfl, live⟩
    have here := live.2
    rw [Int.toNat_natCast, isNone_iff_eq_none] at none
    rw [none] at here
    cases here
  obtain ⟨i, rfl⟩ : ∃ i : Nat, wd = i := ⟨wd.toNat, by omega⟩
  rw [Int.toNat_natCast] at some
  have live : Live s i := by
    refine ⟨by omega, ?_⟩
    rw [isNone_iff_eq_none] at some
    exact isSome_iff_ne_none.mpr some
  have listed := good.complete i live.2
  have raises : Raises s curr i := ⟨of_not_eq_false here, i, rfl, live⟩
  rw [Int.toNat_natCast]
  dsimp only
  cases found : Layers.place s.d.layer i s.d.stack with
  | none => exact absurd (decide_eq_true le_rfl) (find?_eq_none.mp found i listed)
  | some wpp =>
    by_cases eq : wpp = i
    · dsimp only
      rw [if_pos eq]
      refine .inr ⟨raises, i, rfl, good, live, ?_, fun _ => rfl⟩
      rw [Layers.raise, found]
      exact (if_pos eq).symm
    · dsimp only
      rw [if_neg eq]
      have event : Calm lax s (quietly (winEvent i)) := calm_quietly (calm_event_live live)
      refine ends_mute (fails_quietly _) (ends_calm event (Kept.refl s) good.safe) fun _ t1 here1 => ?_
      refine ends_point here1.1 here1.2 fun t2 kept2 safe2 => ?_
      rw [setDesktop, wp_bind, wp_modify, after_ok]
      have raised : Layers.raise s.d.layer i s.d.stack = Layers.insertBefore wpp i (t2.d.stack.erase i) := by
        rw [Layers.raise, found, kept2.stack]
        exact if_neg eq
      have perm : (Layers.raise s.d.layer i s.d.stack).Perm s.d.stack := Layers.raise_perm listed good.nodup
      rw [raised] at perm
      have good3 := good_restacked good kept2 safe2 perm
      have live3 : Live { t2 with d := { t2.d with stack := Layers.insertBefore wpp i (t2.d.stack.erase i) } } i :=
        (kept2.live i).mpr live
      refine wp_mono (ends_calm (calm_bind calm_point fun _ => calm_doIf fun _ => calm_event_live live3) (Kept.refl _)
        good3.safe) ?_
      intro r u ends
      refine ends.mono fun here => .inr ⟨raises, i, rfl, good3.kept here.1 here.2, live, ?_, fun j => ?_⟩
      · rw [raised]
        exact here.1.stack
      · exact (here.1.layer j).trans (kept2.layer j)

def relayered (s : State) (i : Nat) (layer : Int) : State :=
  { s with d := s.d.setWindow i fun w => { w with layer := layer } }

theorem wp_winSetlayer (curr : Nat) (wd layer : Int) :
    wp (winSetlayer curr wd layer) (fun r t => r ≠ .crash ∧ (r ≠ .ok () → t = s) ∧
      (r = .ok () → ∃ i : Nat, wd = i ∧ Live s i ∧ t = relayered s i layer)) s := by
  rw [winSetlayer, wp_bind]
  refine wp_winChkwd (fun own => ?_) fun _ e => ⟨fun eq => (by cases eq), fun _ => rfl, fun eq => by cases eq⟩
  obtain ⟨i, rfl, bound, task, _⟩ := own
  rw [after_ok, wp_bind, wp_get, after_ok, wp_bind, failIf]
  by_cases denied : s.euid curr ≠ 0 ∧ layer < 0
  · rw [if_pos denied]
    exact ⟨fun eq => (by cases eq), fun _ => rfl, fun eq => by cases eq⟩
  · rw [if_neg denied, wp_pure, after_ok, setDesktop, wp_modify]
    refine ⟨fun eq => (by cases eq), fun other => absurd rfl other, fun _ => ?_⟩
    exact ⟨i, rfl, ⟨bound, isSome_iff_exists.mpr ⟨curr, task⟩⟩, rfl⟩

theorem setlayer_run {wd layer : Int} {r : Res Errno Unit} (run : winSetlayer curr wd layer s = (r, t)) :
    r ≠ .crash ∧ (r ≠ .ok () → t = s) ∧ (r = .ok () → ∃ i : Nat, wd = i ∧ Live s i ∧ t = relayered s i layer) := by
  have done := wp_winSetlayer (s := s) curr wd layer
  rw [wp, run] at done
  exact done

theorem layer_relayered (s : State) (i : Nat) (layer : Int) (j : Nat) :
    (relayered s i layer).d.layer j = if j = i then layer else s.d.layer j := by
  show (update s.d.window i { s.d.window i with layer := layer } j).layer = _
  by_cases eq : j = i
  · rw [eq, update_self, if_pos rfl]
  · rw [update_of_ne eq, if_neg eq]
    rfl

theorem good_relayered (good : Good lax s) (i : Nat) (layer : Int) : Good lax (relayered s i layer) := by
  have task : ∀ j, ((relayered s i layer).d.window j).task = (s.d.window j).task :=
    setWindow_field Window.task s.d i (f := fun w => { w with layer := layer }) fun _ => rfl
  have live : ∀ j, Live (relayered s i layer) j ↔ Live s j := by
    intro j
    rw [Live, Live, task]
  refine ⟨⟨fun j mem => (live j).mpr (good.safe.listed j mem), ?_, good.safe.taskbar, good.safe.users, ?_, ?_,
    good.safe.spared⟩, good.nodup, ?_, good.count⟩
  · intro j u owner
    rw [task] at owner
    exact good.safe.owner j u owner
  · rcases good.safe.focus with none | ⟨j, eq, here⟩
    · exact .inl none
    · exact .inr ⟨j, eq, (live j).mpr here⟩
  · refine good.safe.capture.imp_right fun held down => ?_
    rcases held down with none | ⟨j, eq, here, serial⟩
    · exact .inl none
    · exact .inr ⟨j, eq, (live j).mpr here, serial⟩
  · intro j some
    rw [task] at some
    exact good.complete j some

/-- The calls that leave the layers and the order of the windows alone. -/
def Op.plain : Op → Prop
  | .creat .. => False
  | .raise _ => False
  | .setlayer .. => False
  | _ => True

theorem wp_call (good : Good lax s) (here : s.alive curr = true) {op : Op} (plain : Op.plain op) :
    wp (op.call curr) (Ends lax (Shrunk lax s)) s := by
  have focus : ∀ {m : Call Unit} {wd : Int}, wp m (Ends lax (Focused lax s wd)) s → wp m (Ends lax (Shrunk lax s)) s :=
    fun run => wp_mono run fun _ _ ends => ends.mono fun focused => .of_focused good focused
  cases op with
  | creat => cases plain
  | raise => cases plain
  | setlayer => cases plain
  | change wd visible x y w h => exact ends_shrunk_of_calm good (calm_winChange curr wd visible x y w h)
  | close wd =>
    refine wp_mono (wp_winClose good curr wd) ?_
    intro r t ends
    refine ends.mono ?_
    rintro (⟨_, rfl⟩ | ⟨i, _, closed⟩)
    · exact shrunk_refl good
    · exact .of_closed good closed
  | focus wd => exact focus (wp_winFocus good.safe curr wd)
  | ufocus wd => exact focus (wp_winUfocus good.safe curr wd)
  | blink wd ena => exact ends_shrunk_of_calm good (calm_winBlink curr wd ena)
  | taskbar => exact wp_sysWinTaskbar good curr
  | dragdrop => exact ends_shrunk_of_calm good (calm_sysWinDragdrop curr _)
  | secUnlock => exact ends_shrunk_of_calm good (calm_winSecUnlock curr)
  | attach => exact wp_sysWinAttach good here
  | detach =>
    refine wp_mono (wp_winDetach good curr) ?_
    exact fun r t ends => ends.mono fun here => here.1
  | exec => exact wp_doExec good curr
  | exit => exact wp_taskExit good curr
  | fork child => exact wp_newTask good curr child
  | evtWait => exact shrunk_tasks good s.euid _ (fun u alive att _ => ⟨alive, att⟩) good.safe.users
  | setuid uid => exact shrunk_tasks good _ s.eventCount (fun u alive att _ => ⟨alive, att⟩) good.safe.users

theorem good_due (good : Good lax s) (irqs : Due) (spared : lax ∨ NoDown irqs.gaps) : Good lax { s with irqs := irqs } :=
  ⟨⟨good.safe.listed, good.safe.owner, good.safe.taskbar, good.safe.users, good.safe.focus, good.safe.capture, spared⟩,
    good.nodup, good.complete, good.count⟩

theorem ends_of_wp {α : Type} {m : Call α} {Q : Res Errno α → State → Prop} {r : Res Errno α} (all : wp m Q s)
    (run : m s = (r, t)) : Q r t := by
  rw [wp, run] at all
  exact all

theorem wp_creat (good : Good lax s) (curr : Nat) (visible x y w h : Int) :
    wp ((Op.creat visible x y w h).call curr) (Creates lax s) s := by
  show wp (winCreat curr visible x y w h >>= fun _ => pure ()) (Creates lax s) s
  rw [wp_bind]
  refine wp_mono (wp_winCreat good curr visible x y w h) ?_
  rintro (a | e | _) t here
  · exact here
  · exact here
  · exact here

/-- No pointer goes down in front of the removal of a window, nor while `win_creat` makes one that it does not keep. -/
def Step.Spares (r : Res Errno Unit) : Step → Prop
  | .call _ (.creat ..) irqs => NoDown irqs.gaps ∧ ∀ e, r = .err e → NoDown irqs.points
  | .call _ _ irqs => NoDown irqs.gaps
  | .irq _ => True

theorem Step.Spares.gaps {curr : Nat} {op : Op} {irqs : Due} (spares : Step.Spares r (.call curr op irqs)) :
    NoDown irqs.gaps := by
  cases op with
  | creat => exact spares.1
  | _ => exact spares

theorem ends_step (good : Good lax s) {step : Step} (able : step.able s) {r : Res Errno Unit} (run : step.run s = (r, t))
    (spares : lax ∨ Step.Spares r step) :
    Ends lax (Good lax) r t := by
  cases step with
  | irq i =>
    have ends := ends_of_wp (ends_calm (calm_serve i) (Kept.refl s) good.safe) run
    exact ends.mono fun here => good.kept here.1 here.2
  | call curr op irqs =>
    have good' := good_due good irqs (spares.imp_right Step.Spares.gaps)
    by_cases plain : Op.plain op
    · exact (ends_of_wp (wp_call good' able plain) run).mono fun shrunk => shrunk.good
    · cases op with
      | creat visible x y w h =>
        have creates := ends_of_wp (wp_creat good' curr visible x y w h) run
        rcases r with a | e | _
        · obtain ⟨i, created⟩ := creates
          exact created.good
        · exact (creates (spares.imp_right fun both => both.2 e rfl)).good
        · exact creates
      | raise wd =>
        refine (ends_of_wp (wp_winRaise good' curr wd) run).mono ?_
        rintro (⟨_, rfl⟩ | ⟨_, i, _, raised⟩)
        · exact good'
        · exact raised.good
      | setlayer wd layer =>
        obtain ⟨runs, refused, set⟩ := setlayer_run (s := { s with irqs := irqs }) run
        cases r with
        | crash => exact absurd rfl runs
        | err e =>
          rw [refused fun eq => by cases eq]
          exact good'
        | ok =>
          obtain ⟨i, _, _, rfl⟩ := set rfl
          exact good_relayered good' i layer
      | _ => exact absurd trivial plain

theorem good_start (curr : Nat) (display : Display) (euid eventCount : Nat → Nat)
    (here : alive curr = true) : Good lax (winNewdesktop curr display alive euid eventCount) := by
  refine ⟨⟨fun _ mem => (by cases mem), fun _ _ eq => (by cases eq), fun _ eq => (by cases eq), ?_, .inl rfl,
    .inr fun down => ?_, .inr fun _ mem => (by cases mem)⟩, nodup_nil, fun _ some => (by cases some), rfl⟩
  · intro u att
    have eq : u = curr := by simpa [winNewdesktop] using att
    rw [eq]
    exact ⟨here, beq_self_eq_true curr⟩
  · exact absurd down (Nat.lt_irrefl 0)

theorem ends_runs (ends : Ends lax P r t) (runs : r ≠ .crash) : P t := by
  cases r with
  | ok => exact ends
  | err => exact ends
  | crash => exact absurd rfl runs

theorem reach_good (reach : Reach s) : Good True s := by
  induction reach with
  | start curr display alive euid eventCount here => exact good_start curr display euid eventCount here
  | step before step able run runs good => exact ends_runs (ends_step good able run (.inl trivial)) runs

end Runs
