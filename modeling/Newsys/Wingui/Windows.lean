import Newsys.Wingui.Interrupts

/- What the calls do to the windows: which of them stay on the stack, with which layer, and where the focus goes. -/
namespace Windows
open Cmds Cmd Kern Function Desktops Interrupts List Option

structure Good (lax : Prop) (s : State) : Prop where
  safe : Safe lax s
  nodup : s.d.stack.Nodup
  complete : ∀ i, (s.d.window i).task.isSome = true → i ∈ s.d.stack
  count : s.d.windowCount = s.d.stack.length

theorem Good.kept {s t : State} (good : Good lax s) (kept : Kept s t) (safe : Safe lax t) : Good lax t where
  safe := safe
  nodup := by
    rw [kept.stack]
    exact good.nodup
  complete := by
    intro i
    rw [kept.stack, kept.task]
    exact good.complete i
  count := by
    rw [kept.stack, kept.windowCount]
    exact good.count

/-- The run crashes only if the desktop is `lax`, and ends otherwise in a state with the property. -/
def Ends (lax : Prop) (P : State → Prop) {α : Type} : Res Errno α → State → Prop
  | .crash, _ => lax
  | _, t => P t

section Rules
variable {lax : Prop} {s t : State} {α β ι : Type} {P Q : State → Prop} {m : Call α} {f : α → Call β}

theorem Ends.mono (ends : Ends lax P r t) (imp : P t → Q t) : Ends lax Q r t := by
  cases r with
  | ok a => exact imp ends
  | err e => exact imp ends
  | crash => exact ends

theorem ends_bind (first : wp m (Ends lax P) s) (next : ∀ a t, P t → wp (f a) (Ends lax Q) t) (stop : ∀ t, P t → Q t) :
    wp (m >>= f) (Ends lax Q) s := by
  rw [wp_bind]
  refine wp_mono first ?_
  rintro (a | e | _) u ends
  · exact next a u ends
  · exact stop u ends
  · exact ends

theorem wp_mute {R : Res Errno β → State → Prop} (mute : Fails m fun _ => False) (first : wp m (Ends lax P) s)
    (stop : ∀ t, lax → R .crash t) (next : ∀ a t, P t → wp (f a) R t) : wp (m >>= f) R s := by
  have errors := mute s
  rw [wp_bind]
  simp only [wp] at first ⊢
  rcases run : m s with ⟨a | e | _, u⟩ <;> rw [run] at first errors
  · exact next a u first
  · exact absurd rfl (errors e)
  · exact stop u first

theorem ends_mute (mute : Fails m fun _ => False) (first : wp m (Ends lax P) s)
    (next : ∀ a t, P t → wp (f a) (Ends lax Q) t) : wp (m >>= f) (Ends lax Q) s :=
  wp_mute mute first (fun _ => id) next

theorem ends_quietly {m : Call Unit} (ends : wp m (Ends lax P) s) : wp (quietly m) (Ends lax P) s := by
  rw [quietly, wp_bind, wp_attempt]
  refine wp_mono ends ?_
  rintro (a | e | _) u here
  · exact here
  · exact here
  · exact here

theorem ends_calm (calm : Calm lax s m) (kept : Kept s t) (safe : Safe lax t) :
    wp m (Ends lax fun u => Kept s u ∧ Safe lax u) t := by
  refine wp_mono (calm t kept safe) ?_
  rintro (a | e | _) u ⟨kept', safe', crashed⟩
  · exact ⟨kept', safe'⟩
  · exact ⟨kept', safe'⟩
  · exact crashed rfl

theorem wp_failIf {p : Prop} [Decidable p] {e : Errno} {f : Unit → Call β} {R : Res Errno β → State → Prop}
    (stop : p → R (.err e) s) (next : ¬ p → wp (f ()) R s) : wp (failIf p e >>= f) R s := by
  rw [wp_bind, failIf]
  by_cases here : p
  · rw [if_pos here]
    exact stop here
  · rw [if_neg here, wp_pure]
    exact next here

theorem ends_and (ends : wp m (Ends lax P) s) (also : wp m (fun _ u => Q u) s) : wp m (Ends lax fun u => P u ∧ Q u) s := by
  refine wp_mono (wp_and ends also) ?_
  rintro r u ⟨here, there⟩
  exact here.mono fun both => ⟨both, there⟩

theorem ends_failIf {p : Prop} [Decidable p] {e : Errno} {f : Unit → Call β} (stop : p → Q s)
    (next : ¬ p → wp (f ()) (Ends lax Q) s) : wp (failIf p e >>= f) (Ends lax Q) s := wp_failIf stop next

theorem ends_get {f : State → Call β} (next : wp (f s) (Ends lax Q) s) : wp (get >>= f) (Ends lax Q) s := by
  rw [wp_bind]
  exact next

theorem fails_quietly (m : Call Unit) : Fails (quietly m) fun _ => False :=
  fails_bind fails_attempt fun _ => fails_pure ()

theorem fails_doIf {p : Prop} [Decidable p] {m : Call Unit} (mute : Fails m fun _ => False) :
    Fails (doIf p m) fun _ => False := by
  rw [doIf]
  split
  · exact mute
  · exact fails_pure ()

theorem fails_point : Fails point fun _ => False := by
  refine fails_bind fails_get fun t => ?_
  cases t.irqs.points with
  | nil => exact fails_pure ()
  | cons now later =>
    exact fails_bind (fails_modify _) fun _ => fails_forEach (fun irq => fails_quietly _) _

theorem ends_point {f : Unit → Call β} (kept : Kept s t) (safe : Safe lax t)
    (next : ∀ u, Kept s u → Safe lax u → wp (f ()) (Ends lax Q) u) : wp (point >>= f) (Ends lax Q) t :=
  ends_mute fails_point (ends_calm calm_point kept safe) fun _ u here => next u here.1 here.2

theorem fails_gap : Fails gap fun _ => False := by
  refine fails_bind fails_get fun t => ?_
  cases t.irqs.gaps with
  | nil => exact fails_pure ()
  | cons now later => exact fails_bind (fails_modify _) fun _ => fails_forEach (fun irq => fails_quietly _) _

theorem ends_gap {f : Unit → Call β} (kept : Kept s t) (safe : Safe lax t) (apart : lax ∨ Apart i t)
    (next : ∀ u, Kept s u → Safe lax u → lax ∨ Apart i u → wp (f ()) (Ends lax Q) u) : wp (gap >>= f) (Ends lax Q) t := by
  have still : wp gap (fun _ u => lax ∨ Apart i u) t := by
    rcases safe.spared with may | spared
    · exact .inl may
    rcases apart with may | apart
    · exact .inl may
    · exact wp_mono (apart_gap apart spared) fun _ _ here => .inr here
  refine ends_mute fails_gap (ends_and (ends_calm calm_gap kept safe) still) fun _ u here => ?_
  exact next u here.1.1 here.1.2 here.2

theorem ends_forEach (I : List ι → State → Prop) (start : I is s)
    (mute : ∀ i, Fails (g i) fun _ => False)
    (round : ∀ i rest t, I (i :: rest) t → wp (g i) (Ends lax (I rest)) t) : wp (forEach is g) (Ends lax (I [])) s := by
  induction is generalizing s with
  | nil => exact start
  | cons i rest ih => exact ends_mute (mute i) (round i rest s start) fun _ t here => ih here

end Rules

/- The focus -/

variable {lax : Prop} {s t : State}

def refocus (s : State) (focus : Int) : State := { s with d := { s.d with focus := focus } }

theorem safe_refocus (safe : Safe lax s) (valid : Valid s focus) : Safe lax (refocus s focus) :=
  ⟨safe.listed, safe.owner, safe.taskbar, safe.users, valid, safe.capture, safe.spared⟩

theorem kept_refocus (kept : Kept s t) (focus : Int) : Kept (refocus s focus) (refocus t focus) :=
  ⟨kept.stack, kept.windowCount, rfl, kept.taskbar, kept.task, kept.layer, kept.alive, kept.inh, kept.att, kept.born,
    kept.gaps⟩

def Focused (lax : Prop) (s : State) (wd : Int) (t : State) : Prop :=
  Kept (refocus s t.d.focus) t ∧ Safe lax t ∧ (t.d.focus = s.d.focus ∨ t.d.focus = wd)

theorem focused_of_kept (kept : Kept s t) (safe : Safe lax t) (wd : Int) : Focused lax s wd t := by
  refine ⟨?_, safe, .inl kept.focus⟩
  rw [kept.focus]
  exact kept

theorem wp_moveFocus (kept : Kept s t) (safe : Safe lax t) (valid : Valid t focus) : wp (do
      setDesktop fun d => { d with focus := focus }
      point
      quietly sendTaskbar) (Ends lax (Focused lax s focus)) t := by
  rw [setDesktop, wp_bind, wp_modify, after_ok]
  have moved : Kept (refocus s focus) (refocus t focus) := kept_refocus kept focus
  have safe' : Safe lax (refocus t focus) := safe_refocus safe valid
  refine wp_mono (ends_calm (calm_bind calm_point fun _ => calm_quietly calm_sendTaskbar) moved safe') ?_
  intro r u ends
  refine ends.mono ?_
  rintro ⟨kept', safe''⟩
  have eq : u.d.focus = focus := kept'.focus
  refine ⟨?_, safe'', .inr eq⟩
  rw [eq]
  exact kept'

theorem wp_winFocus (safe : Safe lax s) (curr : Nat) (wd : Int) : wp (winFocus curr wd) (Ends lax (Focused lax s wd)) s := by
  have same := focused_of_kept (Kept.refl s) safe wd
  refine ends_get (ends_failIf (fun _ => same) fun _ => ends_failIf (fun _ => same) fun _ => ?_)
  refine ends_failIf (fun _ => same) fun bound => ends_failIf (fun _ => same) fun task => ?_
  have live : Live s wd.toNat := by
    refine ⟨by omega, ?_⟩
    rw [isNone_iff_eq_none] at task
    exact isSome_iff_ne_none.mpr task
  have valid : Valid s wd := .inr ⟨wd.toNat, by omega, live⟩
  by_cases eq : s.d.focus = wd
  · rw [if_pos eq]
    exact same
  · rw [if_neg eq]
    have event : Calm lax s (quietly (winEvent wd)) := calm_quietly (calm_winEvent (.inr valid) (by omega))
    have leave : Calm lax s (doIf (0 ≤ s.d.focus) (quietly (winEvent s.d.focus))) :=
      calm_doIf fun nonneg => calm_quietly (calm_winEvent (.inr safe.focus) (by omega))
    refine ends_mute (fails_doIf (fails_quietly _)) (ends_calm leave (Kept.refl s) safe) fun _ t1 here1 => ?_
    refine ends_point here1.1 here1.2 fun t2 kept2 safe2 => ?_
    refine ends_mute (fails_quietly _) (ends_calm event kept2 safe2) fun _ t3 here3 => ?_
    refine ends_point here3.1 here3.2 fun t4 kept4 safe4 => ?_
    exact wp_moveFocus kept4 safe4 (kept4.valid valid)

theorem wp_winUfocus (safe : Safe lax s) (curr : Nat) (wd : Int) : wp (winUfocus curr wd) (Ends lax (Focused lax s (-1))) s := by
  rw [winUfocus, wp_bind]
  refine wp_winChkwd (fun own => ?_) fun _ e => focused_of_kept (Kept.refl s) safe _
  obtain ⟨i, rfl, bound, task, _⟩ := own
  have live : Live s i := ⟨bound, isSome_iff_exists.mpr ⟨curr, task⟩⟩
  rw [after_ok]
  refine ends_mute (fails_quietly _) (ends_calm (calm_quietly (calm_event_live live)) (Kept.refl s) safe) ?_
  intro _ t1 here1
  refine ends_point here1.1 here1.2 fun t2 kept2 safe2 => ?_
  exact wp_moveFocus kept2 safe2 (.inl rfl)

/- A window is taken off the stack -/

def off (s : State) (i : Nat) : State :=
  { s with d := { s.d with stack := s.d.stack.erase i, window := update s.d.window i zeroWindow } }

theorem task_off (s : State) (i j : Nat) :
    ((off s i).d.window j).task = if j = i then none else (s.d.window j).task := by
  show (update s.d.window i zeroWindow j).task = _
  by_cases eq : j = i
  · rw [eq, update_self, if_pos rfl]
    rfl
  · rw [update_of_ne eq, if_neg eq]

variable {i j : Nat}

theorem layer_off (s : State) (other : j ≠ i) : ((off s i).d.window j).layer = (s.d.window j).layer := by
  show (update s.d.window i zeroWindow j).layer = _
  rw [update_of_ne other]

theorem live_off (live : Live s j) (other : j ≠ i) : Live (off s i) j := by
  refine ⟨live.1, ?_⟩
  rw [task_off, if_neg other]
  exact live.2

theorem safe_off (safe : Safe lax s) (nodup : s.d.stack.Nodup) (focus : s.d.focus ≠ i)
    (apart : lax ∨ Apart i s) : Safe lax (off s i) where
  listed := by
    intro j mem
    have both : j ≠ i ∧ j ∈ s.d.stack := nodup.mem_erase_iff.mp mem
    exact live_off (safe.listed j both.2) both.1
  owner := by
    intro j t
    rw [task_off]
    by_cases eq : j = i
    · rw [if_pos eq]
      intro none
      cases none
    · rw [if_neg eq]
      exact safe.owner j t
  taskbar := safe.taskbar
  users := safe.users
  focus := by
    rcases safe.focus with none | ⟨j, eq, live⟩
    · exact .inl none
    · refine .inr ⟨j, eq, live_off live ?_⟩
      rintro rfl
      exact focus eq
  capture := by
    rcases apart with may | apart
    · exact .inl may
    refine safe.capture.imp_right fun held down => ?_
    rcases held down with none | ⟨j, eq, live, serial⟩
    · exact .inl none
    · refine .inr ⟨j, eq, live_off live ?_, serial⟩
      rintro rfl
      rcases apart with up | other
      · exact absurd up (Nat.ne_of_gt down)
      · exact other eq
  spared := safe.spared

/-- The state behind a window that has been closed: nothing but this window and the focus has changed. -/
structure Closed (lax : Prop) (s : State) (i : Nat) (t : State) : Prop where
  good : Good lax t
  stack : t.d.stack = s.d.stack.erase i
  task : ∀ j, (t.d.window j).task = if j = i then none else (s.d.window j).task
  layer : ∀ j, j ≠ i → (t.d.window j).layer = (s.d.window j).layer
  taskbar : t.d.taskbar = s.d.taskbar
  alive : t.alive = s.alive
  inh : t.inh = s.inh
  att : t.att = s.att

def Unfocused (lax : Prop) (s : State) (i : Nat) (t : State) : Prop :=
  Kept (refocus s t.d.focus) t ∧ Safe lax t ∧ t.d.focus ≠ i

theorem Unfocused.kept (here : Unfocused lax s i t) (kept : Kept t u) (safe : Safe lax u) : Unfocused lax s i u := by
  rw [Unfocused, kept.focus]
  exact ⟨here.1.trans kept, safe, here.2.2⟩

theorem ends_takeOff (good : Good lax s) (here : Unfocused lax s i t) (apart : lax ∨ Apart i t)
    (listed : i ∈ s.d.stack) (next : ∀ u, Closed lax s i u → wp (f ()) (Ends lax Q) u) :
    wp (takeOff i >>= fun _ => setDesktop (fun d => { d with windowCount := d.windowCount - 1 }) >>= f) (Ends lax Q) t := by
  obtain ⟨kept, safe, focus⟩ := here
  have nodup : t.d.stack.Nodup := by
    rw [kept.stack]
    exact good.nodup
  have safe' := safe_off safe nodup focus apart
  rw [takeOff, setDesktop, wp_bind, wp_modify, after_ok, setDesktop, wp_bind, wp_modify, after_ok]
  have stack : t.d.stack = s.d.stack := kept.stack
  have task : ∀ j, ((off t i).d.window j).task = if j = i then none else (s.d.window j).task := by
    intro j
    rw [task_off, kept.task]
    rfl
  refine next _ ⟨⟨?_, ?_, ?_, ?_⟩, ?_, task, fun j other => ?_, kept.taskbar, kept.alive, kept.inh, kept.att⟩
  · exact ⟨safe'.listed, safe'.owner, safe'.taskbar, safe'.users, safe'.focus, safe'.capture, safe'.spared⟩
  · exact nodup.erase i
  · intro j some
    show j ∈ t.d.stack.erase i
    rw [nodup.mem_erase_iff, stack]
    have known : ((off t i).d.window j).task.isSome = true := some
    rw [task] at known
    by_cases eq : j = i
    · rw [if_pos eq] at known
      cases known
    · rw [if_neg eq] at known
      exact ⟨eq, good.complete j known⟩
  · show t.d.windowCount - 1 = ((t.d.stack.erase i).length : Int)
    have count : t.d.windowCount = s.d.windowCount := kept.windowCount
    rw [count, good.count, stack, length_erase_of_mem listed]
    have pos := length_pos_of_mem listed
    omega
  · show t.d.stack.erase i = s.d.stack.erase i
    rw [stack]
  · exact (layer_off t other).trans (kept.layer j)

theorem Closed.kept (closed : Closed lax s i t) (kept : Kept t u) (safe : Safe lax u) : Closed lax s i u where
  good := closed.good.kept kept safe
  stack := kept.stack.trans closed.stack
  task := fun j => (kept.task j).trans (closed.task j)
  layer := fun j other => (kept.layer j).trans (closed.layer j other)
  taskbar := kept.taskbar.trans closed.taskbar
  alive := kept.alive.trans closed.alive
  inh := kept.inh.trans closed.inh
  att := kept.att.trans closed.att

theorem ends_release (kept : Kept s t) (safe : Safe lax t) :
    wp (setInput fun k => if k.ptrDownWd = (i : Int) then { k with ptrDownWd := -1 } else k)
      (Ends lax fun u => (Kept s u ∧ Safe lax u) ∧ Apart i u) t := by
  rw [setInput, wp_modify]
  by_cases eq : t.input.ptrDownWd = i
  · rw [if_pos eq]
    have same : Kept t { t with input := { t.input with ptrDownWd := -1 } } :=
      ⟨rfl, rfl, rfl, rfl, fun _ => rfl, fun _ => rfl, rfl, rfl, rfl, rfl, .refl _⟩
    exact ⟨⟨kept.trans same, safe.kept same (.inr fun _ => .inl rfl)⟩, .inr (by show (-1 : Int) ≠ i; omega)⟩
  · rw [if_neg eq]
    exact ⟨⟨kept, safe⟩, .inr eq⟩

variable {curr : Nat}

theorem wp_unfocus {nw : Option Nat} (kept : Kept s t) (safe : Safe lax t)
    (other : ∀ j, nw = some j → j ≠ i) :
    wp (doIf (s.d.focus = i) do
      setDesktop fun d => { d with focus := -1 }
      point
      match nw with
      | none => pure ()
      | some i => quietly (winFocus curr i)) (Ends lax (Unfocused lax s i)) t := by
  by_cases eq : s.d.focus = i
  · rw [doIf, if_pos eq, setDesktop, wp_bind, wp_modify, after_ok]
    refine ends_point (kept_refocus kept (-1)) (safe_refocus safe (.inl rfl)) fun u kept' safe' => ?_
    have none : u.d.focus = -1 := kept'.focus
    have here : Unfocused lax s i u := by
      rw [Unfocused, none]
      exact ⟨kept', safe', by omega⟩
    cases nw with
    | none => exact here
    | some j =>
      refine wp_mono (ends_quietly (wp_winFocus safe' curr j)) ?_
      intro r v ends
      refine ends.mono ?_
      rintro ⟨kept2, safe2, focus⟩
      refine ⟨(kept_refocus kept' v.d.focus).trans kept2, safe2, ?_⟩
      rcases focus with same | moved
      · omega
      · have apart := other j rfl
        omega
  · rw [doIf, if_neg eq, wp_pure]
    refine ⟨?_, safe, ?_⟩
    · rw [kept.focus]
      exact kept
    · rw [kept.focus]
      exact eq

theorem wp_winClose (good : Good lax s) (curr : Nat) (wd : Int) :
    wp (winClose curr wd) (Ends lax fun t => ¬ Own s curr wd ∧ t = s ∨ ∃ i : Nat, wd = i ∧ Closed lax s i t) s := by
  rw [winClose, wp_bind]
  refine wp_winChkwd (fun own => ?_) fun other e => .inl ⟨other, rfl⟩
  obtain ⟨i, rfl, bound, task, att⟩ := own
  have live : Live s i := ⟨bound, isSome_iff_exists.mpr ⟨curr, task⟩⟩
  have listed := good.complete i live.2
  rw [after_ok, Int.toNat_natCast]
  refine ends_get ?_
  have next : ∀ j, (s.d.behind i).find? (fun i => (s.d.window i).visible) = some j → j ≠ i ∧ Live s j := by
    intro j found
    have below := mem_of_find?_eq_some found
    exact ⟨Layers.ne_of_mem_behind good.nodup below, good.safe.listed j (Layers.mem_of_mem_behind below)⟩
  generalize (s.d.behind i).find? (fun i => (s.d.window i).visible) = nw at next ⊢
  refine ends_point (Kept.refl s) good.safe fun t1 kept1 safe1 => ?_
  refine ends_mute (fails_doIf ?_) (wp_unfocus kept1 safe1 fun j eq => (next j eq).1) fun _ t2 here2 => ?_
  · refine fails_bind (fails_modify _) fun _ => fails_bind fails_point fun _ => ?_
    cases nw with
    | none => exact fails_pure ()
    | some j => exact fails_quietly _
  refine ends_point (Kept.refl t2) here2.2.1 fun t3 kept3 safe3 => ?_
  refine ends_mute (fails_modify _) (ends_release kept3 safe3) fun _ t4 here4 => ?_
  refine ends_gap here4.1.1 here4.1.2 (.inr here4.2) fun t5 kept5 safe5 apart => ?_
  refine ends_takeOff good (here2.kept kept5 safe5) apart listed fun t6 closed => ?_
  have quiet : Calm lax t6 (do
      point
      doIf (s.d.window i).visible (winRedrawRect (s.d.window i).rect nw)
      quietly sendTaskbar) := by
    refine calm_bind calm_point fun _ => calm_bind (calm_doIf fun _ => ?_) fun _ => calm_quietly calm_sendTaskbar
    refine calm_winRedrawRect _ fun j eq => ?_
    obtain ⟨other, alive⟩ := next j eq
    refine ⟨alive.1, ?_⟩
    rw [closed.task, if_neg other]
    exact alive.2
  refine wp_mono (ends_calm quiet (Kept.refl t6) closed.good.safe) ?_
  intro r u ends
  exact ends.mono fun here => .inr ⟨i, rfl, closed.kept here.1 here.2⟩

/- A window is created -/

def opened (s : State) (curr i : Nat) (layer : Int) : State :=
  { s with
    d := { s.d with
      window := update s.d.window i { zeroWindow with task := some curr, layer := layer }
      stack := s.d.stack ++ [i] }
    born := update s.born i (s.born i + 1) }

theorem task_opened (s : State) (curr i : Nat) (layer : Int) (j : Nat) :
    ((opened s curr i layer).d.window j).task = if j = i then some curr else (s.d.window j).task := by
  show (update s.d.window i { zeroWindow with task := some curr, layer := layer } j).task = _
  by_cases eq : j = i
  · rw [eq, update_self, if_pos rfl]
  · rw [update_of_ne eq, if_neg eq]

theorem layer_opened (s : State) (curr : Nat) (layer : Int) (other : j ≠ i) :
    ((opened s curr i layer).d.window j).layer = (s.d.window j).layer := by
  show (update s.d.window i { zeroWindow with task := some curr, layer := layer } j).layer = _
  rw [update_of_ne other]

section Opened
variable {curr i : Nat} {layer : Int} (free : (s.d.window i).task = none)
include free

theorem ne_of_free (live : Live s j) : j ≠ i := by
  rintro rfl
  have some := live.2
  rw [free] at some
  cases some

theorem live_opened (live : Live s j) : Live (opened s curr i layer) j := by
  refine ⟨live.1, ?_⟩
  rw [task_opened, if_neg (ne_of_free free live)]
  exact live.2

theorem safe_opened (safe : Safe lax s) (bound : i < winMax) (att : s.att curr = true) :
    Safe lax (opened s curr i layer) where
  listed := by
    intro j mem
    rcases mem_append.mp mem with old | new
    · exact live_opened free (safe.listed j old)
    · rw [mem_singleton.mp new]
      refine ⟨bound, ?_⟩
      rw [task_opened, if_pos rfl]
      rfl
  owner := by
    intro j t
    rw [task_opened]
    by_cases eq : j = i
    · rw [if_pos eq]
      rintro ⟨⟩
      exact ⟨(safe.users curr att).1, att⟩
    · rw [if_neg eq]
      exact safe.owner j t
  taskbar := safe.taskbar
  users := safe.users
  focus := by
    rcases safe.focus with none | ⟨j, eq, live⟩
    · exact .inl none
    · exact .inr ⟨j, eq, live_opened free live⟩
  capture := by
    refine safe.capture.imp_right fun held down => ?_
    rcases held down with none | ⟨j, eq, live, serial⟩
    · exact .inl none
    · refine .inr ⟨j, eq, live_opened free live, ?_⟩
      show s.caught = update s.born i (s.born i + 1) j
      rw [update_of_ne (ne_of_free free live)]
      exact serial
  spared := safe.spared

theorem apart_opened (safe : Safe lax s) : lax ∨ Apart i (opened s curr i layer) := by
  refine safe.capture.imp_right fun held => ?_
  rcases Nat.eq_zero_or_pos s.input.ptrDown with up | down
  · exact .inl up
  · refine .inr ?_
    show s.input.ptrDownWd ≠ i
    rcases held down with none | ⟨j, eq, live, _⟩
    · omega
    · have other := ne_of_free free live
      omega

end Opened

structure Rested (lax : Prop) (s t : State) : Prop where
  good : Good lax t
  stack : t.d.stack = s.d.stack
  layer : ∀ i ∈ s.d.stack, (t.d.window i).layer = (s.d.window i).layer

structure Created (lax : Prop) (s : State) (i : Nat) (t : State) : Prop where
  good : Good lax t
  fresh : i ∉ s.d.stack
  stack : t.d.stack = s.d.stack ++ [i]
  layer : ∀ j ∈ s.d.stack, (t.d.window j).layer = (s.d.window j).layer

theorem rested_of_kept (good : Good lax s) (kept : Kept s t) (safe : Safe lax t) : Rested lax s t :=
  ⟨good.kept kept safe, kept.stack, fun i _ => kept.layer i⟩

variable {layer : Int}

theorem nodup_opened (good : Good lax s) (free : (s.d.window i).task = none)
    (kept : Kept (opened s curr i layer) t) : i ∉ s.d.stack ∧ t.d.stack = s.d.stack ++ [i] ∧ t.d.stack.Nodup := by
  have fresh : i ∉ s.d.stack := fun mem => ne_of_free free (good.safe.listed i mem) rfl
  have stack : t.d.stack = s.d.stack ++ [i] := kept.stack
  refine ⟨fresh, stack, ?_⟩
  rw [stack, nodup_append]
  refine ⟨good.nodup, pairwise_singleton _ _, ?_⟩
  rintro j mem k single rfl
  rw [mem_singleton.mp single] at mem
  exact fresh mem

theorem Created.of_kept (good : Good lax s) (free : (s.d.window i).task = none)
    (kept : Kept (opened s curr i layer) t) (safe : Safe lax t) :
    Created lax s i { t with d := { t.d with windowCount := t.d.windowCount + 1 } } := by
  obtain ⟨fresh, stack, nodup⟩ := nodup_opened good free kept
  refine ⟨⟨?_, nodup, ?_, ?_⟩, fresh, stack, ?_⟩
  · exact ⟨safe.listed, safe.owner, safe.taskbar, safe.users, safe.focus, safe.capture, safe.spared⟩
  · intro j some
    show j ∈ t.d.stack
    have known : (t.d.window j).task.isSome = true := some
    rw [kept.task, task_opened] at known
    rw [stack]
    by_cases eq : j = i
    · rw [eq]
      exact mem_append_right _ (mem_singleton_self i)
    · rw [if_neg eq] at known
      exact mem_append_left _ (good.complete j known)
  · show t.d.windowCount + 1 = (t.d.stack.length : Int)
    have count : t.d.windowCount = s.d.windowCount := kept.windowCount
    rw [count, good.count, stack, length_append, length_singleton]
    rfl
  · intro j mem
    refine (kept.layer j).trans (layer_opened s curr layer ?_)
    rintro rfl
    exact fresh mem

theorem rested_off (good : Good lax s) (free : (s.d.window i).task = none)
    (kept : Kept (opened s curr i layer) t) (safe : Safe lax t) (apart : lax ∨ Apart i t) : Rested lax s (off t i) := by
  obtain ⟨fresh, stack, nodup⟩ := nodup_opened good free kept
  have erased : (off t i).d.stack = s.d.stack := by
    show t.d.stack.erase i = s.d.stack
    rw [stack, erase_append_right _ fresh, erase_cons_head, append_nil]
  have task : ∀ j, ((off t i).d.window j).task = (s.d.window j).task := by
    intro j
    rw [task_off, kept.task, task_opened]
    by_cases eq : j = i
    · rw [if_pos eq, eq, free]
    · rw [if_neg eq, if_neg eq]
  have focus : t.d.focus ≠ i := by
    rw [kept.focus]
    show s.d.focus ≠ i
    rcases good.safe.focus with none | ⟨j, eq, live⟩
    · omega
    · have other := ne_of_free free live
      omega
  refine ⟨⟨safe_off safe nodup focus apart, ?_, ?_, ?_⟩, erased, ?_⟩
  · rw [erased]
    exact good.nodup
  · intro j
    rw [task, erased]
    exact good.complete j
  · rw [erased, ← good.count]
    exact kept.windowCount
  · intro j mem
    have other : j ≠ i := by
      rintro rfl
      exact fresh mem
    exact (layer_off t other).trans ((kept.layer j).trans (layer_opened s curr layer other))

/-- A window that cannot be created leaves nothing behind, but for the pointer that went down meanwhile. -/
def Creates (lax : Prop) (s : State) {α : Type} : Res Errno α → State → Prop
  | .ok _, t => ∃ i, Created lax s i t
  | .err _, t => lax ∨ NoDown s.irqs.points → Rested lax s t
  | .crash, _ => lax

theorem wp_winCreat (good : Good lax s) (curr : Nat) (visible x y w h : Int) :
    wp (winCreat curr visible x y w h) (Creates lax s) s := by
  have same : Rested lax s s := rested_of_kept good (Kept.refl s) good.safe
  rw [winCreat, wp_bind, wp_get, after_ok]
  refine wp_failIf (fun _ _ => same) fun att => wp_failIf (fun _ _ => same) fun room => ?_
  have att' : s.att curr = true := Bool.of_not_eq_false att
  cases found : (range winMax).find? fun i => (s.d.window i).task.isNone with
  | none =>
    -- all slots hold windows, and they are all on the stack
    refine absurd ?_ room
    have all : ∀ i ∈ range winMax, i ∈ s.d.stack := by
      intro i mem
      have taken := find?_eq_none.mp found i mem
      refine good.complete i ?_
      rw [isNone_iff_eq_none] at taken
      exact isSome_iff_ne_none.mpr taken
    have few := nodup_range.length_le_of_subset all
    rw [length_range] at few
    rw [good.count]
    omega
  | some i =>
    have free : (s.d.window i).task = none := by
      have here := find?_some found
      exact isNone_iff_eq_none.mp here
    have bound : i < winMax := mem_range.mp (mem_of_find?_eq_some found)
    dsimp only
    generalize (if s.euid curr = 0 ∧ s.input.secLocked = true then winLayerSecure else winLayerApp) = layer
    rw [wp_bind, wp_modify, after_ok]
    have safe1 : Safe lax (opened s curr i layer) := safe_opened free good.safe bound att'
    have still1 : lax ∨ NoDown s.irqs.points → lax ∨ Still i (opened s curr i layer) := by
      rintro (may | none)
      · exact .inl may
      · exact (apart_opened free good.safe).imp_right fun apart => ⟨apart, none⟩
    -- the capture stays clear of the new window as long as no pointer goes down
    have first : wp point (fun _ u => lax ∨ NoDown s.irqs.points → lax ∨ Still i u) (opened s curr i layer) :=
      fun spared => (still1 spared).imp_right (still_point _)
    refine wp_mute fails_point (ends_and (ends_calm calm_point (Kept.refl _) safe1) first) (fun _ => id) fun _ t2 both => ?_
    obtain ⟨here2, still2⟩ := both
    have calm : Calm lax (opened s curr i layer) (do
        sendTaskbar
        point
        winChange curr i visible x y w h
        point) :=
      calm_bind calm_sendTaskbar fun _ => calm_bind calm_point fun _ =>
        calm_bind (calm_winChange curr i visible x y w h) fun _ => calm_point
    have stays : Stable (Still i) (do
        sendTaskbar
        point
        winChange curr i visible x y w h
        point) :=
      stable_bind (shielded_still i).sendTaskbar fun _ => stable_bind still_point fun _ =>
        stable_bind (still_winChange curr i visible x y w h) fun _ => still_point
    rw [wp_bind, wp_onError]
    refine wp_mono (wp_and (ends_calm calm here2.1 here2.2)
      (show wp _ (fun _ u => lax ∨ NoDown s.irqs.points → lax ∨ Still i u) _ from
        fun spared => (still2 spared).imp_right (stays _))) ?_
    rintro (a | e | _) t3 ⟨here, still⟩
    · exact ⟨i, .of_kept good free here.1 here.2⟩
    · have fails : wp (gap >>= fun _ => takeOff i) (Ends lax fun t => lax ∨ NoDown s.irqs.points → Rested lax s t) t3 := by
        by_cases spared : lax ∨ NoDown s.irqs.points
        · refine ends_gap here.1 here.2 ((still spared).imp_right And.left) fun _ kept safe apart _ => ?_
          exact rested_off good free kept safe apart
        · exact ends_mute fails_gap (ends_calm calm_gap here.1 here.2) fun _ _ _ may => absurd may spared
      rw [recovered_err]
      refine wp_mono fails ?_
      rintro (a | e' | _) t4 rested
      · exact rested
      · exact rested
      · exact rested
    · exact here

end Windows
