import Newsys.Wingui.Runs

/- The order of the windows on the stack (kern/wingui/window.c). `win_raise` looks for the place from the top while the
   window is still on the stack, and stops at the window itself: a window that has got a larger layer than one behind
   it stays where it is. -/
namespace Stacking
open Cmds Cmd Kern Function Desktops Interrupts Windows Runs Layers List

variable {s t : State}

/-- What a call of `win_raise` is for: the layers are in order, the window is in front of all others of its layer, and
    the others have kept their order. -/
def WellRaised (s : State) (i : Nat) (t : State) : Prop :=
  Ordered t.d.layer t.d.stack ∧ (∀ j ∈ t.d.stack.takeWhile (· ≠ i), t.d.layer j ≠ t.d.layer i) ∧
    t.d.stack.erase i = s.d.stack.erase i

/-- The other windows are in order, and none behind the window has a smaller layer. -/
def Placed (s : State) (i : Nat) : Prop :=
  Ordered s.d.layer (s.d.stack.erase i) ∧ ∀ j ∈ s.d.behind i, s.d.layer i ≤ s.d.layer j

variable {i : Nat}

theorem well_iff (good : Good True s) (raised : Raised True s i t) : WellRaised s i t ↔ Placed s i := by
  have listed := good.complete i raised.live.2
  have layer : t.d.layer = s.d.layer := funext raised.layer
  rw [WellRaised, Placed, layer, raised.stack, ordered_raise_iff listed good.nodup,
    raise_erase listed good.nodup]
  refine ⟨fun well => well.1, fun placed => ⟨placed, fun j mem => ?_, rfl⟩⟩
  exact ne_of_lt (raise_first listed good.nodup j mem)

theorem placed_of_ordered (order : Ordered s.d.layer s.d.stack) (i : Nat) : Placed s i := by
  exact ⟨order.sublist erase_sublist, fun j mem => le_behind order mem⟩

/-- The runs in which each window that has been created or given a layer is raised before the next one is. No window
    gets a larger layer than one behind it, and as long as a new window is out of order no other is raised. -/
inductive Orderly : Option Nat → State → Prop where
  | start (curr : Nat) (display : Display) (alive : Nat → Bool) (euid eventCount : Nat → Nat)
      (here : alive curr = true) : Orderly none (winNewdesktop curr display alive euid eventCount)
  | creat {s t : State} {r : Res Errno Unit} {curr : Nat} {visible x y w h : Int} {irqs : Due} {i : Nat}
      (before : Orderly none s) (able : s.alive curr = true)
      (run : (Step.call curr (.creat visible x y w h) irqs).run s = (r, t)) (runs : r ≠ .crash)
      (new : t.d.stack = s.d.stack ++ [i]) : Orderly (some i) t
  | nocreat {s t : State} {r : Res Errno Unit} {curr : Nat} {visible x y w h : Int} {irqs : Due}
      (before : Orderly none s) (able : s.alive curr = true)
      (run : (Step.call curr (.creat visible x y w h) irqs).run s = (r, t)) (runs : r ≠ .crash)
      (same : t.d.stack = s.d.stack) : Orderly none t
  | setlayer {s t : State} {curr i : Nat} {layer : Int} {irqs : Due}
      (before : Orderly none s) (able : s.alive curr = true)
      (run : (Step.call curr (.setlayer i layer) irqs).run s = (.ok (), t))
      (low : ∀ j ∈ s.d.behind i, layer ≤ s.d.layer j) : Orderly (some i) t
  | nosetlayer {s t : State} {e : Errno} {curr : Nat} {wd layer : Int} {irqs : Due}
      (before : Orderly none s) (able : s.alive curr = true)
      (run : (Step.call curr (.setlayer wd layer) irqs).run s = (.err e, t)) : Orderly none t
  | raise {s t : State} {r : Res Errno Unit} {curr i : Nat} {irqs : Due}
      (before : Orderly (some i) s) (able : s.alive curr = true) (raises : Raises s curr i)
      (run : (Step.call curr (.raise i) irqs).run s = (r, t)) (runs : r ≠ .crash) : Orderly none t
  | other {p : Option Nat} {s t : State} {r : Res Errno Unit} {curr : Nat} {wd : Int} {irqs : Due}
      (before : Orderly p s) (able : s.alive curr = true) (placed : p = none ∨ Ordered s.d.layer s.d.stack ∨ ¬ Raises s curr wd)
      (run : (Step.call curr (.raise wd) irqs).run s = (r, t)) (runs : r ≠ .crash) : Orderly p t
  | closed {s : State} {i : Nat} (before : Orderly (some i) s) (gone : i ∉ s.d.stack) : Orderly none s
  | call {p : Option Nat} {s t : State} {r : Res Errno Unit} {curr : Nat} {op : Op} {irqs : Due}
      (before : Orderly p s) (able : s.alive curr = true) (plain : Op.plain op)
      (run : (Step.call curr op irqs).run s = (r, t)) (runs : r ≠ .crash) : Orderly p t
  | irq {p : Option Nat} {s t : State} {r : Res Errno Unit} {i : Irq} (before : Orderly p s)
      (run : (Step.irq i).run s = (r, t)) (runs : r ≠ .crash) : Orderly p t

variable {p : Option Nat}

theorem Orderly.reach (orderly : Orderly p s) : Reach s := by
  induction orderly with
  | start curr display alive euid eventCount here => exact .start curr display alive euid eventCount here
  | creat before able run runs _ ih => exact .step ih (.call _ (.creat ..) _) able run runs
  | nocreat before able run runs _ ih => exact .step ih (.call _ (.creat ..) _) able run runs
  | setlayer before able run _ ih => exact .step ih (.call _ (.setlayer ..) _) able run fun eq => by cases eq
  | nosetlayer before able run ih => exact .step ih (.call _ (.setlayer ..) _) able run fun eq => by cases eq
  | raise before able _ run runs ih => exact .step ih (.call _ (.raise _) _) able run runs
  | other before able _ run runs ih => exact .step ih (.call _ (.raise _) _) able run runs
  | closed before _ ih => exact ih
  | call before able _ run runs ih => exact .step ih (.call _ _ _) able run runs
  | irq before run runs ih => exact .step ih (.irq _) trivial run runs

def Near (s : State) : Option Nat → Prop
  | none => Ordered s.d.layer s.d.stack
  | some i => Placed s i

theorem near_shrunk (near : Near s p) (good : Good True s) (shrunk : Shrunk True s t) : Near t p := by
  have layer : ∀ j ∈ t.d.stack, t.d.layer j = s.d.layer j := shrunk.layer
  cases p with
  | none => exact ordered_congr layer (List.Pairwise.sublist shrunk.stack near)
  | some i =>
    obtain ⟨order, behind⟩ := near
    refine ⟨ordered_congr (fun j mem => layer j (mem_of_mem_erase mem)) (order.sublist (shrunk.stack.erase i)), ?_⟩
    intro j mem
    have both := (sublist_of_mem_behind mem).subset
    rw [layer i (both (mem_cons_self ..)), layer j (mem_of_mem_behind mem)]
    exact behind j (mem_behind_mono good.nodup shrunk.stack mem)

variable {r : Res Errno Unit}

theorem raise_run (good : Good True s)
    (run : (Step.call curr (.raise wd) irqs).run s = (r, t)) (runs : r ≠ .crash) :
    ¬ Raises s curr wd ∧ t = { s with irqs := irqs } ∨
      Raises s curr wd ∧ ∃ i : Nat, wd = i ∧ Raised True { s with irqs := irqs } i t :=
  ends_runs (ends_of_wp (wp_winRaise (good_due good irqs (.inl trivial)) curr wd) run) runs

theorem creat_run (good : Good True s)
    (run : (Step.call curr (.creat visible x y w h) irqs).run s = (r, t)) (runs : r ≠ .crash) :
    Rested True { s with irqs := irqs } t ∨ ∃ i, Created True { s with irqs := irqs } i t := by
  have creates := ends_of_wp (wp_creat (good_due good irqs (.inl trivial)) curr visible x y w h) run
  rcases r with a | e | _
  · exact .inr creates
  · exact .inl (creates (.inl trivial))
  · exact absurd rfl runs

theorem created_near (created : Created True s i t) (order : Ordered s.d.layer s.d.stack) : Near t (some i) := by
  have layer : ∀ j ∈ s.d.stack, t.d.layer j = s.d.layer j := created.layer
  refine ⟨?_, fun j mem => ?_⟩
  · rw [created.stack, erase_append created.fresh, append_nil]
    exact ordered_congr layer order
  · rw [Desktop.behind, created.stack, behind_append created.fresh] at mem
    cases mem

theorem relayered_near (good : Good True s) (order : Ordered s.d.layer s.d.stack)
    (low : ∀ j ∈ s.d.behind i, layer ≤ s.d.layer j) : Near (relayered s i layer) (some i) := by
  have other : ∀ j, j ≠ i → (relayered s i layer).d.layer j = s.d.layer j := by
    intro j ne
    rw [layer_relayered, if_neg ne]
  refine ⟨?_, fun j mem => ?_⟩
  · refine ordered_congr (fun j mem => other j ?_) (order.sublist erase_sublist)
    exact (good.nodup.mem_erase_iff.mp mem).1
  · have mem' : j ∈ s.d.behind i := mem
    rw [layer_relayered, if_pos rfl, other j (ne_of_mem_behind good.nodup mem')]
    exact low j mem'

theorem orderly_near (orderly : Orderly p s) : Near s p := by
  induction orderly with
  | start => exact List.Pairwise.nil
  | creat before able run runs new ih =>
    rcases creat_run (reach_good before.reach) run runs with rested | ⟨j, created⟩
    · have same := rested.stack.symm.trans new
      simp at same
    · have eq := created.stack.symm.trans new
      simp only [append_cancel_left_eq, List.cons.injEq, and_true] at eq
      rw [← eq]
      exact created_near created ih
  | nocreat before able run runs same ih =>
    rcases creat_run (reach_good before.reach) run runs with rested | ⟨j, created⟩
    · show Ordered _ _
      rw [rested.stack]
      exact ordered_congr rested.layer ih
    · have eq := created.stack.symm.trans same
      simp at eq
  | @setlayer s t curr i layer irqs before able run low ih =>
    have good := good_due (reach_good before.reach) irqs (.inl trivial)
    obtain ⟨j, eq, _, rfl⟩ := (setlayer_run (s := { s with irqs := irqs }) run).2.2 rfl
    obtain rfl : i = j := by omega
    exact relayered_near good ih low
  | @nosetlayer s t e curr wd layer irqs before able run ih =>
    rw [(setlayer_run (s := { s with irqs := irqs }) run).2.1 fun eq => by cases eq]
    exact ih
  | @raise s t r curr i irqs before able raises run runs ih =>
    have good := reach_good before.reach
    rcases raise_run good run runs with ⟨not, _⟩ | ⟨_, j, eq, raised⟩
    · exact absurd raises not
    · obtain rfl : i = j := by omega
      exact ((well_iff (good_due good irqs (.inl trivial)) raised).mpr ih).1
  | @other p s t r curr wd irqs before able placed run runs ih =>
    have good := reach_good before.reach
    rcases raise_run good run runs with ⟨_, rfl⟩ | ⟨raises, j, rfl, raised⟩
    · exact ih
    · have order : Ordered s.d.layer s.d.stack := by
        rcases placed with rfl | order | not
        · exact ih
        · exact order
        · exact absurd raises not
      have after := ((well_iff (good_due good irqs (.inl trivial)) raised).mpr (placed_of_ordered order j)).1
      cases p with
      | none => exact after
      | some i => exact placed_of_ordered after i
  | @closed s i before gone ih =>
    have order := ih.1
    rw [erase_of_not_mem gone] at order
    exact order
  | @call p s t r curr op irqs before able plain run runs ih =>
    have good := good_due (reach_good before.reach) irqs (.inl trivial)
    have shrunk : Shrunk True { s with irqs := irqs } t := by
      refine ends_runs (ends_of_wp (wp_call good able plain) ?_) runs
      exact run
    exact near_shrunk (s := { s with irqs := irqs }) ih good shrunk
  | @irq p s t r i before run runs ih =>
    have good := reach_good before.reach
    have kept := ends_runs (ends_of_wp (ends_calm (calm_serve i) (Kept.refl s) good.safe) run) runs
    exact near_shrunk ih good (.of_kept good kept.1 kept.2)

/-- In every state that is reached the stack has each window once and nothing else. A call of `win_raise` puts the
    window in its place exactly if the other windows are in order and none behind it has a smaller layer; in a run
    that keeps to this it always does. -/
theorem raise_orders_iff (reach : Reach s) :
    s.d.stack.Nodup ∧ (∀ i, i ∈ s.d.stack ↔ (s.d.window i).task.isSome = true) ∧
      ∀ (curr i : Nat) irqs r t, s.alive curr = true → Raises s curr i → (Step.call curr (.raise i) irqs).run s = (r, t) →
        r ≠ .crash → (WellRaised s i t ↔ Placed s i) ∧
          ∀ p, Orderly p s → p = none ∨ p = some i ∨ Ordered s.d.layer s.d.stack → WellRaised s i t := by
  have good := reach_good reach
  refine ⟨good.nodup, fun i => ⟨fun mem => (good.safe.listed i mem).2, good.complete i⟩, ?_⟩
  intro curr i irqs r t able raises run runs
  have well : WellRaised s i t ↔ Placed s i := by
    rcases raise_run good run runs with ⟨not, _⟩ | ⟨_, j, eq, raised⟩
    · exact absurd raises not
    · obtain rfl : i = j := by omega
      have well := well_iff (good_due good irqs (.inl trivial)) raised
      exact well
  refine ⟨well, fun p orderly next => well.mpr ?_⟩
  have near := orderly_near orderly
  rcases next with rfl | rfl | order
  · exact placed_of_ordered near i
  · exact near
  · exact placed_of_ordered order i

/- A desktop with two windows of the layer of applications, the second one raised -/

def opening : Step := .call 0 (.creat 0 0 0 10 10) ⟨[], []⟩

def raising (i : Nat) : Step := .call 0 (.raise i) ⟨[], []⟩

def sampleStart : State := winNewdesktop 0 ⟨100, 100, false⟩ (fun t => t == 0) (fun _ => 0) fun _ => 0

def sampleOne : State := ((raising 0).run (opening.run sampleStart).2).2

def sampleTwo : State := ((raising 1).run (opening.run sampleOne).2).2

theorem raises_of_live (att : s.att 0 = true) (live : Live s i) : Raises s 0 i := ⟨att, i, rfl, live⟩

theorem orderly_opened (before : Orderly none s) (able : s.alive 0 = true) (runs : (opening.run s).1 ≠ .crash)
    (new : (opening.run s).2.d.stack = s.d.stack ++ [i]) : Orderly (some i) (opening.run s).2 :=
  .creat before able rfl runs new

theorem orderly_raised (before : Orderly (some i) s) (able : s.alive 0 = true) (raises : Raises s 0 i)
    (runs : ((raising i).run s).1 ≠ .crash) : Orderly none ((raising i).run s).2 :=
  .raise before able raises rfl runs

theorem orderly_sampleOne : Orderly none sampleOne := by
  refine orderly_raised (orderly_opened (.start 0 ⟨100, 100, false⟩ _ _ _ rfl) rfl ?_ ?_) ?_ ?_ ?_
  · decide +kernel
  · decide +kernel
  · decide +kernel
  · exact raises_of_live (by decide +kernel) ⟨by decide, by decide +kernel⟩
  · decide +kernel

theorem orderly_sampleTwo : Orderly none sampleTwo := by
  refine orderly_raised (orderly_opened orderly_sampleOne ?_ ?_ ?_) ?_ ?_ ?_
  · decide +kernel
  · decide +kernel
  · decide +kernel
  · decide +kernel
  · exact raises_of_live (by decide +kernel) ⟨by decide, by decide +kernel⟩
  · decide +kernel

theorem raise_orders_iff_sample : sampleTwo.d.stack.Nodup ∧
    (∀ i, i ∈ sampleTwo.d.stack ↔ (sampleTwo.d.window i).task.isSome = true) ∧
      ∀ (curr i : Nat) irqs r t, sampleTwo.alive curr = true → Raises sampleTwo curr i →
        (Step.call curr (.raise i) irqs).run sampleTwo = (r, t) → r ≠ .crash →
          (WellRaised sampleTwo i t ↔ Placed sampleTwo i) ∧
            ∀ p, Orderly p sampleTwo → p = none ∨ p = some i ∨ Ordered sampleTwo.d.layer sampleTwo.d.stack →
              WellRaised sampleTwo i t :=
  raise_orders_iff orderly_sampleTwo.reach

def sampleLow : State := ((Step.call 0 (.setlayer 1 6) ⟨[], []⟩).run sampleTwo).2

theorem raise_not_orders : ∃ s s' t, Orderly none s ∧ (Step.call 0 (.setlayer 1 6) ⟨[], []⟩).run s = (.ok (), s') ∧
    Raises s' 0 1 ∧ (raising 1).run s' = (.ok (), t) ∧ ¬ WellRaised s' 1 t := by
  refine ⟨sampleTwo, sampleLow, ((raising 1).run sampleLow).2, orderly_sampleTwo, ?_, ?_, ?_, ?_⟩
  · exact Prod.ext (by decide +kernel) rfl
  · exact raises_of_live (by decide +kernel) ⟨by decide, by decide +kernel⟩
  · exact Prod.ext (by decide +kernel) rfl
  · rintro ⟨order, _⟩
    have stack : ((raising 1).run sampleLow).2.d.stack = [1, 0] := by decide +kernel
    rw [stack] at order
    have le := (List.pairwise_cons.mp order).1 0 (mem_singleton_self 0)
    exact absurd le (by decide +kernel)

end Stacking
