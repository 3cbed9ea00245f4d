import Newsys.Wingui.Runs

/- The focus and the pointer capture of a desktop (kern/wingui/event.c, window.c). Every path that closes a window
   moves the focus away from it first. `win_close` also releases the pointer, but it turns the interrupts off only
   afterwards, and a window that cannot be created is removed without a look at the pointer: a pointer-down in
   between captures a window that goes away. -/
namespace Focus
open Cmds Cmd Kern Function Desktops Interrupts Windows Runs

variable {s t : State}

/-- The runs in which no pointer goes down there. -/
inductive Spared : State → Prop where
  | start (curr : Nat) (display : Display) (alive : Nat → Bool) (euid eventCount : Nat → Nat)
      (here : alive curr = true) : Spared (winNewdesktop curr display alive euid eventCount)
  | step {s t : State} {r : Res Errno Unit} (before : Spared s) (step : Step) (able : step.able s)
      (run : step.run s = (r, t)) (spares : Step.Spares r step) : Spared t

theorem spared_good (spared : Spared s) : Good False s := by
  induction spared with
  | start curr display alive euid eventCount here => exact good_start curr display euid eventCount here
  | @step s t r before step able run spares good =>
    have ends := ends_step good able run (.inr spares)
    refine ends_runs ends ?_
    rintro rfl
    exact ends

/-- The focus is the number of a window or -1, so is the captured window while a button is down, which is the one that
    received the pointer-down, and no step looks for the task of a window that is not there. -/
theorem focus_valid (spared : Spared s) :
    Valid s s.d.focus ∧ (0 < s.input.ptrDown → Captured s) ∧
      ∀ step r t, Step.able s step → step.run s = (r, t) → Step.Spares r step → r ≠ .crash := by
  have good := spared_good spared
  refine ⟨good.safe.focus, good.safe.capture.resolve_left id, ?_⟩
  rintro step r t able run spares rfl
  exact ends_step good able run (.inr spares)

theorem spared_run (before : Spared s) (step : Step) (able : step.able s) (spares : Step.Spares (step.run s).1 step) :
    Spared (step.run s).2 := .step before step able rfl spares

def opening (visible : Int) (irqs : Due) : Step := .call 0 (.creat visible 0 0 10 10) irqs

def sample : State :=
  ((opening 1 ⟨[], []⟩).run (winNewdesktop 0 ⟨100, 100, false⟩ (fun t => t == 0) (fun _ => 0) fun _ => 0)).2

def pressed : State := ((opening 0 ⟨[[], [.ptrdown]], []⟩).run sample).2

def closing : Step := .call 0 (.close 0) ⟨[[.ptrup, .ptrdown]], [[.ptrup]]⟩

theorem spared_pressed : Spared pressed := by
  have first : Spared sample :=
    spared_run (.start 0 ⟨100, 100, false⟩ _ _ _ rfl) _ rfl ⟨nofun, fun _ _ => nofun⟩
  refine spared_run first _ (by decide +kernel) ⟨nofun, fun e eq => ?_⟩
  have made : ((opening 0 ⟨[[], [.ptrdown]], []⟩).run sample).1 = .ok () := by decide +kernel
  rw [made] at eq
  cases eq

theorem spared_released : Spared (closing.run pressed).2 := by
  refine spared_run spared_pressed closing (by decide +kernel) fun now mem => ?_
  rw [List.mem_singleton.mp mem]
  simp

/-- A button goes down on the first window while the second one is made, and up while the first one is closed. -/
theorem focus_valid_released : Valid (closing.run pressed).2 (closing.run pressed).2.d.focus ∧
    (0 < (closing.run pressed).2.input.ptrDown → Captured (closing.run pressed).2) ∧
      ∀ step r t, Step.able (closing.run pressed).2 step → step.run (closing.run pressed).2 = (r, t) →
        Step.Spares r step → r ≠ .crash :=
  focus_valid spared_released

theorem reach_sample : Reach sample :=
  .step (.start 0 ⟨100, 100, false⟩ (fun t => t == 0) (fun _ => 0) (fun _ => 0) rfl)
    (opening 1 ⟨[], []⟩) rfl rfl (by decide +kernel)

/-- The button goes down when `win_close` has looked at `ptr_down_wd`; when it goes up the event is for a window that
    has no task. -/
theorem focus_not_valid : ∃ s, Reach s ∧ 0 < s.input.ptrDown ∧ ¬ Captured s ∧
    ((Step.irq .ptrup).run s).1 = .crash := by
  refine ⟨((Step.call 0 (.close 0) ⟨[], [[.ptrdown]]⟩).run sample).2, ?_, ?_, ?_, ?_⟩
  · exact .step reach_sample (.call 0 (.close 0) ⟨[], [[.ptrdown]]⟩) (by decide +kernel) rfl (by decide +kernel)
  · decide +kernel
  · rintro (none | ⟨i, eq, live, _⟩)
    · exact absurd none (by decide +kernel)
    · have zero : ((Step.call 0 (.close 0) ⟨[], [[.ptrdown]]⟩).run sample).2.input.ptrDownWd = 0 := by decide +kernel
      obtain rfl : i = 0 := by omega
      exact absurd live.2 (by decide +kernel)
  · decide +kernel

end Focus
