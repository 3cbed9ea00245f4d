import Newsys.Lib.Cmd
import Newsys.Lib.Layers
import Newsys.Kern.Event
import Newsys.Wingui.Paint

/- A desktop with its windows (kern/wingui/window.c, main.c, desktop.c) and the events of its keyboard, its pointer
   and its clock (event.c). The calls are those of the tasks whose `win_task.desktop` it is; what tasks do on other
   desktops does not touch it. The kernel does not preempt a call, but the interrupt handlers of the keyboard, the
   pointer and the clock run in between. Those places are marked `point`, and the state says which handlers run at
   the next ones. -/
namespace Desktops
open Cmds Cmd Kern Function Layers
open Events (evtMax taskMax)
open Wingui (Rect i32)

def winMax : Nat := 64
def winLayerSecure : Int := -1
def winLayerApp : Int := 5
def winDdBuf : Nat := 4096
def winKeyDel : Nat := 2 ^ 32 - 10
def winKeyShift : Nat := 2 ^ 32 - 27
def winKeyCtrl : Nat := 2 ^ 32 - 28
def winKeyAlt : Nat := 2 ^ 32 - 29

structure Window where
  task : Option Nat
  visible : Bool
  layer : Int
  rect : Rect
  blinkEna : Bool

def zeroWindow : Window := ⟨none, false, 0, ⟨0, 0, 0, 0⟩, false⟩

structure Display where
  width : Int
  height : Int
  slowcopy : Bool

structure Desktop where
  display : Display
  window : Nat → Window
  stack : List Nat
  windowCount : Int
  focus : Int
  taskbar : Option Nat

structure KeyShift where
  shift : Bool
  ctrl : Bool
  alt : Bool

/-- The fields of `struct win_desktop` that the handlers change. -/
structure Input where
  secLocked : Bool
  ptrX : Int
  ptrY : Int
  ptrDown : Nat
  ptrDownWd : Int
  keyShift : KeyShift
  dragdrop : Bool

inductive Irq where
  | keydown (ch : Nat)
  | keyup (ch : Nat)
  | ptrmove (x y : Int)
  | ptrdown
  | ptrup
  | clock

/-- The handlers that run at the next places marked `point`, and at those marked `gap`, which lie in front of the removal
    of a window. -/
structure Due where
  points : List (List Irq)
  gaps : List (List Irq)

/-- `alive` are the tasks that have not exited, `inh` and `att` say of which of them this desktop is
    `win_task.inh_desktop` and `win_task.desktop`. The last two fields are not in the source: how many windows each
    slot has held, and that number for the slot of the last pointer-down. -/
structure State where
  d : Desktop
  input : Input
  alive : Nat → Bool
  inh : Nat → Bool
  att : Nat → Bool
  euid : Nat → Nat
  eventCount : Nat → Nat
  irqs : Due
  born : Nat → Nat
  caught : Nat

abbrev Call (α : Type) : Type := Cmd Errno State α

def setDesktop (f : Desktop → Desktop) : Call Unit := modify fun s => { s with d := f s.d }

def setInput (f : Input → Input) : Call Unit := modify fun s => { s with input := f s.input }

def Desktop.setWindow (d : Desktop) (wd : Nat) (f : Window → Window) : Desktop :=
  { d with window := update d.window wd (f (d.window wd)) }

/- `if (...) return err;`, a fault or a panic, and a statement under a condition -/

def failIf (p : Prop) [Decidable p] (e : Errno) : Call Unit := if p then fail e else pure ()

def crashIf (p : Prop) [Decidable p] : Call Unit := if p then crash else pure ()

def doIf (p : Prop) [Decidable p] (m : Call Unit) : Call Unit := if p then m else pure ()

def sendEvent (t : Nat) : Call Unit := do
  let s ← get
  crashIf (s.alive t = false)
  failIf (evtMax ≤ s.eventCount t) .EAGAIN
  modify fun s => { s with eventCount := update s.eventCount t (s.eventCount t + 1) }

/-- `win_event`, which takes the task out of the slot that the event names. -/
def winEvent (wd : Int) : Call Unit := do
  let s ← get
  crashIf (wd < 0 ∨ winMax ≤ wd)
  match (s.d.window wd.toNat).task with
  | none => crash
  | some t => sendEvent t

def quietly (m : Call Unit) : Call Unit := do
  let _ ← attempt m
  pure ()

def sendTaskbar : Call Unit := do
  let s ← get
  match s.d.taskbar with
  | none => pure ()
  | some t => sendEvent t

def winBcast : Call Unit :=
  forEach (List.range taskMax) fun t => do
    let s ← get
    doIf (s.att t) (quietly (sendEvent t))

def Window.has (w : Window) (x y : Int) : Bool :=
  w.visible && !(x < w.rect.x) && !(y < w.rect.y) && !(i32 (w.rect.x + w.rect.w) ≤ x) &&
    !(i32 (w.rect.y + w.rect.h) ≤ y)

def winXywd (d : Desktop) (x y : Int) : Int :=
  match d.stack.find? fun wd => (d.window wd).has x y with
  | some wd => wd
  | none => -1

def winSak : Call Unit := do
  setInput fun i => { i with secLocked := true }
  winBcast

def winKeydown (ch : Nat) : Call Unit := do
  setInput fun i => { i with keyShift :=
    { shift := i.keyShift.shift || ch == winKeyShift, ctrl := i.keyShift.ctrl || ch == winKeyCtrl
      alt := i.keyShift.alt || ch == winKeyAlt } }
  let s ← get
  let k := s.input.keyShift
  if k.ctrl ∧ k.alt ∧ (ch = winKeyDel ∨ ch = 10) then winSak
  else if s.d.taskbar.isSome ∧ (k.alt ∧ ch = 9 ∨ k.ctrl ∧ ch = 27) then sendTaskbar
  else if s.d.focus < 0 then pure ()
  else winEvent s.d.focus

def winKeyup (ch : Nat) : Call Unit := do
  setInput fun i => { i with keyShift :=
    { shift := i.keyShift.shift && ch != winKeyShift, ctrl := i.keyShift.ctrl && ch != winKeyCtrl
      alt := i.keyShift.alt && ch != winKeyAlt } }
  let s ← get
  if s.d.focus < 0 then pure () else winEvent s.d.focus

def onDisplay (x width : Int) : Int :=
  let x := if x < 0 then 0 else x
  if width ≤ x then width - 1 else x

def winPtrmove (x y : Int) : Call Unit := do
  let s ← get
  let x := onDisplay x s.d.display.width
  let y := onDisplay y s.d.display.height
  setInput fun i => { i with ptrX := onDisplay x s.d.display.width, ptrY := onDisplay y s.d.display.height }
  let wd := if s.input.ptrDown = 0 then winXywd s.d x y else s.input.ptrDownWd
  if wd < 0 then pure () else winEvent wd

def winPtrdown : Call Unit := do
  let s ← get
  doIf (s.input.ptrDown = 0) do
    let wd := winXywd s.d s.input.ptrX s.input.ptrY
    modify fun s => { s with input := { s.input with ptrDownWd := wd }, caught := s.born wd.toNat }
  setInput fun i => { i with ptrDown := i.ptrDown + 1 }
  let s ← get
  if s.input.ptrDownWd < 0 then pure () else winEvent s.input.ptrDownWd

def winPtrup : Call Unit := do
  let s ← get
  crashIf (s.input.ptrDown = 0)
  setInput fun i => { i with ptrDown := i.ptrDown - 1 }
  doIf (s.input.ptrDown = 1 ∧ s.input.dragdrop) do
    setInput fun i => { i with dragdrop := false }
    let wd := winXywd s.d s.input.ptrX s.input.ptrY
    doIf (0 ≤ wd) (quietly (winEvent wd))
    doIf (0 ≤ s.input.ptrDownWd) (quietly (winEvent s.input.ptrDownWd))
  if s.input.ptrDownWd < 0 then pure () else winEvent s.input.ptrDownWd

/-- `win_clock`, at the ticks at which its counter has come round. -/
def winClock : Call Unit := do
  let s ← get
  doIf (0 ≤ s.d.focus ∧ (s.d.window s.d.focus.toNat).blinkEna) (quietly (winEvent s.d.focus))

def serve : Irq → Call Unit
  | .keydown ch => winKeydown ch
  | .keyup ch => winKeyup ch
  | .ptrmove x y => winPtrmove x y
  | .ptrdown => winPtrdown
  | .ptrup => do
    let s ← get
    if s.input.ptrDown = 0 then pure () else winPtrup
  | .clock => winClock

/-- Interrupts are enabled: the handlers that are due here run. -/
def point : Call Unit := do
  let s ← get
  match s.irqs.points with
  | [] => pure ()
  | now :: later =>
    modify fun s => { s with irqs := { s.irqs with points := later } }
    forEach now fun irq => quietly (serve irq)

/-- Interrupts are still enabled, and the next statement takes a window off the stack. -/
def gap : Call Unit := do
  let s ← get
  match s.irqs.gaps with
  | [] => pure ()
  | now :: later =>
    modify fun s => { s with irqs := { s.irqs with gaps := later } }
    forEach now fun irq => quietly (serve irq)

def winChkwd (curr : Nat) (wd : Int) : Call Unit := do
  let s ← get
  failIf (s.att curr = false) .ENODESKTOP
  failIf (wd < 0 ∨ winMax ≤ wd) .EINVAL
  match (s.d.window wd.toNat).task with
  | none => fail .EINVAL
  | some t => failIf (curr ≠ t) .EPERM

def apart (r q : Rect) : Bool :=
  decide (i32 (q.x + q.w) ≤ r.x) || decide (i32 (q.y + q.h) ≤ r.y) || decide (i32 (r.x + r.w) ≤ q.x) ||
    decide (i32 (r.y + r.h) ≤ q.y)

def Desktop.behind (d : Desktop) (wd : Nat) : List Nat := Layers.behind wd d.stack

def Desktop.above (d : Desktop) (wd : Nat) : List Nat := (d.stack.takeWhile (· ≠ wd)).reverse

def Desktop.downFrom (d : Desktop) : Option Nat → List Nat
  | none => []
  | some wd => wd :: d.behind wd

def winRedraw (wd : Nat) : Call Unit := do
  let s ← get
  doIf ((s.d.window wd).visible) (winEvent wd)

def winRedrawRect (r : Rect) (start : Option Nat) : Call Unit := do
  let s ← get
  forEach (s.d.downFrom start) fun wd => do
    let s ← get
    doIf ((s.d.window wd).task.isSome ∧ (s.d.window wd).visible ∧ apart (s.d.window wd).rect r = false) do
      quietly (winEvent wd)
      point

/-- Whether a visible window above `wd` has something in common with the rectangle. -/
def covered (d : Desktop) (wd : Nat) (r : Rect) : Bool :=
  (d.above wd).any fun above => (d.window above).visible && !apart (d.window above).rect r

def offDisplay (display : Display) (r : Rect) : Bool :=
  decide (i32 (r.x + r.w) > display.width) || decide (i32 (r.y + r.h) > display.height) || decide (r.x < 0) ||
    decide (r.y < 0)

def winChange (curr : Nat) (wd : Int) (visible : Int) (x y w h : Int) : Call Unit := do
  winChkwd curr wd
  let wd := wd.toNat
  let r : Rect := if w < 0 ∨ h < 0 then ⟨x, y, 0, 0⟩ else ⟨x, y, w, h⟩
  let s ← get
  let wp := s.d.window wd
  doIf (visible ≠ (if wp.visible then 1 else 0)) (quietly sendTaskbar)
  point
  if wp.visible ∧ visible = 0 then
    setDesktop fun d => d.setWindow wd fun wp => { wp with visible := false }
    point
    winRedrawRect wp.rect (s.d.behind wd).head?
  else if !wp.visible ∧ visible ≠ 0 then
    setDesktop fun d => d.setWindow wd fun wp => { wp with visible := true, rect := r }
    point
    winRedraw wd
  else if visible = 0 then pure ()
  else if wp.rect ≠ r then
    winRedrawRect wp.rect (s.d.behind wd).head?
    let full := covered s.d wd wp.rect || covered s.d wd r || offDisplay s.d.display r ||
      offDisplay s.d.display wp.rect || decide (r.w ≠ wp.rect.w) || decide (r.h ≠ wp.rect.h) ||
      s.d.display.slowcopy
    point
    setDesktop fun d => d.setWindow wd fun wp => { wp with rect := r }
    point
    doIf full (winRedraw wd)

def takeOff (wd : Nat) : Call Unit :=
  setDesktop fun d => { d with stack := d.stack.erase wd, window := update d.window wd zeroWindow }

def winCreat (curr : Nat) (visible : Int) (x y w h : Int) : Call Nat := do
  let s ← get
  failIf (s.att curr = false) .ENODESKTOP
  failIf ((winMax : Int) ≤ s.d.windowCount) .ENOMEM
  match (List.range winMax).find? fun i => (s.d.window i).task.isNone with
  | none => crash -- win_creat: inconsistent window list
  | some i =>
    let layer := if s.euid curr = 0 ∧ s.input.secLocked then winLayerSecure else winLayerApp
    modify fun s => { s with
      d := { s.d with
        window := update s.d.window i { zeroWindow with task := some curr, layer := layer }
        stack := s.d.stack ++ [i] }
      born := update s.born i (s.born i + 1) }
    point
    onError (do
      sendTaskbar
      point
      winChange curr i visible x y w h
      point) (do
      gap
      takeOff i)
    setDesktop fun d => { d with windowCount := d.windowCount + 1 }
    pure i

def Desktop.layer (d : Desktop) (wd : Nat) : Int := (d.window wd).layer

def winRaise (curr : Nat) (wd : Int) : Call Unit := do
  let s ← get
  failIf (s.att curr = false) .ENODESKTOP
  failIf (wd < 0 ∨ winMax ≤ wd) .EINVAL
  failIf ((s.d.window wd.toNat).task.isNone) .EINVAL
  let wp0 := wd.toNat
  match place s.d.layer wp0 s.d.stack with
  | none => crash
  | some wpp =>
    if wpp = wp0 then pure ()
    else
      quietly (winEvent wd)
      point
      setDesktop fun d => { d with stack := insertBefore wpp wp0 (d.stack.erase wp0) }
      point
      doIf ((s.d.window wp0).visible ∧ covered s.d wp0 (s.d.window wp0).rect) (winEvent wd)

def winFocus (curr : Nat) (wd : Int) : Call Unit := do
  let s ← get
  failIf (s.att curr = false) .ENODESKTOP
  failIf (s.input.secLocked ∧ s.euid curr ≠ 0) .EPERM
  failIf (wd < 0 ∨ winMax ≤ wd) .EINVAL
  failIf ((s.d.window wd.toNat).task.isNone) .EINVAL
  if s.d.focus = wd then pure ()
  else
    doIf (0 ≤ s.d.focus) (quietly (winEvent s.d.focus))
    point
    quietly (winEvent wd)
    point
    setDesktop fun d => { d with focus := wd }
    point
    quietly sendTaskbar

def winUfocus (curr : Nat) (wd : Int) : Call Unit := do
  winChkwd curr wd
  quietly (winEvent wd)
  point
  setDesktop fun d => { d with focus := -1 }
  point
  quietly sendTaskbar

def winClose (curr : Nat) (wd : Int) : Call Unit := do
  winChkwd curr wd
  let s ← get
  let w := s.d.window wd.toNat
  let nw := (s.d.behind wd.toNat).find? fun i => (s.d.window i).visible
  point
  doIf (s.d.focus = wd) do
    setDesktop fun d => { d with focus := -1 }
    point
    match nw with
    | none => pure ()
    | some i => quietly (winFocus curr i)
  point
  setInput fun i => if i.ptrDownWd = wd then { i with ptrDownWd := -1 } else i
  gap
  takeOff wd.toNat
  setDesktop fun d => { d with windowCount := d.windowCount - 1 }
  point
  doIf (w.visible) (winRedrawRect w.rect nw)
  quietly sendTaskbar

def winSetlayer (curr : Nat) (wd : Int) (layer : Int) : Call Unit := do
  winChkwd curr wd
  let s ← get
  failIf (s.euid curr ≠ 0 ∧ layer < 0) .EPERM
  setDesktop fun d => d.setWindow wd.toNat fun w => { w with layer := layer }

def winBlink (curr : Nat) (wd : Int) (ena : Bool) : Call Unit := do
  winChkwd curr wd
  setDesktop fun d => d.setWindow wd.toNat fun w => { w with blinkEna := ena }

def winClean (curr : Nat) : Call Unit := do
  let s ← get
  doIf (s.att curr) do
    doIf (s.d.taskbar = some curr) do
      winBcast
      point
      setDesktop fun d => { d with taskbar := none }
    forEach (List.range winMax) fun i => do
      point
      let s ← get
      doIf ((s.d.window i).task = some curr) (quietly (winClose curr i))
    modify fun s => { s with att := update s.att curr false }

def winDetach (curr : Nat) : Call Unit := do
  let s ← get
  failIf (s.inh curr = false) .ENODESKTOP
  winClean curr
  modify fun s => { s with inh := update s.inh curr false, att := update s.att curr false }

def sysWinAttach (curr : Nat) : Call Unit := do
  let s ← get
  failIf (s.inh curr = false) .ENODESKTOP
  modify fun s => { s with att := update s.att curr true }

def sysWinTaskbar (curr : Nat) : Call Unit := do
  let s ← get
  failIf (s.att curr = false) .ENODESKTOP
  failIf (s.d.taskbar.isSome) .EEXIST
  setDesktop fun d => { d with taskbar := some curr }
  quietly sendTaskbar

def sysWinDragdrop (curr size : Nat) : Call Unit := do
  let s ← get
  failIf (s.att curr = false) .ENODESKTOP
  winChkwd curr s.input.ptrDownWd
  failIf (winDdBuf < size) .ENOMEM
  failIf (s.input.dragdrop) .EBUSY
  setInput fun i => { i with dragdrop := true }

def winSecUnlock (curr : Nat) : Call Unit := do
  let s ← get
  failIf (s.att curr = false) .ENODESKTOP
  setInput fun i => { i with secLocked := false }
  point
  winBcast

/-- `do_exec`, which leaves the desktop and empties the event queue. -/
def doExec (curr : Nat) : Call Unit := do
  winClean curr
  modify fun s => { s with eventCount := update s.eventCount curr 0 }

/-- `task_exit`, which does not look at the error of `win_detach`. -/
def taskExit (curr : Nat) : Call Unit := do
  quietly (winDetach curr)
  modify fun s => { s with alive := update s.alive curr false }

def newTask (curr child : Nat) : Call Unit := do
  let s ← get
  failIf (taskMax ≤ child ∨ s.alive child) .EAGAIN
  modify fun s => { s with
    alive := update s.alive child true, inh := update s.inh child (s.inh curr), att := update s.att child false
    euid := update s.euid child (s.euid curr), eventCount := update s.eventCount child 0 }

def sysEvtWait (curr : Nat) : Call Unit :=
  modify fun s => { s with eventCount := update s.eventCount curr (s.eventCount curr - 1) }

def setUid (curr uid : Nat) : Call Unit := modify fun s => { s with euid := update s.euid curr uid }

inductive Op where
  | creat (visible x y w h : Int)
  | change (wd visible x y w h : Int)
  | close (wd : Int)
  | raise (wd : Int)
  | focus (wd : Int)
  | ufocus (wd : Int)
  | setlayer (wd layer : Int)
  | blink (wd : Int) (ena : Bool)
  | taskbar
  | dragdrop (size : Nat)
  | secUnlock
  | attach
  | detach
  | exec
  | exit
  | fork (child : Nat)
  | evtWait
  | setuid (uid : Nat)

def Op.call (curr : Nat) : Op → Call Unit
  | .creat visible x y w h => do
    let _ ← winCreat curr visible x y w h
    pure ()
  | .change wd visible x y w h => winChange curr wd visible x y w h
  | .close wd => winClose curr wd
  | .raise wd => winRaise curr wd
  | .focus wd => winFocus curr wd
  | .ufocus wd => winUfocus curr wd
  | .setlayer wd layer => winSetlayer curr wd layer
  | .blink wd ena => winBlink curr wd ena
  | .taskbar => sysWinTaskbar curr
  | .dragdrop size => sysWinDragdrop curr size
  | .secUnlock => winSecUnlock curr
  | .attach => sysWinAttach curr
  | .detach => winDetach curr
  | .exec => doExec curr
  | .exit => taskExit curr
  | .fork child => newTask curr child
  | .evtWait => sysEvtWait curr
  | .setuid uid => setUid curr uid

/-- A call of a task, with the handlers that run inside it, or a handler that runs between two calls. -/
inductive Step where
  | call (curr : Nat) (op : Op) (irqs : Due)
  | irq (i : Irq)

def Step.run : Step → State → Res Errno Unit × State
  | .call curr op irqs, s => op.call curr { s with irqs := irqs }
  | .irq i, s => serve i s

/-- Only tasks that have not exited make calls. -/
def Step.able (s : State) : Step → Prop
  | .call curr _ _ => s.alive curr = true
  | .irq _ => True

instance (s : State) (step : Step) : Decidable (step.able s) := by
  cases step <;> simp only [Step.able] <;> infer_instance

/-- What `win_newdesktop` leaves; the tasks and their events are there before it. -/
def winNewdesktop (curr : Nat) (display : Display) (alive : Nat → Bool) (euid eventCount : Nat → Nat) : State :=
  { d := { display := display, window := fun _ => zeroWindow, stack := [], windowCount := 0, focus := -1
           taskbar := none }
    input := { secLocked := false, ptrX := 0, ptrY := 0, ptrDown := 0, ptrDownWd := 0
               keyShift := ⟨false, false, false⟩, dragdrop := false }
    alive := alive, inh := fun t => t == curr, att := fun t => t == curr, euid := euid, eventCount := eventCount
    irqs := ⟨[], []⟩, born := fun _ => 0, caught := 0 }

inductive Reach : State → Prop where
  | start (curr : Nat) (display : Display) (alive : Nat → Bool) (euid eventCount : Nat → Nat)
      (here : alive curr = true) : Reach (winNewdesktop curr display alive euid eventCount)
  | step {s t : State} {r : Res Errno Unit} (before : Reach s) (step : Step) (able : step.able s)
      (run : step.run s = (r, t)) (runs : r ≠ .crash) : Reach t

end Desktops
