import Mathlib.Tactic.Common

/- A slot of the table of file systems: mounting, unmounting, and the unmounting of removable file systems by
   the clock (kern/fs/mount.c, kern/task_dproc.c). A task sleeps in `blk_open`, `blk_close`, `blk_syncdev`,
   `type->mount` and `type->umount`, and other tasks and the clock go on in the meantime. -/
namespace Mount

def fsUdelay : Nat := 5

structure Slot where
  inUse : Bool
  active : Bool
  removable : Bool
  dev : Bool
  unmountTime : Nat

def Slot.zero : Slot := ⟨false, false, false, false, 0⟩

/-- The calls to the driver and to the device, with `in_use` at the time of `type->umount`. A `type->mount`
    that fails is not among them. -/
inductive Event where
  | mounted
  | umounted (inUse : Bool)
  | opened
  | closed
  deriving DecidableEq

inductive Pc where
  | idle
  | mountOpen (removable : Bool)
  | mountMount
  | mountClose
  | activateMount
  | activateSync
  | umountUmount
  | umountClose
  | dumountUmount
  | dumountSync
  deriving DecidableEq

/-- The slot, the clock, the number of `fs_dumount` calls for the slot that wait in `task_dprocs`, the tasks, and
    the calls made so far. -/
structure Sys where
  slot : Slot
  now : Nat
  dprocs : Nat
  pc : Nat → Pc
  log : List Event

def setPc (s : Sys) (t : Nat) (pc : Pc) : Sys := { s with pc := Function.update s.pc t pc }

def note (s : Sys) (e : Event) : Sys := { s with log := s.log ++ [e] }

def schedUnmount (s : Sys) : Sys := { s with slot := { s.slot with unmountTime := s.now + fsUdelay } }

def mountFlags (s : Sys) (t : Nat) (removable : Bool) : Sys :=
  let s := { s with slot := { s.slot with removable := removable, inUse := true } }
  if removable then setPc s t .idle else setPc s t .mountMount

/-- `fs_mount` in a free slot. The device or the type may not be found (`found`). -/
def fsMount (s : Sys) (t : Nat) (dev removable found : Bool) : Sys :=
  let s := { s with slot := { Slot.zero with dev := dev } }
  if found then if dev then setPc s t (.mountOpen removable) else mountFlags s t removable
  else s

def fsActivate (s : Sys) (t : Nat) : Sys :=
  if ¬ s.slot.removable then s
  else if s.slot.active then schedUnmount s
  else setPc s t .activateMount

def umountClosing (s : Sys) (t : Nat) : Sys :=
  if s.slot.dev then setPc (note s .closed) t .umountClose
  else setPc { s with slot := { s.slot with inUse := false } } t .idle

/-- `fs_umount` on a slot in use, with or without an object in use (`busy`). -/
def fsUmount (s : Sys) (t : Nat) (busy : Bool) : Sys :=
  if busy then s
  else if s.slot.active then setPc (note s (.umounted s.slot.inUse)) t .umountUmount
  else umountClosing s t

/-- `task_rundp` calls `fs_dumount`. It panics where a busy slot is not removable. -/
def fsDumount (s : Sys) (t : Nat) (busy : Bool) : Option Sys :=
  let s := { s with dprocs := s.dprocs - 1 }
  if ¬ s.slot.active then some s
  else if busy then if s.slot.removable then some (schedUnmount s) else none
  else some (setPc (note s (.umounted s.slot.inUse)) t .dumountUmount)

/-- `fs_clock`, and `task_defer`, which panics when there are 64 procedures. -/
def fsClock (s : Sys) : Option Sys :=
  if ¬ s.slot.inUse ∨ ¬ s.slot.removable ∨ ¬ s.slot.active then some s
  else if s.slot.unmountTime = 0 ∨ s.slot.unmountTime > s.now then some s
  else if s.dprocs ≥ 64 then none
  else some { s with slot := { s.slot with unmountTime := 0 }, dprocs := s.dprocs + 1 }

def wake (s : Sys) (t : Nat) (ok : Bool) : Option Sys :=
  match s.pc t with
  | .idle => none
  | .mountOpen removable => some (if ok then mountFlags (note s .opened) t removable else setPc s t .idle)
  | .mountMount =>
    if ok then some (setPc (note { s with slot := { s.slot with active := true } } .mounted) t .idle)
    else
      let s := { s with slot := { s.slot with inUse := false } }
      some (if s.slot.dev then setPc (note s .closed) t .mountClose else setPc s t .idle)
  | .mountClose => some (setPc s t .idle)
  | .activateMount =>
    if ok then
      if s.slot.removable then
        some (setPc (schedUnmount (note { s with slot := { s.slot with active := true } } .mounted)) t .idle)
      else none
    else some (setPc s t .activateSync)
  | .activateSync => some (setPc s t .idle)
  | .umountUmount => some (umountClosing s t)
  | .umountClose => some (setPc { s with slot := { s.slot with inUse := false } } t .idle)
  | .dumountUmount => some (setPc { s with slot := { s.slot with active := false } } t .dumountSync)
  | .dumountSync => some (setPc s t .idle)

inductive Act where
  | mount (t : Nat) (dev removable found : Bool)
  | activate (t : Nat)
  | umount (t : Nat) (busy : Bool)
  | dumount (t : Nat) (busy : Bool)
  | wake (t : Nat) (ok : Bool)
  | clock
  | time (n : Nat)

/-- What an action does, if it can happen at all: calls are made by tasks that do not sleep in another one,
    and a panic ends the run. -/
def step (s : Sys) : Act → Option Sys
  | .mount t dev removable found =>
    if s.pc t = .idle ∧ ¬ s.slot.inUse then some (fsMount s t dev removable found) else none
  | .activate t => if s.pc t = .idle ∧ s.slot.inUse then some (fsActivate s t) else none
  | .umount t busy => if s.pc t = .idle ∧ s.slot.inUse then some (fsUmount s t busy) else none
  | .dumount t busy => if s.pc t = .idle ∧ s.dprocs ≠ 0 then fsDumount s t busy else none
  | .wake t ok => wake s t ok
  | .clock => fsClock s
  | .time n => some { s with now := s.now + n }

def start : Sys := ⟨Slot.zero, 0, 0, fun _ => .idle, []⟩

inductive Reached (fits : Sys → Act → Prop) : Sys → Prop where
  | start : Reached fits start
  | next {s s' : Sys} (before : Reached fits s) (a : Act) (done : step s a = some s') (fit : fits s a) :
      Reached fits s'

/- What the calls should look like -/

/-- A file system that is mounted, or not, after a call: none when the call comes out of turn. -/
def mountTurn : Option Bool → Event → Option Bool
  | st, .mounted => if st = some false then some true else none
  | st, .umounted _ => if st = some true then some false else none
  | st, _ => st

def openTurn : Option Bool → Event → Option Bool
  | st, .opened => if st = some false then some true else none
  | st, .closed => if st = some true then some false else none
  | st, _ => st

def mountState (log : List Event) : Option Bool := log.foldl mountTurn (some false)

def openState (log : List Event) : Option Bool := log.foldl openTurn (some false)

@[simp] theorem mountState_note (log : List Event) (e : Event) :
    mountState (log ++ [e]) = mountTurn (mountState log) e := by
  simp [mountState]

@[simp] theorem openState_note (log : List Event) (e : Event) : openState (log ++ [e]) = openTurn (openState log) e := by
  simp [openState]

def Engaged : Pc → Prop
  | .mountOpen _ | .mountMount | .activateMount | .umountUmount | .umountClose | .dumountUmount => True
  | _ => False

def Quiet (s : Sys) : Prop := ∀ t, ¬ Engaged (s.pc t)

/-- Mounts and unmounts alternate, unmounts find the slot in use, and opens and closes alternate; while no task is
    engaged, exactly a slot in use holds its device open. -/
structure Orderly (s : Sys) : Prop where
  mounts : (mountState s.log).isSome
  used : ∀ b, Event.umounted b ∈ s.log → b = true
  opens : (openState s.log).isSome
  rest : Quiet s → mountState s.log = some (s.slot.inUse && s.slot.active) ∧
    openState s.log = some (s.slot.inUse && s.slot.dev)

/- The invariant -/

/-- What holds while the one task that is engaged sleeps at `pc`. -/
def Phase (s : Sys) : Pc → Prop
  | .mountOpen _ => s.slot.inUse = false ∧ s.slot.active = false ∧ s.slot.dev = true ∧
      mountState s.log = some false ∧ openState s.log = some false
  | .mountMount => s.slot.inUse = true ∧ s.slot.active = false ∧
      mountState s.log = some false ∧ openState s.log = some s.slot.dev
  | .activateMount => s.slot.inUse = true ∧ s.slot.active = false ∧ s.slot.removable = true ∧
      mountState s.log = some false ∧ openState s.log = some s.slot.dev
  | .umountUmount => s.slot.inUse = true ∧ mountState s.log = some false ∧ openState s.log = some s.slot.dev
  | .umountClose => s.slot.inUse = true ∧ mountState s.log = some false ∧ openState s.log = some false
  | .dumountUmount => s.slot.inUse = true ∧ s.slot.active = true ∧
      mountState s.log = some false ∧ openState s.log = some s.slot.dev
  | _ => False

def AtRest (s : Sys) : Prop :=
  mountState s.log = some (s.slot.inUse && s.slot.active) ∧ openState s.log = some (s.slot.inUse && s.slot.dev)

structure Inv (s : Sys) : Prop where
  used : ∀ b, Event.umounted b ∈ s.log → b = true
  phase : (Quiet s ∧ AtRest s) ∨ ∃ t, (∀ u, u ≠ t → ¬ Engaged (s.pc u)) ∧ Phase s (s.pc t)

variable {s s' : Sys} {t : Nat} {pc : Pc}

theorem engaged_of_phase (phase : Phase s pc) : Engaged pc := by
  cases pc <;> trivial

structure SameLife (s s' : Sys) : Prop where
  inUse : s'.slot.inUse = s.slot.inUse
  active : s'.slot.active = s.slot.active
  removable : s'.slot.removable = s.slot.removable
  dev : s'.slot.dev = s.slot.dev
  log : s'.log = s.log

theorem Inv.keep (inv : Inv s) (same : SameLife s s')
    (pcs : ∀ u, s'.pc u = s.pc u ∨ ¬ Engaged (s.pc u) ∧ ¬ Engaged (s'.pc u)) : Inv s' := by
  have still : ∀ u, ¬ Engaged (s.pc u) → ¬ Engaged (s'.pc u) := by
    intro u quiet
    rcases pcs u with eq | ⟨-, quiet'⟩
    · rw [eq]
      exact quiet
    · exact quiet'
  refine ⟨by rw [same.log]; exact inv.used, ?_⟩
  rcases inv.phase with ⟨quiet, rest⟩ | ⟨t, others, phase⟩
  · refine .inl ⟨fun u => still u (quiet u), ?_⟩
    rw [AtRest, same.log, same.inUse, same.active, same.dev]
    exact rest
  · refine .inr ⟨t, fun u ne => still u (others u ne), ?_⟩
    have here : s'.pc t = s.pc t := (pcs t).resolve_right fun h => h.1 (engaged_of_phase phase)
    rw [here]
    revert phase
    cases s.pc t <;> simp only [Phase, same.log, same.inUse, same.active, same.removable, same.dev, imp_self]

theorem Inv.rest (inv : Inv s) (quiet : Quiet s) : AtRest s := by
  rcases inv.phase with ⟨-, rest⟩ | ⟨t, -, phase⟩
  · exact rest
  · exact absurd (engaged_of_phase phase) (quiet t)

theorem Inv.engaged (inv : Inv s) (at_pc : s.pc t = pc) (here : Engaged pc) :
    (∀ u, u ≠ t → ¬ Engaged (s.pc u)) ∧ Phase s pc := by
  subst at_pc
  rcases inv.phase with ⟨quiet, -⟩ | ⟨t', others, phase⟩
  · exact absurd here (quiet t)
  · have eq : t = t' := by
      by_contra ne
      exact others t ne here
    rw [eq]
    exact ⟨others, phase⟩

theorem others_setPc (others : ∀ u, u ≠ t → ¬ Engaged (s.pc u)) : ∀ u, u ≠ t → ¬ Engaged ((setPc s t pc).pc u) := by
  intro u ne
  simp only [setPc, Function.update_of_ne ne]
  exact others u ne

theorem inv_engage (used : ∀ b, Event.umounted b ∈ s.log → b = true) (others : ∀ u, u ≠ t → ¬ Engaged (s.pc u))
    (phase : Phase s pc) : Inv (setPc s t pc) := by
  refine ⟨used, .inr ⟨t, others_setPc others, ?_⟩⟩
  simp only [setPc, Function.update_self]
  revert phase
  cases pc <;> exact fun phase => phase

theorem inv_disengage (used : ∀ b, Event.umounted b ∈ s.log → b = true) (others : ∀ u, u ≠ t → ¬ Engaged (s.pc u))
    (idle : ¬ Engaged pc) (rest : AtRest s) : Inv (setPc s t pc) := by
  refine ⟨used, .inl ⟨?_, rest⟩⟩
  intro u
  by_cases eq : u = t
  · rw [eq]
    simpa [setPc] using idle
  · exact others_setPc others u eq

theorem used_note (used : ∀ b, Event.umounted b ∈ s.log → b = true)
    (here : ∀ b, e = .umounted b → b = true) : ∀ b, Event.umounted b ∈ (note s e).log → b = true := by
  intro b mem
  rcases List.mem_append.mp mem with before | last
  · exact used b before
  · exact here b (List.mem_singleton.mp last).symm

theorem inv_mountFlags (used : ∀ b, Event.umounted b ∈ s.log → b = true)
    (others : ∀ u, u ≠ t → ¬ Engaged (s.pc u)) (active : s.slot.active = false)
    (mounts : mountState s.log = some false) (opens : openState s.log = some s.slot.dev) :
    Inv (mountFlags s t removable) := by
  simp only [mountFlags]
  split
  · refine inv_disengage used others id ?_
    simp only [AtRest, active, Bool.and_false, Bool.true_and]
    exact ⟨mounts, opens⟩
  · exact inv_engage used others ⟨rfl, active, mounts, opens⟩

theorem inv_umountClosing (used : ∀ b, Event.umounted b ∈ s.log → b = true)
    (others : ∀ u, u ≠ t → ¬ Engaged (s.pc u)) (inUse : s.slot.inUse = true) (mounts : mountState s.log = some false)
    (opens : openState s.log = some s.slot.dev) : Inv (umountClosing s t) := by
  unfold umountClosing
  split
  · rename_i dev
    refine inv_engage (used_note used nofun) others ⟨inUse, ?_, ?_⟩
    · simp only [note, mountState_note, mountTurn]
      exact mounts
    · simp only [note, openState_note, openTurn, opens, dev, if_true]
  · rename_i dev
    refine inv_disengage used others id ⟨?_, ?_⟩
    · exact mounts
    · simp only [Bool.not_eq_true] at dev
      rw [opens, dev]
      rfl

theorem inv_wake (inv : Inv s) (done : wake s t ok = some s') : Inv s' := by
  -- a task that is not engaged leaves everything as it is
  have leave : ¬ Engaged (s.pc t) → ∀ s', some (setPc s t .idle) = some s' → Inv s' := by
    rintro quiet _ ⟨⟩
    refine inv.keep ⟨rfl, rfl, rfl, rfl, rfl⟩ ?_
    intro u
    by_cases eq : u = t
    · right
      subst eq
      refine ⟨quiet, ?_⟩
      simp [setPc, Engaged]
    · left
      simp [setPc, Function.update_of_ne eq]
  unfold wake at done
  cases at_pc : s.pc t with
  | idle =>
    rw [at_pc] at done
    cases done
  | mountOpen removable =>
    obtain ⟨others, inUse, active, dev, mounts, opens⟩ := inv.engaged at_pc trivial
    rw [at_pc] at done
    simp only [Option.some.injEq] at done
    subst done
    split
    · refine inv_mountFlags (used_note inv.used nofun) others active ?_ ?_
      · simp only [note, mountState_note, mountTurn]
        exact mounts
      · simp only [note, openState_note, openTurn, opens, dev, if_true]
    · refine inv_disengage inv.used others id ?_
      rw [AtRest, inUse, mounts, opens]
      exact ⟨rfl, rfl⟩
  | mountMount =>
    obtain ⟨others, inUse, active, mounts, opens⟩ := inv.engaged at_pc trivial
    rw [at_pc] at done
    simp only at done
    split at done
    · cases done
      refine inv_disengage (used_note inv.used nofun) others id ⟨?_, ?_⟩
      · simp only [note, mountState_note, mountTurn, mounts, inUse, if_true, Bool.and_self]
      · simp only [note, openState_note, openTurn, opens, inUse, Bool.true_and]
    · split at done
      · rename_i dev
        simp only [Option.some.injEq] at done
        subst done
        refine inv_disengage (used_note inv.used nofun) others id ⟨?_, ?_⟩
        · simp only [note, mountState_note, mountTurn, mounts, Bool.false_and]
        · simp only [note, openState_note, openTurn, opens, dev, if_true, Bool.false_and]
      · rename_i dev
        simp only [Option.some.injEq] at done
        subst done
        refine inv_disengage inv.used others id ⟨?_, ?_⟩
        · exact mounts
        · simp only [Bool.not_eq_true] at dev
          simp only [opens, dev, Bool.false_and]
  | mountClose =>
    rw [at_pc] at done
    exact leave (by rw [at_pc]; exact id) s' done
  | activateMount =>
    obtain ⟨others, inUse, active, removable, mounts, opens⟩ := inv.engaged at_pc trivial
    rw [at_pc] at done
    simp only [removable, if_true] at done
    split at done
    · cases done
      refine inv_disengage (used_note inv.used nofun) others id ⟨?_, ?_⟩
      · simp only [schedUnmount, note, mountState_note, mountTurn, mounts, inUse, if_true, Bool.and_self]
      · simp only [schedUnmount, note, openState_note, openTurn, opens, inUse, Bool.true_and]
    · cases done
      refine inv_disengage inv.used others id ?_
      rw [AtRest, inUse, active, mounts, opens]
      exact ⟨rfl, rfl⟩
  | activateSync =>
    rw [at_pc] at done
    exact leave (by rw [at_pc]; exact id) s' done
  | umountUmount =>
    obtain ⟨others, inUse, mounts, opens⟩ := inv.engaged at_pc trivial
    rw [at_pc] at done
    cases done
    exact inv_umountClosing inv.used others inUse mounts opens
  | umountClose =>
    obtain ⟨others, inUse, mounts, opens⟩ := inv.engaged at_pc trivial
    rw [at_pc] at done
    cases done
    exact inv_disengage inv.used others id ⟨mounts, opens⟩
  | dumountUmount =>
    obtain ⟨others, inUse, active, mounts, opens⟩ := inv.engaged at_pc trivial
    rw [at_pc] at done
    cases done
    refine inv_disengage inv.used others id ⟨?_, ?_⟩
    · simp only [mounts, Bool.and_false]
    · simp only [opens, inUse, Bool.true_and]
  | dumountSync =>
    rw [at_pc] at done
    exact leave (by rw [at_pc]; exact id) s' done

/-- A call does not come in between another one's call to the device or the driver and what goes with it, and
    `fs_dumount` does not unmount a slot that is not in use. -/
def Fits (s : Sys) : Act → Prop
  | .mount _ _ _ _ => Quiet s
  | .activate _ => s.slot.removable = true → s.slot.active = false → Quiet s
  | .umount _ busy => busy = false → Quiet s
  | .dumount _ busy => s.slot.active = true → busy = false → Quiet s ∧ s.slot.inUse = true
  | _ => True

theorem inv_umounting (inv : Inv s) (quiet : Quiet s) (inUse : s.slot.inUse = true) (active : s.slot.active = true) :
    (∀ b, Event.umounted b ∈ (note s (.umounted s.slot.inUse)).log → b = true) ∧
    mountState (note s (.umounted s.slot.inUse)).log = some false ∧
    openState (note s (.umounted s.slot.inUse)).log = some s.slot.dev := by
  obtain ⟨mounts, opens⟩ := inv.rest quiet
  rw [inUse, active] at mounts
  rw [inUse] at opens
  refine ⟨?_, ?_, ?_⟩
  · apply used_note inv.used
    rintro b ⟨⟩
    exact inUse
  · simp only [note, mountState_note, mountTurn, mounts, Bool.and_self, if_true]
  · simp only [note, openState_note, openTurn, opens, Bool.true_and]

theorem inv_mount (inv : Inv s) (done : step s (.mount t dev removable found) = some s') (quiet : Quiet s) : Inv s' := by
  simp only [step] at done
  split at done
  swap
  · cases done
  rename_i free
  simp only [Option.some.injEq] at done
  subst done
  have inUse : s.slot.inUse = false := by simpa using free.2
  obtain ⟨mounts, opens⟩ := inv.rest quiet
  rw [inUse] at mounts opens
  simp only [fsMount]
  split
  · split
    · rename_i dev
      refine inv_engage inv.used (fun u _ => quiet u) ⟨rfl, rfl, dev, mounts, opens⟩
    · rename_i dev
      simp only [Bool.not_eq_true] at dev
      refine inv_mountFlags inv.used (fun u _ => quiet u) rfl mounts ?_
      simp only [dev]
      exact opens
  · exact ⟨inv.used, .inl ⟨quiet, mounts, opens⟩⟩

theorem inv_activate (inv : Inv s) (done : step s (.activate t) = some s') 
    (fit : s.slot.removable = true → s.slot.active = false → Quiet s) : Inv s' := by
  simp only [step] at done
  split at done
  swap
  · cases done
  rename_i ready
  simp only [Option.some.injEq] at done
  subst done
  unfold fsActivate
  split
  · exact inv
  · rename_i removable
    have removable : s.slot.removable = true := by simpa using removable
    split
    · exact inv.keep ⟨rfl, rfl, rfl, rfl, rfl⟩ fun u => .inl rfl
    · rename_i active
      have active : s.slot.active = false := by simpa using active
      have quiet := fit removable active
      obtain ⟨mounts, opens⟩ := inv.rest quiet
      rw [ready.2, active] at mounts
      rw [ready.2] at opens
      exact inv_engage inv.used (fun u _ => quiet u) ⟨ready.2, active, removable, mounts, opens⟩

theorem inv_umount (inv : Inv s) (done : step s (.umount t busy) = some s') (fit : busy = false → Quiet s) : Inv s' := by
  simp only [step] at done
  split at done
  swap
  · cases done
  rename_i ready
  simp only [Option.some.injEq] at done
  subst done
  unfold fsUmount
  split
  · exact inv
  · rename_i idle
    have quiet : Quiet s := fit (by simpa using idle)
    split
    · rename_i active
      obtain ⟨used, mounts, opens⟩ := inv_umounting inv quiet ready.2 active
      exact inv_engage used (fun u _ => quiet u) ⟨ready.2, mounts, opens⟩
    · rename_i active
      have active : s.slot.active = false := by simpa using active
      obtain ⟨mounts, opens⟩ := inv.rest quiet
      rw [ready.2, active] at mounts
      rw [ready.2] at opens
      exact inv_umountClosing inv.used (fun u _ => quiet u) ready.2 mounts opens

theorem inv_dumount (inv : Inv s) (done : step s (.dumount t busy) = some s') 
    (fit : s.slot.active = true → busy = false → Quiet s ∧ s.slot.inUse = true) : Inv s' := by
  simp only [step] at done
  split at done
  swap
  · cases done
  have keep : Inv { s with dprocs := s.dprocs - 1 } := inv.keep ⟨rfl, rfl, rfl, rfl, rfl⟩ fun u => .inl rfl
  simp only [fsDumount] at done
  split at done
  · cases done
    exact keep
  · rename_i active
    have active : s.slot.active = true := by simpa using active
    split at done
    · split at done
      · cases done
        exact keep.keep ⟨rfl, rfl, rfl, rfl, rfl⟩ fun u => .inl rfl
      · cases done
    · rename_i idle
      obtain ⟨quiet, inUse⟩ := fit active (by simpa using idle)
      cases done
      obtain ⟨used, mounts, opens⟩ := inv_umounting keep quiet inUse active
      exact inv_engage used (fun u _ => quiet u) ⟨inUse, active, mounts, opens⟩

theorem inv_clock (inv : Inv s) (done : step s (.clock) = some s') : Inv s' := by
  simp only [step, fsClock] at done
  split at done
  · cases done
    exact inv
  · split at done
    · cases done
      exact inv
    · split at done
      · cases done
      · cases done
        exact inv.keep ⟨rfl, rfl, rfl, rfl, rfl⟩ fun u => .inl rfl

theorem inv_step (inv : Inv s) (done : step s a = some s') (fit : Fits s a) : Inv s' := by
  cases a with
  | mount t dev removable found => exact inv_mount inv done fit
  | activate t => exact inv_activate inv done fit
  | umount t busy => exact inv_umount inv done fit
  | dumount t busy => exact inv_dumount inv done fit
  | wake t ok => exact inv_wake inv done
  | clock => exact inv_clock inv done
  | time n =>
    cases done
    exact inv.keep ⟨rfl, rfl, rfl, rfl, rfl⟩ fun u => .inl rfl

theorem inv_start : Inv start := ⟨nofun, .inl ⟨fun _ => id, rfl, rfl⟩⟩

theorem inv_reached (reached : Reached Fits s) : Inv s := by
  induction reached with
  | start => exact inv_start
  | next before a done fit ih => exact inv_step ih done fit

theorem phase_states (phase : Phase s pc) : (mountState s.log).isSome ∧ (openState s.log).isSome := by
  cases pc with
  | mountOpen removable => exact ⟨by rw [phase.2.2.2.1]; rfl, by rw [phase.2.2.2.2]; rfl⟩
  | mountMount => exact ⟨by rw [phase.2.2.1]; rfl, by rw [phase.2.2.2]; rfl⟩
  | activateMount => exact ⟨by rw [phase.2.2.2.1]; rfl, by rw [phase.2.2.2.2]; rfl⟩
  | umountUmount => exact ⟨by rw [phase.2.1]; rfl, by rw [phase.2.2]; rfl⟩
  | umountClose => exact ⟨by rw [phase.2.1]; rfl, by rw [phase.2.2]; rfl⟩
  | dumountUmount => exact ⟨by rw [phase.2.2.1]; rfl, by rw [phase.2.2.2]; rfl⟩
  | idle => exact phase.elim
  | mountClose => exact phase.elim
  | activateSync => exact phase.elim
  | dumountSync => exact phase.elim

/-- In every run of actions that fit, the life of the slot is orderly in every state. -/
theorem mounts_orderly (reached : Reached Fits s) : Orderly s := by
  have inv := inv_reached reached
  have states : (mountState s.log).isSome ∧ (openState s.log).isSome := by
    rcases inv.phase with ⟨-, rest⟩ | ⟨t, -, phase⟩
    · exact ⟨by rw [rest.1]; rfl, by rw [rest.2]; rfl⟩
    · exact phase_states phase
  exact ⟨states.1, inv.used, states.2, inv.rest⟩

def runFrom (s : Sys) : List Act → Option Sys
  | [] => some s
  | a :: acts => match step s a with
    | none => none
    | some s' => runFrom s' acts

def AllFit (fits : Sys → Act → Prop) (s : Sys) : List Act → Prop
  | [] => True
  | a :: acts => fits s a ∧ ∀ s', step s a = some s' → AllFit fits s' acts

theorem reached_runFrom (reached : Reached fits s)
    (done : runFrom s acts = some s') (fit : AllFit fits s acts) : Reached fits s' := by
  induction acts generalizing s with
  | nil =>
    cases done
    exact reached
  | cons a acts ih =>
    rw [runFrom] at done
    split at done
    · cases done
    · rename_i s₁ first
      exact ih (.next reached a first fit.1) done (fit.2 s₁ first)

def inUseRun : List Act := [.mount 1 true true true, .wake 1 true, .activate 1, .wake 1 true]

/-- The clock puts `fs_dumount` off, `fs_umount` comes first, and `fs_dumount` runs after it. -/
def late : List Act := [.time 5, .clock, .umount 1 false, .wake 1 true, .wake 1 true, .dumount 2 false]

theorem allFit_using : AllFit Fits start inUseRun := by
  have idle : Quiet start := fun _ => id
  refine ⟨idle, ?_⟩
  rintro _ ⟨⟩
  refine ⟨trivial, ?_⟩
  rintro _ ⟨⟩
  refine ⟨fun _ _ => ?_, ?_⟩
  · intro t
    by_cases eq : t = 1
    · rw [eq]
      exact id
    · simp [mountFlags, note, fsMount, setPc, start, Engaged]
  · rintro _ ⟨⟩
    refine ⟨trivial, ?_⟩
    rintro _ ⟨⟩
    trivial

theorem mounts_orderly_using : ∃ s, Reached Fits s ∧ s.log = [.opened, .mounted] ∧ Orderly s := by
  have reached : Reached Fits _ := reached_runFrom .start rfl allFit_using
  exact ⟨_, reached, rfl, mounts_orderly reached⟩

/-- `fs_umount` leaves `active` set, so that `fs_dumount` unmounts a second time, in a slot that is not in use. -/
theorem mounts_not_orderly_late : ∃ s, Reached (fun _ _ => True) s ∧
    s.log = [.opened, .mounted, .umounted true, .closed, .umounted false] ∧ ¬ Orderly s := by
  have fit : ∀ acts s, AllFit (fun _ _ => True) s acts := by
    intro acts
    induction acts with
    | nil => exact fun _ => trivial
    | cons a acts ih => exact fun _ => ⟨trivial, fun s' _ => ih s'⟩
  have reached : Reached (fun _ _ => True) _ := reached_runFrom .start rfl (fit (inUseRun ++ late) start)
  refine ⟨_, reached, rfl, ?_⟩
  intro orderly
  exact absurd (orderly.used false (by decide)) (by decide)

end Mount
