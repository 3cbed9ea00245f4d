import Mathlib.Algebra.Group.Nat.Defs
import Mathlib.Algebra.Ring.Int.Defs
import Newsys.Lib.Cmd
import Newsys.Kern.Errno

/- The table of objects (kern/fs/main.c) as one file system sees it: a driver fills in the fields of a new
   object, and is told when an object is no longer referenced. What the driver itself keeps goes along. -/
namespace Objects
open Cmds Cmd Kern List

def fsMaxfso : Nat := 256

def noIndex : Nat := 2 ^ 32 - 1

structure Fso (δ : Type) where
  refcnt : Nat
  fs : Nat
  index : Nat
  data : δ

structure Sys (ν δ : Type) where
  fso : Nat → Fso δ
  fsoHigh : Nat
  own : ν

abbrev ObjM (ν δ : Type) := Cmd Errno (Sys ν δ)

variable {ν δ α : Type}

def setFso (o : Nat) (g : Fso δ → Fso δ) (s : Sys ν δ) : Sys ν δ :=
  { s with fso := Function.update s.fso o (g (s.fso o)) }

def isOpen (fs index : Nat) (f : Fso δ) : Bool := f.refcnt ≠ 0 && index ≠ noIndex && f.index = index && f.fs = fs

/-- The last free entry of the table, or one past the highest; `mem` is what `pg_atmem` returns. -/
def fsoSlot (mem : Option Errno) : ObjM ν δ Nat := do
  let s ← get
  match (range s.fsoHigh).reverse.find? fun o => (s.fso o).refcnt = 0 with
  | some o => pure o
  | none =>
    if fsMaxfso ≤ s.fsoHigh then fail .ENOMEM
    else match mem with
      | some e => fail e
      | none => do
        modify fun s => { s with fsoHigh := s.fsoHigh + 1 }
        pure s.fsoHigh

def fsGetfso (getfso : Nat → ObjM ν δ Unit) (zero : δ) (fs index : Nat) (mem : Option Errno) : ObjM ν δ Nat := do
  let s ← get
  match (range s.fsoHigh).find? fun o => isOpen fs index (s.fso o) with
  | some o => do
    modify (setFso o fun f => { f with refcnt := f.refcnt + 1 })
    pure o
  | none => do
    let o ← fsoSlot mem
    modify (setFso o fun _ => ⟨1, fs, index, zero⟩)
    onError (getfso o) (modify (setFso o fun f => { f with refcnt := 0 }))
    pure o

/-- The result of the driver is not used. -/
def fsPutfso (putfso : Nat → ObjM ν δ Unit) (o : Nat) : ObjM ν δ Unit := do
  let s ← get
  if (s.fso o).refcnt = 0 then crash
  else
    if (s.fso o).refcnt = 1 then
      let _ ← attempt (putfso o)
      pure ()
    else pure ()
    modify (setFso o fun f => { f with refcnt := f.refcnt - 1 })

variable {s : Sys ν δ} {o o' fs index : Nat} {mem : Option Errno}

section
variable (g : Fso δ → Fso δ)
include g

@[simp] theorem setFso_fsoHigh : (setFso o g s).fsoHigh = s.fsoHigh := rfl

@[simp] theorem setFso_same : (setFso o g s).fso o = g (s.fso o) := Function.update_self ..

theorem setFso_ne (ne : o' ≠ o) : (setFso o g s).fso o' = s.fso o' := Function.update_of_ne ne ..

end

def Tabled (s : Sys ν δ) : Prop := ∀ o, s.fsoHigh ≤ o → (s.fso o).refcnt = 0

def Full (s : Sys ν δ) (mem : Option Errno) : Prop :=
  (∀ o < s.fsoHigh, (s.fso o).refcnt ≠ 0) ∧ (fsMaxfso ≤ s.fsoHigh ∨ mem ≠ none)

def claim (s : Sys ν δ) (o fs index : Nat) (zero : δ) : Sys ν δ :=
  setFso o (fun _ => ⟨1, fs, index, zero⟩) { s with fsoHigh := max s.fsoHigh (o + 1) }

theorem wp_fsoSlot (ok : ∀ o, ¬ Full s mem → (o < s.fsoHigh → (s.fso o).refcnt = 0) →
      Q (.ok o) { s with fsoHigh := max s.fsoHigh (o + 1) })
    (full : ∀ e, Full s mem → Q (.err e) s) : wp (fsoSlot mem) Q s := by
  simp only [fsoSlot, wp_bind, wp_get, after_ok]
  cases found : (range s.fsoHigh).reverse.find? fun o => (s.fso o).refcnt = 0 with
  | some o =>
    have free : (s.fso o).refcnt = 0 := by simpa using find?_some found
    have inside : o < s.fsoHigh := by simpa using mem_of_find?_eq_some found
    have done := ok o (fun full => full.1 o inside free) fun _ => free
    rw [Nat.max_eq_left inside] at done
    exact done
  | none =>
    have busy : ∀ o < s.fsoHigh, (s.fso o).refcnt ≠ 0 := by simpa using find?_eq_none.mp found
    dsimp only
    split
    · exact full _ ⟨busy, .inl ‹_›⟩
    · rename_i room
      cases mem with
      | some e => exact full e ⟨busy, .inr (by simp)⟩
      | none =>
        have done := ok s.fsoHigh (fun full => full.2.elim room fun some => some rfl) (by omega)
        rw [Nat.max_eq_right (Nat.le_succ _)] at done
        exact done

theorem wp_fsGetfso
    (shared : ∀ o, isOpen fs index (s.fso o) = true → Q (.ok o) (setFso o (fun f => { f with refcnt := f.refcnt + 1 }) s))
    (full : ∀ e, Full s mem → Q (.err e) s)
    (new : ∀ o, ¬ Full s mem → (o < s.fsoHigh → (s.fso o).refcnt = 0) →
      (∀ o' < s.fsoHigh, isOpen fs index (s.fso o') = false) →
      wp (getfso o) (fun r t => match r with
        | .ok () => Q (.ok o) t
        | .err e => Q (.err e) (setFso o (fun f => { f with refcnt := 0 }) t)
        | .crash => Q .crash t) (claim s o fs index zero)) :
    wp (fsGetfso getfso zero fs index mem) Q s := by
  simp only [fsGetfso, wp_bind, wp_get, after_ok]
  cases found : (range s.fsoHigh).find? fun o => isOpen fs index (s.fso o) with
  | some o => exact shared o (by simpa using find?_some found)
  | none =>
    have none' : ∀ o' < s.fsoHigh, isOpen fs index (s.fso o') = false := by simpa using find?_eq_none.mp found
    dsimp only
    rw [wp_bind]
    apply wp_fsoSlot
    · intro o room free
      rw [after_ok, wp_bind, wp_modify, after_ok, wp_bind, wp_onError]
      refine wp_mono (new o room free none') ?_
      rintro (_ | e | _) t post
      · exact post
      · exact post
      · exact post
    · intro e no
      exact full e no

theorem wp_fsPutfso (ref : (s.fso o).refcnt ≠ 0)
    (shared : (s.fso o).refcnt ≠ 1 → Q (.ok ()) (setFso o (fun f => { f with refcnt := f.refcnt - 1 }) s))
    (last : (s.fso o).refcnt = 1 → wp (putfso o) (fun r t => match r with
      | .crash => Q .crash t
      | _ => Q (.ok ()) (setFso o (fun f => { f with refcnt := f.refcnt - 1 }) t)) s) :
    wp (fsPutfso putfso o) Q s := by
  simp only [fsPutfso, wp_bind, wp_get, after_ok, if_neg ref]
  split
  · rename_i one
    rw [wp_bind, wp_attempt]
    refine wp_mono (last one) ?_
    rintro (_ | e | _) t post
    · exact post
    · exact post
    · exact post
  · exact shared ‹_›

end Objects
