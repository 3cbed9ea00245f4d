import Newsys.Kern.Frames

/- The tables of the address space of the kernel, and its reservations (kern/arch-i386/page.c,
   kern/arch-amd64/page.c). Table entries are named by the page whose address they translate; i386 has two levels of
   tables and amd64 has four. -/
namespace Paging
open Cmds Cmd Kern

/-- An entry of a page table: zero, `PGF_SPACE_IN_USE`, or a frame. -/
inductive Pte where
  | none
  | inUse
  | frame (m : Nat)
  deriving DecidableEq

/-- The tables, the frames, and `pg_vfree`. An entry of a higher table is the frame of a lower one. -/
structure Space where
  pool : Frames.Pool
  pml4 : Nat → Option Nat
  pdp : Nat → Option Nat
  dir : Nat → Option Nat
  tab : Nat → Pte
  vfree : Nat

def onPool {α : Type} (m : Cmd Errno Frames.Pool α) : Cmd Errno Space α := fun s =>
  ((m s.pool).1, { s with pool := (m s.pool).2 })

/-- A page table of `n` entries is entered in the directory, and all its entries are zero. -/
def enterTab (n i m : Nat) (s : Space) : Space :=
  { s with dir := Function.update s.dir i (some m), tab := fun k => if k / n = i then .none else s.tab k }

def newTab (i : Nat) : Cmd Errno Space Unit := do
  let s ← get
  if s.dir i = none then do
    let m ← onPool Frames.pgAlloc
    modify (enterTab 1024 i m)
  else pure ()

/-- The loop of `pg_adget` on i386 that looks for `size` pages, in at most `fuel` rounds. -/
def searchI386 (s : Space) (size : Nat) : Nat → Nat → Nat → Option Nat
  | 0, _, _ => none
  | fuel + 1, i, start =>
    if size ≤ i - start then some start
    else if Machine.pageDynEnd ≤ i then none
    else if s.dir (i / 1024) = none then searchI386 s size fuel (i + 4096) start
    else searchI386 s size fuel (i + 1) (if s.tab i ≠ .none then i + 1 else start)

def findI386 (s : Space) (size : Nat) : Option Nat :=
  searchI386 s size (Machine.pageDynEnd + 1) (Machine.pageDyn .i386) (Machine.pageDyn .i386)

def setInUse (start size : Nat) (s : Space) : Space :=
  { s with tab := fun k => if start ≤ k ∧ k < start + size then .inUse else s.tab k }

def pgAdgetI386 (size : Nat) : Cmd Errno Space Nat := do
  let s ← get
  match findI386 s size with
  | none => fail .ENOMEM
  | some start => do
    forEach (List.range' (start / 1024) ((start + size + 1023) / 1024 - start / 1024)) newTab
    modify (setInUse start size)
    modify fun s => { s with vfree := (s.vfree + 2 ^ 32 - size) % 2 ^ 32 }
    pure start

def altabDir (i : Nat) : Cmd Errno Space Unit := do
  let s ← get
  if s.dir (i / 2 ^ 9) = none then do
    let m ← onPool Frames.pgAlloc
    modify (enterTab 512 (i / 2 ^ 9) m)
  else pure ()

def altabPdp (i : Nat) : Cmd Errno Space Unit := do
  let s ← get
  if s.pdp (i / 2 ^ 18) = none then do
    let m ← onPool Frames.pgAlloc
    modify fun s => { s with pdp := Function.update s.pdp (i / 2 ^ 18) (some m)
                             dir := fun k => if k / 512 = i / 2 ^ 18 then none else s.dir k }
  else pure ()

def altabPml4 (i : Nat) : Cmd Errno Space Unit := do
  let s ← get
  if s.pml4 (i / 2 ^ 27) = none then do
    let m ← onPool Frames.pgAlloc
    modify fun s => { s with pml4 := Function.update s.pml4 (i / 2 ^ 27) (some m)
                             pdp := fun k => if k / 512 = i / 2 ^ 27 then none else s.pdp k }
  else pure ()

def pgAltab (i : Nat) : Cmd Errno Space Unit := do
  altabPml4 i
  altabPdp i
  altabDir i

/-- The loop of `pg_adget` on amd64. A step over an absent table is followed by the `end++` of the loop. -/
def searchAmd64 (s : Space) (size : Nat) : Nat → Nat → Nat → Option Nat
  | 0, _, _ => none
  | fuel + 1, fin, start =>
    if Machine.pageDynEnd ≤ fin then none
    else if size ≤ fin - start then some start
    else if s.pml4 (fin / 2 ^ 27) = none then searchAmd64 s size fuel (fin + 2 ^ 27 + 1) start
    else if s.pdp (fin / 2 ^ 18) = none then searchAmd64 s size fuel (fin + 2 ^ 18 + 1) start
    else if s.dir (fin / 2 ^ 9) = none then searchAmd64 s size fuel (fin + 2 ^ 9 + 1) start
    else searchAmd64 s size fuel (fin + 1) (if s.tab fin ≠ .none then fin + 1 else start)

def findAmd64 (s : Space) (size : Nat) : Option Nat :=
  searchAmd64 s size (Machine.pageDynEnd + 1) (Machine.pageDyn .amd64) (Machine.pageDyn .amd64)

def reserveOne (i : Nat) : Cmd Errno Space Unit := do
  pgAltab i
  modify (setInUse i 1)

def pgAdgetAmd64 (size : Nat) : Cmd Errno Space Nat := do
  let s ← get
  match findAmd64 s size with
  | none => fail .ENOMEM
  | some start => do
    forEach (List.range' start size) reserveOne
    pure start

def pgAdget : Machine → Nat → Cmd Errno Space Nat
  | .i386 => pgAdgetI386
  | .amd64 => pgAdgetAmd64

def pgAdput (M : Machine) (p size : Nat) (s : Space) : Space :=
  { s with tab := fun k => if p ≤ k ∧ k < p + size then .none else s.tab k
           vfree := (s.vfree + size) % M.word }

/- The pages that are in use -/

def used (M : Machine) (s : Space) (k : Nat) : Prop := s.dir (k / M.tableEntries) ≠ none ∧ s.tab k ≠ .none

instance (M : Machine) (s : Space) (k : Nat) : Decidable (used M s k) := inferInstanceAs (Decidable (_ ∧ _))

section Rules
variable {α : Type} {m : Cmd Errno Frames.Pool α} {Q : Res Errno α → Space → Prop} {s : Space} {M : Machine}

theorem wp_onPool (h : wp m (fun r q => Q r { s with pool := q }) s.pool) : wp (onPool m) Q s := h

theorem used_enterTab (absent : s.dir i = none) (k : Nat) :
    used M (enterTab M.tableEntries i f s) k ↔ used M s k := by
  simp only [used, enterTab]
  by_cases here : k / M.tableEntries = i
  · rw [here, absent]
    simp
  · rw [if_neg here, Function.update_of_ne here]

theorem used_vfree : used M { s with vfree := v } k ↔ used M s k := Iff.rfl

theorem used_setInUse (tables : ∀ k, start ≤ k → k < start + size → s.dir (k / M.tableEntries) ≠ none) :
    used M (setInUse start size s) k ↔ used M s k ∨ start ≤ k ∧ k < start + size := by
  simp only [used, setInUse]
  by_cases inside : start ≤ k ∧ k < start + size
  · simp [inside, tables k inside.1 inside.2]
  · simp [inside]

theorem used_pgAdput : used M (pgAdput M p size s) k ↔ used M s k ∧ ¬ (p ≤ k ∧ k < p + size) := by
  simp only [used, pgAdput]
  by_cases inside : p ≤ k ∧ k < p + size
  · simp [inside]
  · simp [inside]

end Rules

end Paging
