import Mathlib.Data.List.Induction
import Newsys.Lib.Bytes
import Newsys.Kern.Errno

/- The table of mounted file systems (kern/fs/mount.c), and the choice of the file system that a path
   name belongs to (kern/fs/main.c). A device is its name; what devices and file systems answer to a
   call is given from outside. -/
namespace Vfs
open Bytes Kern Function List

abbrev CString := { s : List Byte // (0 : Byte) ∉ s }

abbrev fsMaxfs : Nat := 16

structure Fs where
  mountPrefix : List Byte
  prefixL : Nat
  removable : Bool
  readOnly : Bool
  noAtime : Bool
  insecure : Bool
  active : Bool
  inUse : Bool
  dev : Option (List Byte)

def Fs.zero : Fs := ⟨[], 0, false, false, false, false, false, false, none⟩

abbrev Table := Fin fsMaxfs → Fs

/-- What `blk_find`, `fs_find`, `blk_open`, `fs->type->mount`, `fs->type->umount` and `blk_close` return. -/
structure Answers where
  blkFind : Option Errno
  fsFind : Option Errno
  blkOpen : Option Errno
  mount : Option Errno
  umount : Option Errno
  blkClose : Option Errno

def slash : Byte := 47

def nodev : List Byte := [110, 111, 100, 101, 118]

def Fs.collides (f : Fs) (name bdevName : List Byte) : Bool :=
  f.inUse && (f.mountPrefix == name || f.dev == some bdevName)

def setSlot (tab : Table) (i : Fin fsMaxfs) (f : Fs) : Table := update tab i f

/-- The slot as `fs_mount` leaves it when it opens the device or fails to. -/
def Fs.named (name bdevName : List Byte) (found : Bool) : Fs :=
  { Fs.zero with mountPrefix := name, prefixL := name.length
                 dev := if bdevName ≠ nodev ∧ found then some bdevName else none }

def Fs.flagged (f : Fs) (flags : Nat) : Fs :=
  { f with readOnly := flags &&& 1 ≠ 0, noAtime := flags &&& 2 ≠ 0
           removable := flags &&& 4 ≠ 0, insecure := flags &&& 8 ≠ 0 }

def fsMount (tab : Table) (ans : Answers) (name bdevName : CString) (flags : Nat) : Except Errno Unit × Table :=
  if ∃ i, (tab i).collides name.1 bdevName.1 then (.error .EMOUNTED, tab)
  else match (finRange fsMaxfs).find? fun i => !(tab i).inUse with
    | none => (.error .ENOMEM, tab)
    | some i =>
      let fs := Fs.named name.1 bdevName.1 ans.blkFind.isNone
      match (if bdevName.1 ≠ nodev then ans.blkFind else none) with
      | some e => (.error e, setSlot tab i fs)
      | none => match ans.fsFind with
        | some e => (.error e, setSlot tab i fs)
        | none => match (if fs.dev.isSome then ans.blkOpen else none) with
          | some e => (.error e, setSlot tab i fs)
          | none =>
            let fs := { fs.flagged flags with inUse := true }
            if fs.removable then (.ok (), setSlot tab i fs)
            else match ans.mount with
              | some e => (.error e, setSlot tab i { fs with inUse := false })
              | none => (.ok (), setSlot tab i { fs with active := true })

/-- `busy`: an object of the file system is referenced. -/
def fsUmount (tab : Table) (ans : Answers) (busy : Bool) (name : CString) : Except Errno Unit × Table :=
  match (finRange fsMaxfs).find? fun i => (tab i).inUse && (tab i).mountPrefix == name.1 with
  | none => (.error .ENOENT, tab)
  | some i =>
    if busy then (.error .EBUSY, tab)
    else
      let err := if (tab i).active then ans.umount else none
      let err := if (tab i).dev.isSome then err.or ans.blkClose else err
      (match err with | some e => .error e | none => .ok (), setSlot tab i { tab i with inUse := false })

def pathfsTry (tab : Table) (pathname : List Byte) (best : Option (Fin fsMaxfs) × Nat) (i : Fin fsMaxfs) :
    Option (Fin fsMaxfs) × Nat :=
  if !(tab i).inUse then best
  else if pathname.length < (tab i).prefixL then best
  else if (tab i).prefixL < best.2 then best
  else if (tab i).mountPrefix.take (tab i).prefixL ≠ pathname.take (tab i).prefixL then best
  else if pathname.getD (tab i).prefixL 0 ≠ 0 ∧ pathname.getD (tab i).prefixL 0 ≠ slash then best
  else (some i, (tab i).prefixL)

def skipSlashes (pathname : List Byte) (l : Nat) : Nat := l + ((pathname.drop l).takeWhile (· = slash)).length

/-- The file system, and how much of the name belongs to its prefix. -/
def fsPathfs (tab : Table) (pathname : CString) : Except Errno (Fin fsMaxfs × Nat) :=
  match (finRange fsMaxfs).foldl (pathfsTry tab pathname.1) (none, 0) with
  | (none, _) => .error .ENOENT
  | (some i, l) => .ok (i, skipSlashes pathname.1 l)

/- Reachable tables -/

inductive Reached : Table → Prop where
  | start : Reached fun _ => Fs.zero
  | mount {tab : Table} (reached : Reached tab) (ans : Answers) (name bdevName : CString) (flags : Nat) :
      Reached (fsMount tab ans name bdevName flags).2
  | umount {tab : Table} (reached : Reached tab) (ans : Answers) (busy : Bool) (name : CString) :
      Reached (fsUmount tab ans busy name).2

structure Distinct (tab : Table) : Prop where
  len : ∀ i, (tab i).inUse = true → (tab i).prefixL = (tab i).mountPrefix.length
  unique : ∀ i j, (tab i).inUse = true → (tab j).inUse = true → (tab i).mountPrefix = (tab j).mountPrefix → i = j

variable {tab : Table} {i : Fin fsMaxfs} {f : Fs}

section
variable (distinct : Distinct tab)
include distinct

theorem Distinct.idle (free : f.inUse = false) : Distinct (setSlot tab i f) := by
  have old : ∀ j, (setSlot tab i f j).inUse = true → setSlot tab i f j = tab j := by
    intro j used
    by_cases eq : j = i
    · rw [eq, setSlot, update_self, free] at used
      cases used
    · rw [setSlot, update_of_ne eq]
  constructor
  · intro j used
    have same := old j used
    rw [same] at used ⊢
    exact distinct.len j used
  · intro j k usedJ usedK same
    have sameJ := old j usedJ
    have sameK := old k usedK
    rw [sameJ] at usedJ same
    rw [sameK] at usedK same
    exact distinct.unique j k usedJ usedK same

theorem Distinct.enter (len : f.prefixL = f.mountPrefix.length)
    (new : ∀ j, (tab j).inUse = true → (tab j).mountPrefix ≠ f.mountPrefix) : Distinct (setSlot tab i f) := by
  constructor
  · intro j used
    by_cases eq : j = i
    · rw [eq, setSlot, update_self]
      exact len
    · rw [setSlot, update_of_ne eq] at used ⊢
      exact distinct.len j used
  · intro j k usedJ usedK same
    by_cases eqJ : j = i <;> by_cases eqK : k = i
    · rw [eqJ, eqK]
    · rw [setSlot, update_of_ne eqK] at usedK same
      rw [eqJ, update_self] at same
      exact absurd same.symm (new k usedK)
    · rw [setSlot, update_of_ne eqJ] at usedJ same
      rw [eqK, update_self] at same
      exact absurd same (new j usedJ)
    · rw [setSlot, update_of_ne eqJ] at usedJ same
      rw [setSlot, update_of_ne eqK] at usedK
      rw [update_of_ne eqK] at same
      exact distinct.unique j k usedJ usedK same

theorem distinct_mount (ans : Answers) (name bdevName : CString) (flags : Nat) :
    Distinct (fsMount tab ans name bdevName flags).2 := by
  unfold fsMount
  split
  · exact distinct
  · rename_i alone
    have new : ∀ j, (tab j).inUse = true → (tab j).mountPrefix ≠ name.1 := by
      intro j used same
      apply alone
      refine ⟨j, ?_⟩
      simp [Fs.collides, used, same]
    split
    · exact distinct
    · dsimp only
      split
      · exact distinct.idle rfl
      · split
        · exact distinct.idle rfl
        · split
          · exact distinct.idle rfl
          · split
            · exact distinct.enter rfl new
            · split
              · exact distinct.idle rfl
              · exact distinct.enter rfl new

theorem distinct_umount (ans : Answers) (busy : Bool) (name : CString) :
    Distinct (fsUmount tab ans busy name).2 := by
  unfold fsUmount
  split
  · exact distinct
  · split
    · exact distinct
    · exact distinct.idle rfl

end

theorem Reached.distinct (reached : Reached tab) : Distinct tab := by
  induction reached with
  | start => exact ⟨nofun, nofun⟩
  | mount _ ans name bdevName flags ih => exact distinct_mount ih ans name bdevName flags
  | umount _ ans busy name ih => exact distinct_umount ih ans busy name

def Under (name path : List Byte) : Prop := path = name ∨ ∃ rest, path = name ++ slash :: rest

variable {path : List Byte}

theorem under_iff (name : List Byte) (noNul : (0 : Byte) ∉ path) : Under name path ↔
    name.length ≤ path.length ∧ name = path.take name.length ∧
      (path.getD name.length 0 = 0 ∨ path.getD name.length 0 = slash) := by
  constructor
  · rintro (rfl | ⟨rest, rfl⟩)
    · refine ⟨le_refl _, (take_length).symm, .inl ?_⟩
      simp
    · refine ⟨by simp, by simp, .inr ?_⟩
      simp
  · rintro ⟨long, starts, next⟩
    have parts : path = name ++ path.drop name.length := by
      conv => lhs; rw [← take_append_drop name.length path, ← starts]
    cases rest : path.drop name.length with
    | nil =>
      left
      rw [parts, rest, append_nil]
    | cons c rest' =>
      have here : path.getD name.length 0 = c := by
        rw [parts, rest]
        simp
      have some : c ≠ 0 := by
        rintro rfl
        apply noNul
        rw [parts, rest]
        simp
      right
      refine ⟨rest', ?_⟩
      have isSlash : c = slash := by
        rcases next with nul | here'
        · exact absurd (here.symm.trans nul) some
        · exact here.symm.trans here'
      rw [isSlash] at rest
      rw [← rest]
      exact parts

def Takes (tab : Table) (path : List Byte) (i : Fin fsMaxfs) : Prop :=
  (tab i).inUse = true ∧ Under (tab i).mountPrefix path

/-- What the loop knows after some slots: none of them takes the path, or the best one of them. -/
def Best (tab : Table) (path : List Byte) (slots : List (Fin fsMaxfs)) : Option (Fin fsMaxfs) × Nat → Prop
  | (none, l) => l = 0 ∧ ∀ j ∈ slots, ¬ Takes tab path j
  | (some i, l) => Takes tab path i ∧ l = (tab i).prefixL ∧ ∀ j ∈ slots, Takes tab path j → (tab j).prefixL ≤ l

theorem Best.skip
    (known : Best tab path slots best) (no : Takes tab path i → (tab i).prefixL < best.2) :
    Best tab path (slots ++ [i]) best := by
  rcases best with ⟨_ | k, l⟩
  · refine ⟨known.1, fun j mem takes => ?_⟩
    rcases mem_append.mp mem with old | new
    · exact known.2 j old takes
    · rw [mem_singleton.mp new] at takes
      have below := no takes
      have zero : l = 0 := known.1
      simp only [zero, Nat.not_lt_zero] at below
  · refine ⟨known.1, known.2.1, fun j mem takes => ?_⟩
    rcases mem_append.mp mem with old | new
    · exact known.2.2 j old takes
    · rw [mem_singleton.mp new] at takes ⊢
      exact le_of_lt (no takes)

theorem best_try (distinct : Distinct tab) (noNul : (0 : Byte) ∉ path)
    (known : Best tab path slots best) : Best tab path (slots ++ [i]) (pathfsTry tab path best i) := by
  unfold pathfsTry
  split
  · rename_i idle
    refine known.skip fun takes => ?_
    rw [takes.1] at idle
    cases idle
  · rename_i used
    have used : (tab i).inUse = true := by simpa using used
    have len := distinct.len i used
    have under := under_iff (tab i).mountPrefix noNul
    rw [← len] at under
    split
    · rename_i short
      refine known.skip fun takes => ?_
      have fits := (under.mp takes.2).1
      omega
    · rename_i fits
      split
      · exact known.skip fun _ => ‹_›
      · rename_i longest
        have whole : (tab i).mountPrefix.take (tab i).prefixL = (tab i).mountPrefix := by
          rw [len, take_length]
        rw [whole]
        split
        · rename_i differs
          exact known.skip fun takes => absurd (under.mp takes.2).2.1 differs
        · rename_i same
          split
          · rename_i goesOn
            refine known.skip fun takes => ?_
            rcases (under.mp takes.2).2.2 with nul | sep
            · exact absurd nul goesOn.1
            · exact absurd sep goesOn.2
          · rename_i ends
            have takes : Takes tab path i := by
              refine ⟨used, under.mpr ⟨by omega, by simpa using same, ?_⟩⟩
              by_cases nul : path.getD (tab i).prefixL 0 = 0
              · exact .inl nul
              · exact .inr (not_not.mp fun other => ends ⟨nul, other⟩)
            refine ⟨takes, rfl, fun j mem other => ?_⟩
            rcases mem_append.mp mem with old | new
            · rcases best with ⟨_ | k, l⟩
              · exact absurd other (known.2 j old)
              · have below := known.2.2 j old other
                dsimp only at longest
                omega
            · rw [mem_singleton.mp new]

theorem best_fold (distinct : Distinct tab) (noNul : (0 : Byte) ∉ path)
    (slots : List (Fin fsMaxfs)) : Best tab path slots (slots.foldl (pathfsTry tab path) (none, 0)) := by
  induction slots using reverseRecOn with
  | nil => exact ⟨rfl, nofun⟩
  | append_singleton slots i ih =>
    rw [foldl_append]
    exact best_try distinct noNul ih

theorem under_unique (noNul : (0 : Byte) ∉ path) (under : Under name path)
    (under' : Under name' path) (len : name'.length = name.length) : name' = name := by
  have starts := ((under_iff _ noNul).mp under).2.1
  have starts' := ((under_iff _ noNul).mp under').2.1
  rw [starts', len, ← starts]

theorem drop_skipSlashes (path : List Byte) (l : Nat) :
    path.drop (skipSlashes path l) = (path.drop l).dropWhile (· = slash) := by
  have parts := takeWhile_append_dropWhile (p := (· = slash)) (l := path.drop l)
  unfold skipSlashes
  rw [← drop_drop]
  nth_rewrite 2 [← parts]
  rw [drop_left]

theorem skipSlashes_parts (under : Under name path) :
    path = name ++ (path.drop name.length).takeWhile (· = slash) ++ path.drop (skipSlashes path name.length) := by
  rw [drop_skipSlashes, append_assoc, takeWhile_append_dropWhile]
  rcases under with rfl | ⟨rest, rfl⟩
  · simp
  · simp

theorem skipSlashes_head (path : List Byte) (l : Nat) : (path.drop (skipSlashes path l)).head? ≠ some slash := by
  rw [drop_skipSlashes]
  intro first
  have stops := head?_dropWhile_not (· = slash) (path.drop l)
  rw [first] at stops
  simp at stops

/-- The chosen file system has the longest of the prefixes that the path is under, and no other one has a
    prefix as long as this. -/
structure Chosen (tab : Table) (path : List Byte) (i : Fin fsMaxfs) (l : Nat) : Prop where
  takes : Takes tab path i
  longest : ∀ j, j ≠ i → Takes tab path j → (tab j).mountPrefix.length < (tab i).mountPrefix.length
  parts : ∃ slashes, (∀ c ∈ slashes, c = slash) ∧ path = (tab i).mountPrefix ++ slashes ++ path.drop l
  bare : (path.drop l).head? ≠ some slash

theorem mount_selected (reached : Reached tab) (path : CString) :
    match fsPathfs tab path with
    | .ok (i, l) => Chosen tab path.1 i l
    | .error e => e = .ENOENT ∧ ∀ j, ¬ Takes tab path.1 j := by
  have distinct := reached.distinct
  have best := best_fold distinct path.2 (finRange fsMaxfs)
  unfold fsPathfs
  revert best
  rcases (finRange fsMaxfs).foldl (pathfsTry tab path.1) (none, 0) with ⟨_ | i, l⟩
  · intro best
    exact ⟨rfl, fun j => best.2 j (mem_finRange j)⟩
  · intro best
    obtain ⟨takes, rfl, longest⟩ := best
    have len := distinct.len i takes.1
    dsimp only
    refine ⟨takes, fun j ne other => ?_, ?_, skipSlashes_head path.1 _⟩
    · have le := longest j (mem_finRange j) other
      rw [len, distinct.len j other.1] at le
      refine lt_of_le_of_ne le fun eq => ne ?_
      exact distinct.unique j i other.1 takes.1 (under_unique path.2 takes.2 other.2 eq)
    · rw [len]
      refine ⟨_, fun c mem => ?_, skipSlashes_parts takes.2⟩
      have all := all_takeWhile (p := (· = slash)) (l := (path.1.drop (tab i).mountPrefix.length))
      simpa using all_eq_true.mp all c mem

def granted : Answers := ⟨none, none, none, none, none, none⟩

def cstr (s : List Byte) (noNul : (0 : Byte) ∉ s := by decide) : CString := ⟨s, noNul⟩

def mounted : Table :=
  let root := (fsMount (fun _ => Fs.zero) granted (cstr []) (cstr [104]) 0).2
  (fsMount root granted (cstr [47, 109, 110, 116]) (cstr [102]) 0).2

theorem mounted_reached : Reached mounted := .mount (.mount .start granted (cstr []) (cstr [104]) 0) granted _ _ 0

/-- `/mntx` belongs to the root. -/
theorem mount_selected_sibling : Chosen mounted [47, 109, 110, 116, 120] 0 1 := by
  have chosen := mount_selected mounted_reached (cstr [47, 109, 110, 116, 120])
  have found : fsPathfs mounted (cstr [47, 109, 110, 116, 120]) = .ok (0, 1) := by rfl
  rw [found] at chosen
  exact chosen

end Vfs
