import Newsys.Lib.Bytes
import Newsys.Kern.Objects

/- The life of a pseudo-terminal (kern/fs/pty/ptyfs.c): a slot of the table is taken when a master is opened,
   and given up with the last of the two objects that share it. The rings and the settings of a terminal
   play no part. -/
namespace Ptylife
open Bytes Cmds Cmd Kern Objects Function List Option

def ptyMax : Nat := 64

abbrev rootIndex : Nat := 1
abbrev ptmIndex : Nat := 3
abbrev ptsIndex : Nat := ptmIndex + ptyMax

structure Pty where
  ptmFso : Option Nat
  ptsFso : Option Nat
  locked : Bool
  deriving DecidableEq

def Pty.zero : Pty := ⟨none, none, false⟩

structure Attr where
  uid : Nat
  gid : Nat
  mode : Nat
  noSeek : Bool

def Attr.zero : Attr := ⟨0, 0, 0, false⟩

abbrev Slots := Nat → Option Pty

abbrev PtyM := ObjM Slots Attr

abbrev State := Sys Slots Attr

def setSlot (i : Nat) (p : Option Pty) (s : State) : State := { s with own := update s.own i p }

def setAttr (o : Nat) (a : Attr) (s : State) : State := setFso o (fun f => { f with data := a }) s

abbrev sIFDIR : Nat := 0o30000
abbrev sIFCHR : Nat := 0o20000

def isPtm (index : Nat) : Prop := ptmIndex ≤ index ∧ index < ptmIndex + ptyMax

def isPts (index : Nat) : Prop := ptsIndex ≤ index ∧ index < ptsIndex + ptyMax

instance (index : Nat) : Decidable (isPtm index) := inferInstanceAs (Decidable (_ ∧ _))

instance (index : Nat) : Decidable (isPts index) := inferInstanceAs (Decidable (_ ∧ _))

structure Cred where
  euid : Nat
  egid : Nat

def ptyGetfso (curr : Cred) (o : Nat) : PtyM Unit := do
  let s ← get
  let index := (s.fso o).index
  if index = rootIndex then modify (setAttr o ⟨0, 0, sIFDIR ||| 0o755, false⟩)
  else if isPtm index then
    match s.own (index - ptmIndex) with
    | none => crash
    | some p =>
      modify (setSlot (index - ptmIndex) (some { p with ptmFso := some o, locked := true }))
      modify (setAttr o ⟨curr.euid, curr.egid, sIFCHR ||| 0o600, true⟩)
  else if isPts index then
    match s.own (index - ptsIndex) with
    | none => crash
    | some p =>
      modify (setSlot (index - ptsIndex) (some { p with ptsFso := some o }))
      match p.ptmFso with
      | none => crash
      | some m => modify (setAttr o ⟨(s.fso m).data.uid, (s.fso m).data.gid, sIFCHR ||| 0o600, true⟩)
  else fail .EINVAL

def ptyPutfso (o : Nat) : PtyM Unit := do
  let s ← get
  let index := (s.fso o).index
  if isPtm index then
    match s.own (index - ptmIndex) with
    | none => crash
    | some p =>
      if p.ptsFso.isSome then modify (setSlot (index - ptmIndex) (some { p with ptmFso := none }))
      else modify (setSlot (index - ptmIndex) none)
  else if isPts index then
    match s.own (index - ptsIndex) with
    | none => crash
    | some p =>
      if p.ptmFso.isSome then modify (setSlot (index - ptsIndex) (some { p with ptsFso := none }))
      else modify (setSlot (index - ptsIndex) none)
  else pure ()

structure Memory where
  kmalloc : Option Errno
  atmem : Option Errno

abbrev ptyFs : Nat := 0

def getfso (curr : Cred) (mem : Memory) (index : Nat) : PtyM Nat :=
  fsGetfso (ptyGetfso curr) Attr.zero ptyFs index mem.atmem

def isDigit (ch : Byte) : Bool := 48 ≤ ch.toNat && ch.toNat ≤ 57

def digit (ch : Byte) : Nat := ch.toNat - 48

inductive Name where
  | root
  | ptmx
  | pts (i : Nat)
  | other

def parseName : List Byte → Name
  | [] => .root
  | [112, 116, 109, 120] => .ptmx
  | [112, 116, 115, a, b, c] =>
    if isDigit a && isDigit b && isDigit c then .pts (digit a * 100 + digit b * 10 + digit c) else .other
  | _ => .other

def ptyLookup (curr : Cred) (mem : Memory) (name : List Byte) : PtyM Nat := do
  match parseName name with
  | .root => getfso curr mem rootIndex
  | .ptmx =>
    let s ← get
    match (range ptyMax).find? fun i => (s.own i).isNone with
    | none => fail .ENOMEM
    | some i =>
      match mem.kmalloc with
      | some e => fail e
      | none => do
        modify (setSlot i (some Pty.zero))
        getfso curr mem (ptmIndex + i)
  | .pts i =>
    if ptyMax ≤ i then fail .ENOENT
    else do
      let s ← get
      match s.own i with
      | none => fail .ENOENT
      | some p => if p.locked then fail .EPERM else getfso curr mem (ptsIndex + i)
  | .other => fail .ENOENT

def close (o : Nat) : PtyM Unit := fsPutfso ptyPutfso o

/-- `sys_open`: the object that the lookup finds is given back when a later check fails. -/
def sysOpen (curr : Cred) (mem : Memory) (name : List Byte) (check : Option Errno) : PtyM Nat := do
  let o ← ptyLookup curr mem name
  match check with
  | none => pure o
  | some e => do
    close o
    fail e

def ptyUnlock (o : Nat) : PtyM Unit := do
  let s ← get
  match s.own ((s.fso o).index - ptmIndex) with
  | none => crash
  | some p => modify (setSlot ((s.fso o).index - ptmIndex) (some { p with locked := false }))

def Live (s : State) (o index : Nat) : Prop :=
  (s.fso o).refcnt ≠ 0 ∧ (s.fso o).fs = ptyFs ∧ (s.fso o).index = index

inductive Act where
  | open (curr : Cred) (mem : Memory) (name : List Byte) (check : Option Errno)
  | close (o : Nat)
  | unlock (o : Nat)

def run : Act → PtyM Unit
  | .open curr mem name check => do
    let _ ← sysOpen curr mem name check
    pure ()
  | .close o => Ptylife.close o
  | .unlock o => ptyUnlock o

/-- An object that is closed is in use, and so is the master that is unlocked. -/
def Act.Allowed (s : State) : Act → Prop
  | .open .. => True
  | .close o => ∃ index, Live s o index
  | .unlock o => ∃ index, Live s o index ∧ isPtm index

/-- What other file systems do with the table: their own objects come and go. -/
structure Foreign (s s' : State) : Prop where
  own : s'.own = s.own
  grows : s.fsoHigh ≤ s'.fsoHigh
  tabled : Tabled s'
  keeps : ∀ o, (s.fso o).refcnt ≠ 0 → (s.fso o).fs = ptyFs → s'.fso o = s.fso o
  adds : ∀ o, (s'.fso o).refcnt ≠ 0 → (s'.fso o).fs = ptyFs → s'.fso o = s.fso o

def start : State := ⟨fun _ => ⟨0, 0, 0, Attr.zero⟩, 0, fun _ => none⟩

inductive Reached (fits : State → Act → Prop) : State → Prop where
  | start : Reached fits start
  | act {s : State} (reached : Reached fits s) (a : Act) (allowed : a.Allowed s) (fit : fits s a) :
      Reached fits (run a s).2
  | foreign {s s' : State} (reached : Reached fits s) (foreign : Foreign s s') : Reached fits s'

def Strands (s : State) (mem : Memory) (name : List Byte) : Prop :=
  parseName name = .ptmx ∧ (∃ i < ptyMax, s.own i = none) ∧ mem.kmalloc = none ∧ Full s mem.atmem

def Leaks (s : State) : Act → Prop
  | .open _ mem name _ => Strands s mem name
  | _ => False

inductive Side where
  | ptm
  | pts
  deriving DecidableEq

def Side.index (i : Nat) : Side → Nat
  | .ptm => ptmIndex + i
  | .pts => ptsIndex + i

def Pty.fso (p : Pty) : Side → Option Nat
  | .ptm => p.ptmFso
  | .pts => p.ptsFso

/-- A terminal and its objects point at each other, and there is no terminal without an object. -/
structure Lifetime (s : State) : Prop where
  ends : ∀ side, ∀ i < ptyMax, ∀ o, (∃ p, s.own i = some p ∧ p.fso side = some o) ↔ Live s o (side.index i)
  shared : ∀ i p, s.own i = some p → i < ptyMax ∧ ∃ side, (p.fso side).isSome

/-- What one call does: it uses no terminal that is not there, and an open that fails changes no slot. -/
def Kept (s : State) (a : Act) : Prop :=
  (run a s).1 ≠ .crash ∧ Lifetime (run a s).2 ∧
    ∀ curr mem name check, a = .open curr mem name check → ∀ e, (run a s).1 = .err e → (run a s).2.own = s.own

variable {s t : State} {o i j index : Nat} {side side' : Side}

theorem index_inj (lt : i < ptyMax) (lt' : j < ptyMax) : side.index i = side'.index j ↔ side = side' ∧ i = j := by
  cases side <;> cases side' <;> simp only [Side.index, ptsIndex, ptmIndex, ptyMax] at * <;> simp <;> omega

theorem index_small (lt : i < ptyMax) : side.index i < noIndex := by
  cases side <;> simp only [Side.index, ptsIndex, ptmIndex, ptyMax, noIndex] at * <;> omega

theorem isOpen_iff (small : index < noIndex) : isOpen ptyFs index (s.fso o) = true ↔ Live s o index := by
  have ne : index ≠ noIndex := ne_of_lt small
  simp only [isOpen, Live, ne, Bool.and_eq_true, decide_eq_true_eq, ne_eq, not_false_eq_true, and_true]
  tauto

theorem Live.tabled (live : Live s o index) (tabled : Tabled s) : o < s.fsoHigh := by
  by_contra past
  exact live.1 (tabled o (by omega))

theorem Live.unique (life : Lifetime s) (lt : i < ptyMax) (live : Live s o (side.index i))
    (live' : Live s o' (side.index i)) : o' = o := by
  obtain ⟨p, here, points⟩ := (life.ends side i lt o).mpr live
  obtain ⟨p', here', points'⟩ := (life.ends side i lt o').mpr live'
  rw [here] at here'
  cases here'
  rw [points] at points'
  exact (some.inj points').symm

theorem Lifetime.turn (life : Lifetime s) (lt : i < ptyMax) (own : t.own = update s.own i q)
    (others : ∀ o (side : Side) j, j < ptyMax → j ≠ i → (Live t o (side.index j) ↔ Live s o (side.index j)))
    (ends : ∀ side o, (∃ p, q = some p ∧ p.fso side = some o) ↔ Live t o (side.index i))
    (shared : ∀ p, q = some p → ∃ side, (p.fso side).isSome) : Lifetime t := by
  constructor
  · intro side j small o
    by_cases eq : j = i
    · rw [eq, own, update_self]
      exact ends side o
    · rw [own, update_of_ne eq, others o side j small eq]
      exact life.ends side j small o
  · intro j p here
    by_cases eq : j = i
    · rw [eq, own, update_self] at here
      rw [eq]
      exact ⟨lt, shared p here⟩
    · rw [own, update_of_ne eq] at here
      exact life.shared j p here

theorem Lifetime.congr (life : Lifetime s) (own : t.own = s.own)
    (live : ∀ o (side : Side) j, j < ptyMax → (Live t o (side.index j) ↔ Live s o (side.index j))) : Lifetime t := by
  constructor
  · intro side j small o
    rw [own, live o side j small]
    exact life.ends side j small o
  · intro j p here
    rw [own] at here
    exact life.shared j p here

theorem live_recount (was : (s.fso o).refcnt ≠ 0) (is : n ≠ 0) (o' index : Nat) :
    Live (setFso o (fun f => { f with refcnt := n }) s) o' index ↔ Live s o' index := by
  unfold Live
  by_cases eq : o' = o
  · rw [eq, setFso_same]
    simp [was, is]
  · rw [setFso_ne _ eq]

theorem live_gone (o' index : Nat) :
    Live (setFso o (fun f => { f with refcnt := 0 }) s) o' index ↔ Live s o' index ∧ o' ≠ o := by
  unfold Live
  by_cases eq : o' = o
  · simp [eq]
  · rw [setFso_ne _ eq]
    simp [eq]

theorem tabled_setFso (tabled : Tabled s) (inside : o < s.fsoHigh) : Tabled (setFso o g s) := by
  intro o' past
  rw [setFso_fsoHigh] at past
  rw [setFso_ne _ (by omega)]
  exact tabled o' past

def leave (p : Pty) : Side → Option Pty
  | .ptm => if p.ptsFso.isSome then some { p with ptmFso := none } else none
  | .pts => if p.ptmFso.isSome then some { p with ptsFso := none } else none

variable {p : Pty}

theorem leave_fso (o : Nat) : (∃ q, leave p side = some q ∧ q.fso side' = some o) ↔
    side' ≠ side ∧ p.fso side' = some o := by
  cases side <;> cases side' <;> simp only [leave, Pty.fso]
  · split <;> simp
  · cases p.ptsFso <;> simp
  · cases p.ptmFso <;> simp
  · split <;> simp

theorem leave_shared (left : leave p side = some q) : ∃ side', (q.fso side').isSome := by
  cases side <;> simp only [leave] at left <;> split at left <;> cases left
  · exact ⟨.pts, ‹_›⟩
  · exact ⟨.ptm, ‹_›⟩

theorem wp_ptyPutfso (lt : i < ptyMax) (index : (s.fso o).index = side.index i) (here : s.own i = some p)
    (done : Q (.ok ()) (setSlot i (leave p side) s)) : wp (ptyPutfso o) Q s := by
  simp only [ptyPutfso, wp_bind, wp_get, after_ok, index]
  cases side with
  | ptm =>
    have ptm : isPtm (Side.ptm.index i) := ⟨Nat.le_add_right _ _, Nat.add_lt_add_left lt _⟩
    have slot : Side.ptm.index i - ptmIndex = i := Nat.add_sub_cancel_left _ _
    rw [if_pos ptm, slot, here]
    dsimp only
    simp only [leave] at done
    split
    · rename_i two
      rw [if_pos two] at done
      exact done
    · rename_i alone
      rw [if_neg alone] at done
      exact done
  | pts =>
    have ptm : ¬ isPtm (Side.pts.index i) := by
      simp only [isPtm, Side.index, ptsIndex]
      omega
    have pts : isPts (Side.pts.index i) := ⟨Nat.le_add_right _ _, Nat.add_lt_add_left lt _⟩
    have slot : Side.pts.index i - ptsIndex = i := Nat.add_sub_cancel_left _ _
    rw [if_neg ptm, if_pos pts, slot, here]
    dsimp only
    simp only [leave] at done
    split
    · rename_i two
      rw [if_pos two] at done
      exact done
    · rename_i alone
      rw [if_neg alone] at done
      exact done

theorem wp_ptyPutfso_other (index : ∀ side : Side, ∀ i < ptyMax, (s.fso o).index ≠ side.index i)
    (done : Q (.ok ()) s) : wp (ptyPutfso o) Q s := by
  have ptm : ¬ isPtm (s.fso o).index := by
    intro ptm
    refine index .ptm ((s.fso o).index - ptmIndex) ?_ ?_
    · unfold isPtm at ptm
      omega
    · unfold isPtm at ptm
      simp only [Side.index]
      omega
  have pts : ¬ isPts (s.fso o).index := by
    intro pts
    refine index .pts ((s.fso o).index - ptsIndex) ?_ ?_
    · unfold isPts at pts
      omega
    · unfold isPts at pts
      simp only [Side.index]
      omega
  simp only [ptyPutfso, wp_bind, wp_get, after_ok, if_neg ptm, if_neg pts]
  exact done

theorem lifetime_leave (life : Lifetime s) (lt : i < ptyMax) (here : s.own i = some p)
    (live : Live s o (side.index i)) (own : t.own = update s.own i (leave p side))
    (alive : ∀ o' index, Live t o' index ↔ Live s o' index ∧ o' ≠ o) : Lifetime t := by
  refine life.turn lt own ?_ ?_ ?_
  · intro o' side' j small ne
    rw [alive]
    refine ⟨And.left, fun live' => ⟨live', fun same => ne ?_⟩⟩
    have eq : side.index i = side'.index j := by rw [← live.2.2, ← live'.2.2, same]
    exact ((index_inj lt small).mp eq).2.symm
  · intro side' o'
    rw [leave_fso, alive, ← life.ends side' i lt o', here]
    constructor
    · rintro ⟨ne, points⟩
      refine ⟨⟨p, rfl, points⟩, fun same => ne ?_⟩
      have live' := (life.ends side' i lt o').mp ⟨p, here, points⟩
      have eq : side'.index i = side.index i := by rw [← live.2.2, ← live'.2.2, same]
      exact ((index_inj lt lt).mp eq).1
    · rintro ⟨⟨p', here', points⟩, ne⟩
      cases here'
      refine ⟨fun same => ne ?_, points⟩
      rw [same] at points
      exact live.unique life lt ((life.ends side i lt o').mp ⟨p, here, points⟩)
  · intro q left
    exact leave_shared left

theorem wp_close (life : Lifetime s) (tabled : Tabled s) (live : Live s o index) :
    wp (close o) (fun r t => r = .ok () ∧ Lifetime t ∧ Tabled t) s := by
  have inside := live.tabled tabled
  apply wp_fsPutfso live.1
  · intro more
    refine ⟨rfl, life.congr rfl fun o' side j _ => ?_, tabled_setFso tabled inside⟩
    exact live_recount live.1 (by have := live.1; omega) o' _
  · intro one
    have drop : ∀ {u : State}, u.fso = s.fso → u.fsoHigh = s.fsoHigh → Tabled (setFso o (fun f =>
        { f with refcnt := f.refcnt - 1 }) u) ∧ ∀ o' index', Live (setFso o (fun f =>
        { f with refcnt := f.refcnt - 1 }) u) o' index' ↔ Live s o' index' ∧ o' ≠ o := by
      intro u fso high
      have zero : setFso o (fun f => { f with refcnt := f.refcnt - 1 }) u =
          setFso o (fun f => { f with refcnt := 0 }) u := by
        simp only [setFso, fso, one, sub_self]
      have same : ∀ o' index', Live u o' index' ↔ Live s o' index' := by
        intro o' index'
        simp only [Live, fso]
      constructor
      · refine tabled_setFso (fun o' past => ?_) (by rw [high]; exact inside)
        rw [fso]
        exact tabled o' (by rw [← high]; exact past)
      · intro o' index'
        rw [zero, live_gone, same]
    by_cases mine : ∃ side : Side, ∃ i < ptyMax, (s.fso o).index = side.index i
    · obtain ⟨side, i, lt, eq⟩ := mine
      have live : Live s o (side.index i) := by
        rw [← eq, live.2.2]
        exact live
      obtain ⟨p, here, -⟩ := (life.ends side i lt o).mpr live
      apply wp_ptyPutfso lt eq here
      obtain ⟨tabled', alive⟩ := drop (u := setSlot i (leave p side) s) rfl rfl
      exact ⟨rfl, lifetime_leave life lt here live rfl alive, tabled'⟩
    · apply wp_ptyPutfso_other fun side i lt eq => mine ⟨side, i, lt, eq⟩
      obtain ⟨tabled', alive⟩ := drop (u := s) rfl rfl
      refine ⟨rfl, life.congr rfl fun o' side j small => ?_, tabled'⟩
      rw [alive]
      refine ⟨And.left, fun live' => ⟨live', fun same => mine ⟨side, j, small, ?_⟩⟩⟩
      rw [← same, live'.2.2]

def enter (p : Pty) (o : Nat) : Side → Pty
  | .ptm => { p with ptmFso := some o, locked := true }
  | .pts => { p with ptsFso := some o }

theorem enter_fso : (enter p o side).fso side' = some o' ↔
    side' = side ∧ o' = o ∨ side' ≠ side ∧ p.fso side' = some o' := by
  cases side <;> cases side' <;> simp [enter, Pty.fso, eq_comm]

variable {curr : Cred}

theorem wp_ptyGetfso (lt : i < ptyMax) (index : (s.fso o).index = side.index i)
    (here : s.own i = some p) (ready : side = .pts → p.ptmFso.isSome)
    (done : ∀ a, Q (.ok ()) (setAttr o a (setSlot i (some (enter p o side)) s))) : wp (ptyGetfso curr o) Q s := by
  have notRoot : side.index i ≠ rootIndex := by
    cases side <;> simp only [Side.index, ptsIndex, ptmIndex, rootIndex] <;> omega
  simp only [ptyGetfso, wp_bind, wp_get, after_ok, index, if_neg notRoot]
  cases side with
  | ptm =>
    have ptm : isPtm (Side.ptm.index i) := ⟨Nat.le_add_right _ _, Nat.add_lt_add_left lt _⟩
    have slot : Side.ptm.index i - ptmIndex = i := Nat.add_sub_cancel_left _ _
    rw [if_pos ptm, slot, here]
    exact done _
  | pts =>
    have ptm : ¬ isPtm (Side.pts.index i) := by
      simp only [isPtm, Side.index, ptsIndex]
      omega
    have pts : isPts (Side.pts.index i) := ⟨Nat.le_add_right _ _, Nat.add_lt_add_left lt _⟩
    have slot : Side.pts.index i - ptsIndex = i := Nat.add_sub_cancel_left _ _
    rw [if_neg ptm, if_pos pts, slot, here]
    rcases p with ⟨_ | m, other, locked⟩
    · cases ready rfl
    · exact done _

structure Entered (s t : State) (o i : Nat) (side : Side) : Prop where
  free : (s.fso o).refcnt = 0
  alone : ∀ o', ¬ Live s o' (side.index i)
  one : (t.fso o).refcnt = 1
  live : Live t o (side.index i)
  elsewhere : ∀ o', o' ≠ o → t.fso o' = s.fso o'
  tabled : Tabled t

theorem Entered.alive (entered : Entered s t o i side) (o' index : Nat) :
    Live t o' index ↔ Live s o' index ∨ o' = o ∧ index = side.index i := by
  by_cases eq : o' = o
  · rw [eq]
    constructor
    · intro live
      right
      rw [← live.2.2, entered.live.2.2]
      exact ⟨rfl, rfl⟩
    · rintro (old | ⟨-, rfl⟩)
      · exact absurd entered.free old.1
      · exact entered.live
  · simp only [Live, entered.elsewhere o' eq, eq, false_and, or_false]

theorem lifetime_enter (life : Lifetime s) (lt : i < ptyMax) (entered : Entered s t o i side)
    (own : t.own = update s.own i (some (enter p o side)))
    (agree : ∀ side', side' ≠ side → ∀ o', p.fso side' = some o' ↔ Live s o' (side'.index i)) : Lifetime t := by
  refine life.turn lt own ?_ ?_ ?_
  · intro o' side' j small ne
    rw [entered.alive]
    refine ⟨fun live => live.elim id fun new => ?_, .inl⟩
    exact absurd ((index_inj small lt).mp new.2).2 ne
  · intro side' o'
    simp only [some.injEq, exists_eq_left', enter_fso, entered.alive, index_inj lt lt, and_true]
    by_cases same : side' = side
    · rw [same]
      simp [entered.alone]
    · simp [same, agree side' same]
  · rintro q ⟨⟩
    exact ⟨side, isSome_iff_exists.mpr ⟨o, enter_fso.mpr (.inl ⟨rfl, rfl⟩)⟩⟩

variable {mem : Memory} {Q : Res Errno Nat → State → Prop}

theorem wp_getfso (fso : u.fso = s.fso) (high : u.fsoHigh = s.fsoHigh) (tabled : Tabled s)
    (lt : i < ptyMax) (here : u.own i = some p)
    (ready : (∀ o', ¬ Live s o' (side.index i)) → side = .pts → p.ptmFso.isSome)
    (shared : ∀ o, Live s o (side.index i) → Q (.ok o) (setFso o (fun f => { f with refcnt := f.refcnt + 1 }) u))
    (full : ∀ e, Full s mem.atmem → Q (.err e) u) (new : ∀ o t, ¬ Full s mem.atmem → Entered s t o i side →
      t.own = update u.own i (some (enter p o side)) → Q (.ok o) t) :
    wp (getfso curr mem (side.index i)) Q u := by
  have small : side.index i < noIndex := index_small lt
  have same : ∀ o', isOpen ptyFs (side.index i) (u.fso o') = true ↔ Live s o' (side.index i) := by
    intro o'
    rw [fso]
    exact isOpen_iff small
  have filled : Full u mem.atmem ↔ Full s mem.atmem := by
    simp only [Full, fso, high]
  apply wp_fsGetfso
  · intro o isOpen
    exact shared o ((same o).mp isOpen)
  · intro e no
    exact full e (filled.mp no)
  · intro o room free closed
    have alone : ∀ o', ¬ Live s o' (side.index i) := by
      intro o' live
      have no := closed o' (by rw [high]; exact live.tabled tabled)
      rw [(same o').mpr live] at no
      cases no
    have unused : (s.fso o).refcnt = 0 := by
      by_cases inside : o < u.fsoHigh
      · rw [← fso]
        exact free inside
      · exact tabled o (by omega)
    have index : ((claim u o ptyFs (side.index i) Attr.zero).fso o).index = side.index i := by simp [claim]
    refine wp_ptyGetfso lt index here (ready alone) ?_
    · intro a
      refine new o _ (fun no => room (filled.mpr no)) ⟨unused, alone, ?_, ?_, ?_, ?_⟩ rfl
      · simp [setAttr, setSlot, claim, setFso]
      · simp [Live, setAttr, setSlot, claim, setFso]
      · intro o' ne
        simp only [setAttr, setFso_ne _ ne, setSlot, claim]
        rw [fso]
      · intro o' past
        simp only [setAttr, setSlot, claim, setFso_fsoHigh] at past
        have ne : o' ≠ o := by omega
        simp only [setAttr, setFso_ne _ ne, setSlot, claim]
        rw [fso]
        exact tabled o' (by omega)

inductive Opened (s t : State) (o : Nat) : Prop where
  | shared (own : t.own = s.own) (more : (t.fso o).refcnt ≠ 1)
  | root (own : t.own = s.own) (index : (t.fso o).index = rootIndex)
  | new (i : Nat) (side : Side) (p : Pty) (lt : i < ptyMax) (one : (t.fso o).refcnt = 1)
      (index : (t.fso o).index = side.index i) (was : leave (enter p o side) side = s.own i)
      (own : t.own = update s.own i (some (enter p o side)))

theorem index_ne_root (side : Side) (i : Nat) : side.index i ≠ rootIndex := by
  cases side <;> simp only [Side.index, ptsIndex, ptmIndex, rootIndex] <;> omega

theorem wp_close_opened (opened : Opened s t o) (ref : (t.fso o).refcnt ≠ 0) :
    wp (close o) (fun _ u => u.own = s.own) t := by
  apply wp_fsPutfso ref
  · intro more
    cases opened with
    | shared own _ => exact own
    | root own _ => exact own
    | new _ _ _ _ one _ _ _ => exact absurd one more
  · intro one
    cases opened with
    | shared own more => exact absurd one more
    | root own index =>
      apply wp_ptyPutfso_other
      · intro side i _ eq
        exact index_ne_root side i (eq.symm.trans index)
      · exact own
    | new i side p lt _ index was own =>
      have here : t.own i = some (enter p o side) := by rw [own, update_self]
      apply wp_ptyPutfso lt index here
      show update t.own i (leave (enter p o side) side) = s.own
      rw [own, was, update_idem, update_eq_self]

theorem wp_getfso_root (life : Lifetime s) (tabled : Tabled s)
    (ok : ∀ o t, Lifetime t → Tabled t → (∃ index, Live t o index) → Opened s t o → Q (.ok o) t)
    (err : ∀ e, Q (.err e) s) : wp (getfso curr mem rootIndex) Q s := by
  have small : rootIndex < noIndex := by decide
  apply wp_fsGetfso
  · intro o isOpen
    have live := (isOpen_iff small).mp isOpen
    refine ok o _ (life.congr rfl fun o' side j _ => ?_) (tabled_setFso tabled (live.tabled tabled)) ?_ ?_
    · exact live_recount live.1 (Nat.succ_ne_zero _) o' _
    · exact ⟨rootIndex, (live_recount live.1 (Nat.succ_ne_zero _) o _).mpr live⟩
    · exact .root rfl (by rw [setFso_same]; exact live.2.2)
  · intro e _
    exact err e
  · intro o room free closed
    have unused : (s.fso o).refcnt = 0 := by
      by_cases inside : o < s.fsoHigh
      · exact free inside
      · exact tabled o (by omega)
    have index : ((claim s o ptyFs rootIndex Attr.zero).fso o).index = rootIndex := by simp [claim]
    simp only [ptyGetfso, wp_bind, wp_get, after_ok, index, if_true, wp_modify]
    refine ok o _ (life.congr rfl fun o' side j _ => ?_) ?_ ⟨rootIndex, ?_⟩ (.root rfl ?_)
    · unfold Live
      by_cases eq : o' = o
      · rw [eq]
        simp [setAttr, claim, unused, (index_ne_root side j).symm]
      · simp only [setAttr, claim, setFso_ne _ eq]
    · intro o' past
      simp only [setAttr, claim, setFso_fsoHigh] at past
      have ne : o' ≠ o := by omega
      simp only [setAttr, claim, setFso_ne _ ne]
      exact tabled o' (by omega)
    · simp [Live, setAttr, claim]
    · simp [setAttr, claim]

section Objects
variable (life : Lifetime s) (tabled : Tabled s)
include life tabled

/-- The master of a slot that has just been taken. -/
theorem wp_getfso_ptm (lt : i < ptyMax) (free : s.own i = none)
    (ok : ∀ o t, ¬ Full s mem.atmem → Lifetime t → Tabled t → (∃ index, Live t o index) → Opened s t o → Q (.ok o) t)
    (full : ∀ e, Full s mem.atmem → Q (.err e) (setSlot i (some Pty.zero) s)) :
    wp (getfso curr mem (Side.ptm.index i)) Q (setSlot i (some Pty.zero) s) := by
  have noLive : ∀ side o', ¬ Live s o' (Side.index i side) := by
    intro side o' live
    obtain ⟨p, here, -⟩ := (life.ends side i lt o').mpr live
    rw [free] at here
    cases here
  have here : (setSlot i (some Pty.zero) s).own i = some Pty.zero := update_self ..
  refine wp_getfso (s := s) (u := setSlot i (some Pty.zero) s) (i := i) (p := Pty.zero) rfl rfl tabled lt here ?_ ?_ full ?_
  · rintro - ⟨⟩
  · intro o live
    exact absurd live (noLive .ptm o)
  · intro o t room entered own
    have own' : t.own = update s.own i (some (enter Pty.zero o .ptm)) := by
      rw [own]
      exact update_idem ..
    refine ok o t room ?_ entered.tabled ⟨_, entered.live⟩ ?_
    · refine lifetime_enter life lt entered own' fun side' _ o' => ?_
      constructor
      · intro points
        cases side' <;> cases points
      · intro live
        exact absurd live (noLive side' o')
    · exact .new i .ptm Pty.zero lt entered.one entered.live.2.2 free.symm own'

/-- The slave of a terminal that is there. -/
theorem wp_getfso_pts (lt : i < ptyMax) (here : s.own i = some p)
    (ok : ∀ o t, Lifetime t → Tabled t → (∃ index, Live t o index) → Opened s t o → Q (.ok o) t)
    (err : ∀ e, Q (.err e) s) : wp (getfso curr mem (Side.pts.index i)) Q s := by
  have alone : (∀ o', ¬ Live s o' (Side.pts.index i)) → p.ptsFso = none := by
    intro none'
    cases points : p.ptsFso with
    | none => rfl
    | some o' => exact absurd ((life.ends .pts i lt o').mp ⟨p, here, points⟩) (none' o')
  have ready : (∀ o', ¬ Live s o' (Side.pts.index i)) → p.ptmFso.isSome := by
    intro none'
    obtain ⟨side, some⟩ := (life.shared i p here).2
    cases side with
    | ptm => exact some
    | pts =>
      rw [Pty.fso, alone none'] at some
      cases some
  refine wp_getfso (s := s) (i := i) (p := p) rfl rfl tabled lt here (fun none' _ => ready none') ?_ (fun e _ => err e) ?_
  · intro o live
    refine ok o _ (life.congr rfl fun o' side j _ => ?_)
      (tabled_setFso tabled (live.tabled tabled)) ⟨Side.pts.index i, ?_⟩ (.shared rfl ?_)
    · exact live_recount live.1 (Nat.succ_ne_zero _) o' _
    · exact (live_recount live.1 (Nat.succ_ne_zero _) o _).mpr live
    · rw [setFso_same]
      have := live.1
      show (s.fso o).refcnt + 1 ≠ 1
      omega
  · intro o t room entered own
    refine ok o t ?_ entered.tabled ⟨_, entered.live⟩ ?_
    · refine lifetime_enter life lt entered own fun side' ne o' => ?_
      rw [← life.ends side' i lt o', here]
      simp
    · refine .new i .pts p lt entered.one entered.live.2.2 ?_ own
      have only := alone entered.alone
      have other := ready entered.alone
      rw [here]
      rcases p with ⟨_ | m, pts, locked⟩
      · cases other
      · cases only
        rfl

/-- The object that a name leads to, or the reason why there is none; the slot of a master that got no
    object stays taken. -/
theorem wp_ptyLookup
    (ok : ∀ o t, ¬ Strands s mem name → Lifetime t → Tabled t → (∃ index, Live t o index) →
      Opened s t o → Q (.ok o) t) (err : ∀ e, ¬ Strands s mem name → Q (.err e) s)
    (leak : ∀ e i, Strands s mem name → s.own i = none → Q (.err e) (setSlot i (some Pty.zero) s)) :
    wp (ptyLookup curr mem name) Q s := by
  have safe : parseName name ≠ .ptmx → ¬ Strands s mem name := fun ne strands => ne strands.1
  unfold ptyLookup
  cases kind : parseName name with
  | root =>
    rw [kind] at safe
    exact wp_getfso_root life tabled (fun o t => ok o t (safe nofun)) fun e => err e (safe nofun)
  | other =>
    rw [kind] at safe
    exact err _ (safe nofun)
  | ptmx =>
    simp only [wp_bind, wp_get, after_ok]
    cases found : (range ptyMax).find? fun i => (s.own i).isNone with
    | none =>
      have taken : ∀ i < ptyMax, s.own i ≠ none := by simpa using find?_eq_none.mp found
      refine err _ ?_
      rintro ⟨-, ⟨i, lt, free⟩, -⟩
      exact taken i lt free
    | some i =>
      have free : s.own i = none := by simpa using find?_some found
      have lt : i < ptyMax := by simpa using mem_of_find?_eq_some found
      cases memory : mem.kmalloc with
      | some e =>
        refine err _ ?_
        rintro ⟨-, -, some, -⟩
        rw [memory] at some
        cases some
      | none =>
        simp only [wp_bind, wp_modify, after_ok]
        apply wp_getfso_ptm life tabled lt free
        · exact fun o t room => ok o t fun strands => room strands.2.2.2
        · exact fun e no => leak e i ⟨kind, ⟨i, lt, free⟩, memory, no⟩ free
  | pts i =>
    rw [kind] at safe
    replace safe := safe nofun
    dsimp only
    split
    · exact err _ safe
    · rename_i small
      simp only [wp_bind, wp_get, after_ok]
      cases here : s.own i with
      | none => exact err _ safe
      | some p =>
        dsimp only
        split
        · exact err _ safe
        · exact wp_getfso_pts life tabled (Nat.lt_of_not_le small) here (fun o t => ok o t safe) fun e => err e safe

end Objects

theorem wp_sysOpen (life : Lifetime s) (tabled : Tabled s)
    (ok : ∀ o t, ¬ Strands s mem name → Lifetime t → Tabled t → Q (.ok o) t)
    (err : ∀ e t, ¬ Strands s mem name → Lifetime t → Tabled t → t.own = s.own → Q (.err e) t)
    (leak : ∀ e i, Strands s mem name → s.own i = none → Q (.err e) (setSlot i (some Pty.zero) s)) :
    wp (sysOpen curr mem name check) Q s := by
  unfold sysOpen
  rw [wp_bind]
  apply wp_ptyLookup life tabled
  · intro o t kept life' tabled' ⟨index, live⟩ opened
    rw [after_ok]
    cases check with
    | none => exact ok o t kept life' tabled'
    | some e =>
      simp only [wp_bind]
      obtain ⟨done, life'', tabled''⟩ := wp_close life' tabled' live
      have own := wp_close_opened opened live.1
      unfold wp at own ⊢
      rw [done]
      exact err e _ kept life'' tabled'' own
  · intro e kept
    exact err e s kept life tabled rfl
  · exact leak

theorem kept_step (life : Lifetime s) (tabled : Tabled s) (a : Act) (allowed : a.Allowed s) :
    (¬ Leaks s a → Kept s a ∧ Tabled (run a s).2) ∧ (Leaks s a → ¬ Kept s a) := by
  cases a with
  | close o =>
    obtain ⟨index, live⟩ := allowed
    obtain ⟨done, life', tabled'⟩ := wp_close life tabled live
    refine ⟨fun _ => ⟨⟨?_, life', fun _ _ _ _ eq => (by cases eq)⟩, tabled'⟩, fun leaks => leaks.elim⟩
    show ((close o) s).1 ≠ .crash
    rw [done]
    nofun
  | unlock o =>
    obtain ⟨index, live, ptm⟩ := allowed
    have lt : index - ptmIndex < ptyMax := by
      unfold isPtm at ptm
      omega
    have eq : index = Side.ptm.index (index - ptmIndex) := by
      unfold isPtm at ptm
      simp only [Side.index]
      omega
    obtain ⟨p, here, points⟩ := (life.ends .ptm (index - ptmIndex) lt o).mpr (by rw [← eq]; exact live)
    have post : wp (ptyUnlock o) (fun r t => r = .ok () ∧
        t = setSlot (index - ptmIndex) (some { p with locked := false }) s) s := by
      simp only [ptyUnlock, wp_bind, wp_get, after_ok, live.2.2, here, wp_modify, and_self]
    obtain ⟨done, after⟩ := post
    have own : (run (.unlock o) s).2 = setSlot (index - ptmIndex) (some { p with locked := false }) s := after
    refine ⟨fun _ => ⟨⟨?_, ?_, fun _ _ _ _ eq => (by cases eq)⟩, ?_⟩, fun leaks => leaks.elim⟩
    · show ((ptyUnlock o) s).1 ≠ .crash
      rw [done]
      nofun
    · rw [own]
      refine life.turn lt rfl (fun _ _ _ _ _ => Iff.rfl) ?_ ?_
      · intro side o'
        rw [show Live (setSlot (index - ptmIndex) (some { p with locked := false }) s) o' = Live s o' from rfl,
          ← life.ends side _ lt o', here]
        cases side <;> simp [Pty.fso]
      · rintro q ⟨⟩
        exact ⟨.ptm, isSome_iff_exists.mpr ⟨o, points⟩⟩
    · rw [own]
      exact tabled
  | «open» curr mem name check =>
    have post : wp (run (.open curr mem name check)) (fun r t =>
        (¬ Strands s mem name ∧ r ≠ .crash ∧ Lifetime t ∧ Tabled t ∧ ∀ e, r = .err e → t.own = s.own) ∨
          (Strands s mem name ∧ (∃ e, r = .err e) ∧ t.own ≠ s.own)) s := by
      unfold run
      rw [wp_bind]
      apply wp_sysOpen life tabled
      · intro o t kept life' tabled'
        exact .inl ⟨kept, nofun, life', tabled', nofun⟩
      · intro e t kept life' tabled' own
        exact .inl ⟨kept, nofun, life', tabled', fun _ _ => own⟩
      · intro e i strands free
        refine .inr ⟨strands, ⟨e, rfl⟩, fun same => ?_⟩
        have here : (setSlot i (some Pty.zero) s).own i = some Pty.zero := update_self ..
        rw [same, free] at here
        cases here
    rcases post with ⟨no, calm, life', tabled', own⟩ | ⟨strands, ⟨e, failed⟩, changed⟩
    · refine ⟨fun _ => ⟨⟨calm, life', fun _ _ _ _ _ => own⟩, tabled'⟩, fun leaks => absurd leaks no⟩
    · refine ⟨fun no => absurd strands no, fun _ kept => ?_⟩
      exact changed (kept.2.2 curr mem name check rfl e failed)

theorem Reached.inv (reached : Reached (fun s a => ¬ Leaks s a) s) : Lifetime s ∧ Tabled s := by
  induction reached with
  | start =>
    refine ⟨⟨fun side i _ o => ?_, nofun⟩, fun _ _ => rfl⟩
    simp [Ptylife.start, Live]
  | act _ a allowed fit ih =>
    obtain ⟨kept, tabled⟩ := (kept_step ih.1 ih.2 a allowed).1 fit
    exact ⟨kept.2.1, tabled⟩
  | @foreign s s' _ foreign ih =>
    refine ⟨ih.1.congr foreign.own fun o side j _ => ?_, foreign.tabled⟩
    constructor
    · intro live
      have same := foreign.adds o live.1 live.2.1
      unfold Live at live ⊢
      rwa [same] at live
    · intro live
      have same := foreign.keeps o live.1 live.2.1
      unfold Live at live ⊢
      rwa [same]

/-- As long as every master that gets a slot gets an object, too, the slots are in order and every call
    keeps them so; the call that breaks this breaks the order. -/
theorem pty_lifetime (reached : Reached (fun s a => ¬ Leaks s a) s) (a : Act) (allowed : a.Allowed s) :
    Lifetime s ∧ (Kept s a ↔ ¬ Leaks s a) := by
  obtain ⟨life, tabled⟩ := reached.inv
  have step := kept_step life tabled a allowed
  refine ⟨life, fun kept leaks => step.2 leaks kept, fun no => (step.1 no).1⟩

def openMaster (mem : Memory) : Act := .open ⟨0, 0⟩ mem [112, 116, 109, 120] none

def mastered : State := (run (openMaster ⟨none, none⟩) start).2

/-- A terminal with both of its ends, whose master is closed next. -/
def paired : State := (run (.open ⟨0, 0⟩ ⟨none, none⟩ [112, 116, 115, 48, 48, 48] none) mastered).2

theorem pty_lifetime_paired : Lifetime paired ∧ (Kept paired (.close 0) ↔ ¬ Leaks paired (.close 0)) := by
  have first : Reached (fun s a => ¬ Leaks s a) mastered := .act .start (openMaster ⟨none, none⟩) trivial
    fun leaks => absurd leaks.2.2.2.2 (by decide)
  have both : Reached (fun s a => ¬ Leaks s a) paired := .act first _ trivial
    fun leaks => nomatch (show Name.pts 0 = .ptmx from leaks.1)
  exact pty_lifetime both (.close 0) ⟨ptmIndex, by decide +kernel, by decide +kernel, by decide +kernel⟩

def stranded : State := (run (openMaster ⟨none, some .ENOMEM⟩) start).2

/-- The open fails and leaves its slot behind; the next task that opens the slave of it uses a master that
    is not there. -/
theorem pty_not_kept : (run (openMaster ⟨none, some .ENOMEM⟩) start).1 = .err .ENOMEM ∧
    stranded.own 0 = some Pty.zero ∧ (∀ o, (stranded.fso o).refcnt = 0) ∧
    (run (.open ⟨0, 0⟩ ⟨none, none⟩ [112, 116, 115, 48, 48, 48] none) stranded).1 = .crash := by
  exact ⟨by decide +kernel, rfl, fun o => rfl, by decide +kernel⟩

end Ptylife
