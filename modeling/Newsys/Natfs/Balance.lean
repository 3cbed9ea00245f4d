import Newsys.Lib.Loans
import Newsys.Natfs.Format
import Newsys.Natfs.Pins

/- The operations on directories give back what they take: references to buffers and references to objects,
   whatever requests fail on the way. -/
namespace Natfs.Pins
open Bytes Cmds Cmd Loans

inductive Ref where
  | buffer (bn : Nat)
  | object (i : Nat)
  deriving DecidableEq

def Pinned.count (s : Pinned) : Ref → Nat
  | .buffer bn => s.pins bn
  | .object i => (s.vol.fso i).refcnt

def SameRefs (s t : Vol) : Prop := ∀ i, (t.fso i).refcnt = (s.fso i).refcnt

open Pinned (count)

section Steps
variable {α : Type} {cx : Cx} {x out : List Ref} {m : NatM α}

theorem trades_onVol (calm : ∀ s, wp m (fun r t => r ≠ .crash ∧ SameRefs s t) s) :
    Trades count (onVol m) x (fun _ => x) x := by
  constructor
  intro base s owes
  obtain ⟨returns, same⟩ := calm s.vol
  have owes' : Owes count base x { s with vol := (m s.vol).2 } := by
    refine owes.same fun r => ?_
    cases r with
    | buffer bn => rfl
    | object i => exact same i
  simp only [wp, onVol]
  cases result : (m s.vol).1 with
  | ok a => exact owes'
  | err e => exact owes'
  | crash => exact absurd result returns

theorem trades_step (calm : ∀ s, wp m (fun r t => (∃ a, r = .ok a) ∧ SameRefs s t) s) :
    Trades count (onVol m) x (fun _ => x) out := by
  constructor
  intro base s owes
  obtain ⟨⟨a, result⟩, same⟩ := calm s.vol
  simp only [wp, onVol, result]
  refine owes.same fun r => ?_
  cases r with
  | buffer bn => rfl
  | object i => exact same i

theorem trades_getVol : Trades count getVol x (fun _ => x) out :=
  trades_step fun s => ⟨⟨s, rfl⟩, fun _ => rfl⟩

theorem trades_modify (same : ∀ s, SameRefs s (g s)) :
    Trades count (onVol (modify g)) x (fun _ => x) out :=
  trades_step fun s => ⟨⟨(), rfl⟩, same s⟩

variable {i : Nat} {f : Fso}

theorem sameRefs_setFso (same : f.refcnt = (s.fso i).refcnt) : SameRefs s (s.setFso i f) := by
  intro j
  by_cases eq : j = i
  · rw [eq, ← same]
    exact congrArg Fso.refcnt (update_same ..)
  · exact congrArg Fso.refcnt (update_ne _ _ _ eq)

theorem trades_modifyFso (same : ∀ f, (g f).refcnt = f.refcnt) :
    Trades count (onVol (modifyFso i g)) x (fun _ => x) out :=
  trades_modify fun _ => sameRefs_setFso (same _)

theorem trades_clockTime : Trades count (onVol (clockTime cx)) x (fun _ => x) out :=
  trades_step fun s => ⟨⟨cx.clock s.tick, rfl⟩, fun _ => rfl⟩

theorem wp_request (bn : Nat) (s : Vol) : wp (Natfs.blkGet cx bn) (fun r t => r ≠ .crash ∧ SameRefs s t) s := by
  simp only [wp, Natfs.blkGet]
  split
  · exact ⟨(by rintro ⟨⟩), fun _ => rfl⟩
  · exact ⟨(by rintro ⟨⟩), fun _ => rfl⟩

variable {base : Ref → Nat} {s : Pinned}

theorem owes_pin (owes : Owes count base x s) :
    Owes count base (.buffer bn :: x) { s with pins := update s.pins bn (s.pins bn + 1) } := by
  refine owes.take (update_same ..) fun r ne => ?_
  cases r with
  | buffer bn' => exact update_ne _ _ _ fun eq => ne (by rw [eq])
  | object i => rfl

theorem trades_pin (bn : Nat) : Trades count
    (modify fun s : Pinned => { s with pins := update s.pins bn (s.pins bn + 1) } : PinM Unit) x
    (fun _ => .buffer bn :: x) out :=
  ⟨fun _ _ owes => owes_pin owes⟩

theorem trades_ask (a : Ask) : Trades count (ask a) x (fun _ => x) out := ⟨fun _ _ owes => owes⟩

theorem trades_blkGet (bn : Nat) : Trades count (blkGet cx bn) x (fun _ => .buffer bn :: x) x :=
  trades_bind (trades_ask _) fun _ => trades_bind (trades_onVol (wp_request bn)) fun _ => trades_pin bn

theorem trades_blkRead (bn : Nat) : Trades count (blkRead cx bn) x (fun _ => .buffer bn :: x) x := by
  have reads : ∀ s, wp (Natfs.blkRead cx bn) (fun r t => r ≠ .crash ∧ SameRefs s t) s := by
    intro s
    simp only [Natfs.blkRead, wp_bind]
    refine wp_mono (wp_request bn s) ?_
    rintro (_ | e | _) t ⟨returns, same⟩
    · exact ⟨(by rintro ⟨⟩), same⟩
    · exact ⟨(by rintro ⟨⟩), same⟩
    · exact absurd rfl returns
  refine trades_bind (trades_ask _) fun _ => trades_bind (trades_onVol reads) fun b => ?_
  refine trades_bind (trades_pin bn) fun _ => ?_
  exact ⟨fun _ _ owes => owes⟩

theorem trades_blkPut (bn : Nat) : Trades count (blkPut bn) (.buffer bn :: x) (fun _ => x) out := by
  refine trades_bind (trades_ask _) fun _ => ?_
  constructor
  intro base s owes
  have pos : s.pins bn ≠ 0 := Nat.pos_iff_ne_zero.mp owes.pos
  simp only [wp_bind, wp_get, after_ok]
  rw [if_neg pos, wp_modify]
  refine owes.give (update_same ..) fun r ne => ?_
  cases r with
  | buffer bn' => exact update_ne _ _ _ fun eq => ne (by rw [eq])
  | object i => rfl

theorem trades_blkFill (bn : Nat) (b : Mem) : Trades count (blkFill bn b) x (fun _ => x) out :=
  trades_bind (trades_modify fun _ _ => rfl) fun _ => trades_ask _

theorem trades_blkPread (bn : Nat) : Trades count (blkPread cx bn) x (fun _ => x) x := by
  refine trades_bind (trades_blkRead bn) fun b => trades_bind (trades_blkPut bn) fun _ => ?_
  exact trades_done b

theorem trades_blkPwrite (bn : Nat) (b : Mem) : Trades count (blkPwrite cx bn b) x (fun _ => x) x :=
  trades_bind (trades_blkGet bn) fun _ => trades_bind (trades_blkFill bn b) fun _ => trades_blkPut bn

/- The allocation map -/

theorem trades_natSyncBam : Trades count (natSyncBam cx) x (fun _ => x) x := by
  refine trades_bind trades_getVol fun s => trades_ite (fun _ => ?_) fun _ => trades_done ()
  exact trades_bind (trades_modify fun _ _ => rfl) fun _ => trades_blkPwrite _ _

theorem trades_natSwitchBam (blk : Nat) : Trades count (natSwitchBam cx blk) x (fun _ => x) x := by
  refine trades_bind trades_getVol fun s => trades_ite (fun _ => trades_done ()) fun _ => ?_
  refine trades_bind (trades_ignored trades_natSyncBam) fun _ => trades_bind (trades_attempt (trades_blkPread blk)) ?_
  rintro (e | b)
  · exact trades_bind (trades_modify fun _ _ => rfl) fun _ => trades_fail e
  · exact trades_modify fun _ _ => rfl

theorem trades_natWriteBam (blk : Nat) (bused : Bool) :
    Trades count (natWriteBam cx blk bused) x (fun _ => x) x := by
  refine trades_bind trades_getVol fun s => trades_bind (trades_natSwitchBam _) fun _ => ?_
  exact trades_modify fun _ _ => rfl

theorem trades_natBallocFrom (n : Nat) : ∀ i, Trades count (natBallocFrom cx i n) x (fun _ => x) x := by
  induction n with
  | zero => exact fun _ => trades_fail _
  | succ n ih =>
    intro i
    refine trades_bind trades_getVol fun s => trades_bind (trades_natSwitchBam _) fun _ => ?_
    refine trades_bind trades_getVol fun s => ?_
    split
    · exact ih (i + 1)
    · exact trades_bind (trades_modify fun _ _ => rfl) fun _ => trades_done _

theorem trades_natBalloc : Trades count (natBalloc cx) x (fun _ => x) x :=
  trades_bind trades_getVol fun _ => trades_natBallocFrom _ _

theorem trades_natBfree (blk : Nat) : Trades count (natBfree cx blk) x (fun _ => x) x :=
  trades_bind (trades_modify fun _ _ => rfl) fun _ => trades_natWriteBam blk false

/- The block map -/

theorem trades_newBlock : Trades count (newBlock cx) x (fun _ => x) x := by
  refine trades_bind trades_natBalloc fun bn => trades_bind (trades_blkGet bn) fun _ => ?_
  refine trades_bind (trades_blkFill bn zero) fun _ => trades_bind (trades_blkPut bn) fun _ => ?_
  exact trades_done bn

theorem trades_natBmapDir (i log : Nat) (alloc : Bool) :
    Trades count (natBmapDir cx i log alloc) x (fun _ => x) x := by
  refine trades_ite (fun _ => trades_fail _) fun _ => ?_
  refine trades_bind trades_getVol fun s => trades_ite (fun _ => ?_) fun _ => trades_done _
  refine trades_bind trades_newBlock fun bn => trades_bind (trades_modifyFso fun _ => rfl) fun _ => ?_
  exact trades_done bn

theorem trades_natBmapWalk (i log : Nat) (alloc : Bool) (indl : Nat) : ∀ bn,
    Trades count (natBmapWalk cx i log alloc indl bn) x (fun _ => x) x := by
  induction indl with
  | zero => exact fun bn => trades_done bn
  | succ indl ih =>
    intro bn
    refine trades_ite (fun _ => trades_done 0) fun _ => trades_bind (trades_blkRead bn) fun b => ?_
    refine trades_ite (fun _ => ?_) fun _ => trades_ite (fun _ => ?_) fun _ => ?_
    · exact trades_bind (trades_blkPut bn) fun _ => ih _
    · refine trades_bind (trades_onError trades_newBlock (trades_blkPut bn)) fun nb => ?_
      refine trades_bind (trades_modify fun _ _ => rfl) fun _ => trades_bind (trades_ask _) fun _ => ?_
      refine trades_bind (trades_modifyFso fun _ => rfl) fun _ => ?_
      exact trades_bind (trades_blkPut bn) fun _ => ih nb
    · exact trades_bind (trades_blkPut bn) fun _ => trades_done 0

theorem trades_natBmap (i log : Nat) (alloc : Bool) :
    Trades count (natBmap cx i log alloc) x (fun _ => x) x := by
  have cached : ∀ bn, Trades count (onVol (setBmapCache i log bn)) x (fun _ => x) x := fun bn =>
    trades_modifyFso fun _ => rfl
  refine trades_bind trades_getVol fun s => trades_ite (fun _ => trades_done ()) fun _ => trades_ite (fun _ => ?_) fun _ => ?_
  · exact trades_bind (trades_natBmapDir _ _ _) fun bn => cached bn
  · refine trades_bind (trades_natBmapDir _ _ _) fun bn => trades_bind (trades_natBmapWalk _ _ _ _ _) fun bn => cached bn

theorem trades_truncEntries (bn : Nat) (sub : Option (Nat → PinM (Option Errno)))
    (below : ∀ f, sub = some f → ∀ next, Trades count (f next) x (fun _ => x) x) (ds : List Nat) : ∀ err,
    Trades count (truncEntries cx bn sub ds err) x (fun _ => x) out := by
  induction ds with
  | nil => exact fun err => trades_done err
  | cons d ds ih =>
    intro err
    refine trades_bind trades_getVol fun s => trades_ite (fun _ => ih err) fun _ => ?_
    have rest : ∀ err, Trades count (do
        let err1 ← attempt (natBfree cx (imap (s.dev bn) d))
        truncEntries cx bn sub ds (firstErr err (errOf err1))) x (fun _ => x) out := fun err =>
      trades_bind (trades_ignored (trades_natBfree _)) fun err1 => ih _
    dsimp only
    split
    · exact trades_bind (trades_done err) fun err => rest err
    · refine trades_bind (trades_ignored (below _ rfl _)) fun r => ?_
      split
      · exact trades_bind (trades_done _) fun err => rest err
      · exact trades_bind (trades_done _) fun err => rest err

theorem trades_natTruncIndir (indl : Nat) : ∀ {x : List Ref} bn,
    Trades count (natTruncIndir cx indl bn) x (fun _ => x) x := by
  induction indl with
  | zero =>
    intro x bn
    refine trades_bind (trades_blkRead bn) fun _ => ?_
    refine trades_bind (trades_truncEntries bn none (fun _ eq => by cases eq) _ none) fun err => ?_
    exact trades_bind (trades_blkPut bn) fun _ => trades_done err
  | succ indl ih =>
    intro x bn
    refine trades_bind (trades_blkRead bn) fun _ => ?_
    refine trades_bind (trades_truncEntries bn _ ?_ _ none) fun err => ?_
    · rintro f ⟨⟩ next
      exact ih next
    · exact trades_bind (trades_blkPut bn) fun _ => trades_done err

theorem trades_truncSlot (i indl k : Nat) : Trades count (truncSlot cx i indl k) x (fun _ => x) x := by
  have rest : ∀ bn, Trades count (do
      let _ ← attempt (natBfree cx bn)
      onVol (modifyFso i fun f => { f with bmap := update f.bmap k 0 })) x (fun _ => x) x := fun bn =>
    trades_bind (trades_ignored (trades_natBfree bn)) fun _ => trades_modifyFso fun _ => rfl
  refine trades_bind trades_getVol fun s => trades_ite (fun _ => trades_done ()) fun _ => ?_
  dsimp only
  split
  · exact trades_bind (trades_ignored (trades_natTruncIndir _ _)) fun _ => rest _
  · exact rest _

theorem trades_natTrunc (i : Nat) : Trades count (natTrunc cx i) x (fun _ => x) x := by
  refine trades_bind trades_getVol fun s => trades_ite (fun _ => trades_fail _) fun _ => ?_
  refine trades_bind (trades_forEach (fun k => trades_truncSlot i _ k) _) fun _ => ?_
  exact trades_modifyFso fun _ => rfl

theorem trades_natSyncfso (i : Nat) : Trades count (natSyncfso cx i) x (fun _ => x) x := by
  refine trades_bind trades_getVol fun s => trades_ite (fun _ => ?_) fun _ => trades_done ()
  refine trades_bind (trades_blkGet i) fun _ => trades_bind (trades_blkFill i _) fun _ => ?_
  exact trades_bind (trades_modifyFso fun _ => rfl) fun _ => trades_blkPut i

theorem trades_natPutfso (i : Nat) : Trades count (natPutfso cx i) x (fun _ => x) x := by
  refine trades_bind trades_getVol fun s => trades_ite (fun _ => ?_) fun _ => trades_natSyncfso i
  refine trades_bind (trades_ignored (trades_natTrunc i)) fun _ => ?_
  refine trades_bind (trades_ignored (trades_natBfree i)) fun _ => ?_
  exact trades_modify fun _ _ => rfl

theorem wp_newSlot_calm (s : Vol) : wp (newSlot cx) (fun r t => r ≠ .crash ∧ SameRefs s t) s := by
  simp only [wp, newSlot]
  split
  · exact ⟨(by rintro ⟨⟩), fun _ => rfl⟩
  · exact ⟨(by rintro ⟨⟩), fun _ => rfl⟩

theorem owes_take (owes : Owes count base x s) (more : f.refcnt = (s.vol.fso i).refcnt + 1) :
    Owes count base (.object i :: x) { s with vol := s.vol.setFso i f } := by
  refine owes.take ?_ fun r ne => ?_
  · show ((s.vol.setFso i f).fso i).refcnt = (s.vol.fso i).refcnt + 1
    rw [← more]
    exact congrArg Fso.refcnt (update_same ..)
  · cases r with
    | buffer bn => rfl
    | object j => exact congrArg Fso.refcnt (update_ne _ _ _ fun eq => ne (by rw [eq]))

theorem owes_give (owes : Owes count base (.object i :: x) s) (less : f.refcnt = (s.vol.fso i).refcnt - 1) :
    Owes count base x { s with vol := s.vol.setFso i f } := by
  refine owes.give ?_ fun r ne => ?_
  · show ((s.vol.setFso i f).fso i).refcnt = (s.vol.fso i).refcnt - 1
    rw [← less]
    exact congrArg Fso.refcnt (update_same ..)
  · cases r with
    | buffer bn => rfl
    | object j => exact congrArg Fso.refcnt (update_ne _ _ _ fun eq => ne (by rw [eq]))

theorem wp_onVol (m : NatM α) (Q : Res Errno α → Pinned → Prop) (s : Pinned) :
    wp (onVol m) Q s = wp m (fun r v => Q r { s with vol := v }) s.vol := rfl

@[simp] theorem wp_getVol (Q : Res Errno Vol → Pinned → Prop) (s : Pinned) :
    wp getVol Q s = Q (.ok s.vol) s := rfl

@[simp] theorem wp_onVol_modify (g : Vol → Vol) (Q : Res Errno Unit → Pinned → Prop) (s : Pinned) :
    wp (onVol (modify g)) Q s = Q (.ok ()) { s with vol := g s.vol } := rfl

theorem trades_fsGetfso (i : Nat) : Trades count (fsGetfso cx i) x (fun _ => .object i :: x) x := by
  constructor
  intro base s owes
  simp only [fsGetfso, wp_bind, wp_getVol, after_ok]
  split
  · simp only [modifyFso, wp_onVol_modify]
    exact owes_take owes rfl
  · rename_i closed
    -- nobody has a reference, and nobody gets one before the header has been read
    have none : base (.object i) + x.count (.object i) = 0 :=
      (owes (.object i)).symm.trans (Decidable.not_not.mp closed)
    rw [wp_bind]
    refine wp_mono ((trades_onVol wp_newSlot_calm).run base s owes) ?_
    rintro (_ | e | _) t owes
    · rw [after_ok, wp_bind]
      refine wp_mono ((trades_blkRead i).run base t owes) ?_
      rintro (hd | e | _) t owes
      · simp only [after_ok, wp_bind, wp_onVol_modify]
        have still : (t.vol.fso i).refcnt = 0 := by
          have count := owes (.object i)
          rw [List.count_cons_of_ne (by simp), none] at count
          exact count
        refine (trades_blkPut i).swap.run base _ (owes_take owes ?_)
        rw [still]
        rfl
      · exact owes
      · exact owes
    · exact owes
    · exact owes

theorem trades_fsPutfso (i : Nat) : Trades count (fsPutfso cx i) (.object i :: x) (fun _ => x) out := by
  have drop : Trades count (onVol (modifyFso i fun f => { f with refcnt := f.refcnt - 1 }))
      (.object i :: x) (fun _ => x) out := ⟨fun base s owes => owes_give owes rfl⟩
  constructor
  intro base s owes
  have ref : (s.vol.fso i).refcnt ≠ 0 := Nat.pos_iff_ne_zero.mp owes.pos
  simp only [fsPutfso, wp_bind, wp_getVol, after_ok]
  rw [if_neg ref]
  split
  · exact trades_bind (trades_ignored (trades_natPutfso i)) (fun _ => drop) |>.run base s owes
  · exact drop.run base s owes

theorem trades_fsChkPerm (i mode : Nat) : Trades count (fsChkPerm cx i mode) x (fun _ => x) x := by
  refine trades_onVol fun s => ?_
  simp only [Natfs.fsChkPerm, wp_bind, wp_get, after_ok]
  split
  · exact ⟨(by rintro ⟨⟩), fun _ => rfl⟩
  · exact ⟨(by rintro ⟨⟩), fun _ => rfl⟩

theorem trades_readDirBlock (d log : Nat) :
    Trades count (readDirBlock cx d log) x (fun p => .buffer p.1 :: x) x := by
  refine trades_bind (trades_natBmap d log false) fun _ => trades_bind trades_getVol fun s => ?_
  refine trades_bind (trades_blkRead _) fun b => ?_
  exact ⟨fun _ _ owes => owes⟩

section
variable (d : Nat)
include d

theorem trades_findEntryFrom (name : Name) (logs : List Nat) :
    Trades count (findEntryFrom cx d name logs) x (fun p => .buffer p.1 :: x) x := by
  induction logs with
  | nil => exact trades_fail _
  | cons log logs ih =>
    refine trades_bind (trades_readDirBlock d log) ?_
    rintro ⟨phys, b⟩
    dsimp only
    split
    · exact ⟨fun _ _ owes => owes⟩
    · exact trades_bind (trades_blkPut phys) fun _ => ih

theorem trades_findEntry (name : Name) :
    Trades count (findEntry cx d name) x (fun p => .buffer p.1 :: x) x := by
  refine trades_bind trades_getVol fun s => trades_ite (fun _ => trades_fail _) fun _ => ?_
  exact trades_bind (trades_fsChkPerm d xOk) fun _ => trades_findEntryFrom d name _

theorem trades_newEntryFrom (name : Name) (logs : List Nat) : ∀ free,
    Trades count (newEntryFrom cx d name logs free) x (fun _ => x) x := by
  induction logs with
  | nil => exact fun free => trades_done free
  | cons log logs ih =>
    intro free
    refine trades_bind (trades_readDirBlock d log) ?_
    rintro ⟨phys, b⟩
    dsimp only
    split
    · exact trades_bind (trades_blkPut phys) fun _ => trades_fail _
    · exact trades_bind (trades_blkPut phys) fun _ => ih _

theorem trades_growDir : Trades count (growDir cx d) x (fun p => .buffer p.1 :: x) x := by
  refine trades_bind trades_getVol fun s => trades_ite (fun _ => trades_fail _) fun _ => ?_
  refine trades_bind (trades_natBmap d _ true) fun _ => trades_bind trades_getVol fun s => ?_
  refine trades_bind (trades_blkGet _) fun _ => trades_bind (trades_blkFill _ zero) fun _ => ?_
  exact trades_bind (trades_modifyFso fun _ => rfl) fun _ => ⟨fun _ _ owes => owes⟩

theorem trades_fillEntry (name : Name) (firstBlock : Nat) (p : DirentPtr) :
    Trades count (fillEntry cx d name firstBlock p) (.buffer p.1 :: x) (fun _ => x) out := by
  refine trades_bind (trades_step fun s => ⟨⟨(), rfl⟩, ?_⟩) fun _ => trades_bind (trades_ask _) fun _ => trades_blkPut p.1
  exact sameRefs_setFso rfl

theorem trades_newEntry (name : Name) (firstBlock : Nat) :
    Trades count (newEntry cx d name firstBlock) x (fun _ => x) x := by
  refine trades_bind trades_getVol fun s => trades_ite (fun _ => trades_fail _) fun _ => ?_
  refine trades_ite (fun _ => trades_fail _) fun _ => trades_bind (trades_fsChkPerm d _) fun _ => ?_
  refine trades_ite (fun _ => trades_fail _) fun _ => trades_bind (trades_newEntryFrom d name _ _) fun free => ?_
  refine trades_ite (fun _ => ?_) fun _ => ?_
  · exact trades_bind (trades_growDir d) fun p => trades_fillEntry d name firstBlock p
  · exact trades_bind (trades_blkRead free.1) fun _ => trades_fillEntry d name firstBlock free

theorem trades_isEmptyFrom (logs : List Nat) :
    Trades count (isEmptyFrom cx d logs) x (fun _ => x) x := by
  induction logs with
  | nil => exact trades_done ()
  | cons log logs ih =>
    refine trades_bind (trades_readDirBlock d log) ?_
    rintro ⟨phys, b⟩
    refine trades_ite (fun _ => ?_) fun _ => ?_
    · exact trades_bind (trades_blkPut phys) fun _ => trades_fail _
    · exact trades_bind (trades_blkPut phys) fun _ => ih

theorem trades_isEmpty : Trades count (isEmpty cx d) x (fun _ => x) x :=
  trades_bind trades_getVol fun _ => trades_ite (fun _ => trades_fail _) fun _ => trades_isEmptyFrom d _

theorem trades_enter (name : Name) :
    Trades count (enter cx d name) (.object d :: x) (fun i => .object i :: x) x := by
  refine trades_bind (trades_attempt (trades_findEntry d name)) ?_
  rintro (e | p)
  · exact trades_bind (trades_fsPutfso d) fun _ => trades_fail e
  · refine trades_bind ((trades_fsPutfso d).swap) fun _ => trades_bind trades_getVol fun s => ?_
    refine trades_bind (trades_onError (trades_fsGetfso _) (trades_blkPut p.1)) fun _ => ?_
    exact trades_bind ((trades_blkPut p.1).swap) fun _ => ⟨fun _ _ owes => owes⟩

end

def ComesToLong (cx : Cx) : List Name → Nat → Pinned → Prop
  | [], _, _ => False
  | name :: names, d, s =>
    27 < name.length ∨ ∃ next t, enter cx d name s = (.ok next, t) ∧ ComesToLong cx names next t

/-- The lookup of the directories of a path comes to such a component. -/
def Strays (cx : Cx) (path : CStr) (s : Pinned) : Prop :=
  ∃ t, fsGetfso cx s.vol.fs.geo.rootBlock s = (.ok (), t) ∧
    ComesToLong cx path.dirs s.vol.fs.geo.rootBlock t

/-- No component in front of the last slash is too long. -/
def Short (path : CStr) : Prop := ∀ name ∈ path.dirs, name.length ≤ 27

theorem not_comesToLong (names : List Name) (short : ∀ name ∈ names, name.length ≤ 27) : ∀ d s,
    ¬ ComesToLong cx names d s := by
  induction names with
  | nil => exact fun _ _ none => none
  | cons name names ih =>
    obtain ⟨first, rest⟩ := List.forall_mem_cons.mp short
    rintro d s (long | ⟨next, t, -, later⟩)
    · omega
    · exact ih rest next t later

variable {path : CStr}

theorem Short.not_strays (short : Short path) (s : Pinned) : ¬ Strays cx path s := by
  rintro ⟨t, -, long⟩
  exact not_comesToLong path.dirs short _ t long

theorem wp_natLookupDirFrom (names : List Name) : ∀ {d : Nat} {s : Pinned},
    Owes count base (.object d :: x) s → ¬ ComesToLong cx names d s →
    wp (natLookupDirFrom cx d names) (fun r t => match r with
      | .ok (some d') => Owes count base (.object d' :: x) t ∧ ∀ name ∈ names, name.length ≤ 27
      | .err _ => Owes count base x t
      | _ => False) s := by
  induction names with
  | nil => exact fun owes _ => ⟨owes, fun _ mem => absurd mem List.not_mem_nil⟩
  | cons name names ih =>
    intro d s owes short
    rw [ComesToLong, not_or] at short
    rw [natLookupDirFrom, if_neg short.1, wp_bind]
    refine wp_run (wp_mono ((trades_enter d name).run base s owes) ?_)
    rintro (next | e | _) t settled ran
    · rw [after_ok]
      refine wp_mono (ih settled fun long => short.2 ⟨next, t, ran, long⟩) ?_
      rintro ((_ | d') | _ | _) u result
      · exact result.elim
      · exact ⟨result.1, List.forall_mem_cons.mpr ⟨by omega, result.2⟩⟩
      · exact result
      · exact result
    · exact settled
    · exact settled

theorem wp_lookupDir (owes : Owes count base x s)
    (straight : ¬ Strays cx path s) : wp (lookupDir cx path) (fun r t => match r with
      | .ok d => Owes count base (.object d :: x) t ∧ Short path
      | .err _ => Owes count base x t
      | .crash => False) s := by
  simp only [lookupDir, natLookupDir, wp_bind, wp_getVol, after_ok]
  refine wp_run (wp_mono ((trades_fsGetfso s.vol.fs.geo.rootBlock).run base s owes) ?_)
  rintro (_ | e | _) t settled ran
  · rw [after_ok]
    refine wp_mono (wp_natLookupDirFrom path.dirs settled fun long => straight ⟨t, ran, long⟩) ?_
    rintro ((_ | d) | _ | _) u result
    · exact result.elim
    · exact result
    · exact result
    · exact result.elim
  · exact settled
  · exact settled

theorem fails_onVol (fails : Cmd.Fails m P) : Cmd.Fails (onVol m) P :=
  fun s e eq => fails s.vol e eq

theorem fsPutfso_fails (i : Nat) : Cmd.Fails (fsPutfso cx i) fun _ => False := by
  have drop : Cmd.Fails (onVol (modifyFso i fun f => { f with refcnt := f.refcnt - 1 })) fun _ => False :=
    fails_onVol (fails_modify _)
  refine fails_bind (fails_onVol fails_get) fun s => ?_
  dsimp only
  split
  · exact fails_crash
  split
  · exact fails_bind fails_attempt fun _ => drop
  · exact drop

theorem natLookupDirFrom_long (names : List Name) : ∀ {d : Nat} {s : Pinned}, ComesToLong cx names d s →
    wp (natLookupDirFrom cx d names) (fun r _ => r = .ok none ∨ r = .crash) s := by
  induction names with
  | nil => exact fun none => none.elim
  | cons name names ih =>
    intro d s long
    rw [natLookupDirFrom]
    split
    · rw [wp_bind]
      refine wp_of_fails (fsPutfso_fails d) ?_ ?_ ?_
      · exact fun _ _ => .inl rfl
      · exact fun _ _ none => none.elim
      · exact fun _ => .inr rfl
    · rename_i fits
      obtain ⟨next, t, ran, later⟩ := long.resolve_left fits
      rw [wp_bind, wp, ran]
      exact ih later

theorem lookupDir_crash (strays : Strays cx path s) : (lookupDir cx path s).1 = .crash := by
  obtain ⟨t, ran, long⟩ := strays
  show wp (lookupDir cx path) (fun r _ => r = .crash) s
  simp only [lookupDir, natLookupDir, wp_bind, wp_getVol, after_ok]
  rw [wp, ran, after_ok]
  refine wp_mono (natLookupDirFrom_long path.dirs long) ?_
  rintro r u (rfl | rfl)
  · rfl
  · rfl

theorem wp_of_lookup {f : Nat → PinM α}
    {post : α → List Ref} (owes : Owes count base x s) (straight : ¬ Strays cx path s)
    (next : Short path → ∀ d, Trades count (f d) (.object d :: x) post x) :
    wp (lookupDir cx path >>= f) (Settled count base post x) s := by
  rw [wp_bind]
  refine wp_mono (wp_lookupDir owes straight) ?_
  rintro (d | e | _) t result
  · exact (next result.2 d).run base t result.1
  · exact result
  · exact result.elim

theorem crash_of_lookup {f : Nat → PinM α} (strays : Strays cx path s) : ((lookupDir cx path >>= f) s).1 = .crash := by
  show wp (lookupDir cx path >>= f) (fun r _ => r = .crash) s
  rw [wp_bind, wp, lookupDir_crash strays]
  rfl

theorem trades_natLookup (short : Short path) :
    Trades count (natLookup cx path) x (fun i => .object i :: x) x := by
  constructor
  intro base s owes
  refine wp_of_lookup owes (short.not_strays s) fun _ d => trades_ite (fun _ => ?_) fun _ => ?_
  · exact ⟨fun _ _ owes => owes⟩
  · exact trades_enter d path.base

theorem trades_orPut {d : Nat} {m : PinM α} {post : α → List Ref}
    (trades : Trades count m (.object d :: x) post (.object d :: x)) :
    Trades count (onError m (fsPutfso cx d)) (.object d :: x) post x :=
  trades_onError trades (trades_fsPutfso d)

theorem trades_putBoth (d e : Nat) : Trades count (do
    fsPutfso cx d
    fsPutfso cx e) (.object d :: .object e :: x) (fun _ => x) out :=
  trades_bind (trades_fsPutfso d) fun _ => trades_fsPutfso e

theorem trades_touch (d : Nat) : Trades count (onVol (touch cx d)) x (fun _ => x) out :=
  trades_step fun _ => ⟨⟨(), rfl⟩, sameRefs_setFso rfl⟩

theorem trades_dropLink (i : Nat) : Trades count (onVol (dropLink i)) x (fun _ => x) out :=
  trades_modifyFso fun _ => rfl

theorem trades_clearEntry (p : DirentPtr) : Trades count (clearEntry p) x (fun _ => x) out :=
  trades_bind (trades_modify fun _ _ => rfl) fun _ => trades_ask _

theorem perm_last (a b c : Ref) (l : List Ref) : (a :: b :: c :: l).Perm (b :: c :: a :: l) :=
  (List.Perm.swap b a _).trans (.cons b (.swap c a l))

section Runs
variable {base : Ref → Nat} {s : Pinned} {name : CStr}

theorem wp_natLookup (owes : Owes count base x s) (straight : ¬ Strays cx name s) :
    wp (natLookup cx name) (Settled count base (fun i => .object i :: x) x) s := by
  refine wp_of_lookup owes straight fun _ d => trades_ite (fun _ => ?_) fun _ => ?_
  · exact ⟨fun _ _ owes => owes⟩
  · exact trades_enter d name.base

theorem wp_natChdir (owes : Owes count base x s) (straight : ¬ Strays cx name s) :
    wp (natChdir cx name) (Settled count base (fun _ => x) x) s := by
  refine Settled.bind (wp_natLookup owes straight) fun dir => trades_bind trades_getVol fun s => ?_
  refine trades_ite (fun _ => trades_bind (trades_fsPutfso dir) fun _ => trades_fail _) fun _ => ?_
  refine trades_bind (trades_attempt (trades_fsChkPerm dir xOk)) ?_
  rintro (e | _)
  · exact trades_bind (trades_fsPutfso dir) fun _ => trades_fail e
  · exact trades_bind (trades_fsPutfso dir) fun _ => trades_done ()

theorem wp_natCreat (owes : Owes count base x s) (straight : ¬ Strays cx name s) (mode rdev : Nat) :
    wp (natCreat cx name mode rdev) (Settled count base (fun i => .object i :: x) x) s := by
  refine wp_of_lookup owes straight fun _ dir => trades_bind (trades_orPut (trades_fsChkPerm dir wOk)) fun _ => ?_
  refine trades_bind (trades_orPut trades_natBalloc) fun nr => ?_
  have unget : Trades count (do
      let _ ← attempt (natBfree cx nr)
      fsPutfso cx dir) (.object dir :: x) (fun _ => x) x :=
    trades_bind (trades_ignored (trades_natBfree nr)) fun _ => trades_fsPutfso dir
  refine trades_bind (trades_onError (trades_blkGet nr) unget) fun _ => ?_
  refine trades_bind trades_clockTime fun now => trades_bind (trades_modify fun _ _ => rfl) fun _ => ?_
  refine trades_bind (trades_ask _) fun _ => trades_bind (trades_blkPut nr) fun _ => trades_bind (trades_attempt (trades_newEntry dir name.base nr)) ?_
  rintro (e | _)
  · refine trades_bind (trades_fsPutfso dir) fun _ => trades_bind (trades_ignored (trades_natBfree nr)) fun _ => ?_
    exact trades_bind (trades_modify fun _ _ => rfl) fun _ => trades_fail e
  · refine trades_bind (trades_fsPutfso dir) fun _ => trades_bind (trades_fsGetfso nr) fun _ => ?_
    exact ⟨fun _ _ owes => owes⟩

theorem trades_natReaddir (d : Nat) (index : Int) : Trades count (natReaddir cx d index) x (fun _ => x) x := by
  refine trades_ite (fun _ => trades_fail _) fun _ => trades_bind (trades_fsChkPerm d rOk) fun _ => ?_
  refine trades_ite (fun _ => trades_done _) fun _ => trades_ite (fun _ => trades_done _) fun _ => ?_
  refine trades_bind trades_getVol fun s => trades_ite (fun _ => trades_fail _) fun _ => ?_
  refine trades_bind (trades_attempt (trades_readDirBlock d _)) ?_
  rintro (e | ⟨phys, b⟩)
  · exact trades_done none
  · exact trades_bind (trades_blkPut phys) fun _ => trades_done _

theorem wp_natLink (owes : Owes count base x s) (i : Nat)
    (straight : sIsdir (s.vol.fso i).mode = false → ¬ Strays cx name s) :
    wp (natLink cx i name) (Settled count base (fun _ => x) x) s := by
  simp only [natLink, wp_bind, wp_getVol, after_ok]
  split
  · exact owes
  · rename_i file
    refine wp_of_lookup owes (straight (by simpa using file)) fun _ dir => ?_
    refine trades_bind (trades_attempt (trades_newEntry dir name.base i)) ?_
    rintro (e | _)
    · exact trades_bind (trades_fsPutfso dir) fun _ => trades_fail e
    · refine trades_bind (trades_fsPutfso dir) fun _ => trades_bind trades_clockTime fun now => ?_
      exact trades_modifyFso fun _ => rfl

theorem wp_natUnlink (owes : Owes count base x s) (straight : ¬ Strays cx name s) :
    wp (natUnlink cx name) (Settled count base (fun _ => x) x) s := by
  refine wp_of_lookup owes straight fun _ dir => trades_bind (trades_orPut (trades_fsChkPerm dir _)) fun _ => ?_
  refine trades_bind (trades_orPut (trades_findEntry dir name.base)) fun p => trades_bind trades_getVol fun s => ?_
  have unget : ∀ y : List Ref, Trades count (do
      blkPut p.1
      fsPutfso cx dir) (.buffer p.1 :: .object dir :: y) (fun _ => y) y := fun y =>
    trades_bind (trades_blkPut p.1) fun _ => trades_fsPutfso dir
  refine trades_bind (trades_onError (trades_fsGetfso _) (unget x)) fun _ => trades_bind trades_getVol fun s' => ?_
  refine Trades.perm ?_ (perm_last (.object (deFirstBlock (s.dev p.1) p.2)) (.buffer p.1) (.object dir) x)
  refine trades_ite (fun _ => ?_) fun _ => ?_
  · refine trades_bind (trades_blkPut p.1) fun _ => trades_bind (trades_fsPutfso dir) fun _ => ?_
    exact trades_bind (trades_fsPutfso _) fun _ => trades_fail _
  · refine trades_bind (trades_clearEntry p) fun _ => trades_bind (trades_blkPut p.1) fun _ => ?_
    refine trades_bind (trades_dropLink _) fun _ => trades_bind (trades_touch dir) fun _ => ?_
    exact trades_putBoth dir _

theorem trades_renameOver (ndir : Nat) (n : Name) (p : DirentPtr) :
    Trades count (renameOver cx ndir n p) x (fun _ => x) x := by
  refine trades_bind (trades_findEntry ndir n) fun np => trades_bind trades_getVol fun s => ?_
  refine trades_bind (trades_onError (trades_fsGetfso _) (trades_blkPut np.1)) fun _ => ?_
  refine trades_bind trades_getVol fun s' => ?_
  have rest : ∀ f, Trades count (do
      onVol (dropLink f)
      fsPutfso cx f
      onVol (modify fun s => s.setDev np.1 (blit (clearDirent (s.dev np.1) np.2) (32 * np.2) (n ++ [0])))
      onVol (modify fun s => s.setDev np.1
        (setLE (s.dev np.1) (32 * np.2 + 28) 4 (deFirstBlock (s.dev p.1) p.2)))
      ask (.fill np.1)
      blkPut np.1) (.object f :: .buffer np.1 :: x) (fun _ => x) x := by
    intro f
    refine trades_bind (trades_dropLink f) fun _ => trades_bind (trades_fsPutfso f) fun _ => ?_
    refine trades_bind (trades_modify fun _ _ => rfl) fun _ => trades_bind (trades_modify fun _ _ => rfl) fun _ => ?_
    exact trades_bind (trades_ask _) fun _ => trades_blkPut np.1
  dsimp only
  split
  · have unget : ∀ f, Trades count (do
        blkPut np.1
        fsPutfso cx f) (.object f :: .buffer np.1 :: x) (fun _ => x) x := fun f =>
      (trades_bind (trades_blkPut np.1) fun _ => trades_fsPutfso f).swap
    exact trades_bind (trades_onError (trades_isEmpty _) (unget _)) fun _ => rest _
  · exact rest _

theorem trades_renameOut (odir ndir : Nat) (p : DirentPtr) :
    Trades count (renameOut cx odir ndir p) x (fun _ => x) out := by
  refine trades_bind (trades_clearEntry p) fun _ => trades_bind trades_clockTime fun now => ?_
  exact trades_bind (trades_modifyFso fun _ => rfl) fun _ => trades_modifyFso fun _ => rfl

theorem trades_renameEntry (odir ndir : Nat) (n : Name) (p : DirentPtr) :
    Trades count (renameEntry cx odir ndir n p) x (fun _ => x) x := by
  refine trades_bind trades_getVol fun s => trades_bind (trades_attempt (trades_newEntry ndir n _)) ?_
  rintro (e | _)
  · split
    · exact trades_bind (trades_renameOver ndir n p) fun _ => trades_renameOut odir ndir p
    · exact trades_bind (trades_renameOut odir ndir p) fun _ => trades_fail _
    · exact trades_renameOut odir ndir p
  · exact trades_renameOut odir ndir p

theorem wp_fsChkPerm (i mode : Nat) (Q : Res Errno Unit → Pinned → Prop) :
    wp (fsChkPerm cx i mode) Q s = match permError cx s.vol.fs.geo (s.vol.fso i) mode with
      | some e => Q (.err e) s
      | none => Q (.ok ()) s := by
  simp only [fsChkPerm, wp_onVol, Natfs.fsChkPerm, wp_bind, wp_get, after_ok]
  cases permError cx s.vol.fs.geo (s.vol.fso i) mode with
  | some e => rfl
  | none => rfl

section
variable (owes : Owes count base x s)
include owes

theorem wp_renameFind
    (oldStraight : old ≠ new → ¬ old.1 ++ [47] <+: new.1 → ¬ Strays cx old s)
    (newStraight : old ≠ new → ¬ old.1 ++ [47] <+: new.1 → ∀ d t, lookupDir cx old s = (.ok d, t) →
      permError cx t.vol.fs.geo (t.vol.fso d) (xOk ||| wOk) = none → ¬ Strays cx new t) :
    wp (renameFind cx old new) (Settled count base
      (fun r => .buffer r.2.2.1 :: .object r.2.1 :: .object r.1 :: x) x) s := by
  have rest : ∀ odir ndir, Trades count (do
      let clean : PinM Unit := do
        fsPutfso cx odir
        fsPutfso cx ndir
      onError (fsChkPerm cx ndir wOk) clean
      let p ← onError (findEntry cx odir old.base) clean
      pure (odir, ndir, p)) (.object ndir :: .object odir :: x)
      (fun r => .buffer r.2.2.1 :: .object r.2.1 :: .object r.1 :: x) x := by
    intro odir ndir
    have clean : Trades count (do
        fsPutfso cx odir
        fsPutfso cx ndir) (.object ndir :: .object odir :: x) (fun _ => x) x := (trades_putBoth odir ndir).swap
    refine trades_bind (trades_onError (trades_fsChkPerm ndir wOk) clean) fun _ => ?_
    refine trades_bind (trades_onError (trades_findEntry odir old.base) clean) fun p => ?_
    exact ⟨fun _ _ owes => owes⟩
  rw [renameFind]
  split
  · exact owes
  split
  · exact owes
  rename_i differ outside
  rw [wp_bind]
  refine wp_run (wp_mono (wp_lookupDir owes (oldStraight differ outside)) ?_)
  rintro (odir | e | _) t result ran
  · rw [after_ok, wp_bind, wp_onError, wp_fsChkPerm]
    cases denied : permError cx t.vol.fs.geo (t.vol.fso odir) (xOk ||| wOk) with
    | some e => exact Settled.giveUp (trades_fsPutfso odir) result.1
    | none =>
      rw [recovered_ok, after_ok, wp_bind, wp_onError]
      refine wp_mono (wp_lookupDir result.1 (newStraight differ outside odir t ran denied)) ?_
      rintro (ndir | e | _) u result'
      · exact (rest odir ndir).run base u result'.1
      · exact Settled.giveUp (trades_fsPutfso odir) result'
      · exact result'.elim
  · exact result
  · exact result.elim

theorem wp_natRename
    (oldStraight : old ≠ new → ¬ old.1 ++ [47] <+: new.1 → ¬ Strays cx old s)
    (newStraight : old ≠ new → ¬ old.1 ++ [47] <+: new.1 → ∀ d t, lookupDir cx old s = (.ok d, t) →
      permError cx t.vol.fs.geo (t.vol.fso d) (xOk ||| wOk) = none → ¬ Strays cx new t) :
    wp (natRename cx old new) (Settled count base (fun _ => x) x) s := by
  refine Settled.bind (wp_renameFind owes oldStraight newStraight) ?_
  rintro ⟨odir, ndir, p⟩
  have clean : Trades count (do
      blkPut p.1
      fsPutfso cx odir
      fsPutfso cx ndir) (.buffer p.1 :: .object ndir :: .object odir :: x) (fun _ => x) x :=
    trades_bind (trades_blkPut p.1) fun _ => (trades_putBoth odir ndir).swap
  exact trades_bind (trades_onError (trades_renameEntry odir ndir new.base p) clean) fun _ => clean

theorem wp_natMkdir (straight : ¬ Strays cx name s) (mode : Nat) :
    wp (natMkdir cx name mode) (Settled count base (fun _ => x) x) s :=
  Settled.bind (wp_natCreat owes straight _ 0) fun dir => trades_fsPutfso dir

theorem wp_natRmdir (straight : ¬ Strays cx name s) :
    wp (natRmdir cx name) (Settled count base (fun _ => x) x) s := by
  refine wp_of_lookup owes straight fun short parent => ?_
  refine trades_bind (trades_orPut (trades_fsChkPerm parent _)) fun _ => ?_
  refine trades_bind (trades_orPut (trades_natLookup short)) fun dir => ?_
  have clean : ∀ y : List Ref, Trades count (do
      fsPutfso cx parent
      fsPutfso cx dir) (.object dir :: .object parent :: y) (fun _ => y) y := fun y =>
    (trades_putBoth parent dir).swap
  refine trades_bind (trades_onError (trades_isEmpty dir) (clean x)) fun _ => ?_
  refine trades_bind (trades_onError (trades_findEntry parent name.base) (clean x)) fun p => ?_
  refine trades_bind (trades_touch parent) fun _ => trades_bind (trades_clearEntry p) fun _ => ?_
  refine trades_bind (trades_blkPut p.1) fun _ => trades_bind (trades_dropLink dir) fun _ => ?_
  exact clean x

end

end Runs
end Steps

inductive DirCall where
  | lookup (name : CStr)
  | creat (name : CStr) (mode rdev : Nat)
  | readdir (dir : Nat) (index : Int)
  | link (f : Nat) (name : CStr)
  | unlink (name : CStr)
  | rename (oldname newname : CStr)
  | mkdir (name : CStr) (mode : Nat)
  | rmdir (name : CStr)
  | chdir (name : CStr)

def DirCall.run (cx : Cx) : DirCall → PinM (Option Nat)
  | lookup name => natLookup cx name >>= fun f => pure (some f)
  | creat name mode rdev => natCreat cx name mode rdev >>= fun f => pure (some f)
  | readdir dir index => natReaddir cx dir index >>= fun _ => pure none
  | link f name => natLink cx f name >>= fun _ => pure none
  | unlink name => natUnlink cx name >>= fun _ => pure none
  | rename oldname newname => natRename cx oldname newname >>= fun _ => pure none
  | mkdir name mode => natMkdir cx name mode >>= fun _ => pure none
  | rmdir name => natRmdir cx name >>= fun _ => pure none
  | chdir name => natChdir cx name >>= fun _ => pure none

/-- All references are as before, but for the one that is returned. -/
def Balanced (cx : Cx) (call : DirCall) (s : Pinned) : Prop :=
  match call.run cx s with
  | (.ok f, t) => ∀ r, t.count r = s.count r + (f.map Ref.object).toList.count r
  | (.err _, t) => ∀ r, t.count r = s.count r
  | (.crash, _) => False

/-- A lookup of the call comes to a component that is longer than NAT_NAME_MAX. -/
def DirCall.Strays (cx : Cx) (s : Pinned) : DirCall → Prop
  | lookup name | creat name _ _ | unlink name | mkdir name _ | rmdir name | chdir name => Pins.Strays cx name s
  | readdir _ _ => False
  | link f name => sIsdir (s.vol.fso f).mode = false ∧ Pins.Strays cx name s
  | rename oldname newname => oldname ≠ newname ∧ ¬ oldname.1 ++ [47] <+: newname.1 ∧
      (Pins.Strays cx oldname s ∨ ∃ d t, lookupDir cx oldname s = (.ok d, t) ∧
        permError cx t.vol.fs.geo (t.vol.fso d) (xOk ||| wOk) = none ∧ Pins.Strays cx newname t)

section Calls
variable {cx : Cx} {s : Pinned}

variable {call : DirCall}

theorem balanced_of_settled
    (settled : wp (call.run cx) (Settled count s.count (fun f => (f.map Ref.object).toList) []) s) :
    Balanced cx call s := by
  rw [wp] at settled
  rw [Balanced]
  rcases run : call.run cx s with ⟨f | e | _, t⟩ <;> rw [run] at settled
  · exact settled
  · exact settled
  · exact settled

theorem not_balanced_of_crash (crash : (call.run cx s).1 = .crash) : ¬ Balanced cx call s := by
  rw [Balanced]
  rcases run : call.run cx s with ⟨f | e | _, t⟩
  · rw [run] at crash
    cases crash
  · rw [run] at crash
    cases crash
  · exact id

theorem crash_bind {α β : Type} {m : PinM α} {f : α → PinM β} (crash : (m s).1 = .crash) : ((m >>= f) s).1 = .crash := by
  show wp (m >>= f) (fun r _ => r = .crash) s
  rw [wp_bind, wp]
  rcases run : m s with ⟨a | e | _, t⟩
  · rw [run] at crash
    cases crash
  · rw [run] at crash
    cases crash
  · rfl

theorem settled_of_straight (straight : ¬ call.Strays cx s) :
    wp (call.run cx) (Settled count s.count (fun f => (f.map Ref.object).toList) []) s := by
  have owes : Owes count s.count [] s := fun _ => rfl
  have none : ∀ {α : Type} (_ : α), Trades count (pure none : PinM (Option Nat)) []
      (fun f => (f.map Ref.object).toList) [] := fun _ => ⟨fun _ _ owes => owes⟩
  have some : ∀ f : Nat, Trades count (pure (some f) : PinM (Option Nat)) [.object f]
      (fun f => (f.map Ref.object).toList) [] := fun _ => ⟨fun _ _ owes => owes⟩
  cases call with
  | lookup name => exact Settled.bind (wp_natLookup owes straight) some
  | creat name mode rdev => exact Settled.bind (wp_natCreat owes straight mode rdev) some
  | readdir dir index => exact Settled.bind ((trades_natReaddir dir index).run _ _ owes) none
  | link f name => exact Settled.bind (wp_natLink owes f fun file strays => straight ⟨file, strays⟩) none
  | unlink name => exact Settled.bind (wp_natUnlink owes straight) none
  | rename oldname newname =>
    refine Settled.bind (wp_natRename owes ?_ ?_) none
    · exact fun differ outside strays => straight ⟨differ, outside, .inl strays⟩
    · exact fun differ outside d t ran allowed strays => straight ⟨differ, outside, .inr ⟨d, t, ran, allowed, strays⟩⟩
  | mkdir name mode => exact Settled.bind (wp_natMkdir owes straight mode) none
  | rmdir name => exact Settled.bind (wp_natRmdir owes straight) none
  | chdir name => exact Settled.bind (wp_natChdir owes straight) none

theorem crash_of_strays (strays : call.Strays cx s) : (call.run cx s).1 = .crash := by
  cases call with
  | lookup name => exact crash_bind (crash_of_lookup strays)
  | creat name mode rdev => exact crash_bind (crash_of_lookup strays)
  | readdir dir index => exact strays.elim
  | link f name =>
    refine crash_bind ?_
    show wp (natLink cx f name) (fun r _ => r = .crash) s
    simp only [natLink, wp_bind, wp_getVol, after_ok]
    rw [if_neg (by simp [strays.1])]
    exact crash_of_lookup strays.2
  | unlink name => exact crash_bind (crash_of_lookup strays)
  | rename oldname newname =>
    obtain ⟨differ, outside, strays⟩ := strays
    refine crash_bind (crash_bind ?_)
    rw [renameFind, if_neg differ, if_neg outside]
    rcases strays with strays | ⟨d, t, ran, allowed, strays⟩
    · exact crash_of_lookup strays
    · show wp (_ >>= _) (fun r _ => r = .crash) s
      rw [wp_bind, wp, ran, after_ok, wp_bind, wp_onError, wp_fsChkPerm, allowed]
      rw [recovered_ok, after_ok, wp_bind, wp_onError, wp, lookupDir_crash strays]
      rfl
  | mkdir name mode => exact crash_bind (crash_bind (crash_of_lookup strays))
  | rmdir name => exact crash_bind (crash_of_lookup strays)
  | chdir name => exact crash_bind (crash_bind (crash_of_lookup strays))

end Calls

theorem references_balanced_iff (cx : Cx) (call : DirCall) (s : Pinned) :
    Balanced cx call s ↔ ¬ call.Strays cx s := by
  constructor
  · intro balanced strays
    exact not_balanced_of_crash (crash_of_strays strays) balanced
  · intro straight
    exact balanced_of_settled (settled_of_straight straight)

/-- A path with a component of 28 letters, which no directory entry can hold. -/
def longPath : CStr := ⟨List.replicate 28 97 ++ [47, 102], by decide⟩

theorem references_not_balanced : ¬ Balanced rootCx (.lookup longPath) ⟨newVolume 100 2, fun _ => 0, []⟩ := by
  have root : (fsGetfso rootCx (newVolume 100 2).fs.geo.rootBlock ⟨newVolume 100 2, fun _ => 0, []⟩).1 = .ok () := by
    decide +kernel
  have long : ∃ names, longPath.dirs = List.replicate 28 97 :: names := ⟨[], by decide⟩
  obtain ⟨names, dirs⟩ := long
  refine not_balanced_of_crash (crash_bind (crash_of_lookup ⟨_, Prod.ext root rfl, ?_⟩))
  rw [dirs]
  exact .inl (by decide)

end Natfs.Pins
