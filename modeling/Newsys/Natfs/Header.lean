import Newsys.Natfs.Format

/- What becomes of the attributes of an object that leaves memory and is loaded again
   (kern/fs/nat/fso.c), and what the calls on an object in use do to them (kern/fs/syscall.c). -/
namespace Natfs
open Bytes Cmds Cmd Nat Bool

/- The calls that change an object in use -/

abbrev sIsuid : Nat := 0o4000
abbrev sIsgid : Nat := 0o2000
abbrev sIrights : Nat := 0o7777

def lacking (bits : Nat) : Nat := 0xffffffff - bits

def sysFchmod (cx : Cx) (i mode : Nat) : NatM Unit := do
  let s ← get
  if !s.fs.geo.insecure ∧ cx.euid ≠ 0 ∧ (s.fso i).uid ≠ cx.euid then fail .EACCES
  else if s.fs.geo.readOnly then fail .EROFS
  else
    let now ← clockTime cx
    modifyFso i fun f => { f with
      mode := f.mode &&& lacking sIrights ||| mode &&& sIrights, ctime := now, dirty := true }

def sysFchown (cx : Cx) (i uid gid : Nat) : NatM Unit := do
  let s ← get
  if cx.euid ≠ 0 then fail .EACCES
  else if s.fs.geo.readOnly then fail .EROFS
  else
    let now ← clockTime cx
    modifyFso i fun f => { f with
      mode := f.mode &&& lacking (sIsuid ||| sIsgid), uid := uid, gid := gid, ctime := now, dirty := true }

/-- What `nat_link` does to its object once the entry is there. -/
def countLink (cx : Cx) (i : Nat) : NatM Unit := do
  let now ← clockTime cx
  modifyFso i fun f => { f with ctime := now, nlink := (f.nlink + 1) % 2 ^ 32, dirty := true }

/-- The changes of an object in use. Its times change as it is read and written: `utime` is not
    there, its stub in the C library returns ENOSYS. -/
inductive Effect where
  | chmod (mode : Nat)
  | chown (uid gid : Nat)
  | read (offset count : Nat)
  | link
  | write (offset : Nat) (data : List Byte)
  | trunc

def Effect.run (cx : Cx) (i : Nat) : Effect → NatM Unit
  | chmod mode => sysFchmod cx i mode
  | chown uid gid => sysFchown cx i uid gid
  | read offset count => do
    let _ ← natRead cx i offset count
    pure ()
  | link => countLink cx i
  | write offset data => natWrite cx i offset data
  | trunc => natTrunc cx i

/-- One effect on object `i`, in any context; it may fail, but not bring the system down. -/
def Effect.Step (i : Nat) (s t : Vol) : Prop := ∃ cx e r, r ≠ .crash ∧ Effect.run cx i e s = (r, t)

abbrev Effect.Run (i : Nat) : Vol → Vol → Prop := Relation.ReflTransGen (Effect.Step i)

/- The attributes of an object -/

/-- Two objects agree in all that a header describes. -/
structure Alike (f g : Fso) : Prop where
  mode : g.mode = f.mode
  uid : g.uid = f.uid
  gid : g.gid = f.gid
  rdev : g.rdev = f.rdev
  nlink : g.nlink = f.nlink
  size : g.size = f.size
  blocks : g.blocks = f.blocks
  atime : g.atime = f.atime
  ctime : g.ctime = f.ctime
  mtime : g.mtime = f.mtime
  ndirblks : g.ndirblks = f.ndirblks
  nindirlev : g.nindirlev = f.nindirlev
  bmap : ∀ k, k < 114 → g.bmap k = f.bmap k

theorem Alike.refl (f : Fso) : Alike f f :=
  ⟨rfl, rfl, rfl, rfl, rfl, rfl, rfl, rfl, rfl, rfl, rfl, rfl, fun _ _ => rfl⟩

theorem Alike.symm (a : Alike f g) : Alike g f :=
  ⟨a.mode.symm, a.uid.symm, a.gid.symm, a.rdev.symm, a.nlink.symm, a.size.symm, a.blocks.symm,
    a.atime.symm, a.ctime.symm, a.mtime.symm, a.ndirblks.symm, a.nindirlev.symm,
    fun k lt => (a.bmap k lt).symm⟩

structure Fso.Fits (f : Fso) : Prop where
  mode : f.mode < 2 ^ 32
  uid : f.uid < 2 ^ 32
  gid : f.gid < 2 ^ 32
  nlink : f.nlink < 2 ^ 32
  size : f.size < 2 ^ 32
  blocks : f.blocks < 2 ^ 32
  atime : f.atime < 2 ^ 64
  ctime : f.ctime < 2 ^ 64
  mtime : f.mtime < 2 ^ 64
  ndirblks : f.ndirblks < 2 ^ 8
  nindirlev : f.nindirlev < 2 ^ 8
  bmap : ∀ k, k < 114 → f.bmap k < 2 ^ 32

theorem alike_headerOf (secure : geo.insecure = false) (fits : f.Fits) : Alike { f with rdev := 0 } (loadFso geo (headerOf geo f)) := by
  obtain ⟨mode, uid, gid, nlink, size, blocks, atime, ctime, mtime, ndirblks, nindirlev, bmap⟩ := fits
  have word : ∀ {n}, n < 2 ^ 32 → n % 256 ^ 4 = n := fun lt => mod_eq_of_lt lt
  have long : ∀ {n}, n < 2 ^ 64 → n % 256 ^ 8 = n := fun lt => mod_eq_of_lt lt
  have byte : ∀ {n}, n < 2 ^ 8 → n % 256 ^ 1 = n := fun lt => mod_eq_of_lt lt
  constructor
  case bmap =>
    intro k lt
    show hdBmap (headerOf geo f) k = f.bmap k
    rw [hdBmap_headerOf geo f lt, mod_eq_of_lt (bmap k lt)]
  all_goals
    simp (disch := omega) only [loadFso, headerOf, secure, false_eq_true, if_false, hdMode, hdNlink,
      hdSize, hdBlocks, hdNdirblks, hdNindirlev, getLE_setLE_ne, getLE_setBmap_below, getLE_setLE_same,
      getLE_zero, word, long, byte]

/- What a call on object `i` leaves alone, whatever requests fail on its way -/

theorem stable_natReadFrom {I : Vol → Prop} (bmap : ∀ log, Stable I (natBmap cx i log false))
    (read : ∀ bn, Stable I (blkRead cx bn)) (fuel : Nat) : ∀ off count, Stable I (natReadFrom cx i fuel off count) := by
  induction fuel with
  | zero => exact fun off count => stable_pure _
  | succ fuel ih =>
    intro off count
    unfold natReadFrom
    split
    · exact stable_pure _
    · have rest : ∀ chunk : List Byte, Stable I (do
          let rest ← natReadFrom cx i fuel ((off + chunkLen off count) % 2 ^ 64) (count - chunkLen off count)
          pure (chunk ++ rest)) := fun chunk => stable_bind (ih _ _) fun _ => stable_pure _
      refine stable_bind (bmap _) fun _ => stable_bind stable_get fun s => ?_
      dsimp only
      split
      · exact stable_bind (stable_pure _) rest
      · exact stable_bind (read _) fun _ => stable_bind (stable_pure _) rest

/-- An invariant of the geometry and of the reference count, the device number and the dirty mark of
    object `i`; the mark may be set. -/
structure Loose (i : Nat) (I : Vol → Prop) : Prop where
  aside : ∀ {s t : Vol}, I s → t.fso i = s.fso i → t.fs.geo = s.fs.geo → I t
  attrs : ∀ {s : Vol} {f : Fso}, I s → f.refcnt = (s.fso i).refcnt → f.rdev = (s.fso i).rdev →
    ((s.fso i).dirty = true → f.dirty = true) → I (s.setFso i f)

namespace Loose
variable {i : Nat} {I : Vol → Prop} {cx : Cx}

section
variable (loose : Loose i I)
include loose

theorem blkGet (bn : Nat) : Stable I (blkGet cx bn) := by
  intro s inv
  rw [Natfs.blkGet]
  split <;> exact loose.aside inv rfl rfl

theorem blkRead (bn : Nat) : Stable I (blkRead cx bn) :=
  stable_bind (loose.blkGet bn) fun _ => stable_bind stable_get fun _ => stable_pure _

theorem aside_modify (fso : ∀ s, (g s).fso i = s.fso i)
    (geo : ∀ s, (g s).fs.geo = s.fs.geo) : Stable I (modify g : NatM Unit) :=
  stable_modify fun s inv => loose.aside inv (fso s) (geo s)

theorem modifyFso (refcnt : ∀ f, (g f).refcnt = f.refcnt)
    (rdev : ∀ f, (g f).rdev = f.rdev) (dirty : ∀ f, f.dirty = true → (g f).dirty = true) :
    Stable I (modifyFso i g) :=
  stable_modify fun _ inv => loose.attrs inv (refcnt _) (rdev _) (dirty _)

theorem natSwitchBam (blk : Nat) : Stable I (natSwitchBam cx blk) := by
  have sync : Stable I (natSyncBam cx) := by
    refine stable_bind stable_get fun s => ?_
    split
    · refine stable_bind (loose.aside_modify (fun _ => rfl) fun _ => rfl) fun _ => ?_
      exact stable_bind (loose.blkGet _) fun _ => loose.aside_modify (fun _ => rfl) fun _ => rfl
    · exact stable_pure _
  refine stable_bind stable_get fun s => ?_
  split
  · exact stable_pure _
  · refine stable_bind (stable_attempt sync) fun _ => ?_
    refine stable_bind (stable_attempt (loose.blkRead _)) ?_
    rintro (e | b)
    · exact stable_bind (loose.aside_modify (fun _ => rfl) fun _ => rfl) fun _ => stable_fail _
    · exact loose.aside_modify (fun _ => rfl) fun _ => rfl

theorem natBallocFrom (n : Nat) : ∀ k, Stable I (natBallocFrom cx k n) := by
  induction n with
  | zero => exact fun k => stable_fail _
  | succ n ih =>
    intro k
    refine stable_bind stable_get fun s => ?_
    refine stable_bind (loose.natSwitchBam _) fun _ => ?_
    refine stable_bind stable_get fun s => ?_
    split
    · exact ih _
    · refine stable_bind (loose.aside_modify (fun _ => rfl) fun _ => rfl) fun _ => stable_pure _

theorem natBfree (bn : Nat) : Stable I (natBfree cx bn) := by
  refine stable_bind (loose.aside_modify (fun _ => rfl) fun _ => rfl) fun _ => ?_
  refine stable_bind stable_get fun s => ?_
  refine stable_bind (loose.natSwitchBam _) fun _ => ?_
  exact loose.aside_modify (fun _ => rfl) fun _ => rfl

theorem newBlock : Stable I (newBlock cx) := by
  refine stable_bind (stable_bind stable_get fun s => loose.natBallocFrom _ _) fun bn => ?_
  refine stable_bind (loose.blkGet bn) fun _ => ?_
  exact stable_bind (loose.aside_modify (fun _ => rfl) fun _ => rfl) fun _ => stable_pure _

theorem natBmapDir (log : Nat) (alloc : Bool) : Stable I (natBmapDir cx i log alloc) := by
  unfold Natfs.natBmapDir
  split
  · exact stable_fail _
  · refine stable_bind stable_get fun s => ?_
    split
    · refine stable_bind loose.newBlock fun bn => ?_
      exact stable_bind (loose.modifyFso (fun _ => rfl) (fun _ => rfl) fun _ _ => rfl) fun _ => stable_pure _
    · exact stable_pure _

theorem natBmapWalk (log : Nat) (alloc : Bool) (indl : Nat) :
    ∀ bn, Stable I (natBmapWalk cx i log alloc indl bn) := by
  induction indl with
  | zero => exact fun bn => stable_pure _
  | succ indl ih =>
    intro bn
    unfold Natfs.natBmapWalk
    split
    · exact stable_pure _
    · refine stable_bind (loose.blkRead bn) fun b => ?_
      dsimp only
      split
      · exact ih _
      · split
        · refine stable_bind loose.newBlock fun nb => ?_
          refine stable_bind (loose.aside_modify (fun _ => rfl) fun _ => rfl) fun _ => ?_
          exact stable_bind (loose.modifyFso (fun _ => rfl) (fun _ => rfl) fun _ _ => rfl) fun _ => ih _
        · exact stable_pure _

theorem natBmap (log : Nat) (alloc : Bool) : Stable I (natBmap cx i log alloc) := by
  have cache : ∀ bn, Stable I (setBmapCache i log bn) := fun bn =>
    loose.modifyFso (fun _ => rfl) (fun _ => rfl) fun _ marked => marked
  refine stable_bind stable_get fun s => ?_
  dsimp only
  split
  · exact stable_pure _
  · split
    · exact stable_bind (loose.natBmapDir _ _) cache
    · refine stable_bind (loose.natBmapDir _ _) fun bn => ?_
      exact stable_bind (loose.natBmapWalk _ _ _ _) cache

theorem natWriteFrom (fuel : Nat) : ∀ off data, Stable I (natWriteFrom cx i fuel off data) := by
  induction fuel with
  | zero => exact fun off data => stable_pure _
  | succ fuel ih =>
    intro off data
    unfold Natfs.natWriteFrom
    split
    · exact stable_pure _
    · refine stable_bind (loose.natBmap _ _) fun _ => stable_bind stable_get fun s => ?_
      have put : ∀ phys, Stable I (do
          modify fun s =>
            s.setDev phys (blit (s.dev phys) (off % 512) (data.take (chunkLen off data.length)))
          Natfs.natWriteFrom cx i fuel ((off + chunkLen off data.length) % 2 ^ 64)
            (data.drop (chunkLen off data.length))) := fun phys =>
        stable_bind (loose.aside_modify (fun _ => rfl) fun _ => rfl) fun _ => ih _ _
      dsimp only
      split
      · exact stable_crash
      · split <;> split
        · refine stable_bind (loose.modifyFso (fun _ => rfl) (fun _ => rfl) fun _ _ => rfl) fun _ => ?_
          exact stable_bind (loose.blkRead _) fun _ => put _
        · refine stable_bind (loose.modifyFso (fun _ => rfl) (fun _ => rfl) fun _ _ => rfl) fun _ => ?_
          exact stable_bind (loose.blkGet _) fun _ => put _
        · exact stable_bind (loose.blkRead _) fun _ => put _
        · exact stable_bind (loose.blkGet _) fun _ => put _

theorem truncEntries
    (below : ∀ f, sub = some f → ∀ next, Stable I (f next)) (ds : List Nat) :
    ∀ err, Stable I (truncEntries cx bn sub ds err) := by
  induction ds with
  | nil => exact fun err => stable_pure _
  | cons d ds ih =>
    intro err
    unfold Natfs.truncEntries
    refine stable_bind stable_get fun s => ?_
    dsimp only
    split
    · exact ih _
    · have freed : ∀ err next, Stable I (do
          let err1 ← attempt (Natfs.natBfree cx next)
          Natfs.truncEntries cx bn sub ds (firstErr err (errOf err1))) := fun err next =>
        stable_bind (stable_attempt (loose.natBfree _)) fun _ => ih _
      cases sub with
      | none => exact stable_bind (stable_pure _) fun _ => freed _ _
      | some f =>
        refine stable_bind (stable_attempt (below f rfl _)) ?_
        rintro (_ | _) <;> exact stable_bind (stable_pure _) fun _ => freed _ _

theorem natTruncIndir (lev : Nat) : ∀ bn, Stable I (natTruncIndir cx lev bn) := by
  induction lev with
  | zero =>
    intro bn
    exact stable_bind (loose.blkRead bn) fun _ => loose.truncEntries (fun _ eq => by cases eq) _ _
  | succ lev ih =>
    intro bn
    refine stable_bind (loose.blkRead bn) fun _ => loose.truncEntries ?_ _ _
    rintro f ⟨rfl⟩
    exact ih

theorem truncSlot (indl k : Nat) : Stable I (truncSlot cx i indl k) := by
  refine stable_bind stable_get fun s => ?_
  dsimp only
  split
  · exact stable_pure _
  · have freed : ∀ bn, Stable I (do
        let _ ← attempt (Natfs.natBfree cx bn)
        Natfs.modifyFso i fun f => { f with bmap := update f.bmap k 0 }) := fun bn =>
      stable_bind (stable_attempt (loose.natBfree _)) fun _ =>
        loose.modifyFso (fun _ => rfl) (fun _ => rfl) fun _ marked => marked
    split
    · exact stable_bind (stable_attempt (loose.natTruncIndir _ _)) fun _ => freed _
    · exact freed _

end

end Loose

/- An object from its creation to its last reference -/

/-- Object `i` is held by one reference, and has the device number of the header `hd`. -/
structure Held (geo : Geo) (hd : Mem) (i : Nat) (s : Vol) : Prop where
  geo : s.fs.geo = geo
  refcnt : (s.fso i).refcnt = 1
  rdev : (s.fso i).rdev = getLE hd 48 4

structure Dirtied (geo : Geo) (hd : Mem) (i : Nat) (s : Vol) : Prop extends Held geo hd i s where
  dirty : (s.fso i).dirty = true

/-- Object `i` is as it was loaded from the header `hd`, and the header is still there. -/
structure Untouched (g : Geo) (hd : Mem) (i : Nat) (s : Vol) : Prop extends Held g hd i s where
  dirty : (s.fso i).dirty = false
  header : s.dev i = hd
  attrs : Alike (loadFso g hd) (s.fso i)

/-- What all effects keep: a change of the attributes comes with the dirty mark. -/
def Tracked (geo : Geo) (hd : Mem) (i : Nat) (s : Vol) : Prop := Dirtied geo hd i s ∨ Untouched geo hd i s

section Tracking
variable {geo : Geo} {hd : Mem} {i : Nat} {s t : Vol} {cx : Cx}

theorem Held.set (held : Held geo hd i s) (refcnt : f.refcnt = (s.fso i).refcnt)
    (rdev : f.rdev = (s.fso i).rdev) : Held geo hd i (s.setFso i f) := by
  refine ⟨held.geo, ?_, ?_⟩
  · simp only [Vol.setFso, update_same]
    exact refcnt.trans held.refcnt
  · simp only [Vol.setFso, update_same]
    exact rdev.trans held.rdev

theorem Held.mark (held : Held geo hd i s) (refcnt : f.refcnt = (s.fso i).refcnt)
    (rdev : f.rdev = (s.fso i).rdev) (dirty : f.dirty = true) : Tracked geo hd i (s.setFso i f) := by
  refine .inl ⟨held.set refcnt rdev, ?_⟩
  simp only [Vol.setFso, update_same]
  exact dirty

theorem loose_held : Loose i (Held geo hd i) := by
  constructor
  · intro s t held fso same
    exact ⟨same.trans held.geo, by rw [fso]; exact held.refcnt, by rw [fso]; exact held.rdev⟩
  · intro s f held refcnt rdev _
    exact held.set refcnt rdev

theorem loose_dirtied : Loose i (Dirtied geo hd i) := by
  constructor
  · intro s t inv fso same
    exact ⟨loose_held.aside inv.toHeld fso same, by rw [fso]; exact inv.dirty⟩
  · intro s f inv refcnt rdev dirty
    refine ⟨inv.toHeld.set refcnt rdev, ?_⟩
    simp only [Vol.setFso, update_same]
    exact dirty inv.dirty

theorem Tracked.held (tracked : Tracked geo hd i s) : Held geo hd i s := by
  rcases tracked with inv | inv
  · exact inv.toHeld
  · exact inv.toHeld

namespace Untouched

theorem tick (inv : Untouched geo hd i s) (n : Nat) : Untouched geo hd i { s with tick := n } :=
  ⟨⟨inv.geo, inv.refcnt, inv.rdev⟩, inv.dirty, inv.header, inv.attrs⟩

theorem blkRead (bn : Nat) : Stable (Untouched geo hd i) (blkRead cx bn) := by
  refine stable_bind ?_ fun _ => stable_bind stable_get fun _ => stable_pure _
  intro s inv
  rw [blkGet]
  split <;> exact inv.tick _

theorem natBmap (log : Nat) : Stable (Untouched geo hd i) (natBmap cx i log false) := by
  have cache : ∀ bn, Stable (Untouched geo hd i) (setBmapCache i log bn) := by
    intro bn
    refine stable_modify fun s inv => ⟨inv.toHeld.set rfl rfl, ?_, inv.header, ?_⟩
    · simp only [Vol.setFso, update_same]
      exact inv.dirty
    · obtain ⟨mode, uid, gid, rdev, nlink, size, blocks, atime, ctime, mtime, ndirblks, nindirlev, bmap⟩ := inv.attrs
      simp only [Vol.setFso, update_same]
      exact ⟨mode, uid, gid, rdev, nlink, size, blocks, atime, ctime, mtime, ndirblks, nindirlev, bmap⟩
  have direct : ∀ k, Stable (Untouched geo hd i) (natBmapDir cx i k false) := by
    intro k
    unfold natBmapDir
    split
    · exact stable_fail _
    · simp only [Bool.false_and, Bool.false_eq_true, if_false]
      exact stable_bind stable_get fun _ => stable_pure _
  have walk : ∀ lev bn, Stable (Untouched geo hd i) (natBmapWalk cx i log false lev bn) := by
    intro lev
    induction lev with
    | zero => exact fun bn => stable_pure _
    | succ lev ih =>
      intro bn
      unfold natBmapWalk
      split
      · exact stable_pure _
      · refine stable_bind (blkRead bn) fun b => ?_
        simp only [false_eq_true, if_false]
        split
        · exact ih _
        · exact stable_pure _
  refine stable_bind stable_get fun s => ?_
  dsimp only
  split
  · exact stable_pure _
  · split
    · exact stable_bind (direct _) cache
    · exact stable_bind (direct _) fun bn => stable_bind (walk _ bn) cache

end Untouched

theorem tracked_natReadFrom (fuel off count : Nat) :
    Stable (Tracked geo hd i) (natReadFrom cx i fuel off count) := by
  rintro s (inv | inv)
  · exact .inl (stable_natReadFrom (loose_dirtied.natBmap · _) loose_dirtied.blkRead fuel off count s inv)
  · exact .inr (stable_natReadFrom Untouched.natBmap Untouched.blkRead fuel off count s inv)

theorem truncSlot_fails (indl k : Nat) : Cmd.Fails (truncSlot cx i indl k) fun _ => False := by
  refine fails_bind fails_get fun s => ?_
  have freed : ∀ bn, Cmd.Fails (do
      let _ ← attempt (natBfree cx bn)
      modifyFso i fun f => { f with bmap := update f.bmap k 0 }) fun _ => False := fun bn =>
    fails_bind fails_attempt fun _ => fails_modify _
  dsimp only
  split
  · exact fails_pure _
  · split
    · exact fails_bind fails_attempt fun _ => freed _
    · exact freed _

theorem Tracked.effect (tracked : Tracked geo hd i s) (e : Effect) :
    wp (e.run cx i) (fun r t => r = .crash ∨ Tracked geo hd i t) s := by
  have held := tracked.held
  cases e with
  | chmod mode =>
    simp only [Effect.run, sysFchmod, wp_bind, wp_get, after_ok]
    split
    · exact .inr tracked
    · split
      · exact .inr tracked
      · exact .inr (held.mark rfl rfl rfl)
  | chown uid gid =>
    simp only [Effect.run, sysFchown, wp_bind, wp_get, after_ok]
    split
    · exact .inr tracked
    · split
      · exact .inr tracked
      · exact .inr (held.mark rfl rfl rfl)
  | link => exact .inr (held.mark rfl rfl rfl)
  | read offset count =>
    simp only [Effect.run, natRead, wp_bind]
    have rest : ∀ {t : Vol} (count : Nat), Tracked geo hd i t → wp (natReadFrom cx i count offset count)
        (after (fun _ => (pure () : NatM Unit)) fun r t => r = .crash ∨ Tracked geo hd i t) t := by
      intro t count inv
      apply wp_of_stable (tracked_natReadFrom count offset count) inv
      rintro (_ | _ | _) u inv'
      · exact .inr inv'
      · exact .inr inv'
      · exact .inl rfl
    apply wp_fsChkPerm
    · intro _
      simp only [after_ok, wp_bind, wp_get]
      split
      · exact .inr tracked
      · split
        · exact .inr tracked
        · split
          · exact .inr tracked
          · split
            · exact rest _ (held.mark rfl rfl rfl)
            · exact rest _ tracked
    · exact fun e _ => .inr tracked
  | write offset data =>
    simp only [Effect.run, natWrite, wp_bind]
    apply wp_fsChkPerm
    · intro _
      simp only [after_ok, wp_bind, wp_get]
      split
      · exact .inr tracked
      · split
        · exact .inr tracked
        · split
          · exact .inr tracked
          · have marked : Dirtied geo hd i (s.setFso i { s.fso i with mtime := cx.clock s.tick, dirty := true }) :=
              ⟨held.set rfl rfl, by simp only [Vol.setFso, update_same]⟩
            simp only [wp_bind, wp_clockTime, after_ok, modifyFso, wp_modify]
            exact wp_of_stable (loose_dirtied.natWriteFrom data.length offset data) marked
              fun r t inv => .inr (.inl inv)
    · exact fun e _ => .inr tracked
  | trunc =>
    simp only [Effect.run, natTrunc, wp_bind, wp_get, after_ok]
    split
    · exact .inr tracked
    · simp only [wp_bind]
      have round : ∀ k, Stable (fun t => Held geo hd i t) (truncSlot cx i (s.fso i).nindirlev k) := fun k =>
        loose_held.truncSlot (s.fso i).nindirlev k
      have quiet : ∀ k, Cmd.Fails (truncSlot cx i (s.fso i).nindirlev k) fun _ => False := fun k =>
        truncSlot_fails (s.fso i).nindirlev k
      have slots := stable_forEach round (List.range 114) s held
      have fails := fails_forEach quiet (List.range 114) s
      rw [wp]
      rcases run : forEach (List.range 114) (truncSlot cx i (s.fso i).nindirlev) s with ⟨_ | e | _, t⟩
      · rw [run] at slots
        exact .inr (slots.mark rfl rfl rfl)
      · rw [run] at fails
        exact (fails e rfl).elim
      · exact .inl rfl

theorem Tracked.run (tracked : Tracked geo hd i s) (run : Effect.Run i s t) : Tracked geo hd i t := by
  induction run with
  | refl => exact tracked
  | tail _ step ih =>
    obtain ⟨cx, e, r, returns, ran⟩ := step
    have kept : wp (e.run cx i) (fun r t => r = .crash ∨ Tracked geo hd i t) _ := ih.effect e
    rw [wp, ran] at kept
    exact kept.resolve_left returns

end Tracking

/- The last reference goes, and the object is loaded again -/

section Reloading
variable {cx : Cx} {s t : Vol} {i : Nat}

theorem wp_fsPutfso_last (noio : cx.NoIoError) (last : (s.fso i).refcnt = 1) (linked : (s.fso i).nlink ≠ 0)
    (post : ∀ t, (t.fso i).refcnt = 0 → t.fs = s.fs →
      t.dev i = (if (s.fso i).dirty then headerOf s.fs.geo (s.fso i) else s.dev i) → Q (.ok ()) t) :
    wp (fsPutfso cx i) Q s := by
  simp only [fsPutfso, wp_bind, wp_get, after_ok]
  rw [if_neg (by omega), if_pos last]
  simp only [wp_bind, wp_attempt, natPutfso, wp_get, after_ok, if_neg linked, natSyncfso]
  cases dirty : (s.fso i).dirty with
  | true =>
    simp only [if_true, wp_bind, wp_blkGet noio, after_ok, blkFill, wp_modify, modifyFso,
      caught_ok]
    apply post
    · simp only [Vol.setFso, Vol.setDev, update_same, last]
    · rfl
    · simp only [Vol.setFso, Vol.setDev, update_same, dirty, if_true]
  | false =>
    simp only [false_eq_true, if_false, wp_pure, caught_ok, after_ok, modifyFso, wp_modify]
    apply post
    · simp only [Vol.setFso, update_same, last]
    · rfl
    · simp only [Vol.setFso, dirty, false_eq_true, if_false]

/-- What is loaded again: the attributes without the device number when they have been saved, and the
    attributes as they were when they have not. -/
theorem Tracked.reloaded (noio : cx.NoIoError)
    (tracked : Tracked geo hd i s) (secure : geo.insecure = false) (fits : (s.fso i).Fits)
    (linked : (s.fso i).nlink ≠ 0) (put : fsPutfso cx i s = (.ok (), t)) (got : fsGetfso cx' i t = (.ok (), u)) :
    Alike (if (s.fso i).dirty then { s.fso i with rdev := 0 } else s.fso i) (u.fso i) := by
  have held := tracked.held
  have dropped : wp (fsPutfso cx i) (fun _ t => (t.fso i).refcnt = 0 ∧ t.fs = s.fs ∧
      t.dev i = if (s.fso i).dirty then headerOf s.fs.geo (s.fso i) else s.dev i) s :=
    wp_fsPutfso_last noio held.refcnt linked fun t closed fs header => ⟨closed, fs, header⟩
  rw [wp, put] at dropped
  obtain ⟨closed, fs, header⟩ := dropped
  have loaded : wp (fsGetfso cx' i) (fun r u => r = .ok () → Loaded u i (t.dev i) ∧ u.fs = t.fs) t :=
    wp_fsGetfso_loaded closed (fun u loaded fs _ => ⟨loaded, fs⟩) fun e u failed => by cases failed
  rw [wp, got] at loaded
  obtain ⟨loaded, fs'⟩ := loaded rfl
  have geo' : u.fs.geo = geo := by rw [fs', fs, held.geo]
  rw [loaded.fso, geo', header, held.geo]
  rcases tracked with inv | inv
  · rw [if_pos inv.dirty, if_pos inv.dirty]
    exact alike_headerOf secure fits
  · have clean : ¬ (s.fso i).dirty = true := by
      rw [inv.dirty]
      exact false_ne_true
    rw [if_neg clean, if_neg clean, inv.header]
    exact inv.attrs.symm

theorem Alike.rdev_iff (alike : Alike (if f.dirty then { f with rdev := 0 } else f) g) :
    Alike f g ↔ f.rdev = 0 ∨ f.dirty = false := by
  by_cases dirty : f.dirty = true
  · rw [if_pos dirty] at alike
    constructor
    · exact fun same => .inl (same.rdev.symm.trans alike.rdev)
    · rintro (none | clean)
      · have same : ({ f with rdev := 0 } : Fso) = f := by rw [← none]
        rw [same] at alike
        exact alike
      · exact absurd dirty (clean ▸ false_ne_true)
  · rw [if_neg dirty] at alike
    exact iff_of_true alike (.inr (eq_false_iff.mpr dirty))

end Reloading

/-- An object that `nat_creat` has made, that has been changed while it was in use and that has left
    memory is loaded with the attributes it had if and only if it has no device number or has not been
    saved: `nat_syncfso` writes the header without it. -/
theorem reload_iff {cx cx' cx'' : Cx} {s made t dropped loaded : Vol} {name : CStr} {mode rdev i : Nat}
    (noio : cx.NoIoError) (noio' : cx'.NoIoError) (sane : Sane s) (secure : s.fs.geo.insecure = false)
    (fits : rdev < 2 ^ 32) (creat : natCreat cx name mode rdev s = (.ok i, made)) (changed : Effect.Run i made t)
    (fits' : (t.fso i).Fits) (linked : (t.fso i).nlink ≠ 0) (put : fsPutfso cx' i t = (.ok (), dropped))
    (got : fsGetfso cx'' i dropped = (.ok (), loaded)) :
    Alike (t.fso i) (loaded.fso i) ↔ rdev = 0 ∨ (t.fso i).dirty = false := by
  have created : wp (natCreat cx name mode rdev) (fun r u => ∀ nr, r = .ok nr → ∃ now,
      Loaded u nr (newHeader cx s.fs.geo mode rdev now) ∧ u.fs.geo = s.fs.geo) s := by
    apply wp_natCreat_loaded noio sane
    · rintro u nr now _ here geo _ ⟨rfl⟩
      exact ⟨now, here, geo⟩
    · exact fun e u _ nr failed => by cases failed
    · exact fun u nr failed => by cases failed
  rw [wp, creat] at created
  obtain ⟨now, here, geo⟩ := created i rfl
  have number : getLE (newHeader cx s.fs.geo mode rdev now) 48 4 = rdev := by
    simp (disch := omega) only [newHeader, getLE_setLE_ne, getLE_setLE_same]
    exact mod_eq_of_lt fits
  have fresh : Tracked s.fs.geo (newHeader cx s.fs.geo mode rdev now) i made := by
    refine .inr ⟨⟨geo, ?_, ?_⟩, ?_, here.dev, ?_⟩
    · rw [here.fso]; rfl
    · rw [here.fso]; rfl
    · rw [here.fso]; rfl
    · rw [here.fso, geo]
      exact .refl _
  have tracked := fresh.run changed
  rw [(tracked.reloaded noio' secure fits' linked put got).rdev_iff, tracked.held.rdev, number]

def nodeMade (rdev : Nat) : Vol := (natCreat rootCx (letters 1) 0o20600 rdev (newVolume 100 2)).2
def nodeChanged (rdev : Nat) : Vol := (sysFchmod rootCx 4 0o666 (nodeMade rdev)).2
def nodeDropped (rdev : Nat) : Vol := (fsPutfso rootCx 4 (nodeChanged rdev)).2
def nodeLoaded (rdev : Nat) : Vol := (fsGetfso rootCx 4 (nodeDropped rdev)).2

theorem newVolume_arises : Arises (newVolume 100 2) :=
  ⟨100, 2, _, sound_hundred, by decide, mounted_hundred, .refl⟩

/-- Device 0 is loaded again. -/
theorem reload_iff_zero : Alike ((nodeChanged 0).fso 4) ((nodeLoaded 0).fso 4) := by
  have creat : (natCreat rootCx (letters 1) 0o20600 0 (newVolume 100 2)).1 = .ok 4 := by decide +kernel
  have chmod : (sysFchmod rootCx 4 0o666 (nodeMade 0)).1 = .ok () := by decide +kernel
  have put : (fsPutfso rootCx 4 (nodeChanged 0)).1 = .ok () := by decide +kernel
  have got : (fsGetfso rootCx 4 (nodeDropped 0)).1 = .ok () := by decide +kernel
  have fits : ((nodeChanged 0).fso 4).Fits := by constructor <;> decide +kernel
  have changed : Effect.Run 4 (nodeMade 0) (nodeChanged 0) :=
    .single ⟨rootCx, .chmod 0o666, .ok (), by decide, Prod.ext chmod rfl⟩
  exact (@reload_iff rootCx rootCx rootCx (newVolume 100 2) (nodeMade 0) (nodeChanged 0) (nodeDropped 0)
    (nodeLoaded 0) (letters 1) 0o20600 0 4 (fun _ => rfl) (fun _ => rfl) newVolume_arises.sane (by decide +kernel)
    (by decide) (Prod.ext creat rfl) changed fits (by decide +kernel) (Prod.ext put rfl) (Prod.ext got rfl)).mpr
    (.inl rfl)

/-- Device 0x105 comes back as device 0. -/
theorem reload_loses_rdev : Arises (newVolume 100 2) ∧ (newVolume 100 2).fs.geo.insecure = false ∧
    natCreat rootCx (letters 1) 0o20600 0x105 (newVolume 100 2) = (.ok 4, nodeMade 0x105) ∧
    Effect.Run 4 (nodeMade 0x105) (nodeChanged 0x105) ∧ ((nodeChanged 0x105).fso 4).Fits ∧
    ((nodeChanged 0x105).fso 4).nlink ≠ 0 ∧
    fsPutfso rootCx 4 (nodeChanged 0x105) = (.ok (), nodeDropped 0x105) ∧
    fsGetfso rootCx 4 (nodeDropped 0x105) = (.ok (), nodeLoaded 0x105) ∧
    ((nodeChanged 0x105).fso 4).rdev = 0x105 ∧ ((nodeLoaded 0x105).fso 4).rdev = 0 ∧
    ¬ Alike ((nodeChanged 0x105).fso 4) ((nodeLoaded 0x105).fso 4) := by
  have creat : (natCreat rootCx (letters 1) 0o20600 0x105 (newVolume 100 2)).1 = .ok 4 := by decide +kernel
  have chmod : (sysFchmod rootCx 4 0o666 (nodeMade 0x105)).1 = .ok () := by decide +kernel
  have put : (fsPutfso rootCx 4 (nodeChanged 0x105)).1 = .ok () := by decide +kernel
  have got : (fsGetfso rootCx 4 (nodeDropped 0x105)).1 = .ok () := by decide +kernel
  have before : ((nodeChanged 0x105).fso 4).rdev = 0x105 := by decide +kernel
  have after : ((nodeLoaded 0x105).fso 4).rdev = 0 := by decide +kernel
  refine ⟨newVolume_arises, by decide +kernel, Prod.ext creat rfl, ?_, ?_, by decide +kernel, Prod.ext put rfl,
    Prod.ext got rfl, before, after, ?_⟩
  · exact .single ⟨rootCx, .chmod 0o666, .ok (), by decide, Prod.ext chmod rfl⟩
  · constructor <;> decide +kernel
  · intro same
    have kept := same.rdev
    rw [before, after] at kept
    cases kept

end Natfs
