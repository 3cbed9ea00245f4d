import Newsys.Natfs.Bmap

/- File system objects: loading and saving headers (kern/fs/nat/fso.c) and the reference
   counted table of objects (kern/fs/main.c). -/
namespace Natfs
open Bytes Cmds Cmd Option

def natImode (mode : Nat) : Nat :=
  let n := sIfmt mode ||| 0o444
  let n := if mode &&& 0o222 ≠ 0 then n ||| 0o222 else n
  if mode &&& 0o111 ≠ 0 then n ||| 0o111 else n

/-- What `nat_getfso` makes of a header block, in a slot that has been cleared. -/
def loadFso (geo : Geo) (hd : Mem) : Fso :=
  { refcnt := 1
    dirty := false
    nlink := hdNlink hd
    uid := if geo.insecure then 0 else getLE hd 24 4
    gid := if geo.insecure then 0 else getLE hd 28 4
    ctime := getLE hd 0 8
    mtime := getLE hd 8 8
    atime := getLE hd 16 8
    blocks := hdBlocks hd
    mode := if geo.insecure then natImode (hdMode hd) else hdMode hd
    size := hdSize hd
    rdev := getLE hd 48 4
    bmapValid := false
    bmapLog := 0
    bmapPhys := 0
    bmap := hdBmap hd
    ndirblks := hdNdirblks hd
    nindirlev := hdNindirlev hd }

def setBmap (m : Mem) (bmap : Nat → Nat) : Mem := fun k =>
  if 56 ≤ k ∧ k < 512 then BitVec.ofNat 8 (bmap ((k - 56) / 4) / 256 ^ ((k - 56) % 4)) else m k

/-- The header block that `nat_syncfso` writes; it has no device number in it. -/
def headerOf (geo : Geo) (f : Fso) : Mem :=
  let hd := setLE zero 44 4 f.blocks
  let hd := setLE hd 32 4 f.size
  let hd := setLE hd 36 4 (if geo.insecure then natImode f.mode else f.mode)
  let hd := setLE hd 24 4 (if geo.insecure then 0 else f.uid)
  let hd := setLE hd 28 4 (if geo.insecure then 0 else f.gid)
  let hd := setLE hd 16 8 f.atime
  let hd := setLE hd 0 8 f.ctime
  let hd := setLE hd 8 8 f.mtime
  let hd := setLE hd 40 4 f.nlink
  let hd := setBmap hd f.bmap
  let hd := setLE hd 52 1 f.ndirblks
  setLE hd 53 1 f.nindirlev

def natSyncfso (cx : Cx) (i : Nat) : NatM Unit := do
  let s ← get
  if (s.fso i).dirty then
    blkGet cx i
    blkFill i (headerOf s.fs.geo (s.fso i))
    modifyFso i fun f => { f with dirty := false }
  else pure ()

/-- The last reference goes: an object without links is freed, any other is saved. -/
def natPutfso (cx : Cx) (i : Nat) : NatM Unit := do
  let s ← get
  if (s.fso i).nlink = 0 then
    let _ ← attempt (natTrunc cx i)
    let _ ← attempt (natBfree cx i)
    modify fun s => { s with files := s.files.erase i }
  else natSyncfso cx i

def newSlot (cx : Cx) : NatM Unit := fun s =>
  match cx.nomem s.tick with
  | some e => (.err e, { s with tick := s.tick + 1 })
  | none => (.ok (), { s with tick := s.tick + 1 })

def fsGetfso (cx : Cx) (i : Nat) : NatM Unit := do
  let s ← get
  if (s.fso i).refcnt ≠ 0 then modifyFso i fun f => { f with refcnt := f.refcnt + 1 }
  else
    newSlot cx
    let hd ← blkRead cx i
    modify fun s => s.setFso i (loadFso s.fs.geo hd)

def fsPutfso (cx : Cx) (i : Nat) : NatM Unit := do
  let s ← get
  if (s.fso i).refcnt = 0 then crash
  else
    if (s.fso i).refcnt = 1 then
      let _ ← attempt (natPutfso cx i)
      pure ()
    else pure ()
    modifyFso i fun f => { f with refcnt := f.refcnt - 1 }

/- Permissions (kern/fs/misc.c) -/

abbrev rOk : Nat := 4
abbrev wOk : Nat := 2
abbrev xOk : Nat := 1

def permBits (cx : Cx) (geo : Geo) (f : Fso) : Nat × Nat × Nat :=
  if geo.insecure then (0o444, 0o222, 0o111)
  else if f.uid = cx.euid then (0o400, 0o200, 0o100)
  else if f.gid = cx.egid then (0o40, 0o20, 0o10)
  else (0o4, 0o2, 0o1)

def permError (cx : Cx) (geo : Geo) (f : Fso) (mode : Nat) : Option Errno :=
  let (r, w, x) := permBits cx geo f
  if mode &&& wOk ≠ 0 ∧ geo.readOnly = true then some .EROFS
  else if cx.euid = 0 then none
  else if mode &&& rOk ≠ 0 ∧ f.mode &&& r = 0 then some .EACCES
  else if mode &&& wOk ≠ 0 ∧ f.mode &&& w = 0 then some .EACCES
  else if mode &&& xOk ≠ 0 ∧ f.mode &&& x = 0 then some .EACCES
  else none

def fsChkPerm (cx : Cx) (i mode : Nat) : NatM Unit := do
  let s ← get
  match permError cx s.fs.geo (s.fso i) mode with
  | some e => fail e
  | none => pure ()

structure SameOwner (f f' : Fso) : Prop where
  uid : f'.uid = f.uid
  gid : f'.gid = f.gid
  mode : f'.mode = f.mode

theorem SameOwner.trans (a : SameOwner f g) (b : SameOwner g h) : SameOwner f h :=
  ⟨b.uid.trans a.uid, b.gid.trans a.gid, b.mode.trans a.mode⟩

theorem SameOwner.permError (o : SameOwner f f') (cx : Cx) (geo : Geo) (mode : Nat) :
    permError cx geo f' mode = permError cx geo f mode := by
  unfold Natfs.permError permBits
  rw [o.uid, o.gid, o.mode]

theorem permError_cases (denied : permError cx geo f mode = some e) : e = .EROFS ∨ e = .EACCES := by
  unfold permError at denied
  simp only at denied
  split at denied
  · exact .inl (some.inj denied).symm
  · split at denied
    · cases denied
    · split at denied
      · exact .inr (some.inj denied).symm
      · split at denied
        · exact .inr (some.inj denied).symm
        · split at denied
          · exact .inr (some.inj denied).symm
          · cases denied

theorem wp_fsChkPerm (ok : permError cx s.fs.geo (s.fso i) mode = none → Q (.ok ()) s)
    (denied : ∀ e, permError cx s.fs.geo (s.fso i) mode = some e → Q (.err e) s) :
    wp (fsChkPerm cx i mode) Q s := by
  simp only [fsChkPerm, wp_bind, wp_get, after_ok]
  cases outcome : permError cx s.fs.geo (s.fso i) mode with
  | none => exact ok outcome
  | some e => exact denied e outcome

end Natfs
