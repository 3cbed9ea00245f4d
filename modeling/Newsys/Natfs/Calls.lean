import Newsys.Natfs.Create
import Newsys.Natfs.Rename

/- The calls that reach a native volume, one after another: those of the file system itself, and
   the system calls (kern/fs/syscall.c, kern/fs/misc.c) that are made of them. -/
namespace Natfs
open Bytes Cmds Cmd Links

/- The operations of the file system -/

/-- A request to the file system. `lookup` stands for any call that takes a reference. -/
inductive Op where
  | lookup (pathname : CStr)
  | creat (pathname : CStr) (mode rdev : Nat)
  | mkdir (pathname : CStr) (mode : Nat)
  | link (i : Nat) (pathname : CStr)
  | unlink (pathname : CStr)
  | rename (oldname newname : CStr)
  | rmdir (pathname : CStr)
  | write (i offset : Nat) (data : List Byte)
  | trunc (i : Nat)
  | putfso (i : Nat)

namespace Op

def run (cx : Cx) : Op → NatM Unit
  | lookup pathname => do
    let _ ← natLookup cx pathname
    pure ()
  | creat pathname mode rdev => do
    let _ ← natCreat cx pathname mode rdev
    pure ()
  | mkdir pathname mode => natMkdir cx pathname mode
  | link i pathname => natLink cx i pathname
  | unlink pathname => natUnlink cx pathname
  | rename oldname newname => natRename cx oldname newname
  | rmdir pathname => natRmdir cx pathname
  | write i offset data => natWrite cx i offset data
  | trunc i => natTrunc cx i
  | putfso i => fsPutfso cx i

/-- The object that a request is about is in use. -/
def Valid (s : Vol) : Op → Prop
  | link i _ | write i _ _ | trunc i | putfso i => (s.fso i).refcnt ≠ 0
  | _ => True

/-- No link count overflows. -/
def Fits (s : Vol) : Op → Prop
  | link i _ => (s.fso i).nlink + 1 < 2 ^ 32
  | _ => True

end Op

/- The system calls -/

abbrev oTrunc : Nat := 0o1000

def openPerm (cx : Cx) (fso mode : Nat) : NatM Unit :=
  if mode &&& 7 = 0 then fsChkPerm cx fso rOk
  else if mode &&& 7 = 1 then fsChkPerm cx fso wOk
  else if mode &&& 7 = 2 then fsChkPerm cx fso (rOk ||| wOk)
  else if mode &&& 7 = 3 then pure ()
  else fail .EINVAL

def sysOpen (cx : Cx) (pathname : CStr) (mode : Nat) : NatM Unit := do
  let fso ← natLookup cx pathname
  onError (openPerm cx fso mode) (fsPutfso cx fso)
  if mode &&& oTrunc ≠ 0 then
    onError (fsChkPerm cx fso wOk) (fsPutfso cx fso)
    onError (natTrunc cx fso) (fsPutfso cx fso)
  else pure ()
  -- the tables of files and of descriptors may be full
  onError (newSlot cx) (fsPutfso cx fso)
  onError (newSlot cx) (fsPutfso cx fso)

def sysMknod (cx : Cx) (pathname : CStr) (mode rdev : Nat) : NatM Unit :=
  if cx.euid ≠ 0 ∧ !sIsreg mode ∧ !sIsfifo mode then fail .EPERM
  else do
    let f ← natCreat cx pathname mode rdev
    fsPutfso cx f

def sysLink (cx : Cx) (oldname newname : CStr) : NatM Unit := do
  let f ← natLookup cx oldname
  let s ← get
  if cx.euid ≠ 0 ∧ (s.fso f).uid ≠ cx.euid then
    fsPutfso cx f
    fail .EACCES
  else
    onError (natLink cx f newname) (fsPutfso cx f)
    fsPutfso cx f

inductive Sys where
  | open (pathname : CStr) (mode : Nat)
  | mknod (pathname : CStr) (mode rdev : Nat)
  | mkdir (pathname : CStr) (mode : Nat)
  | link (oldname newname : CStr)
  | unlink (pathname : CStr)
  | rename (oldname newname : CStr)
  | rmdir (pathname : CStr)
  | write (i offset : Nat) (data : List Byte)
  | close (i : Nat)

namespace Sys

def run (cx : Cx) : Sys → NatM Unit
  | .open pathname mode => sysOpen cx pathname mode
  | mknod pathname mode rdev => sysMknod cx pathname mode rdev
  | mkdir pathname mode => natMkdir cx pathname mode
  | link oldname newname => sysLink cx oldname newname
  | unlink pathname => natUnlink cx pathname
  | rename oldname newname => natRename cx oldname newname
  | rmdir pathname => natRmdir cx pathname
  | write i offset data => do
    fsChkPerm cx i wOk
    natWrite cx i offset data
  | close i => fsPutfso cx i

def Valid (s : Vol) : Sys → Prop
  | write i _ _ | close i => (s.fso i).refcnt ≠ 0
  | _ => True

/-- The calls that keep the links in order: no directory with entries is truncated, no renaming loses
    an entry, no link count overflows. -/
def Fits (cx : Cx) (s : Vol) : Sys → Prop
  | .open pathname mode => mode &&& oTrunc = 0 ∨
      ∀ i, (tree s).Walk (tree s).root (Sane.fullPath pathname) i → (tree s).ents i = []
  | link oldname _ =>
      ∀ i, (tree s).Walk (tree s).root (Sane.fullPath oldname) i → (hdr s i).nlink + 1 < 2 ^ 32
  | rename oldname newname => ¬ EntryRefused cx s oldname newname
  | _ => True

end Sys

/- What each call keeps in order -/

section Steps
variable {cx : Cx} {s t : Vol} {i : Nat}

theorem Sane.refl_keeps (sane : Sane s) : Keeps s s := sane.keeps (.refl sane.disk)

variable {Q : Res Errno Unit → Vol → Prop}

section
variable (noio : cx.NoIoError)
include noio

theorem Sane.wp_trunc (sane : Sane s) (ref : (s.fso i).refcnt ≠ 0)
    (post : ∀ t, Sane t → ((tree s).ents i = [] → Keeps s t) → (t.fso i).refcnt = (s.fso i).refcnt → Q (.ok ()) t) :
    wp (natTrunc cx i) Q s := by
  have dep := sane.toInOrder.depicts
  apply wp_natTrunc noio sane.disk ref
  intro t trunc
  have dep' := dep.truncated trunc ref
  have node : i ∈ (tree s).nodes := dep.node ref
  have bounded := sane.bounded.unbind node ((tree s).ents i) (l := []) (by rw [List.append_nil])
  refine post t ⟨dep'.inOrder, dep'.same.bounded bounded⟩ ?_ (by rw [trunc.self])
  intro none
  exact ⟨_, dep', (sane.sequel []).same (Links.Graph.same_setEnts (by
    show List.Perm [] ((tree s).ents i)
    rw [none]))⟩

theorem Sane.wp_write (sane : Sane s) (ref : (s.fso i).refcnt ≠ 0) (offset : Nat)
    (data : List Byte) : wp (natWrite cx i offset data) (fun _ t => Keeps s t) s := by
  have dep := sane.toInOrder.depicts
  by_cases dir : isDir s i
  · -- a directory is not written to
    have kind : sIsdir (s.fso i).mode = true := ((Quiet.refl sane.disk).kind ref).mpr dir
    simp only [natWrite, wp_bind]
    apply wp_fsChkPerm
    · intro _
      simp only [after_ok, wp_bind, wp_get, kind, if_true]
      exact sane.refl_keeps
    · exact fun e _ => sane.refl_keeps
  · have none : (tree s).ents i = [] := by simp only [tree, if_neg dir]
    have same : Links.Graph.Same (tree s) ((tree s).setEnts i []) := Links.Graph.same_setEnts (by rw [none])
    have keeps : ∀ t data', Wrote s t i offset data' → Keeps s t := fun t data' wrote =>
      ⟨_, dep.worked wrote.worked ref (fun h => absurd h dir) (fun h => absurd h dir) fun _ => rfl,
        (sane.sequel []).same same⟩
    apply wp_natWrite noio sane.disk ref
    · exact fun t _ wrote => keeps t data wrote
    · exact fun t n e _ _ wrote => keeps t (data.take n) wrote

theorem Sane.wp_close (sane : Sane s) (ref : (s.fso i).refcnt ≠ 0)
    (post : ∀ t, Keeps s t → Q (.ok ()) t) : wp (fsPutfso cx i) Q s := by
  have dep := sane.toInOrder.depicts
  apply wp_put noio dep ref
  exact fun t dep' => post t ⟨_, dep', (sane.sequel []).put (dep.node ref) ref⟩

theorem Op.sane (sane : Sane s) {op : Op} (valid : op.Valid s) (fits : op.Fits s) :
    wp (op.run cx) (fun r t => r = .crash ∨ Sane t) s := by
  have keep : ∀ {α : Type} {m : NatM α}, wp m (fun r t => r = .crash ∨ Keeps s t) s →
      wp m (fun r t => r = .crash ∨ Sane t) s :=
    fun h => wp_mono h fun _ _ => Or.imp_right Keeps.sane
  cases op with
  | lookup pathname =>
    simp only [run, wp_bind]
    apply sane.wp_natLookup (.refl sane.disk)
    · exact fun t x q _ => .inr (sane.keeps q).sane
    · exact fun e t q => .inr (sane.keeps q).sane
    · exact fun _ => .inl rfl
  | creat pathname mode rdev =>
    simp only [run, wp_bind]
    apply wp_natCreat noio sane
    · exact fun t nr keeps _ => .inr keeps.sane
    · exact fun e t keeps => .inr keeps.sane
    · exact fun _ => .inl rfl
  | mkdir pathname mode => exact keep (wp_natMkdir noio sane pathname mode)
  | link i pathname =>
    apply wp_natLink noio sane valid fits
    · exact fun r t keeps _ => .inr keeps.sane
    · exact fun _ => .inl rfl
  | unlink pathname => exact keep (wp_natUnlink noio sane pathname)
  | rename oldname newname =>
    apply wp_natRename noio sane
    · exact fun t _ keeps => .inr keeps.sane
    · exact fun e t _ q => .inr (sane.keeps q).sane
    · exact fun e t _ sane' _ => .inr sane'
    · exact fun _ _ => .inl rfl
  | rmdir pathname => exact keep (wp_natRmdir noio sane pathname)
  | write i offset data => exact wp_mono (sane.wp_write noio valid offset data) fun _ _ keeps => .inr keeps.sane
  | trunc i => exact sane.wp_trunc noio valid fun t sane' _ _ => .inr sane'
  | putfso i => exact sane.wp_close noio valid fun t keeps => .inr keeps.sane

theorem wp_getDescriptor (keeps : Keeps s t) (ref : (t.fso i).refcnt ≠ 0)
    (post : ∀ r t', r ≠ .crash → Keeps s t' → Q r t') :
    wp (do
      onError (newSlot cx) (fsPutfso cx i)
      onError (newSlot cx) (fsPutfso cx i)) Q t := by
  have tick : ∀ {u}, Keeps s u → Keeps s { u with tick := u.tick + 1 } := fun {u} k =>
    k.trans (k.sane.keeps ((Quiet.refl k.sane.disk).tick _))
  have back : ∀ {e u} {R : Res Errno Unit → Vol → Prop}, Keeps s u → (u.fso i).refcnt ≠ 0 →
      (∀ v, Keeps s v → R (.err e) v) →
      wp (fsPutfso cx i) (after (fun _ => (fail e : NatM Unit)) R) u := by
    intro e u R k ref' last
    exact k.sane.wp_close noio ref' fun v kv => last v (k.trans kv)
  simp only [wp_bind, wp_onError]
  apply wp_newSlot
  · simp only [recovered_ok, after_ok, wp_onError]
    apply wp_newSlot
    · exact post _ _ (by simp) (tick (tick keeps))
    · exact fun e => back (tick (tick keeps)) ref fun v k => post _ v (by simp) k
  · exact fun e => back (tick keeps) ref fun v k => post _ v (by simp) k

end

theorem wp_openPerm (granted : Q (.ok ()) t)
    (denied : ∀ e, Q (.err e) t) : wp (openPerm cx x mode) Q t := by
  unfold openPerm
  split
  · exact wp_fsChkPerm (fun _ => granted) fun e _ => denied e
  · split
    · exact wp_fsChkPerm (fun _ => granted) fun e _ => denied e
    · split
      · exact wp_fsChkPerm (fun _ => granted) fun e _ => denied e
      · split
        · exact granted
        · exact denied _

theorem wp_sysOpen (noio : cx.NoIoError) (sane : Sane s)
    (fits : (Sys.open pathname mode).Fits cx s) :
    wp (sysOpen cx pathname mode) (fun r t => r = .crash ∨ Keeps s t) s := by
  rw [sysOpen, wp_bind]
  apply sane.wp_natLookup (.refl sane.disk)
  · intro t x q walk
    have keeps := sane.keeps q
    have ref : (t.fso x).refcnt ≠ 0 := by rw [q.refcnt, List.count_cons_self]; omega
    simp only [after_ok, wp_bind, wp_onError]
    apply wp_openPerm
    · simp only [recovered_ok, after_ok]
      split
      · rename_i truncating
        have empty : (tree t).ents x = [] := by
          have kind : isDir t x = isDir s x := by rw [isDir, isDir, q.hdr]
          show (if isDir t x then live t x else []) = []
          simp only [live_congr (q.obj x), kind]
          exact fits.resolve_left truncating x walk
        simp only [wp_bind, wp_onError]
        apply wp_fsChkPerm
        · intro _
          simp only [recovered_ok, after_ok, wp_bind, wp_onError]
          apply keeps.sane.wp_trunc noio ref
          intro u _ kept count
          rw [recovered_ok, after_ok]
          exact wp_getDescriptor noio (keeps.trans (kept empty)) (by rw [count]; exact ref) fun _ _ _ => Or.inr
        · exact fun e _ => wp_giveBack sane q fun u q' => .inr (sane.keeps q')
      · exact wp_getDescriptor noio keeps ref fun _ _ _ => .inr
    · exact fun e => wp_giveBack sane q fun u q' => .inr (sane.keeps q')
  · exact fun e t q => .inr (sane.keeps q)
  · exact fun _ => .inl rfl

theorem wp_sysLink (noio : cx.NoIoError) (sane : Sane s)
    (fits : (Sys.link oldname newname).Fits cx s) :
    wp (sysLink cx oldname newname) (fun r t => r = .crash ∨ Keeps s t) s := by
  rw [sysLink, wp_bind]
  apply sane.wp_natLookup (.refl sane.disk)
  · intro t x q walk
    have keeps := sane.keeps q
    have ref : (t.fso x).refcnt ≠ 0 := by rw [q.refcnt, List.count_cons_self]; omega
    have room : (t.fso x).nlink + 1 < 2 ^ 32 := by
      have count := fits x walk
      rw [← q.hdr, hdr_of_open ref] at count
      exact count
    simp only [after_ok, wp_bind, wp_get]
    split
    · rw [wp_bind]
      exact wp_giveBack sane q fun u q' => .inr (sane.keeps q')
    · simp only [wp_bind, wp_onError]
      apply wp_natLink noio keeps.sane ref room
      · intro r u keeps' ref'
        have all := keeps.trans keeps'
        cases r with
        | ok _ =>
          rw [recovered_ok, after_ok]
          exact all.sane.wp_close noio ref' fun v k => .inr (all.trans k)
        | err e =>
          rw [recovered_err]
          exact all.sane.wp_close noio ref' fun v k => .inr (all.trans k)
        | crash => exact .inl rfl
      · exact fun _ => .inl rfl
  · exact fun e t q => .inr (sane.keeps q)
  · exact fun _ => .inl rfl

theorem Sys.keeps (noio : cx.NoIoError) (sane : Sane s) {call : Sys} (valid : call.Valid s)
    (fits : call.Fits cx s) : wp (call.run cx) (fun r t => r = .crash ∨ Keeps s t) s := by
  cases call with
  | «open» pathname mode => exact wp_sysOpen noio sane fits
  | mknod pathname mode rdev =>
    simp only [run, sysMknod]
    split
    · exact .inr sane.refl_keeps
    · rw [wp_bind]
      apply wp_natCreat noio sane
      · intro t nr keeps ref
        rw [after_ok]
        exact keeps.sane.wp_close noio ref fun u k => .inr (keeps.trans k)
      · exact fun e t keeps => .inr keeps
      · exact fun _ => .inl rfl
  | mkdir pathname mode => exact wp_natMkdir noio sane pathname mode
  | link oldname newname => exact wp_sysLink noio sane fits
  | unlink pathname => exact wp_natUnlink noio sane pathname
  | rename oldname newname =>
    apply wp_natRename noio sane
    · exact fun t _ keeps => .inr keeps
    · exact fun e t _ q => .inr (sane.keeps q)
    · exact fun e t refused _ _ => absurd refused fits
    · exact fun _ _ => .inl rfl
  | rmdir pathname => exact wp_natRmdir noio sane pathname
  | write i offset data =>
    simp only [run, wp_bind]
    apply wp_fsChkPerm
    · intro _
      rw [after_ok]
      exact wp_mono (sane.wp_write noio valid offset data) fun _ _ keeps => .inr keeps
    · exact fun e _ => .inr sane.refl_keeps
  | close i => exact sane.wp_close noio valid fun t keeps => .inr keeps

end Steps

inductive Op.Step (cond : Op → Vol → Prop) (s t : Vol) : Prop where
  | call (cx : Cx) (op : Op) (r : Res Errno Unit) (noio : cx.NoIoError) (valid : op.Valid s)
      (cond : cond op s) (run : op.run cx s = (r, t)) (returns : r ≠ .crash)

inductive Sys.Step (cond : Cx → Sys → Vol → Prop) (s t : Vol) : Prop where
  | call (cx : Cx) (call : Sys) (r : Res Errno Unit) (noio : cx.NoIoError) (valid : call.Valid s)
      (cond : cond cx call s) (run : call.run cx s = (r, t)) (returns : r ≠ .crash)

abbrev Op.Run (cond : Op → Vol → Prop) : Vol → Vol → Prop := Relation.ReflTransGen (Op.Step cond)

abbrev Sys.Run (cond : Cx → Sys → Vol → Prop) : Vol → Vol → Prop := Relation.ReflTransGen (Sys.Step cond)

theorem Op.Run.sane (run : Op.Run (fun op s => op.Fits s) s t) (start : Sane s) : Sane t := by
  induction run with
  | refl => exact start
  | tail _ step ih =>
    obtain ⟨cx, op, r, noio, valid, fits, eq, returns⟩ := step
    have rule := Op.sane noio ih valid fits
    rw [wp, eq] at rule
    exact rule.resolve_left returns

theorem Sys.Run.exact (run : Sys.Run (fun cx call s => call.Fits cx s) s t) (start : Sane s)
    (exact : (tree s).Exact) : Sane t ∧ (tree t).Exact := by
  induction run with
  | refl => exact ⟨start, exact⟩
  | tail _ step ih =>
    obtain ⟨cx, call, r, noio, valid, fits, eq, returns⟩ := step
    have rule := Sys.keeps noio ih.1 valid fits
    rw [wp, eq] at rule
    have keeps := rule.resolve_left returns
    exact ⟨keeps.sane, keeps.exact ih.2⟩

end Natfs
