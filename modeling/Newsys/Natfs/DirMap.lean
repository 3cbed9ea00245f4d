import Newsys.Natfs.Dir

/- A directory as a finite map from names to blocks: what any sequence of new entries, removals
   and replacements makes of it, what `find_entry` then finds and what `nat_readdir` lists. -/
namespace Natfs
open Bytes Cmds Cmd List

/-- What `nat_readdir` leaves in `struct fs_dirent`, the index and the name; nothing when it
    drops an error of the block map or of the device. -/
def natReaddir (cx : Cx) (d : Nat) (index : Int) : NatM (Option (Nat × Name)) := do
  if index < 0 then fail .EINVAL
  else
    fsChkPerm cx d rOk
    if index = 0 then pure (some (d, [46]))
    else if index = 1 then pure (some (d, [46, 46]))
    else
      let i := (index - 2).toNat
      let s ← get
      if (s.fso d).size / 32 ≤ i then fail .ENOENT
      else
        match ← attempt (readDirBlock cx d (i / 16)) with
        | .error _ => pure none
        | .ok (_, b) => pure (some (deFirstBlock b (i % 16), cstr b (32 * (i % 16)) 32))

/-- The loop of a caller that lists a directory: all indices from `index` on until `ENOENT`. -/
def readdirFrom (cx : Cx) (d : Nat) : Nat → Int → NatM (List (Nat × Name))
  | 0, _ => pure []
  | fuel + 1, index => do
    match ← attempt (natReaddir cx d index) with
    | .error .ENOENT => pure []
    | .error e => fail e
    | .ok entry => do
      let rest ← readdirFrom cx d fuel (index + 1)
      pure (entry.toList ++ rest)

inductive DirOp where
  | create (name : Name) (firstBlock : Nat)
  | remove (name : Name)
  | replace (name : Name) (firstBlock : Nat)

namespace DirOp

/-- A removal as in `nat_unlink` and `nat_rmdir`, a replacement as in `nat_rename`. -/
def run (cx : Cx) (d : Nat) : DirOp → NatM Unit
  | .create name v => newEntry cx d name v
  | .remove name => do
    fsChkPerm cx d (xOk ||| wOk)
    let p ← findEntry cx d name
    clearEntry p
  | .replace name v => do
    match ← attempt (newEntry cx d name v) with
    | .ok () => pure ()
    | .error .EEXIST => do
      let p ← findEntry cx d name
      putEntry p name v
    | .error e => fail e

def Valid : DirOp → Prop
  | .create name v => (0 : Byte) ∉ name ∧ v ≠ 0 ∧ v < 2 ^ 32
  | .remove name => (0 : Byte) ∉ name
  | .replace name v => (0 : Byte) ∉ name ∧ v ≠ 0 ∧ v < 2 ^ 32

instance : (op : DirOp) → Decidable op.Valid
  | .create name v => inferInstanceAs (Decidable ((0 : Byte) ∉ name ∧ v ≠ 0 ∧ v < 2 ^ 32))
  | .remove name => inferInstanceAs (Decidable ((0 : Byte) ∉ name))
  | .replace name v => inferInstanceAs (Decidable ((0 : Byte) ∉ name ∧ v ≠ 0 ∧ v < 2 ^ 32))

def effect (m : Name → Option Nat) : DirOp → Name → Option Nat
  | .create name v => fun n => if n = name then some v else m n
  | .remove name => fun n => if n = name then none else m n
  | .replace name v => fun n => if n = name then some v else m n

def track (m : Name → Option Nat) (op : DirOp) : Res Errno Unit → Name → Option Nat
  | .ok _ => op.effect m
  | _ => m

end DirOp

def runOps (d : Nat) : List (Cx × DirOp) → Vol → (Name → Option Nat) → Vol × (Name → Option Nat)
  | [], s, m => (s, m)
  | (cx, op) :: ops, s, m => runOps d ops (op.run cx d s).2 (op.track m (op.run cx d s).1)

structure Represents (s : Vol) (d : Nat) (m : Name → Option Nat) : Prop where
  disk : Disk s
  ref : (s.fso d).refcnt ≠ 0
  dir : isDir s d
  ok : DirOk s d
  live : ∀ n b, (n, b) ∈ live s d ↔ m n = some b

namespace Represents
variable {cx : Cx} {s t u : Vol} {d : Nat} {m : Name → Option Nat}

theorem quiet (r : Represents s d m) (q : Quiet s t []) : Represents t d m := by
  refine ⟨q.disk, by rw [q.refcnt]; exact r.ref, ?_, q.dirOk r.ok, ?_⟩
  · rw [isDir, q.hdr]
    exact r.dir
  · rw [live_congr (q.obj d)]
    exact r.live

theorem edited (r : Represents s d m)
    (e : Edited s t d l) (live : ∀ n b, (n, b) ∈ l ↔ m' n = some b) : Represents t d m' := by
  have ref : (t.fso d).refcnt ≠ 0 := by rw [e.worked.refcnt]; exact r.ref
  refine ⟨e.worked.disk, ref, ?_, e.ok, ?_⟩
  · have dir := r.dir
    rw [isDir, hdr_of_open r.ref] at dir
    rw [isDir, hdr_of_open ref]
    simp only [Fso.hdr, e.worked.mode]
    exact dir
  · intro n b
    rw [e.live.mem_iff]
    exact live n b

variable {n : Name}

theorem bound (r : Represents s d m) (mem : (n, b) ∈ Natfs.live s d) : m n = some b :=
  (r.live n b).mp mem

theorem unbound (r : Represents s d m) (rest : ∀ e ∈ Natfs.live s d, e.1 ≠ n) : m n = none := by
  cases here : m n with
  | none => rfl
  | some b => exact absurd rfl (rest (n, b) ((r.live n b).mpr here))

theorem rest (r : Represents s d m)
    (perm : (Natfs.live s d).Perm ((n, b) :: l)) (x : Name) (y : Nat) : (x, y) ∈ l ↔ x ≠ n ∧ m x = some y := by
  have distinct := (perm.map Prod.fst).nodup_iff.mp r.ok.distinct
  rw [map_cons, nodup_cons] at distinct
  rw [← r.live, perm.mem_iff, mem_cons]
  constructor
  · intro mem
    refine ⟨?_, .inr mem⟩
    rintro rfl
    exact distinct.1 (mem_map.mpr ⟨(x, y), mem, rfl⟩)
  · rintro ⟨ne, eq | mem⟩
    · exact absurd (congrArg Prod.fst eq) ne
    · exact mem

theorem create (r : Represents s d m) (noio : cx.NoIoError) (valid : (DirOp.create n v).Valid) :
    wp (newEntry cx d n v) (fun res t => Represents t d ((DirOp.create n v).track m res)) s := by
  obtain ⟨clean, pos, small⟩ := valid
  apply wp_newEntry noio (.refl r.disk) r.ref (fun _ => r.ok) clean pos small
  · intro t u q _ edited
    refine (r.quiet q).edited edited ?_
    intro x y
    have fresh : m n = none := by
      apply r.unbound
      intro e mem eq
      have distinct := (edited.live.map Prod.fst).nodup_iff.mp edited.ok.distinct
      rw [map_cons, nodup_cons] at distinct
      exact distinct.1 (mem_map.mpr ⟨e, mem, eq⟩)
    show _ ↔ (if x = n then some v else m x) = some y
    rw [mem_cons, r.live, Prod.mk.injEq]
    by_cases eq : x = n
    · rw [if_pos eq, eq, fresh, Option.some.injEq]
      simp [eq_comm]
    · rw [if_neg eq]
      simp [eq]
  · exact fun t q _ _ => r.quiet q
  · exact fun e t u _ q _ edited => (r.quiet q).edited edited r.live
  · exact fun e _ => r

theorem remove (r : Represents s d m) : wp ((DirOp.remove n).run cx d)
      (fun res t => Represents t d ((DirOp.remove n).track m res)) s := by
  simp only [DirOp.run, wp_bind]
  apply wp_fsChkPerm
  · intro _
    simp only [after_ok, wp_bind]
    apply wp_findEntry (.refl r.disk) r.ref (fun _ => r.ok)
    · intro t p i b q _ _ at' entry
      have r' := r.quiet q
      have entry' : slot t d i = some (n, b) := by rw [slot, q.obj]; exact entry
      obtain ⟨l, edited, perm⟩ := r'.disk.clearEntry (r'.disk.opened d r'.ref).file r'.ok (q.at' at') entry'
      simp only [after_ok, clearEntry, wp_modify]
      refine r'.edited edited ?_
      intro x y
      show _ ↔ (if x = n then none else m x) = some y
      rw [r'.rest perm]
      by_cases eq : x = n
      · simp [eq]
      · simp [eq]
    · exact fun t q _ _ _ => r.quiet q
    · exact fun e _ => r
    · exact fun _ => r
    · exact fun e t _ q => r.quiet q
  · exact fun e _ => r

theorem replace (r : Represents s d m) (noio : cx.NoIoError) (valid : (DirOp.replace n v).Valid) :
    wp ((DirOp.replace n v).run cx d) (fun res t => Represents t d ((DirOp.replace n v).track m res)) s := by
  have existing : ∀ {t}, Represents t d m → wp (findEntry cx d n >>= fun p => putEntry p n v)
      (fun res t' => Represents t' d ((DirOp.replace n v).track m res)) t := by
    intro t r
    simp only [wp_bind]
    apply wp_findEntry (.refl r.disk) r.ref (fun _ => r.ok)
    · intro t p i b q _ _ at' entry
      have r' := r.quiet q
      have entry' : slot t d i = some (n, b) := by rw [slot, q.obj]; exact entry
      obtain ⟨l, perm, edited⟩ := r'.disk.replaceEntry (r'.disk.opened d r'.ref).file r'.ok (q.at' at')
        entry' valid.2.1 valid.2.2
      simp only [after_ok, putEntry, wp_modify]
      refine r'.edited edited ?_
      intro x y
      show _ ↔ (if x = n then some v else m x) = some y
      rw [mem_cons, r'.rest perm, Prod.mk.injEq]
      by_cases eq : x = n
      · simp [eq, eq_comm]
      · simp [eq]
    · exact fun t q _ _ _ => r.quiet q
    · exact fun e _ => r
    · exact fun _ => r
    · exact fun e t _ q => r.quiet q
  simp only [DirOp.run, wp_bind, wp_attempt]
  apply wp_mono (r.create noio valid)
  intro res t after
  cases res with
  | ok _ => exact after
  | crash => exact after
  | err e =>
    simp only [caught_err, after_ok]
    split
    · rename_i eq
      cases eq
    · exact existing after
    · exact after

theorem step (r : Represents s d m) (noio : cx.NoIoError) {op : DirOp} (valid : op.Valid) :
    Represents (op.run cx d s).2 d (op.track m (op.run cx d s).1) := by
  cases op with
  | create n v => exact r.create noio valid
  | remove n => exact r.remove
  | replace n v => exact r.replace noio valid

theorem ops (ops : List (Cx × DirOp)) : ∀ {s : Vol} {m : Name → Option Nat}, Represents s d m →
    (∀ c ∈ ops, c.1.NoIoError ∧ c.2.Valid) →
    Represents (runOps d ops s m).1 d (runOps d ops s m).2 := by
  induction ops with
  | nil => exact fun r _ => r
  | cons c ops ih =>
    intro s m r valid
    obtain ⟨noio, ok⟩ := valid c (mem_cons_self ..)
    exact ih (r.step noio ok) fun c mem => valid c (mem_cons_of_mem _ mem)

theorem find (r : Represents s d m) (noio : cx.NoIoError) (name : Name) :
    wp (findEntry cx d name) (fun res t =>
      match permError cx s.fs.geo (s.fso d) xOk, m name with
      | some e, _ => res = .err e
      | none, some b => ∃ p, res = .ok p ∧ deFirstBlock (t.dev p.1) p.2 = b
      | none, none => res = .err .ENOENT) s := by
  apply wp_findEntry (.refl r.disk) r.ref (fun _ => r.ok)
  · intro t p i b q _ granted at' entry
    have mem : (name, b) ∈ Natfs.live s d := Slots.mem_live.mpr ⟨i, at'.inside, entry⟩
    simp only [granted, r.bound mem]
    refine ⟨p, rfl, ?_⟩
    rw [q.dev]
    exact at'.first r.ok entry
  · intro t _ _ granted rest
    simp only [granted, r.unbound rest]
  · intro e denied
    simp only [denied]
  · exact fun other => absurd r.dir other
  · exact fun e _ io => (noio.none io).elim

def Shows (s : Vol) (d i : Nat) (de : Nat × Name) : Prop :=
  match slot s d i with
  | none => de.1 = 0
  | some (n, b) => de = (b, n) ∧ b ≠ 0

theorem shows_slot (ok : DirOk s d) (lt : i < slotCount s d) :
    Shows s d i (deFirstBlock ((obj s d).block (i / 16)) (i % 16),
      cstr ((obj s d).block (i / 16)) (32 * (i % 16)) 32) := by
  have entry : slot s d i = dirent ((obj s d).block (i / 16)) (i % 16) := rfl
  rw [Shows, entry]
  by_cases dead : deFirstBlock ((obj s d).block (i / 16)) (i % 16) = 0
  · rw [dirent, if_pos dead]
    exact dead
  · rw [dirent, if_neg dead] at entry ⊢
    have short := (ok.names _ (Slots.mem_live.mpr ⟨i, lt, entry⟩)).short
    refine ⟨?_, dead⟩
    rw [Prod.mk.injEq]
    exact ⟨rfl, cstr_congr 27 (by omega) (by omega) short fun _ _ _ => rfl⟩

theorem readdir (r : Represents s d m) (noio : cx.NoIoError) (q : Quiet s t [])
    (granted : permError cx s.fs.geo (s.fso d) rOk = none) (i : Nat) :
    wp (natReaddir cx d (i + 2)) (fun res u => Quiet s u [] ∧
      if i < slotCount s d then ∃ de, res = .ok (some de) ∧ Shows s d i de
      else res = .err .ENOENT) t := by
  have ref : (t.fso d).refcnt ≠ 0 := by rw [q.refcnt]; exact r.ref
  have size := q.realSize ref r.ok
  have aligned := r.ok.aligned
  have granted' : permError cx t.fs.geo (t.fso d) rOk = none := by
    rw [q.fs, (q.owner d r.ref).permError]
    exact granted
  simp only [natReaddir]
  rw [if_neg (by omega), wp_bind]
  apply wp_fsChkPerm
  · intro _
    rw [after_ok, if_neg (by omega), if_neg (by omega), wp_bind, wp_get, after_ok,
      show ((i : Int) + 2 - 2).toNat = i by omega, size]
    by_cases inside : i < slotCount s d
    · have inside' := inside
      rw [slotCount] at inside'
      rw [if_neg (by omega), wp_bind, wp_attempt]
      apply wp_readDirBlock q ref r.ok (by omega)
      · intro u q'
        exact ⟨q', by rw [if_pos inside]; exact ⟨_, rfl, shows_slot r.ok inside⟩⟩
      · exact fun e _ io => (noio.none io).elim
    · have outside := inside
      rw [slotCount] at outside
      rw [if_pos (by omega)]
      exact ⟨q, by rw [if_neg inside]; rfl⟩
  · intro e denied
    rw [granted'] at denied
    cases denied

def listed (l : List (Nat × Name)) : List (Name × Nat) :=
  l.filterMap fun de => if de.1 = 0 then none else some (de.2, de.1)

theorem listed_cons (shown : Shows s d i de) : listed (de :: l) = (slot s d i).toList ++ listed l := by
  rw [Shows] at shown
  rw [listed, filterMap_cons]
  cases entry : slot s d i with
  | none =>
    rw [entry] at shown
    simp only [show de.1 = 0 from shown, if_true]
    rfl
  | some e =>
    rw [entry] at shown
    obtain ⟨rfl, pos⟩ := shown
    simp only [if_neg pos]
    rfl

theorem readdirFrom (r : Represents s d m) (noio : cx.NoIoError)
    (granted : permError cx s.fs.geo (s.fso d) rOk = none) (n : Nat) :
    ∀ {t : Vol} {i fuel : Nat}, Quiet s t [] → i + n = slotCount s d → n < fuel →
    wp (readdirFrom cx d fuel (i + 2)) (fun res u => Quiet s u [] ∧
      ∃ l, res = .ok l ∧ listed l = (range' i n).filterMap (slot s d)) t := by
  induction n with
  | zero =>
    intro t i fuel q last room
    obtain ⟨fuel, rfl⟩ := Nat.exists_eq_succ_of_ne_zero (Nat.ne_zero_of_lt room)
    rw [Natfs.readdirFrom, wp_bind, wp_attempt]
    apply wp_mono (r.readdir noio q granted i)
    rintro res u ⟨q', stop⟩
    rw [if_neg (by omega)] at stop
    rw [stop]
    exact ⟨q', [], rfl, rfl⟩
  | succ n ih =>
    intro t i fuel q last room
    obtain ⟨fuel, rfl⟩ := Nat.exists_eq_succ_of_ne_zero (Nat.ne_zero_of_lt room)
    rw [Natfs.readdirFrom, wp_bind, wp_attempt]
    apply wp_mono (r.readdir noio q granted i)
    rintro res u ⟨q', shown⟩
    rw [if_pos (by omega)] at shown
    obtain ⟨de, rfl, shown⟩ := shown
    rw [caught_ok, after_ok]
    show wp (Natfs.readdirFrom cx d fuel (i + 2 + 1) >>= fun rest => pure ([de] ++ rest)) _ u
    rw [wp_bind, show (i : Int) + 2 + 1 = ((i + 1 : Nat) : Int) + 2 by omega]
    apply wp_mono (ih q' (by omega) (by omega))
    rintro res v ⟨q'', l, rfl, rest⟩
    refine ⟨q'', de :: l, rfl, ?_⟩
    rw [listed_cons shown, rest, range'_succ]
    cases entry : slot s d i with
    | none => rw [filterMap_cons_none entry]; rfl
    | some e => rw [filterMap_cons_some entry]; rfl

end Represents

/-- Any sequence of changes to a new directory: its names are distinct, `find_entry` finds a name
    exactly when it is bound, with the block last bound to it, and a listing from index 2 on
    returns the live entries, each of them once. -/
theorem directory_is_map (s : Vol) (d : Nat) (ops : List (Cx × DirOp)) (disk : Disk s)
    (ref : (s.fso d).refcnt ≠ 0) (dir : isDir s d) (new : (s.fso d).size = 0)
    (valid : ∀ c ∈ ops, c.1.NoIoError ∧ c.2.Valid) :
    let t := (runOps d ops s fun _ => none).1
    let m := (runOps d ops s fun _ => none).2
    ((live t d).map Prod.fst).Nodup ∧ (∀ n b, (n, b) ∈ live t d ↔ m n = some b) ∧
    (∀ (cx : Cx) (name : Name), cx.NoIoError →
      match permError cx t.fs.geo (t.fso d) xOk, m name with
      | some e, _ => (findEntry cx d name t).1 = .err e
      | none, some b => ∃ p, (findEntry cx d name t).1 = .ok p ∧
          deFirstBlock ((findEntry cx d name t).2.dev p.1) p.2 = b
      | none, none => (findEntry cx d name t).1 = .err .ENOENT) ∧
    ∀ (cx : Cx) (fuel : Nat), cx.NoIoError → permError cx t.fs.geo (t.fso d) rOk = none →
      slotCount t d < fuel →
      ∃ l, (readdirFrom cx d fuel 2 t).1 = .ok l ∧ Represents.listed l = live t d := by
  intro t m
  have empty : (obj s d).size = 0 := by
    rw [obj, hdr_of_open ref]
    simp only [Fso.hdr, new]
    rfl
  have start : Represents s d fun _ => none := by
    refine ⟨disk, ref, dir, .empty empty ?_, ?_⟩
    · rw [new]
      exact fun _ => Nat.pow_pos (by decide)
    · intro n b
      rw [live_empty empty]
      simp
  have r : Represents t d m := Represents.ops ops start valid
  refine ⟨r.ok.distinct, r.live, fun cx name noio => r.find noio name, ?_⟩
  intro cx fuel noio granted room
  obtain ⟨_, l, run, all⟩ := r.readdirFrom noio granted (slotCount t d) (.refl r.disk)
    (Nat.zero_add _) room
  rw [← range_eq_range'] at all
  exact ⟨l, run, all⟩

def sampleDir : Vol := sampleVol.setFso 9 { sampleVol.fso 9 with mode := 0o30755 }

theorem sampleDir_disk : Disk sampleDir :=
  sample_disk (by decide) rfl rfl (by decide) (fun _ => rfl)
    ⟨⟨by decide, by decide⟩, by decide, by decide⟩

def sampleOps : List (Cx × DirOp) :=
  [(sampleCx, .create [97] 20), (sampleCx, .replace [97] 21), (sampleCx, .create [98] 22),
    (sampleCx, .remove [97])]

theorem directory_is_map_sample : Disk sampleDir ∧
    ((live (runOps 9 sampleOps sampleDir fun _ => none).1 9).map Prod.fst).Nodup := by
  refine ⟨sampleDir_disk, (directory_is_map sampleDir 9 sampleOps sampleDir_disk (by decide) ?_ rfl ?_).1⟩
  · rw [isDir, hdr_of_open (by decide)]
    decide
  · intro c mem
    simp only [sampleOps, mem_cons, not_mem_nil, or_false] at mem
    rcases mem with rfl | rfl | rfl | rfl <;> exact ⟨fun _ => rfl, by decide⟩

end Natfs
