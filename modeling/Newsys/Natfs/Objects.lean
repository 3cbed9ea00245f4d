import Newsys.Natfs.Trunc

/- Taking and giving back references to objects (kern/fs/main.c, kern/fs/nat/fso.c). A call that
   only looks at files leaves no trace, whatever requests fail on its way. -/
namespace Natfs
open Bytes Cmds Cmd List

theorem Disk.setSlot (disk : Disk s) (file : i ∈ s.files) (same : hdr (s.setFso i f) i = hdr s i)
    (opened : f.refcnt ≠ 0 → Opened (s.setFso i f) i) :
    Disk (s.setFso i f) ∧ Only s (s.setFso i f) i := by
  have only : Only s (s.setFso i f) i :=
    ⟨disk.bam.congr rfl fun _ _ => rfl, rfl, disk.files, fun _ _ => Iff.rfl,
      fun j ne => update_ne _ _ _ ne, fun _ _ _ _ _ => rfl⟩
  have held : holds (s.setFso i f) i = holds s i := by
    rw [holds, holds, same]
    rfl
  refine ⟨only.disk disk ?_ ?_ ?_ ?_ ?_ ?_, only⟩
  · intro _
    rw [held]
    exact disk.nodup i file
  · intro _
    rw [same]
    exact disk.shape i file
  · intro _ b mem
    rw [held] at mem
    exact disk.data i file b mem
  · intro _ b mem
    rw [held] at mem
    exact .inl ⟨file, mem⟩
  · exact fun j other _ b mem => (disk.data j other b mem).2
  · intro ref
    simp only [Vol.setFso, update_same] at ref
    exact opened ref

/-- Seen from `s`, the state `t` differs in the references of the list `hold` and in what objects
    remember of their block maps. -/
structure Quiet (s t : Vol) (hold : List Nat) : Prop where
  disk : Disk t
  dev : t.dev = s.dev
  fs : t.fs = s.fs
  files : t.files = s.files
  refcnt : ∀ j, (t.fso j).refcnt = (s.fso j).refcnt + hold.count j
  hdr : ∀ j, hdr t j = hdr s j
  size : ∀ j, (s.fso j).refcnt ≠ 0 → (t.fso j).size = (s.fso j).size
  dirty : ∀ j, (s.fso j).refcnt ≠ 0 → (t.fso j).dirty = (s.fso j).dirty
  owner : ∀ j, (s.fso j).refcnt ≠ 0 → SameOwner (s.fso j) (t.fso j)
  loaded : ∀ j, (s.fso j).refcnt = 0 → (t.fso j).refcnt ≠ 0 →
    (t.fso j).dirty = false ∧ (t.fso j).size < 2 ^ 32

namespace Quiet
variable {s t u : Vol} {hold : List Nat} {i : Nat}

theorem refl (disk : Disk s) : Quiet s s [] :=
  ⟨disk, rfl, rfl, rfl, fun _ => by simp, fun _ => rfl, fun _ _ => rfl, fun _ _ => rfl,
    fun _ _ => ⟨rfl, rfl, rfl⟩, fun _ none some => absurd none some⟩

theorem obj (q : Quiet s t hold) (j : Nat) : obj t j = obj s j := by
  rw [Natfs.obj, Natfs.obj, q.hdr, q.dev]

theorem tick (q : Quiet s t hold) (n : Nat) : Quiet s { t with tick := n } hold := by
  have disk := q.disk
  refine ⟨⟨disk.bam.congr rfl fun _ _ => rfl, disk.files, disk.nodup, disk.apart, disk.data, disk.shape, ?_⟩,
    q.dev, q.fs, q.files, q.refcnt, q.hdr, q.size, q.dirty, q.owner, q.loaded⟩
  intro j ref
  have opened := disk.opened j ref
  exact ⟨opened.file, opened.cache, opened.small, opened.saved⟩

variable {hold' : List Nat}

theorem perm (q : Quiet s t hold) (p : hold.Perm hold') : Quiet s t hold' :=
  ⟨q.disk, q.dev, q.fs, q.files, fun j => by rw [q.refcnt j, p.count_eq], q.hdr, q.size, q.dirty, q.owner, q.loaded⟩

theorem setSlot (q : Quiet s t hold) (file : i ∈ s.files)
    (same : Natfs.hdr (t.setFso i f) i = Natfs.hdr t i) (opened : f.refcnt ≠ 0 → Opened (t.setFso i f) i)
    (count : f.refcnt = (s.fso i).refcnt + hold'.count i) (others : ∀ j, j ≠ i → hold'.count j = hold.count j)
    (kept : (s.fso i).refcnt ≠ 0 → f.size = (t.fso i).size ∧ f.dirty = (t.fso i).dirty ∧ SameOwner (t.fso i) f)
    (fresh : (s.fso i).refcnt = 0 → f.refcnt ≠ 0 → f.dirty = false ∧ f.size < 2 ^ 32) :
    Quiet s (t.setFso i f) hold' := by
  have self : (t.setFso i f).fso i = f := update_same _ _ _
  have other : ∀ j, j ≠ i → (t.setFso i f).fso j = t.fso j := fun j ne => update_ne _ _ _ ne
  refine ⟨(q.disk.setSlot (q.files ▸ file) same opened).1, q.dev, q.fs, q.files, ?_, ?_, ?_, ?_, ?_, ?_⟩
  · intro j
    by_cases eq : j = i
    · rw [eq, self, count]
    · rw [other j eq, others j eq, q.refcnt]
  · intro j
    by_cases eq : j = i
    · rw [eq, same, q.hdr]
    · rw [← q.hdr j, Natfs.hdr, Natfs.hdr, other j eq]
      rfl
  · intro j open'
    by_cases eq : j = i
    · rw [eq] at open' ⊢
      rw [self, (kept open').1]
      exact q.size i open'
    · rw [other j eq]
      exact q.size j open'
  · intro j open'
    by_cases eq : j = i
    · rw [eq] at open' ⊢
      rw [self, (kept open').2.1]
      exact q.dirty i open'
    · rw [other j eq]
      exact q.dirty j open'
  · intro j open'
    by_cases eq : j = i
    · rw [eq] at open' ⊢
      rw [self]
      exact (q.owner i open').trans (kept open').2.2
    · rw [other j eq]
      exact q.owner j open'
  · intro j closed
    by_cases eq : j = i
    · rw [eq] at closed ⊢
      rw [self]
      exact fresh closed
    · rw [other j eq]
      exact q.loaded j closed

theorem setRefcnt (q : Quiet s t hold) (ref : (t.fso i).refcnt ≠ 0)
    (pos : n ≠ 0) (count : n = (s.fso i).refcnt + hold'.count i)
    (others : ∀ j, j ≠ i → hold'.count j = hold.count j) : Quiet s (t.setFso i { t.fso i with refcnt := n }) hold' := by
  have opened := q.disk.opened i ref
  have self : (t.setFso i { t.fso i with refcnt := n }).fso i = { t.fso i with refcnt := n } :=
    update_same _ _ _
  refine q.setSlot (q.files ▸ opened.file) ?_ (fun _ => ⟨opened.file, ?_, ?_, ?_⟩) count others
    (fun _ => ⟨rfl, rfl, rfl, rfl, rfl⟩) (fun closed _ => q.loaded i closed ref)
  · rw [hdr_of_open (by rw [self]; exact pos), hdr_of_open ref, self]
    rfl
  · intro valid
    rw [self] at valid ⊢
    exact opened.cache valid
  · rw [self]
    exact opened.small
  · intro clean
    rw [self] at clean ⊢
    exact opened.saved clean

theorem load (q : Quiet s t hold) (file : i ∈ s.files) (closed : (t.fso i).refcnt = 0) :
    Quiet s (t.setFso i (loadFso t.fs.geo (t.dev i))) (i :: hold) := by
  have self : (t.setFso i (loadFso t.fs.geo (t.dev i))).fso i = loadFso t.fs.geo (t.dev i) :=
    update_same _ _ _
  have before := q.refcnt i
  rw [closed] at before
  refine q.setSlot file ?_ (fun _ => ⟨q.files ▸ file, ?_, ?_, ?_⟩) ?_ ?_ ?_ ?_
  · rw [hdr_of_open (by rw [self]; exact Nat.one_ne_zero), hdr_of_closed closed, self]
    rfl
  · intro valid
    rw [self] at valid
    cases valid
  · rw [self]
    exact Nat.pow_pos (by decide)
  · intro _
    rw [self]
    rfl
  · rw [count_cons_self]
    show 1 = _
    omega
  · intro j ne
    rw [count_cons_of_ne fun h => ne h.symm]
  · intro open'
    omega
  · intro _ _
    exact ⟨rfl, getLE_lt _ _ _⟩

theorem unload (q : Quiet s t (i :: hold)) (closed : (s.fso i).refcnt = 0) (last : hold.count i = 0) :
    Quiet s (t.setFso i { t.fso i with refcnt := 0 }) hold := by
  have ref : (t.fso i).refcnt ≠ 0 := by
    rw [q.refcnt, count_cons_self]
    omega
  have opened := q.disk.opened i ref
  have saved := opened.saved (q.loaded i closed ref).1
  have self : (t.setFso i { t.fso i with refcnt := 0 }).fso i = { t.fso i with refcnt := 0 } :=
    update_same _ _ _
  refine q.setSlot (q.files ▸ opened.file) ?_ (fun h => absurd rfl h) ?_ ?_ ?_ (fun _ h => absurd rfl h)
  · rw [hdr_of_closed (by rw [self]), hdr_of_open ref, ← saved]
    rfl
  · show 0 = _
    omega
  · intro j ne
    rw [count_cons_of_ne fun h => ne h.symm]
  · intro open'
    exact absurd closed open'

theorem look (q : Quiet s t hold) (ref : (t.fso i).refcnt ≠ 0) (small : log < 2 ^ 32)
    (slot : (Natfs.hdr t i).slot log < 114)
    (looked : Looked t u i log (fileBlock t.dev (t.fso i) log)) :
    Quiet s u hold ∧ (u.fso i).bmapPhys = (Natfs.hdr s i).phys s.dev log := by
  obtain ⟨ext, phys⟩ := extended_of_looked q.disk ref small slot looked
  have heads : ∀ j, Natfs.hdr u j = Natfs.hdr t j := by
    intro j
    have saved : savedHdr u j = savedHdr t j := by rw [savedHdr, savedHdr, looked.fs, looked.dev]
    by_cases eq : j = i
    · rw [eq, hdr_of_open ref, hdr_of_open (by rw [looked.self]; exact ref), looked.self]
      rfl
    · rw [Natfs.hdr, Natfs.hdr, saved, looked.other j eq]
  have fields : ∀ j, (u.fso j).refcnt = (t.fso j).refcnt ∧ (u.fso j).size = (t.fso j).size ∧
      (u.fso j).dirty = (t.fso j).dirty ∧ SameOwner (t.fso j) (u.fso j) := by
    intro j
    by_cases eq : j = i
    · rw [eq, looked.self]
      exact ⟨rfl, rfl, rfl, rfl, rfl, rfl⟩
    · rw [looked.other j eq]
      exact ⟨rfl, rfl, rfl, rfl, rfl, rfl⟩
  refine ⟨⟨ext.disk, looked.dev.trans q.dev, looked.fs.trans q.fs, looked.files.trans q.files, ?_, ?_,
    ?_, ?_, ?_, ?_⟩, ?_⟩
  · intro j
    rw [(fields j).1, q.refcnt]
  · intro j
    rw [heads, q.hdr]
  · intro j open'
    rw [(fields j).2.1]
    exact q.size j open'
  · intro j open'
    rw [(fields j).2.2.1]
    exact q.dirty j open'
  · exact fun j open' => (q.owner j open').trans (fields j).2.2.2
  · intro j closed
    rw [(fields j).1, (fields j).2.1, (fields j).2.2.1]
    exact q.loaded j closed
  · rw [phys, heads, q.hdr, looked.dev, q.dev]

end Quiet

/-- Every file that nobody uses has a link. -/
def Linked (s : Vol) : Prop := ∀ i ∈ s.files, (s.fso i).refcnt = 0 → (hdr s i).nlink ≠ 0

section Rules
variable {cx : Cx} {s t : Vol} {hold : List Nat} {i : Nat}

variable {Q : Res Errno Unit → Vol → Prop}

theorem wp_newSlot (ok : Q (.ok ()) { t with tick := t.tick + 1 })
    (failed : ∀ e, Q (.err e) { t with tick := t.tick + 1 }) : wp (newSlot cx) Q t := by
  simp only [wp, newSlot]
  cases cx.nomem t.tick with
  | some e => exact failed e
  | none => exact ok

theorem wp_natPutfso_clean (nlink : (t.fso i).nlink ≠ 0) (clean : (t.fso i).dirty = false)
    (ok : Q (.ok ()) t) : wp (natPutfso cx i) Q t := by
  simp only [natPutfso, wp_bind, wp_get, after_ok, if_neg nlink, natSyncfso, clean]
  exact ok

theorem wp_fsGetfso (q : Quiet s t hold) (file : i ∈ s.files) (ok : ∀ t', Quiet s t' (i :: hold) → Q (.ok ()) t')
    (failed : ∀ e t', Quiet s t' hold → Q (.err e) t') : wp (fsGetfso cx i) Q t := by
  simp only [fsGetfso, wp_bind, wp_get, after_ok]
  split
  · rename_i ref
    simp only [modifyFso, wp_modify]
    apply ok
    refine q.setRefcnt ref (Nat.succ_ne_zero _) ?_ ?_
    · rw [count_cons_self, q.refcnt]
      omega
    · intro j ne
      rw [count_cons_of_ne fun h => ne h.symm]
  · rename_i closed
    simp only [wp_bind]
    apply wp_newSlot
    · simp only [after_ok, wp_bind]
      apply wp_blkRead_any
      · exact ok _ (((q.tick _).tick _).load file (by simpa using closed))
      · exact fun e _ => failed e _ ((q.tick _).tick _)
    · exact fun e => failed e _ (q.tick _)

theorem wp_fsPutfso_quiet (q : Quiet s t (i :: hold)) (linked : Linked s)
    (ok : ∀ t', Quiet s t' hold → Q (.ok ()) t') : wp (fsPutfso cx i) Q t := by
  have count := q.refcnt i
  rw [count_cons_self] at count
  have ref : (t.fso i).refcnt ≠ 0 := by omega
  have others : ∀ j, j ≠ i → hold.count j = (i :: hold).count j := by
    intro j ne
    rw [count_cons_of_ne fun h => ne h.symm]
  simp only [fsPutfso, wp_bind, wp_get, after_ok, if_neg ref]
  by_cases last : (t.fso i).refcnt = 1
  · have closed : (s.fso i).refcnt = 0 := by omega
    have nlink : (t.fso i).nlink ≠ 0 := by
      have alive := linked i (q.files ▸ (q.disk.opened i ref).file) closed
      rw [← q.hdr, hdr_of_open ref] at alive
      exact alive
    have clean := (q.loaded i closed ref).1
    rw [if_pos last]
    simp only [wp_bind, wp_attempt]
    apply wp_natPutfso_clean nlink clean
    simp only [caught_ok, after_ok, modifyFso, wp_modify, last]
    exact ok _ (q.unload closed (by omega))
  · rw [if_neg last]
    simp only [modifyFso, wp_modify]
    exact ok _ (q.setRefcnt ref (by omega) (by omega) others)

theorem wp_natBmap_quiet (q : Quiet s t hold) (ref : (t.fso i).refcnt ≠ 0) (small : log < 2 ^ 32)
    (ok : ∀ t', Quiet s t' hold → (hdr s i).slot log < 114 →
      (t'.fso i).bmapPhys = (hdr s i).phys s.dev log → Q (.ok ()) t')
    (refused : 114 ≤ (hdr s i).slot log → Q (.err .EFBIG) t)
    (failed : ∀ e t', cx.IoError e → Quiet s t' hold → Q (.err e) t') : wp (natBmap cx i log false) Q t := by
  have head : hdr t i = (t.fso i).hdr := hdr_of_open ref
  apply wp_natBmap_lookup (q.disk.opened i ref).cache
  · intro slot u looked
    have slot' : (hdr t i).slot log < 114 := by rw [head]; exact slot
    obtain ⟨q', phys⟩ := q.look ref small slot' looked
    rw [q.hdr] at slot'
    exact ok u q' slot' phys
  · intro slot
    apply refused
    rw [← q.hdr, head]
    exact slot
  · exact fun e n io => failed e _ io (q.tick n)

end Rules

/- Giving back a reference to an object that has changed -/

structure Still (s s' : Vol) (i : Nat) : Prop where
  hdr : hdr s' i = hdr s i
  dev : ∀ b ∈ (Natfs.hdr s i).owned s.dev, s'.dev b = s.dev b

namespace Still
variable {s s' : Vol} {i : Nat}

theorem trees (k : Still s s' i) : (Natfs.hdr s' i).owned s'.dev = (Natfs.hdr s i).owned s.dev ∧
    ∀ log, (Natfs.hdr s' i).phys s'.dev log = (Natfs.hdr s i).phys s.dev log := by
  have inner : ∀ b ∈ (Natfs.hdr s i).inners s.dev, s'.dev b = s.dev b := fun b mem =>
    k.dev b (Hdr.inners_subset mem)
  obtain ⟨owned, _, phys⟩ := Hdr.trees_congr inner
  refine ⟨by rw [k.hdr, owned], ?_⟩
  intro log
  rw [k.hdr, phys]

theorem obj (k : Still s s' i) : obj s' i = obj s i := by
  have blocks : (Natfs.hdr s' i).block s'.dev = (Natfs.hdr s i).block s.dev := by
    funext log
    simp only [Hdr.block, k.trees.2 log]
    split
    · rfl
    · rename_i found
      exact k.dev _ (Hdr.phys_mem found).2.2
  rw [Natfs.obj, Natfs.obj, blocks, k.hdr]

theorem counted (k : Still s s' i) (count : (Natfs.hdr s i).Counted s.dev) :
    (Natfs.hdr s' i).Counted s'.dev := by
  rw [Hdr.Counted, k.trees.1, k.hdr]
  exact count

end Still

/-- A reference to object `i` has been given back: the file is what it was, or it is gone. -/
structure Closed (s s' : Vol) (i : Nat) : Prop where
  disk : Disk s'
  only : Only s s' i
  refcnt : (s'.fso i).refcnt = (s.fso i).refcnt - 1
  size : (s'.fso i).refcnt ≠ 0 → (s'.fso i).size = (s.fso i).size
  fate : (¬ ((s.fso i).refcnt = 1 ∧ (s.fso i).nlink = 0) ∧ s'.files = s.files ∧ Still s s' i) ∨
    ((s.fso i).refcnt = 1 ∧ (s.fso i).nlink = 0) ∧ s'.files = s.files.erase i

section Closing
variable {cx : Cx} {s : Vol} {i : Nat}

section
variable (disk : Disk s)
include disk

theorem Disk.bmap_lt (ref : (s.fso i).refcnt ≠ 0) (k : Nat) (lt : k < 114) :
    (s.fso i).bmap k < 2 ^ 32 := by
  by_cases none : (s.fso i).bmap k = 0
  · rw [none]
    exact Nat.pow_pos (by decide)
  · have file := (disk.opened i ref).file
    have mem : (s.fso i).bmap k ∈ holds s i := by
      apply mem_cons_of_mem
      apply Hdr.mem_owned lt
      rw [hdr_of_open ref, Fso.hdr_bmap _ lt]
      exact Radix.self_mem_nodes none
    exact data_fits disk.bam.geo (disk.data i file _ mem).1

theorem closed_shared (more : 1 < (s.fso i).refcnt) :
    Closed s (s.setFso i { s.fso i with refcnt := (s.fso i).refcnt - 1 }) i := by
  have ref : (s.fso i).refcnt ≠ 0 := by omega
  have opened := disk.opened i ref
  have self : (s.setFso i { s.fso i with refcnt := (s.fso i).refcnt - 1 }).fso i =
      { s.fso i with refcnt := (s.fso i).refcnt - 1 } := update_same _ _ _
  have same : hdr (s.setFso i { s.fso i with refcnt := (s.fso i).refcnt - 1 }) i = hdr s i := by
    rw [hdr_of_open ref, hdr_of_open (by rw [self]; show (s.fso i).refcnt - 1 ≠ 0; omega), self]
    rfl
  obtain ⟨disk', only⟩ := disk.setSlot (f := { s.fso i with refcnt := (s.fso i).refcnt - 1 }) opened.file same (by
    intro _
    refine ⟨opened.file, ?_, by rw [self]; exact opened.small, ?_⟩
    · intro valid
      rw [self] at valid ⊢
      exact opened.cache valid
    · intro clean
      rw [self] at clean ⊢
      exact opened.saved clean)
  refine ⟨disk', only, by rw [self], fun _ => by rw [self], .inl ⟨by omega, rfl, same, fun _ _ => rfl⟩⟩

theorem closed_saved (last : (s.fso i).refcnt = 1) (nlink : (s.fso i).nlink ≠ 0)
    (dirty : Bool) (saved : (loadFso s.fs.geo m).hdr = (s.fso i).hdr) (n : Nat) : Closed s { s with
      dev := update s.dev i m
      fso := update s.fso i { s.fso i with refcnt := 0, dirty := dirty }
      tick := n } i := by
  have ref : (s.fso i).refcnt ≠ 0 := by omega
  have file := (disk.opened i ref).file
  have own := List.nodup_cons.mp (disk.nodup i file)
  have here := (disk.data i file i (mem_cons_self ..)).1
  generalize final : ({ s with
      dev := update s.dev i m
      fso := update s.fso i { s.fso i with refcnt := 0, dirty := dirty }
      tick := n } : Vol) = t
  have dev : t.dev = update s.dev i m := by rw [← final]
  have self : t.fso i = { s.fso i with refcnt := 0, dirty := dirty } := by
    rw [← final]
    exact update_same _ _ _
  have fs : t.fs = s.fs := by rw [← final]
  have files : t.files = s.files := by rw [← final]
  have away : ∀ b, b ≠ i → t.dev b = s.dev b := by
    intro b ne
    rw [dev]
    exact update_ne _ _ _ ne
  have bam : BamOk t := disk.bam.congr fs fun x inside => away x fun eq =>
    data_not_bam disk.bam.geo here (eq ▸ inside)
  have same : hdr t i = hdr s i := by
    rw [hdr_of_open ref, hdr_of_closed (by rw [self]), savedHdr, fs, dev, update_same]
    exact saved
  have only : Only s t i := by
    refine ⟨bam, by rw [fs], by rw [files]; exact disk.files, fun _ _ => by rw [files], ?_, ?_⟩
    · intro j ne
      rw [← final]
      exact update_ne _ _ _ ne
    · intro j other ne b mem
      apply away
      rintro rfl
      exact disk.apart j other b file ne b mem (mem_cons_self ..)
  have still : Still s t i := by
    refine ⟨same, fun b mem => away b ?_⟩
    rintro rfl
    exact own.1 mem
  have held : holds t i = holds s i := by rw [holds, holds, still.trees.1]
  have mark : ∀ b, s.fs.geo.inData b → used t b = used s b := fun b inside =>
    used_congr (by rw [fs]) (by rw [fs]) (by rw [fs]) (data_covered disk.bam.geo inside)
      fun x bam => away x fun eq => data_not_bam disk.bam.geo here (eq ▸ bam)
  refine ⟨only.disk disk ?_ ?_ ?_ ?_ ?_ ?_, only, by rw [self, last], fun h => absurd (by rw [self]) h,
    .inl ⟨fun h => nlink h.2, files, still⟩⟩
  · intro _
    rw [held]
    exact disk.nodup i file
  · intro _
    rw [same]
    exact disk.shape i file
  · intro _ b mem
    rw [held] at mem
    obtain ⟨inside, set⟩ := disk.data i file b mem
    rw [mark b inside]
    exact ⟨inside, set⟩
  · intro _ b mem
    rw [held] at mem
    exact .inl ⟨file, mem⟩
  · intro j other _ b mem
    obtain ⟨inside, set⟩ := disk.data j other b mem
    rw [mark b inside]
    exact set
  · intro open'
    exact absurd (by rw [self]) open'

theorem closed_gone (last : (s.fso i).refcnt = 1) (nlink : (s.fso i).nlink = 0)
    (trunc : Truncated s u i) (free : Marked u v i false) : Closed s (Vol.setFso { v with files := v.files.erase i } i { v.fso i with refcnt := 0 }) i := by
  have ref : (s.fso i).refcnt ≠ 0 := by omega
  have file := (disk.opened i ref).file
  have geo : v.fs.geo = s.fs.geo := free.frame.geo.trans trunc.only.geo
  have files : v.files = s.files := free.frame.files.trans trunc.files
  generalize final : Vol.setFso { v with files := v.files.erase i } i { v.fso i with refcnt := 0 } = t
  have self : t.fso i = { v.fso i with refcnt := 0 } := by
    rw [← final]
    exact update_same _ _ _
  have files' : t.files = s.files.erase i := by
    rw [← final, ← files]
    rfl
  have bam : BamOk t := by
    rw [← final]
    exact free.ok.congr rfl fun _ _ => rfl
  have kept : ∀ j ∈ s.files, j ≠ i → ∀ b ∈ holds s j, t.dev b = s.dev b ∧ used t b = true := by
    intro j other ne b mem
    have inside := (disk.data j other b mem).1
    have later : v.dev b = u.dev b :=
      free.frame.dev b (data_not_bam trunc.disk.bam.geo (trunc.only.geo ▸ inside))
    have apart : b ≠ i := by
      rintro rfl
      exact disk.apart j other b file ne b mem (mem_cons_self ..)
    have held : b ∈ holds u j := by
      rw [(trunc.only.kept other ne).trees.1]
      exact mem
    have set := (trunc.disk.data j (trunc.files ▸ other) b held).2
    refine ⟨?_, ?_⟩
    · rw [← final]
      show v.dev b = s.dev b
      rw [later]
      exact trunc.only.dev j other ne b mem
    · rw [← final]
      show used v b = true
      rw [free.used b (by rw [trunc.only.geo]; exact data_covered disk.bam.geo inside), if_neg apart]
      exact set
  have absent : i ∉ t.files := by
    rw [files']
    exact disk.files.not_mem_erase
  have only : Only s t i := by
    refine ⟨bam, ?_, by rw [files']; exact disk.files.erase i, ?_, ?_, ?_⟩
    · rw [← final]
      exact geo
    · intro j ne
      rw [files', disk.files.mem_erase_iff]
      exact ⟨And.right, fun mem => ⟨ne, mem⟩⟩
    · intro j ne
      rw [← final, ← trunc.only.fso j ne, ← free.frame.fso]
      exact update_ne _ _ _ ne
    · exact fun j other ne b mem => (kept j other ne b mem).1
  refine ⟨only.disk disk (fun mem => absurd mem absent) (fun mem => absurd mem absent)
    (fun mem => absurd mem absent) (fun mem => absurd mem absent) ?_ ?_, only, by rw [self, last],
    fun h => absurd (by rw [self]) h, .inr ⟨⟨last, nlink⟩, files'⟩⟩
  · exact fun j other ne b mem => (kept j other ne b mem).2
  · intro open'
    exact absurd (by rw [self]) open'

/-- The last reference goes while the header cannot be written: `fs_putfso` empties the slot all the same. -/
def SaveFails (cx : Cx) (i : Nat) (s : Vol) : Prop :=
  (s.fso i).refcnt = 1 ∧ (s.fso i).dirty = true ∧ cx.io s.tick ≠ none

def forgotten (s : Vol) (i : Nat) : Vol :=
  Vol.setFso { s with tick := s.tick + 1 } i { s.fso i with refcnt := 0 }

theorem wp_fsPutfso_alive (ref : (s.fso i).refcnt ≠ 0)
    (alive : ¬ ((s.fso i).refcnt = 1 ∧ (s.fso i).nlink = 0))
    (done : ∀ s', ¬ SaveFails cx i s → Closed s s' i → s'.fs = s.fs →
      (∀ b, b < 4096 * s.fs.geo.bamSize → used s' b = used s b) → Q (.ok ()) s')
    (lost : SaveFails cx i s → Q (.ok ()) (forgotten s i)) : wp (fsPutfso cx i) Q s := by
  have opened := disk.opened i ref
  have here := (disk.data i opened.file i (mem_cons_self ..)).1
  have shape : (s.fso i).hdr.Shape := by
    rw [← hdr_of_open ref]
    exact disk.shape i opened.file
  simp only [fsPutfso, wp_bind, wp_get, after_ok, if_neg ref]
  by_cases last : (s.fso i).refcnt = 1
  · have nlink : (s.fso i).nlink ≠ 0 := fun none => alive ⟨last, none⟩
    rw [if_pos last]
    simp only [wp_bind, wp_attempt, natPutfso, wp_get, after_ok, if_neg nlink, natSyncfso]
    split
    · rename_i dirty
      simp only [wp_bind]
      cases outcome : cx.io s.tick with
      | none =>
        refine wp_blkGet_taken outcome ?_
        have saved := hdr_headerOf s.fs.geo (s.fso i) shape (disk.bmap_lt ref)
        simp only [after_ok, wp_bind, wp_blkFill, modifyFso, wp_modify,
          caught_ok, Vol.setFso, Vol.setDev, update_same, update_update, last]
        refine done _ (fun fails => fails.2.2 outcome) (closed_saved disk last nlink false saved (s.tick + 1)) rfl ?_
        intro b lt
        refine used_congr ?_ ?_ ?_ lt ?_
        · rfl
        · rfl
        · rfl
        · exact fun x inBam => update_ne _ _ _ fun eq => data_not_bam disk.bam.geo here (eq ▸ inBam)
      | some e =>
        have refused : blkGet cx i s = (.err e, { s with tick := s.tick + 1 }) := by simp only [blkGet, outcome]
        refine wp_of_eq refused ?_
        simp only [after_err, caught_err, after_ok, modifyFso, wp_modify, last]
        exact lost ⟨last, dirty, by rw [outcome]; simp⟩
    · rename_i clean
      have clean : (s.fso i).dirty = false := by simpa using clean
      have saved := opened.saved clean
      have closed := closed_saved disk last nlink (s.fso i).dirty saved s.tick
      rw [update_self] at closed
      simp only [wp_pure, caught_ok, after_ok, modifyFso, wp_modify, last]
      refine done _ (fun fails => ?_) closed rfl fun _ _ => rfl
      have dirty := fails.2.1
      rw [clean] at dirty
      cases dirty
  · rw [if_neg last]
    simp only [modifyFso, wp_modify]
    exact done _ (fun fails => last fails.1) (closed_shared disk (by omega)) rfl fun _ _ => rfl

end

theorem wp_fsPutfso (noio : cx.NoIoError) (disk : Disk s) (ref : (s.fso i).refcnt ≠ 0)
    (post : ∀ s', Closed s s' i → Q (.ok ()) s') : wp (fsPutfso cx i) Q s := by
  by_cases gone : (s.fso i).refcnt = 1 ∧ (s.fso i).nlink = 0
  · obtain ⟨last, nlink⟩ := gone
    have opened := disk.opened i ref
    simp only [fsPutfso, wp_bind, wp_get, after_ok, if_neg ref, if_pos last]
    simp only [wp_bind, wp_attempt, natPutfso, wp_get, after_ok, if_pos nlink]
    apply wp_natTrunc noio disk ref
    intro u trunc
    simp only [caught_ok, after_ok, wp_bind, wp_attempt]
    have inside := (disk.data i opened.file i (mem_cons_self ..)).1
    apply wp_natBfree noio trunc.disk.bam (trunc.only.geo ▸ inside)
    intro v free
    simp only [caught_ok, after_ok, wp_modify, modifyFso]
    have closed := closed_gone disk last nlink trunc free
    have count : (v.fso i).refcnt - 1 = 0 := by
      rw [free.frame.fso, trunc.self]
      show (s.fso i).refcnt - 1 = 0
      omega
    rw [count]
    exact post _ closed
  · apply wp_fsPutfso_alive disk ref gone
    · exact fun s' _ closed _ _ => post s' closed
    · exact fun fails => absurd (noio s.tick) fails.2.2

end Closing

end Natfs
