import Newsys.Natfs.Dirops

/- New files: `nat_creat` writes a header before the file has a name, and takes it back when it gets
   none. -/
namespace Natfs
open Bytes Cmds Cmd Links List

theorem newHeader_fresh (levels : 1 ≤ geo.nindirlev ∧ geo.nindirlev ≤ 4)
    (direct : geo.ndirblks ≤ 114) (mode rdev now : Nat) :
    (loadFso geo (newHeader cx geo mode rdev now)).hdr.Fresh := by
  have lev : geo.nindirlev % 256 ^ 1 = geo.nindirlev := Nat.mod_eq_of_lt (by omega)
  have dir : geo.ndirblks % 256 ^ 1 = geo.ndirblks := Nat.mod_eq_of_lt (by omega)
  refine ⟨⟨?_, ?_⟩, ?_, ?_, ?_, ?_⟩
  · simp (disch := omega) only [Fso.hdr, loadFso, hdNindirlev, newHeader, getLE_setLE_same, lev]
    exact levels
  · simp (disch := omega) only [Fso.hdr, loadFso, hdNdirblks, newHeader, getLE_setLE_ne, getLE_setLE_same, dir]
    exact direct
  · simp (disch := omega) only [Fso.hdr, loadFso, hdSize, newHeader, getLE_setLE_ne, getLE_zero]
    rfl
  · simp (disch := omega) only [Fso.hdr, loadFso, hdNlink, newHeader, getLE_setLE_ne, getLE_setLE_same]
    rfl
  · simp (disch := omega) only [Fso.hdr, loadFso, hdBlocks, newHeader, getLE_setLE_ne, getLE_setLE_same]
    rfl
  · intro k lt
    rw [Fso.hdr_bmap _ lt]
    simp (disch := omega) only [loadFso, hdBmap, newHeader, getLE_setLE_ne, getLE_zero]

structure Loaded (s : Vol) (i : Nat) (hd : Mem) : Prop where
  dev : s.dev i = hd
  fso : s.fso i = loadFso s.fs.geo hd

theorem wp_fsGetfso_loaded (closed : (s.fso i).refcnt = 0)
    (ok : ∀ t, Loaded t i (s.dev i) → t.fs = s.fs → Q (.ok ()) t)
    (failed : ∀ e t, Q (.err e) t) : wp (fsGetfso cx i) Q s := by
  simp only [fsGetfso, wp_bind, wp_get, after_ok]
  rw [if_neg (fun ref => ref closed)]
  simp only [wp_bind]
  apply wp_newSlot
  · simp only [after_ok, wp_bind]
    apply wp_blkRead_any
    · exact ok _ ⟨rfl, update_same _ _ _⟩ rfl
    · exact fun e _ => failed e _
  · exact fun e => failed e _

section Creating
variable {cx : Cx} {s t : Vol} {G H : Tree} {d nr : Nat}

variable {Q : Res Errno Nat → Vol → Prop}

section
variable (noio : cx.NoIoError)
include noio

theorem wp_withdraw {kind : Bool} {e : Errno} (dep : Depicts t H)
    (same : Links.Graph.Same (G.add nr kind) H) (seq : Sequel s (G.put d)) (fresh : nr ∉ G.nodes)
    (unused : G.users nr = 0) (used : G.users d ≠ 0) (node : d ∈ G.nodes) (alive : G.nlink d ≠ 0)
    (post : ∀ t', Keeps s t' → Q (.err e) t') :
    wp (do
      fsPutfso cx d
      let _ ← attempt (natBfree cx nr)
      modify fun s => { s with files := s.files.erase nr }
      fail e) Q t := by
  have ne : nr ≠ d := fun eq => fresh (eq ▸ node)
  have inside : nr ∈ (G.add nr kind).nodes := mem_cons_self ..
  have used' : H.users d ≠ 0 := by
    rw [same.users d (mem_cons_of_mem _ node)]
    exact used
  have alive' : H.nlink d ≠ 0 := by
    rw [same.nlink d (mem_cons_of_mem _ node),
      show (G.add nr kind).nlink d = G.nlink d from Function.update_of_ne (Ne.symm ne) ..]
    exact alive
  rw [wp_bind]
  apply wp_put noio dep used'
  intro u dep'
  have file : nr ∈ u.files := by
    rw [dep'.nodes, Links.Graph.put_alive alive', show (H.setUsers d _).nodes = H.nodes from rfl, same.nodes]
    exact inside
  have closed : (u.fso nr).refcnt = 0 := by
    rw [dep'.users, Links.Graph.users_put, if_neg ne, same.users nr inside]
    exact unused
  have data := (dep'.inOrder.disk.data nr file nr (mem_cons_self ..)).1
  simp only [after_ok, wp_bind, wp_attempt]
  apply wp_natBfree noio dep'.inOrder.disk.bam data
  intro v marked
  have gone := dep'.removed (u := { v with files := v.files.erase nr }) file closed marked rfl rfl rfl rfl
  have back := same.withdraw fresh node alive
  exact post _ ⟨_, gone, back.bounded seq.bounded, fun exact => back.exact (seq.exact exact)⟩

theorem wp_nameNew {kind : Bool} {n : Name} (made : Depicts t (G.add nr kind))
    (seq : Sequel s G) (fresh : nr ∉ G.nodes) (unused : G.users nr = 0) (used : G.users d ≠ 0)
    (node : d ∈ G.nodes) (alive : G.nlink d ≠ 0) (clean : (0 : Byte) ∉ n)
    (done : ∀ u, Keeps s u → Loaded u nr (t.dev nr) → u.fs.geo = t.fs.geo → Q (.ok nr) u)
    (failed : ∀ e t, Keeps s t → Q (.err e) t) :
    wp (do
      let err ← attempt (newEntry cx d n nr)
      fsPutfso cx d
      match err with
      | .error e => do
        let _ ← attempt (natBfree cx nr)
        modify fun s => { s with files := s.files.erase nr }
        fail e
      | .ok () => do
        fsGetfso cx nr
        pure nr) Q t := by
  have ne : d ≠ nr := fun eq => fresh (eq ▸ node)
  have ref : (t.fso d).refcnt ≠ 0 := made.ref used
  have file : d ∈ t.files := made.file used
  have disk := made.inOrder.disk
  have data := (disk.data nr (made.nodes ▸ mem_cons_self ..) nr (mem_cons_self ..)).1
  have pos := Nat.pos_iff_ne_zero.mp (data_pos disk.bam.geo data)
  have giveUp : ∀ {e : Errno} {v : Vol} {H : Tree}, Depicts v H → Links.Graph.Same (G.add nr kind) H → _ :=
    fun {e v H} dep same => wp_withdraw (e := e) noio dep same (seq.put node used) fresh unused used node alive
      fun t' keeps => failed e t' keeps
  rw [wp_bind, wp_attempt]
  apply wp_newEntry noio (.refl disk) ref (made.inOrder.dirs d file) clean pos (data_fits disk.bam.geo data)
  · intro t' u q dir edited
    have dep : Depicts t' (G.add nr kind) := made.quiet q
    have dir' : isDir t' d := by rw [isDir, q.hdr]; exact dir
    have named := dep.edited edited (dep.ref used) dir'
    have ents : (G.add nr kind).ents d = G.ents d := Function.update_of_ne ne ..
    have perm : ((n, nr) :: live t d).Perm ((n, nr) :: G.ents d) := by
      have entries := made.ents d file dir
      rw [ents] at entries
      exact entries.cons _
    have isDir : G.dir d = true := by
      rw [← (made.dir d file).mp dir]
      exact (Function.update_of_ne ne ..).symm
    have seq' : Sequel s ((G.add nr kind).setEnts d ((n, nr) :: live t d)) :=
      ⟨seq.bounded.create fresh kind node isDir perm,
        fun exact => (seq.exact exact).create fresh kind node isDir alive perm⟩
    simp only [caught_ok, after_ok, wp_bind]
    apply wp_putClosed noio named used
    intro v put dep'
    have keeps : Keeps s v := ⟨_, dep', seq'.put (mem_cons_of_mem _ node) used⟩
    have linked : ((G.add nr kind).setEnts d ((n, nr) :: live t d)).nlink d ≠ 0 := by
      have same : (G.add nr kind).nlink d = G.nlink d := Function.update_of_ne ne ..
      exact fun none => alive (same ▸ none)
    have there : nr ∈ v.files := by
      rw [dep'.nodes, Links.Graph.put_alive linked]
      exact mem_cons_self ..
    -- the header of the new file is no block of the directory
    have header : v.dev nr = t.dev nr := by
      have before : nr ∈ t'.files := dep.nodes ▸ mem_cons_self ..
      have between : nr ∈ u.files := named.nodes ▸ mem_cons_self ..
      rw [put.only.dev nr between (Ne.symm ne) nr (mem_cons_self ..),
        edited.worked.only.dev nr before (Ne.symm ne) nr (mem_cons_self ..), q.dev]
    have geo : v.fs.geo = t.fs.geo := by
      rw [put.only.geo, edited.worked.only.geo, q.fs]
    have closed : (v.fso nr).refcnt = 0 := by
      rw [dep'.users, Links.Graph.users_put, if_neg (Ne.symm ne)]
      exact unused
    simp only [after_ok, wp_bind]
    have quiet : wp (fsGetfso cx nr) (fun _ w => ∃ hold, Quiet v w hold) v :=
      wp_fsGetfso (.refl keeps.sane.disk) there (fun w q' => ⟨_, q'⟩) fun _ w q' => ⟨_, q'⟩
    have loads : wp (fsGetfso cx nr)
        (fun r w => r = .ok () ∧ Loaded w nr (v.dev nr) ∧ w.fs = v.fs ∨ ∃ e, r = .err e) v :=
      wp_fsGetfso_loaded closed (fun w loaded fs => .inl ⟨rfl, loaded, fs⟩) fun e w => .inr ⟨e, rfl⟩
    refine wp_mono (wp_and quiet loads) ?_
    rintro r w ⟨⟨hold, q'⟩, ⟨rfl, loaded, fs⟩ | ⟨e, rfl⟩⟩
    · refine done w (keeps.trans (keeps.sane.keeps q')) (header ▸ loaded) ?_
      rw [fs, geo]
    · exact failed e w (keeps.trans (keeps.sane.keeps q'))
  · intro t' q _ _
    exact giveUp (made.quiet q) (.refl _)
  · intro e t' u _ q dir edited
    have dep : Depicts t' (G.add nr kind) := made.quiet q
    have dir' : isDir t' d := by rw [isDir, q.hdr]; exact dir
    exact giveUp (dep.edited edited (dep.ref used) dir') (Links.Graph.same_setEnts (made.ents d file dir))
  · intro e _
    exact giveUp made (.refl _)

theorem wp_natCreat_loaded (sane : Sane s) (name : CStr) (mode rdev : Nat)
    (done : ∀ t nr now, Keeps s t → Loaded t nr (newHeader cx s.fs.geo mode rdev now) →
      t.fs.geo = s.fs.geo → Q (.ok nr) t) (failed : ∀ e t, Keeps s t → Q (.err e) t) (crash : ∀ t, Q .crash t) :
    wp (natCreat cx name mode rdev) Q s := by
  rw [natCreat]
  apply sane.wp_parent (.refl sane.disk) name
  · intro t d q walk file ref
    have dep := sane.depicts q
    have seq := sane.sequel [d]
    have used : ((tree s).hold [d]).users d ≠ 0 := by
      show (s.fso d).refcnt + [d].count d ≠ 0
      rw [count_cons_self]
      omega
    simp only [wp_bind, wp_onError]
    apply wp_natBalloc noio dep.inOrder.disk.bam
    · intro t₁ nr alloc
      have absent := dep.unfiled alloc.free
      have unused : ((tree s).hold [d]).users nr = 0 := by
        rw [← dep.users]
        exact dep.unopened absent
      simp only [recovered_ok, after_ok, wp_bind, wp_onError, wp_blkGet noio, wp_clockTime,
        wp_modify]
      generalize start : ({ ({ t₁ with tick := t₁.tick + 1 } : Vol).setDev nr _ with files := _ } : Vol) = u
      have header : u.dev nr = newHeader cx t₁.fs.geo mode rdev (cx.clock (t₁.tick + 1)) := by
        rw [← start]
        exact update_same _ _ _
      have blank : (loadFso t.fs.geo (u.dev nr)).hdr.Fresh := by
        rw [header, alloc.marked.frame.geo]
        exact newHeader_fresh dep.inOrder.levels dep.inOrder.direct ..
      have made := dep.created alloc (u := u) (by rw [← start]; rfl) (by rw [← start]; rfl) (by rw [← start])
        (fun b ne => by rw [← start]; exact update_ne _ _ _ ne) blank
      have geo : t₁.fs.geo = s.fs.geo := by rw [alloc.marked.frame.geo, q.fs]
      have geo' : u.fs.geo = t₁.fs.geo := by rw [← start]; rfl
      have rest := wp_nameNew (Q := Q) noio made seq (by rw [← dep.nodes]; exact absent) unused used file
        (sane.bounded.walk_alive walk) name.base_noNul (fun v keeps loaded same => done v nr _ keeps
          (by rw [header, geo] at loaded; exact loaded) (by rw [same, geo', geo])) failed
      rw [wp_bind] at rest
      exact rest
    · intro t₁ bam frame same _
      have full := dep.mapped bam frame fun b inside set => by
        rw [same b (data_covered dep.inOrder.disk.bam.geo inside)]
        exact set
      simp only [recovered_err]
      apply wp_put noio full used
      intro u dep'
      exact failed _ u ⟨_, dep', seq.put file used⟩
  · exact fun e t q => failed e t (sane.keeps q)
  · exact crash

theorem wp_natCreat (sane : Sane s) (name : CStr) (mode rdev : Nat)
    (done : ∀ t nr, Keeps s t → (t.fso nr).refcnt ≠ 0 → Q (.ok nr) t)
    (failed : ∀ e t, Keeps s t → Q (.err e) t) (crash : ∀ t, Q .crash t) :
    wp (natCreat cx name mode rdev) Q s := by
  refine wp_natCreat_loaded noio sane name mode rdev ?_ failed crash
  intro t nr now keeps loaded _
  have one : (t.fso nr).refcnt = 1 := congrArg Fso.refcnt loaded.fso
  exact done t nr keeps (by omega)

theorem wp_natMkdir (sane : Sane s) (name : CStr) (mode : Nat) :
    wp (natMkdir cx name mode) (fun r t => r = .crash ∨ Keeps s t) s := by
  rw [natMkdir, wp_bind]
  apply wp_natCreat noio sane
  · intro t nr keeps ref
    have dep := keeps.sane.toInOrder.depicts
    have seq := keeps.sane.sequel []
    rw [after_ok]
    apply wp_put noio dep ref
    intro u dep'
    exact .inr (keeps.trans ⟨_, dep', seq.put (dep.node ref) ref⟩)
  · exact fun e t keeps => .inr keeps
  · exact fun _ => .inl rfl

end

end Creating

end Natfs
