import Newsys.Natfs.Dirops

/- `nat_rename`: the entry moves, or it takes the place of another one. -/
namespace Natfs
open Bytes Cmds Cmd Links List Nat

structure Sides (s : Vol) (oldname newname : CStr) (od nd : Nat) (p : DirentPtr) (k b : Nat) : Prop where
  differ : oldname ≠ newname
  outside : ¬ oldname.1 ++ [47] <+: newname.1
  walk : (tree s).Walk (tree s).root oldname.dirs od
  walk' : (tree s).Walk (tree s).root newname.dirs nd
  found : Found s od oldname.base p k b

namespace Sides
variable {s : Vol} {oldname newname : CStr} {od nd k b : Nat} {p : DirentPtr}

section
variable (sd : Sides s oldname newname od nd p k b)
include sd

theorem old (sane : Sane s) : od ∈ s.files :=
  sane.bounded.walk_node sd.walk sane.bounded.root

theorem new (sane : Sane s) : nd ∈ s.files :=
  sane.bounded.walk_node sd.walk' sane.bounded.root

theorem edge (sane : Sane s) :
    (tree s).Edge od oldname.base b := sd.found.edge (sd.old sane)

theorem names (sane : Sane s) (same : od = nd) :
    oldname.base ≠ newname.base := by
  intro eq
  have dir : (tree s).dir od = true := decide_eq_true sd.found.dir
  have dirs := sane.bounded.walk_unique sd.walk dir (same ▸ sd.walk')
  exact sd.differ (CStr.ext_of_parts dirs eq)

end

theorem joinPath_append (dirs rest : List Name) (n base : Name) :
    joinPath (dirs ++ n :: rest) base = joinPath dirs n ++ 47 :: joinPath rest base := by
  simp only [joinPath, flatMap_append, flatMap_cons, append_assoc, cons_append,
    nil_append]

theorem apart (sd : Sides s oldname newname od nd p k b) (sane : Sane s) (dir : isDir s nd) :
    ¬ (tree s).Reach b nd := by
  rintro ⟨path, below⟩
  have down := Links.Graph.walk_append (sd.walk.snoc (sd.edge sane)) below
  have dirs := sane.bounded.walk_unique sd.walk' (decide_eq_true dir) down
  apply sd.outside
  refine ⟨joinPath path newname.base, ?_⟩
  have path : joinPath newname.dirs newname.base = oldname.1 ++ 47 :: joinPath path newname.base := by
    rw [dirs, append_assoc, singleton_append, joinPath_append, oldname.join]
  rw [← newname.join, path, append_assoc, singleton_append]

end Sides

section Finding
variable {cx : Cx} {s t : Vol}

theorem wp_giveBoth (sane : Sane s) {i j : Nat} {e : Errno} {α : Type} {R : Res Errno α → Vol → Prop}
    (q : Quiet s t [j, i]) (post : ∀ t', Quiet s t' [] → R (.err e) t') :
    wp (do fsPutfso cx i; fsPutfso cx j) (after (fun _ => (fail e : NatM α)) R) t := by
  rw [wp_bind]
  apply wp_fsPutfso_quiet (q.perm (.swap ..)) sane.linked
  exact fun u q₂ => wp_giveBack sane q₂ post

theorem wp_renameFind (sane : Sane s) (oldname newname : CStr)
    {Q : Res Errno (Nat × Nat × DirentPtr) → Vol → Prop}
    (done : ∀ t od nd p k b, Quiet s t [nd, od] → Sides s oldname newname od nd p k b → Q (.ok (od, nd, p)) t)
    (failed : ∀ e t, Quiet s t [] → Q (.err e) t) (crash : ∀ t, Q .crash t) :
    wp (renameFind cx oldname newname) Q s := by
  simp only [renameFind]
  split
  · exact failed _ s (.refl sane.disk)
  · rename_i differ
    split
    · exact failed _ s (.refl sane.disk)
    · rename_i outside
      apply sane.wp_parent (.refl sane.disk) oldname
      · intro t od q walk file ref
        simp only [wp_bind, wp_onError]
        apply sane.wp_lookupDir q newname
        · intro t₁ nd q₁ walk'
          simp only [recovered_ok, after_ok, wp_bind, wp_onError]
          apply wp_fsChkPerm
          · intro _
            have ref₁ : (t₁.fso od).refcnt ≠ 0 := by
              rw [q₁.refcnt, (List.Perm.swap od nd []).count_eq, count_cons_self]
              omega
            simp only [recovered_ok, after_ok, wp_bind, wp_onError]
            apply sane.wp_find q₁ file ref₁
            · exact fun t₂ p k b q₂ found => done t₂ od nd p k b q₂ ⟨differ, outside, walk, walk', found⟩
            · exact fun e t₂ q₂ => wp_giveBoth sane q₂ fun u q => failed e u q
          · exact fun e _ => wp_giveBoth sane q₁ fun u q => failed e u q
        · exact fun e t₁ q₁ => wp_giveBack sane q₁ fun u q => failed e u q
        · exact crash
      · exact failed
      · exact crash

end Finding

section Moving
variable {cx : Cx} {s t : Vol} {G H : Tree} {od nd b : Nat} {n : Name} {p : DirentPtr} {k : Nat}
variable {Q : Res Errno Unit → Vol → Prop}

theorem wp_renameOut (dep : Depicts t G) (usedO : G.users od ≠ 0) (usedN : G.users nd ≠ 0)
    (found : Found t od n p k b)
    (post : ∀ t' l, (G.ents od).Perm ((n, b) :: l) → Depicts t' (G.setEnts od l) → Q (.ok ()) t') :
    wp (renameOut cx od nd p) Q t := by
  rw [renameOut, wp_bind]
  apply wp_clearEntry dep usedO found
  intro u l perm dep₁
  simp only [after_ok, wp_bind, wp_clockTime, modifyFso, wp_modify]
  have dep₂ := dep₁.dated (f := { u.fso od with mtime := cx.clock u.tick, dirty := true }) (dep₁.ref usedO)
    ⟨rfl, rfl, rfl, rfl, rfl, rfl, ⟨rfl, rfl, rfl⟩, rfl, dep₁.inOrder.disk.nlink_lt (dep₁.ref usedO)⟩ rfl rfl
  exact post _ l perm (dep₂.dated (dep₂.ref usedN) ⟨rfl, rfl, rfl, rfl, rfl, rfl, ⟨rfl, rfl, rfl⟩, rfl,
    dep₂.inOrder.disk.nlink_lt (dep₂.ref usedN)⟩ rfl rfl)

variable {c : Nat}

theorem Found.apart (sane : InOrder s)
    (a : Found s c n p k b) (a' : Found s c' n' p' k' b') (file : c ∈ s.files) (file' : c' ∈ s.files)
    (differ : c = c' → n ≠ n') : p.1 = p'.1 → p.2 ≠ p'.2 := by
  intro block entry
  have ok := sane.dirs c file a.dir
  have ok' := sane.dirs c' file' a'.dir
  have inBlock : ∀ {c n p k b}, Found s c n p k b → DirOk s c → p.1 ∈ holds s c := by
    intro c n p k b a ok
    rw [a.here.block]
    exact mem_cons_of_mem _ (Hdr.phys_mem (ok.mapped _ a.here.log_lt)).2.2
  by_cases eq : c = c'
  · have first := a.here.slot ok
    have second := a'.here.slot ok'
    rw [block, entry, ← second, a.entry, a'.entry] at first
    exact differ eq (congrArg Prod.fst (Option.some.inj first))
  · exact sane.disk.apart c file c' file' eq p.1 (inBlock a ok) (block ▸ inBlock a' ok')

/-- A graph from which the entry `n` of `od` for object `b` can move to directory `nd`. -/
structure Ready (s : Vol) (K : Tree) (od nd : Nat) (n : Name) (b : Nat) : Prop where
  seq : Sequel s K
  held : ∀ x, [od, nd].count x ≤ K.users x
  edge : K.Edge od n b
  node : nd ∈ K.nodes
  dir : K.dir nd = true
  alive : K.nlink nd ≠ 0
  apart : ¬ K.Reach b nd

variable {m : Name}

theorem Ready.wp_renameOut (r : Ready s G od nd n b)
    (dep : Depicts t (G.setEnts nd l)) (perm : l.Perm ((m, b) :: G.ents nd)) (found : Found t od n p k b)
    (post : ∀ t' H, Depicts t' H → Sequel s H → (∀ x, [od, nd].count x ≤ H.users x) → Q (.ok ()) t') :
    wp (renameOut cx od nd p) Q t := by
  apply Natfs.wp_renameOut dep (used_of_held r.held (by simp)) (used_of_held r.held (by simp)) found
  intro u l₂ perm' dep'
  exact post u _ dep' (r.seq.move r.edge r.node r.dir r.alive r.apart perm perm') r.held

variable {oldname newname : CStr}

theorem Sides.ready (sd : Sides s oldname newname od nd p k b) (sane : Sane s)
    (dir : isDir s nd) : Ready s ((tree s).hold [nd, od]) od nd oldname.base b := by
  refine ⟨sane.sequel _, ?_, sd.edge sane, sd.new sane, decide_eq_true dir, sane.bounded.walk_alive sd.walk', ?_⟩
  · exact held_pair _ _ _
  · exact fun below => sd.apart sane dir (below.mono fun _ _ _ edge => edge)

theorem overwrite_eq (t : Vol) (np : DirentPtr) (short : n.length ≤ 27)
    (apart : p.1 = np.1 → p.2 ≠ np.2) :
    let u := t.setDev np.1 (blit (clearDirent (t.dev np.1) np.2) (32 * np.2) (n ++ [0]))
    u.setDev np.1 (setLE (u.dev np.1) (32 * np.2 + 28) 4 (deFirstBlock (u.dev p.1) p.2)) =
      t.setDev np.1 (setDirent (t.dev np.1) np.2 n (deFirstBlock (t.dev p.1) p.2)) := by
  intro u
  have read : deFirstBlock (u.dev p.1) p.2 = deFirstBlock (t.dev p.1) p.2 := by
    by_cases block : p.1 = np.1
    · have ne := apart block
      simp only [deFirstBlock]
      apply getLE_congr
      intro x lo hi
      show update t.dev np.1 _ p.1 x = _
      rw [block, update_same, blit_outside _ _ _ _ (by simp only [length_append, length_singleton]; omega),
        clearDirent_outside _ (by omega)]
    · rw [show u.dev p.1 = t.dev p.1 from update_ne _ _ _ block]
  rw [read]
  simp only [u, Vol.setDev, update_same, update_update, setDirent]

def unnamed (s : Vol) (c : Nat) (hold : List Nat) : Tree :=
  (((tree s).hold (c :: hold)).setLinks c ((tree s).nlink c - 1)).put c

theorem unnamed_ents (c : Nat) (hold : List Nat) : (unnamed s c hold).ents = (tree s).ents :=
  Links.Graph.ents_put ..

theorem unnamed_users (c : Nat) (hold : List Nat) (x : Nat) :
    (unnamed s c hold).users x = ((tree s).hold hold).users x := by
  rw [unnamed, Links.Graph.users_put]
  show (if x = c then (s.fso c).refcnt + (c :: hold).count c - 1 else (s.fso x).refcnt + (c :: hold).count x) =
    (s.fso x).refcnt + hold.count x
  split
  · rename_i eq
    rw [eq, count_cons_self]
    omega
  · rename_i ne
    rw [count_cons_of_ne (Ne.symm ne)]

theorem unnamed_nlink (hold : List Nat) (ne : x ≠ c) : (unnamed s c hold).nlink x = (tree s).nlink x := by
  rw [unnamed, Links.Graph.nlink_put]
  exact Function.update_of_ne ne ..

theorem Ready.replaced (sane : Sane s)
    (r : Ready s ((tree s).hold [nd, od]) od nd n b) (edge : (tree s).Edge nd m c) (other : od = nd → n ≠ m)
    (leaf : (tree s).ents c = []) (perm : ((tree s).ents nd).Perm ((m, c) :: l)) :
    Ready s ((unnamed s c [nd, od]).setEnts nd l) od nd n b := by
  have ne : ∀ {d m x}, (tree s).Edge d m x → d ≠ c := by
    intro d m x full eq
    have mem := full.2
    rw [eq, leaf] at mem
    cases mem
  have neN := ne edge
  have neO := ne r.edge
  have usedC : ((tree s).hold [c, nd, od]).users c ≠ 0 := by
    show (s.fso c).refcnt + [c, nd, od].count c ≠ 0
    rw [count_cons_self]
    omega
  have seq := ((sane.sequel [c, nd, od]).unlink edge.1 perm usedC leaf).put (i := c)
    (sane.bounded.edge_node edge) usedC
  rw [show ((((tree s).hold [c, nd, od]).setEnts nd l).setLinks c (((tree s).hold [c, nd, od]).nlink c - 1)) =
    (((tree s).hold [c, nd, od]).setLinks c ((tree s).nlink c - 1)).setEnts nd l from rfl,
    Links.Graph.put_setEnts] at seq
  have sub : ∀ x k y, ((unnamed s c [nd, od]).setEnts nd l).Edge x k y → (tree s).Edge x k y := by
    intro x k y edge
    obtain ⟨mem, entry⟩ := Links.Graph.edge_setEnts.mp edge
    have node : x ∈ (((tree s).hold [c, nd, od]).setLinks c ((tree s).nlink c - 1)).nodes :=
      Links.Graph.of_mem_put mem
    refine ⟨node, ?_⟩
    split at entry
    · rename_i here
      rw [here, perm.mem_iff]
      exact mem_cons_of_mem _ entry
    · rw [unnamed_ents] at entry
      exact entry
  refine ⟨seq, ?_, ?_, (Links.Graph.mem_put neN).mpr edge.1, ?_, ?_, fun below => r.apart (below.mono sub)⟩
  · intro x
    show _ ≤ (unnamed s c [nd, od]).users x
    rw [unnamed_users]
    exact r.held x
  · refine Links.Graph.edge_setEnts.mpr ⟨(Links.Graph.mem_put neO).mpr r.edge.1, ?_⟩
    split
    · rename_i same
      have mem := r.edge.2
      rw [same] at mem
      refine (mem_cons.mp (perm.mem_iff.mp mem)).resolve_left ?_
      exact fun eq => other same (congrArg Prod.fst eq)
    · rw [unnamed_ents]
      exact r.edge.2
  · show (unnamed s c [nd, od]).dir nd = true
    rw [unnamed, Links.Graph.dir_put]
    exact r.dir
  · show (unnamed s c [nd, od]).nlink nd ≠ 0
    rw [unnamed_nlink _ neN]
    exact r.alive

theorem wp_takeName (noio : cx.NoIoError) {np : DirentPtr} {k' : Nat} (sane : Sane s)
    (r : Ready s ((tree s).hold [nd, od]) od nd n b) (foundO : Found s od n p k b)
    (foundN : Found s nd m np k' c) (other : od = nd → n ≠ m) (leaf : (tree s).ents c = [])
    (q : Quiet s t [c, nd, od])
    (done : ∀ u K l, Ready s K od nd n b → Depicts u (K.setEnts nd l) → l.Perm ((m, b) :: K.ents nd) →
      Found u od n p k b → Q (.ok ()) u) :
    wp (do
      dropLink c
      fsPutfso cx c
      modify fun s => s.setDev np.1 (blit (clearDirent (s.dev np.1) np.2) (32 * np.2) (m ++ [0]))
      modify fun s => s.setDev np.1
        (setLE (s.dev np.1) (32 * np.2 + 28) 4 (deFirstBlock (s.dev p.1) p.2))) Q t := by
  have fileO : od ∈ s.files := r.edge.1
  have fileN : nd ∈ s.files := r.node
  have edge := foundN.edge fileN
  have data := (sane.disk.data b (sane.bounded.edge_node r.edge) b (mem_cons_self ..)).1
  have pos := pos_iff_ne_zero.mp (data_pos sane.disk.bam.geo data)
  have short := (sane.dirs nd fileN foundN.dir).names (m, c) (Slots.mem_live.mpr ⟨k', foundN.here.inside, foundN.entry⟩)
  have ne : ∀ {d m x}, (tree s).Edge d m x → d ≠ c := by
    intro d m x full eq
    have mem := full.2
    rw [eq, leaf] at mem
    cases mem
  have used : ∀ x ∈ [c, nd, od], ((tree s).hold [c, nd, od]).users x ≠ 0 := by
    intro x mem
    exact used_of_held (fun y => le_add_left ([c, nd, od].count y) _) mem
  have dep := sane.depicts q
  rw [wp_bind]
  apply wp_dropLink dep (used c (by simp)) (nlink_pos sane.bounded edge)
  intro u dep₁ moved
  simp only [after_ok, wp_bind]
  apply wp_putClosed noio dep₁ (used c (by simp))
  intro v closed given
  have dep₂ : Depicts v (unnamed s c [nd, od]) := given
  have keep : ∀ {d n p k b}, d ∈ s.files → d ≠ c → Found s d n p k b → Found v d n p k b := by
    intro d n p k b file ne found
    refine (moved _ _ _ _ _ (found.quiet q)).kept (closed.only.kept ?_ ne)
    rw [dep₁.nodes]
    exact file
  have fo := keep fileO (ne r.edge) foundO
  have fn := keep fileN (ne edge) foundN
  have fileO' : od ∈ v.files := by
    rw [dep₂.nodes]
    exact (Links.Graph.mem_put (ne r.edge)).mpr fileO
  have fileN' : nd ∈ v.files := by
    rw [dep₂.nodes]
    exact (Links.Graph.mem_put (ne edge)).mpr fileN
  have refN : (v.fso nd).refcnt ≠ 0 := by
    rw [dep₂.users, unnamed_users]
    exact used_of_held r.held (by simp)
  have okN := dep₂.inOrder.dirs nd fileN' fn.dir
  have first : deFirstBlock (v.dev p.1) p.2 = b :=
    fo.here.first (dep₂.inOrder.dirs od fileO' fo.dir) fo.entry
  obtain ⟨l, perm, edited⟩ := dep₂.inOrder.disk.replaceEntry (v := b) fileN' okN fn.here fn.entry pos
    (data_fits sane.disk.bam.geo data)
  have was : ((tree s).ents nd).Perm ((m, c) :: l) := by
    have entries := dep₂.ents nd fileN' fn.dir
    rw [unnamed_ents] at entries
    exact entries.symm.trans perm
  have ready := r.replaced sane edge other leaf was
  have written := overwrite_eq v np short.short (fo.apart dep₂.inOrder fn fileO' fileN' other)
  rw [first] at written
  simp only [after_ok, wp_bind, wp_modify, written]
  refine done _ _ ((m, b) :: l) ready ?_ ?_ ?_
  · rw [Links.Graph.setEnts_setEnts]
    exact dep₂.edited edited refN fn.dir
  · rw [Links.Graph.ents_setEnts_same]
  · refine fo.edited fileO' edited refN ?_
    intro same
    have mem := ready.edge.2
    rw [same, Links.Graph.ents_setEnts_same] at mem
    exact mem_cons_of_mem _ mem

theorem wp_renameOver (noio : cx.NoIoError) (sane : Sane s)
    (sd : Sides s oldname newname od nd p k b) (q : Quiet s t [nd, od])
    (done : ∀ u K l, Ready s K od nd oldname.base b → Depicts u (K.setEnts nd l) →
      l.Perm ((newname.base, b) :: K.ents nd) → Found u od oldname.base p k b → Q (.ok ()) u)
    (failed : ∀ e u, Quiet s u [nd, od] → Q (.err e) u) : wp (renameOver cx nd newname.base p) Q t := by
  have fileN := sd.new sane
  rw [renameOver, wp_bind]
  apply sane.wp_find q fileN (by rw [q.refcnt, count_cons_self]; omega)
  · intro t₁ np k' c q₁ found
    have target := sane.bounded.edge_node (found.edge fileN)
    have rest : ∀ {t₃}, Quiet s t₃ [c, nd, od] → (tree s).ents c = [] → _ := fun q₃ leaf =>
      wp_takeName noio sane (sd.ready sane found.dir) sd.found found (sd.names sane) leaf q₃ done
    simp only [after_ok, wp_bind, wp_get, q₁.dev, found.first sane fileN]
    apply wp_fsGetfso q₁ target
    · intro t₂ q₂
      have refC : (t₂.fso c).refcnt ≠ 0 := by rw [q₂.refcnt, count_cons_self]; omega
      simp only [after_ok, wp_bind, wp_get]
      split
      · rw [wp_bind, wp_onError]
        apply wp_isEmpty q₂ refC (sane.dirs c target)
        · intro t₃ q₃ dir none
          exact rest q₃ (by simp only [tree, if_pos dir, none])
        · exact fun e t₃ q₃ => wp_giveBack sane q₃ fun u q => failed e u q
      · rename_i notDir
        have plain : ¬ isDir s c := by
          rw [← q₂.kind refC]
          exact notDir
        exact rest q₂ (by simp only [tree, if_neg plain])
    · exact fun e t₂ q₂ => failed e t₂ q₂
  · exact failed

theorem wp_renameEntry (noio : cx.NoIoError) (sane : Sane s)
    (sd : Sides s oldname newname od nd p k b) (q : Quiet s t [nd, od])
    (done : (∀ e, (newEntry cx nd newname.base (deFirstBlock (t.dev p.1) p.2) t).1 = .err e → e = .EEXIST) →
      ∀ u H, Depicts u H → Sequel s H → (∀ x, [od, nd].count x ≤ H.users x) → Q (.ok ()) u)
    (failed : (∀ e, (newEntry cx nd newname.base (deFirstBlock (t.dev p.1) p.2) t).1 = .err e → e = .EEXIST) →
      ∀ e u, Quiet s u [nd, od] → Q (.err e) u) (refused : ∀ e u H l, e ≠ .EEXIST →
      (newEntry cx nd newname.base (deFirstBlock (t.dev p.1) p.2) t).1 = .err e →
      Links.Graph.Same ((tree s).hold [nd, od]) H → ((tree s).ents od).Perm ((oldname.base, b) :: l) →
      Depicts u (H.setEnts od l) → Q (.err e) u) : wp (renameEntry cx od nd newname.base p) Q t := by
  have fileO := sd.old sane
  have fileN := sd.new sane
  have first : deFirstBlock (t.dev p.1) p.2 = b := by
    rw [q.dev]
    exact sd.found.first sane fileO
  have data := (sane.disk.data b (sane.bounded.edge_node (sd.edge sane)) b (mem_cons_self ..)).1
  have pos := pos_iff_ne_zero.mp (data_pos sane.disk.bam.geo data)
  have ref : ∀ {t'}, Quiet s t' [nd, od] → (t'.fso nd).refcnt ≠ 0 := by
    intro t' q'
    rw [q'.refcnt, count_cons_self]
    omega
  have held := held_pair (tree s) od nd
  -- the old entry is still there when the new directory has been edited
  have edit : ∀ {t' u l}, Quiet s t' [nd, od] → isDir s nd → Edited t' u nd l → (∀ e ∈ live s nd, e ∈ l) →
      Depicts u (((tree s).hold [nd, od]).setEnts nd l) ∧ Found u od oldname.base p k b := by
    intro t' u l q' dir edited all
    refine ⟨(sane.depicts q').edited edited (ref q') (by rw [isDir, q'.hdr]; exact dir), ?_⟩
    refine (sd.found.quiet q').edited (by rw [q'.files]; exact fileO) edited (ref q') ?_
    rintro rfl
    exact all _ (Slots.mem_live.mpr ⟨k, sd.found.here.inside, sd.found.entry⟩)
  have out : ∀ {e u H}, e ≠ .EEXIST → (newEntry cx nd newname.base b t).1 = .err e →
      Links.Graph.Same ((tree s).hold [nd, od]) H → Depicts u H → Found u od oldname.base p k b →
      wp (do renameOut cx od nd p; fail e) Q u := by
    intro e u H other run same dep found
    rw [wp_bind]
    have used : ∀ x ∈ [od, nd], H.users x ≠ 0 := by
      intro x mem
      rw [same.users x (by rcases mem_pair.mp mem with rfl | rfl <;> assumption)]
      exact used_of_held held mem
    apply wp_renameOut dep (used od (by simp)) (used nd (by simp)) found
    intro u' l perm dep'
    exact refused e u' H l other (first.symm ▸ run) same ((same.ents od fileO).symm.trans perm) dep'
  simp only [renameEntry, wp_bind, wp_get, after_ok, wp_attempt, first]
  apply wp_run
  apply wp_newEntry noio q (ref q) (sane.dirs nd fileN) newname.base_noNul pos (data_fits sane.disk.bam.geo data)
  · intro t' u q' dir edited run
    obtain ⟨dep, found⟩ := edit q' dir edited fun e mem => mem_cons_of_mem _ mem
    have fine : ∀ e, (newEntry cx nd newname.base b t).1 = .err e → e = .EEXIST := by
      intro e fails
      rw [run] at fails
      cases fails
    rw [first] at done
    refine (sd.ready sane dir).wp_renameOut (m := newname.base) dep ?_ found (done fine)
    show List.Perm _ (_ :: (if isDir s nd then live s nd else []))
    rw [if_pos dir]
  · intro t' q' dir _ run
    have fine : ∀ e, (newEntry cx nd newname.base b t).1 = .err e → e = .EEXIST := by
      intro e fails
      rw [run] at fails
      cases fails
      rfl
    rw [first] at done failed
    simp only [caught_err, after_ok, wp_bind]
    apply wp_renameOver noio sane sd q'
    · intro u K l ready dep perm found
      exact ready.wp_renameOut dep perm found (done fine)
    · exact failed fine
  · intro e t' u other q' dir edited run
    obtain ⟨dep, found⟩ := edit q' dir edited fun e mem => mem
    have perm : (live s nd).Perm (((tree s).hold [nd, od]).ents nd) := by
      show List.Perm _ (if isDir s nd then live s nd else [])
      rw [if_pos dir]
    have goal := out other (congrArg Prod.fst run) (Links.Graph.same_setEnts perm) dep found
    cases e <;> first | exact goal | exact absurd rfl other
  · intro e other run
    have goal := out other (congrArg Prod.fst run) (.refl _) (sane.depicts q) (sd.found.quiet q)
    cases e <;> first | exact goal | exact absurd rfl other

end Moving

/-- `nat_rename` gets as far as `new_entry`, and that fails for a reason other than that the name
    exists. -/
def EntryRefused (cx : Cx) (s : Vol) (oldname newname : CStr) : Prop :=
  ∃ od nd p t e, renameFind cx oldname newname s = (.ok (od, nd, p), t) ∧ e ≠ .EEXIST ∧
    (newEntry cx nd newname.base (deFirstBlock (t.dev p.1) p.2) t).1 = .err e

theorem permError_ne (eq : permError cx geo f mode = some e) : e ≠ .EEXIST := by
  rw [permError] at eq
  rcases permBits cx geo f with ⟨r, w, x⟩
  dsimp only at eq
  repeat' split at eq
  all_goals cases eq <;> decide

/-- The directory is not one or may not be changed, the name is too long, a request fails on the way through the
    directory, or there is no place for the entry: none is free and the directory cannot grow, or the block of the free
    one cannot be had. -/
def NoPlace (cx : Cx) (d : Nat) (name : Name) (s : Vol) : Prop :=
  sIsdir (s.fso d).mode = false ∨ name ≠ [] ∧
    (permError cx s.fs.geo (s.fso d) (xOk ||| wOk) ≠ none ∨ 27 < name.length ∨
      Refuses (· ≠ .EEXIST) (newEntryFrom cx d name (range ((s.fso d).size / 512)) (0, 0)) s ∨
      ∃ free t, newEntryFrom cx d name (range ((s.fso d).size / 512)) (0, 0) s = (.ok free, t) ∧
        if free.1 = 0 then Refuses (· ≠ .EEXIST) (growDir cx d) t else Refuses (· ≠ .EEXIST) (blkRead cx free.1) t)

section Rule
variable {cx : Cx} {s t : Vol}

theorem refuses_newEntry : Refuses (· ≠ .EEXIST) (newEntry cx d name b) s ↔ NoPlace cx d name s := by
  have filled : ∀ p t, ¬ Refuses (· ≠ .EEXIST) (fillEntry cx d name b p) t := fun p t => not_refuses_ok rfl
  have stored : ∀ free t, Refuses (· ≠ .EEXIST) (storeEntry cx d name b free) t ↔
      if free.1 = 0 then Refuses (· ≠ .EEXIST) (growDir cx d) t else Refuses (· ≠ .EEXIST) (blkRead cx free.1) t := by
    intro free t
    rw [storeEntry]
    split <;> simp [refuses_bind, filled]
  rw [newEntry, refuses_get, NoPlace]
  by_cases dir : sIsdir (s.fso d).mode = false
  · simp [dir, refuses_fail]
  rw [if_neg (by simpa using dir)]
  by_cases none : name = []
  · simp [dir, none, refuses_fail]
  rw [if_neg none, refuses_bind, Refuses]
  cases denied : permError cx s.fs.geo (s.fso d) (xOk ||| wOk) with
  | some e =>
    have checked : fsChkPerm cx d (xOk ||| wOk) s = (.err e, s) := by
      simp [fsChkPerm, Bind.bind, Cmd.bind, Cmd.get, denied, fail]
    simp [dir, none, permError_ne denied, checked]
  | none =>
    have checked : fsChkPerm cx d (xOk ||| wOk) s = (.ok (), s) := by
      simp [fsChkPerm, Bind.bind, Cmd.bind, Cmd.get, denied, Pure.pure, Cmd.pure]
    by_cases long : 27 < name.length
    · simp [dir, none, long, refuses_fail, checked]
    · simp [dir, none, long, refuses_bind, stored, checked]

theorem entryRefused_iff : EntryRefused cx s oldname newname ↔ ∃ od nd p t,
    renameFind cx oldname newname s = (.ok (od, nd, p), t) ∧ NoPlace cx nd newname.base t := by
  constructor
  · rintro ⟨od, nd, p, t, e, run, other, err⟩
    exact ⟨od, nd, p, t, run, refuses_newEntry.mp ⟨e, other, err⟩⟩
  · rintro ⟨od, nd, p, t, run, place⟩
    obtain ⟨e, other, err⟩ := refuses_newEntry.mpr place
    exact ⟨od, nd, p, t, e, run, other, err⟩

theorem lost_entry (sane : Sane s)
    (edge : (tree s).Edge od n b) (same : Links.Graph.Same ((tree s).hold [nd, od]) H)
    (perm : ((tree s).ents od).Perm ((n, b) :: l)) (usedO : (H.setEnts od l).users od ≠ 0)
    (usedN : ((H.setEnts od l).put od).users nd ≠ 0) (nodeN : nd ∈ ((H.setEnts od l).put od).nodes)
    (dep : Depicts t (((H.setEnts od l).put od).put nd)) : Sane t ∧ ¬ (tree t).Edge od n b := by
  have nodeO : od ∈ H.nodes := by
    rw [same.nodes]
    exact edge.1
  have bounded : (H.setEnts od l).Bounded :=
    (same.bounded (sane.bounded.hold _)).unbind nodeO [(n, b)] ((same.ents od edge.1).trans perm)
  refine ⟨⟨dep.inOrder, dep.same.bounded ((bounded.put nodeO usedO).put nodeN usedN)⟩, ?_⟩
  intro still
  have mem := (dep.same.edge.mp still).2
  rw [Links.Graph.ents_put, Links.Graph.ents_put, Links.Graph.ents_setEnts_same] at mem
  have distinct := sane.distinct od edge.1
  rw [(perm.map Prod.fst).nodup_iff, map_cons, nodup_cons] at distinct
  exact distinct.1 (mem_map_of_mem mem)

theorem wp_natRename (noio : cx.NoIoError) (sane : Sane s) (oldname newname : CStr)
    {Q : Res Errno Unit → Vol → Prop} (done : ∀ t, ¬ EntryRefused cx s oldname newname → Keeps s t → Q (.ok ()) t)
    (failed : ∀ e t, ¬ EntryRefused cx s oldname newname → Quiet s t [] → Q (.err e) t)
    (refused : ∀ e t, EntryRefused cx s oldname newname → Sane t →
      (∃ d n b, (tree s).Edge d n b ∧ ¬ (tree t).Edge d n b) → Q (.err e) t)
    (crash : ∀ t, ¬ EntryRefused cx s oldname newname → Q .crash t) : wp (natRename cx oldname newname) Q s := by
  have early : (∀ r t, renameFind cx oldname newname s ≠ (.ok r, t)) → ¬ EntryRefused cx s oldname newname := by
    rintro none ⟨od, nd, p, t, _, run, _⟩
    exact none _ _ run
  rw [natRename, wp_bind]
  apply wp_run
  apply wp_renameFind sane
  · intro t od nd p k b q sd run
    have entered : (∀ e, (newEntry cx nd newname.base (deFirstBlock (t.dev p.1) p.2) t).1 = .err e → e = .EEXIST) →
        ¬ EntryRefused cx s oldname newname := by
      rintro fine ⟨od', nd', p', t', e, run', other, fails⟩
      rw [run] at run'
      cases run'
      exact other (fine e fails)
    simp only [after_ok, wp_bind, wp_onError]
    apply wp_renameEntry noio sane sd q
    · intro fine u H dep seq held
      exact wp_finish noio dep seq held fun v => done v (entered fine)
    · exact fun fine e u q' => wp_giveBoth sane q' fun v q'' => failed e v (entered fine) q''
    · intro e u H l other fails same perm dep
      have held : ∀ x, [od, nd].count x ≤ (H.setEnts od l).users x := by
        intro x
        by_cases node : x ∈ [od, nd]
        · have file : x ∈ s.files := by
            rcases mem_pair.mp node with rfl | rfl
            · exact sd.old sane
            · exact sd.new sane
          show _ ≤ H.users x
          rw [same.users x file, (List.Perm.swap nd od []).count_eq]
          exact le_add_left _ _
        · rw [count_eq_zero_of_not_mem node]
          exact zero_le _
      rw [recovered_err]
      apply wp_puts noio dep held
      intro v usedO usedN _ nodeN dep'
      obtain ⟨sane', gone⟩ := lost_entry sane (sd.edge sane) same perm usedO usedN nodeN dep'
      exact refused e v ⟨od, nd, p, t, e, run, other, fails⟩ sane' ⟨od, _, b, sd.edge sane, gone⟩
  · exact fun e t q run => failed e t (early fun _ _ eq => by rw [run] at eq; cases eq) q
  · exact fun t run => crash t (early fun _ _ eq => by rw [run] at eq; cases eq)

end Rule

end Natfs
