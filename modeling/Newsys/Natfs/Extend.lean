import Newsys.Natfs.Disk

/- `nat_bmap` with allocation, for a file of a volume in order: the file owns more blocks
   afterwards, but nobody sees a difference, since a fresh block is as empty as a hole. -/
namespace Natfs
open Bytes Cmds Cmd List

variable {s s' : Vol} {i : Nat} {fresh : List Nat} {touch : Nat → Prop}

theorem Alloc.only (disk : Disk s)
    (a : Alloc s s' i fresh touch) (file : i ∈ s.files) (sub : ∀ b, touch b → b ∈ holds s i) : Only s s' i := by
  refine ⟨a.bam, a.geo, by rw [a.files]; exact disk.files, fun j _ => by rw [a.files], a.other, ?_⟩
  intro j other ne b mem
  obtain ⟨data, inUse⟩ := disk.data j other b mem
  refine a.keeps data inUse ?_
  intro touched
  exact disk.apart j other i file ne b mem (sub b touched)

theorem Alloc.marked (a : Alloc s s' i fresh touch) (b : Nat) (lt : b < 4096 * s.fs.geo.bamSize)
    (inUse : Natfs.used s b = true) : Natfs.used s' b = true := by
  rw [a.used b lt, inUse, Bool.true_or]

theorem Alloc.used_mono
    (a : Alloc s s' i fresh touch) (data : s.fs.geo.inData b) (inUse : Natfs.used s b = true) :
    Natfs.used s' b = true := a.marked b (data_covered (a.geo ▸ a.bam.geo) data) inUse

/-- The block map of object `i` has gained the blocks `fresh` on the way to block `log`. -/
structure Grown (s s' : Vol) (i log : Nat) (fresh : List Nat) : Prop where
  alloc : Alloc s s' i fresh (· ∈ (hdr s i).inners s.dev)
  owned : ((s'.fso i).hdr.owned s'.dev).Perm (fresh ++ (hdr s i).owned s.dev)
  others : ∀ log', log' ≠ log → (s'.fso i).hdr.phys s'.dev log' = (hdr s i).phys s.dev log'
  kept : (hdr s i).phys s.dev log ≠ 0 →
    (s'.fso i).hdr.phys s'.dev log = (hdr s i).phys s.dev log
  bmap : fresh = [] → (s'.fso i).bmap = (s.fso i).bmap
  cached : (s'.fso i).bmapValid = (s.fso i).bmapValid ∧ (s'.fso i).bmapLog = (s.fso i).bmapLog ∧
    (s'.fso i).bmapPhys = (s.fso i).bmapPhys

theorem Disk.tree (disk : Disk s) (file : i ∈ s.files) (lt : k < 114) :
    TreeOk s ((hdr s i).level k) ((hdr s i).bmap k) := by
  have nodup := disk.nodup i file
  rw [holds, nodup_cons] at nodup
  refine ⟨Hdr.tree_nodup nodup.2 lt, ?_⟩
  intro b mem
  exact disk.data i file b (mem_cons_of_mem _ (Hdr.mem_owned lt mem))

/-- What the entry of the block map is after `nat_bmap_dir` has allocated for it. -/
structure Rooted (s t : Vol) (i k r : Nat) (fresh : List Nat) : Prop where
  alloc : Alloc s t i fresh fun _ => False
  bmap : (t.fso i).bmap = update (s.fso i).bmap k r
  pos : r ≠ 0
  root : (s.fso i).bmap k = r ∧ fresh = [] ∨ (s.fso i).bmap k = 0 ∧ fresh = [r] ∧ t.dev r = zero
  cached : (t.fso i).bmapValid = (s.fso i).bmapValid ∧ (t.fso i).bmapLog = (s.fso i).bmapLog ∧
    (t.fso i).bmapPhys = (s.fso i).bmapPhys

variable {cx : Cx}

theorem wp_natBmapDir (bam : BamOk s) (lt : k < 114)
    (kept : (s.fso i).bmap k = 0 → ¬ BallocLoses cx s)
    (done : ∀ t r fresh, ((s.fso i).bmap k = 0 → ¬ Drops cx s) → Rooted s t i k r fresh → Q (.ok r) t)
    (failed : ∀ e t, (s.fso i).bmap k = 0 → ¬ Drops cx s → e = .ENOSPC ∨ cx.IoError e → SameMap s t → Q (.err e) t)
    (dropped : ∀ e t b, (s.fso i).bmap k = 0 → Drops cx s → cx.IoError e → Spilled s t b → Q (.err e) t) :
    wp (natBmapDir cx i k true) Q s := by
  simp only [natBmapDir, if_neg (not_le.mpr lt), wp_bind, wp_get, after_ok,
    Bool.true_and]
  by_cases empty : (s.fso i).bmap k = 0
  · rw [if_pos (by simpa using empty)]
    simp only [wp_bind]
    apply wp_newBlock bam (kept empty)
    · intro t nb unspilled blank
      obtain ⟨bam', geo, files, fso, bits, data, free, zeroed, dev⟩ := blank
      simp only [after_ok, wp_bind, modifyFso, wp_modify, wp_pure]
      refine done _ nb [nb] (fun _ => unspilled) ⟨⟨bam'.congr rfl fun _ _ => rfl, geo, files, ?_, ?_, ?_, ?_,
        nodup_singleton nb, ?_, ?_, ?_⟩, ?_, ?_, .inr ⟨empty, rfl, zeroed⟩, ?_⟩
      · intro j ne
        rw [← fso]
        exact update_ne _ _ _ ne
      · simp only [Vol.setFso, update_same, fso]
        exact ⟨rfl, rfl, rfl, rfl, rfl, rfl⟩
      · intro b inside
        simp only [mem_singleton]
        exact bits b inside
      · intro b mem
        rw [mem_singleton.mp mem]
        exact ⟨data, free⟩
      · intro b out new _
        exact dev b out (by simpa using new)
      · intro _
        simp only [Vol.setFso, update_same, fso]
        rfl
      · simp [Vol.setFso]
      · simp only [Vol.setFso, update_same, fso]
      · exact Nat.pos_iff_ne_zero.mp (data_pos bam.geo data)
      · simp only [Vol.setFso, update_same, fso, and_self]
    · exact fun e t unspilled why same => failed e t empty unspilled why same
    · exact fun e t b spills io spilled => dropped e t b empty spills io spilled
  · rw [if_neg (by simpa using empty)]
    refine done s _ [] (fun none => absurd none empty)
      ⟨.refl bam i s.tick _, ?_, empty, .inl ⟨rfl, rfl⟩, rfl, rfl, rfl⟩
    funext x
    by_cases eq : x = k
    · rw [eq, update_same]
    · rw [update_ne _ _ _ eq]

section Walk
variable {s t s' : Vol} {i k log r : Nat} {fresh fresh' : List Nat}

variable {lev : Nat}

section
variable (root : Rooted s t i k r fresh)
include root

theorem Rooted.tree (tree : TreeOk s lev ((s.fso i).bmap k)) :
    TreeOk t lev r ∧ (mapNodes t.dev lev r).Perm (fresh ++ mapNodes s.dev lev ((s.fso i).bmap k)) ∧
      ∀ b ∈ mapInner t.dev lev r, b ∈ mapInner s.dev lev ((s.fso i).bmap k) ∨ b ∈ fresh := by
  have alloc := root.alloc
  rcases root.root with ⟨old, none⟩ | ⟨empty, new, blank⟩
  · rw [old] at tree ⊢
    have same : ∀ b ∈ mapInner s.dev lev r, t.dev b = s.dev b := by
      intro b mem
      obtain ⟨data, inUse⟩ := tree.data b (Radix.inner_subset_nodes _ _ mem)
      exact alloc.keeps data inUse id
    obtain ⟨nodes, inner, _⟩ := Radix.tree_congr same
    refine ⟨⟨by rw [mapNodes, nodes]; exact tree.nodup, ?_⟩, ?_, ?_⟩
    · intro b mem
      rw [mapNodes, nodes] at mem
      obtain ⟨data, inUse⟩ := tree.data b mem
      exact ⟨alloc.geo ▸ data, alloc.used_mono data inUse⟩
    · rw [none, mapNodes, nodes, nil_append]
    · intro b mem
      rw [mapInner, inner] at mem
      exact .inl mem
  · have single := blank_tree root.pos blank lev
    obtain ⟨data, free⟩ := alloc.free r (by rw [new]; exact mem_singleton_self r)
    refine ⟨⟨by rw [single]; exact nodup_singleton r, ?_⟩, ?_, ?_⟩
    · intro b mem
      rw [single, mem_singleton] at mem
      rw [mem]
      refine ⟨alloc.geo ▸ data, ?_⟩
      rw [alloc.used r (data_covered (alloc.geo ▸ alloc.bam.geo) data), new]
      simp
    · rw [single, new, empty, mapNodes, Radix.nodes_zero, append_nil]
    · intro b mem
      have node := Radix.inner_subset_nodes _ _ mem
      rw [show Radix.nodes imap 128 t.dev lev r = [r] from single] at node
      exact .inr (new ▸ node)

theorem Rooted.leaf
    (tree : TreeOk s lev ((s.fso i).bmap k)) (deep : (s.fso i).bmap k = 0 → lev ≠ 0) (log : Nat) :
    mapLeaf t.dev lev r log = mapLeaf s.dev lev ((s.fso i).bmap k) log := by
  rcases root.root with ⟨old, _⟩ | ⟨empty, _, blank⟩
  · rw [old] at tree ⊢
    have same : ∀ b ∈ mapInner s.dev lev r, t.dev b = s.dev b := by
      intro b mem
      obtain ⟨data, inUse⟩ := tree.data b (Radix.inner_subset_nodes _ _ mem)
      exact root.alloc.keeps data inUse id
    exact (Radix.tree_congr same).2.2 log (by decide)
  · cases lev with
    | zero => exact absurd rfl (deep empty)
    | succ lev =>
      rw [empty, mapLeaf, mapLeaf, Radix.leaf_zero]
      exact Radix.leaf_of_blank (by decide) root.pos (fun d _ => by rw [blank]; exact imap_zero d) log

theorem Rooted.reached
    (tree : TreeOk s lev ((s.fso i).bmap k)) (walk : Walked t s' i lev r log fresh')
    (reach : Reached t s' lev r log x fresh')
    (missing : mapLeaf s.dev lev ((s.fso i).bmap k) log = 0) : s'.dev x = zero := by
  by_cases before : mapLeaf t.dev lev r log = 0
  · exact (reach.new before).2
  · -- the entry itself is the fresh data block
    have flat : (s.fso i).bmap k = 0 ∧ lev = 0 := by
      apply Classical.byContradiction
      intro deep
      rw [root.leaf tree (fun empty flat => deep ⟨empty, flat⟩) log] at before
      exact before missing
    obtain ⟨empty, flat⟩ := flat
    subst flat
    rcases root.root with ⟨old, _⟩ | ⟨_, new, blank⟩
    · exact absurd (old.symm.trans empty) root.pos
    · obtain ⟨inside, inUse⟩ := (root.tree tree).1.self root.pos
      have same : x = r := reach.leaf.symm
      rw [same, walk.alloc.keeps inside inUse (by simp [mapInner, Radix.inner]), blank]

end

theorem grown_of_walk (disk : Disk s) (file : i ∈ s.files) (ref : (s.fso i).refcnt ≠ 0)
    (small : log < 2 ^ 32) (slot : (hdr s i).slot log = k) (lt : k < 114) (root : Rooted s t i k r fresh)
    (walk : Walked t s' i ((hdr s i).level k) r log fresh') :
    Grown s s' i log (fresh' ++ fresh) ∧
      (s'.fso i).hdr.phys s'.dev log = mapLeaf s'.dev ((hdr s i).level k) r log := by
  have entry : (hdr s i).bmap k = (s.fso i).bmap k := by rw [hdr_of_open ref]; exact if_pos lt
  have alloc := root.alloc
  have attrs := alloc.attrs.trans walk.alloc.attrs
  have below : TreeOk s ((hdr s i).level k) ((s.fso i).bmap k) := entry ▸ disk.tree file lt
  obtain ⟨tree, nodes, inner⟩ := root.tree below
  have shapes : (s'.fso i).hdr.ndirblks = (hdr s i).ndirblks ∧
      (s'.fso i).hdr.nindirlev = (hdr s i).nindirlev := by
    rw [hdr_of_open ref]
    exact ⟨attrs.ndirblks, attrs.nindirlev⟩
  have level : (s'.fso i).hdr.level = (hdr s i).level := by
    funext x
    rw [Hdr.level, Hdr.level, shapes.1, shapes.2]
  have slots : (s'.fso i).hdr.slot = (hdr s i).slot := by
    funext x
    rw [Hdr.slot, Hdr.slot, shapes.1, shapes.2]
  have bmap : (s'.fso i).bmap = update (s.fso i).bmap k r := walk.bmap.trans root.bmap
  have here : (s'.fso i).hdr.bmap k = r := by
    rw [Fso.hdr_bmap _ lt, bmap, update_same]
  have there : ∀ x, x ≠ k → (s'.fso i).hdr.bmap x = (hdr s i).bmap x := by
    intro x ne
    rw [hdr_of_open ref]
    simp only [Fso.hdr]
    rw [bmap, update_ne _ _ _ ne]
  -- blocks of the file outside the tree the walk is in
  have outside : ∀ b ∈ holds s i, b ∉ mapNodes s.dev ((hdr s i).level k) ((hdr s i).bmap k) →
      s'.dev b = s.dev b := by
    intro b mem apart
    obtain ⟨data, inUse⟩ := disk.data i file b mem
    rw [walk.alloc.keeps (alloc.geo ▸ data) (alloc.used_mono data inUse), alloc.keeps data inUse id]
    intro touched
    rcases inner b touched with old | new
    · exact apart (entry ▸ Radix.inner_subset_nodes _ _ old)
    · rw [(alloc.free b new).2] at inUse
      exact absurd inUse (by decide)
  have beside : ∀ x, x < 114 → x ≠ k → ∀ b ∈ mapInner s.dev ((hdr s i).level x) ((hdr s i).bmap x),
      s'.dev b = s.dev b := by
    intro x xlt ne b mem
    have node := Radix.inner_subset_nodes _ _ mem
    apply outside b (mem_cons_of_mem _ (Hdr.mem_owned xlt node))
    intro mem'
    have nodup := disk.nodup i file
    rw [holds, nodup_cons] at nodup
    exact ne (Hdr.slots_apart nodup.2 xlt lt node mem')
  have composed : Alloc s s' i (fresh' ++ fresh) (· ∈ (hdr s i).inners s.dev) := by
    refine (alloc.weaken fun _ h => h.elim).trans walk.alloc ?_
    intro x touched
    rcases inner x touched with old | new
    · exact .inl (mem_flatMap.mpr ⟨k, mem_range.mpr lt, entry ▸ old⟩)
    · exact .inr new
  have target : (s'.fso i).hdr.phys s'.dev log =
      mapLeaf s'.dev ((hdr s i).level k) r log := by
    rw [Hdr.phys, slots, slot, level, here, if_pos ⟨small, lt⟩]
  refine ⟨⟨composed, ?_, ?_, ?_, ?_, ?_⟩, target⟩
  · apply Radix.flatMap_range_grow lt
    · intro x xlt ne
      rw [level, there x ne]
      exact (Radix.tree_congr (beside x xlt ne)).1
    · rw [level, here, append_assoc, entry]
      exact walk.nodes.trans (nodes.append_left _)
  · intro log' ne
    simp only [Hdr.phys, slots, level]
    split
    · rename_i inside
      by_cases same : (hdr s i).slot log' = k
      · rw [same, here, entry]
        have differ : log' % 128 ^ (hdr s i).level k ≠ log % 128 ^ (hdr s i).level k := by
          intro rest
          refine ne (Hdr.log_eq (disk.shape i file).toMap inside.1 small (same.trans slot.symm) ?_)
          rw [same]
          exact rest
        rw [walk.others log' differ]
        refine root.leaf below ?_ log'
        intro _ flat
        rw [flat] at differ
        exact differ (by simp [Nat.mod_one])
      · rw [there _ same]
        exact (Radix.tree_congr (beside _ inside.2 same)).2.2 log' (by decide)
    · rfl
  · intro found
    rw [target]
    rw [Hdr.phys, slot, if_pos ⟨small, lt⟩, entry] at found ⊢
    have filled : (s.fso i).bmap k ≠ 0 := by
      intro empty
      rw [empty, mapLeaf, Radix.leaf_zero] at found
      exact found rfl
    have before := root.leaf below (fun empty => absurd empty filled) log
    rw [walk.kept (by rw [before]; exact found), before]
  · intro none
    rw [bmap]
    rcases root.root with ⟨old, _⟩ | ⟨_, new, _⟩
    · rw [← old]
      funext x
      by_cases eq : x = k
      · rw [eq, update_same]
      · rw [update_ne _ _ _ eq]
    · rw [new] at none
      simp at none
  · obtain ⟨valid, log', phys⟩ := walk.cached
    obtain ⟨valid₀, log₀, phys₀⟩ := root.cached
    exact ⟨valid.trans valid₀, log'.trans log₀, phys.trans phys₀⟩

end Walk

structure Extended (s s' : Vol) (i : Nat) : Prop where
  disk : Disk s'
  only : Only s s' i
  files : s'.files = s.files
  attrs : SameAttrs (s.fso i) (s'.fso i)
  obj : obj s' i = obj s i
  phys : ∀ log, (hdr s i).phys s.dev log ≠ 0 →
    (hdr s' i).phys s'.dev log = (hdr s i).phys s.dev log
  counted : (hdr s i).Counted s.dev → (hdr s' i).Counted s'.dev
  dirty : (s.fso i).dirty = true → (s'.fso i).dirty = true

theorem holds_length (geo : s.fs.geo.Ok) (nodup : (holds s i).Nodup)
    (data : ∀ b ∈ holds s i, s.fs.geo.inData b) : (holds s i).length < 2 ^ 32 := by
  have sub : holds s i ⊆ range' s.fs.geo.dataBlock s.fs.geo.dataSize := by
    intro b mem
    have inside := data b mem
    simp only [Geo.inData] at inside
    simp only [mem_range'_1]
    exact inside
  have len := (subperm_of_subset nodup sub).length_le
  have pos := geo.dataPos
  have fits := geo.fits
  rw [length_range'] at len
  omega

def Elsewhere (s s' : Vol) (i : Nat) : Prop := ∀ b, b < 4096 * s.fs.geo.bamSize →
  (used s' b = true ∧ b ∉ (hdr s' i).owned s'.dev ↔ used s b = true ∧ b ∉ (hdr s i).owned s.dev)

theorem Elsewhere.refl (s : Vol) (i : Nat) : Elsewhere s s i := fun _ _ => Iff.rfl

variable {t : Vol}

theorem Elsewhere.trans (first : Elsewhere s t i) (geo : t.fs.geo = s.fs.geo)
    (second : Elsewhere t u i) : Elsewhere s u i := fun b lt =>
  (second b (by rw [geo]; exact lt)).trans (first b lt)

section Finish
variable {s t u : Vol} {i log : Nat} {fresh : List Nat}

theorem elsewhere_of_grown (grown : Grown s t i log fresh) (dev : u.dev = t.dev)
    (fs : u.fs = t.fs) (head : hdr u i = (t.fso i).hdr) : Elsewhere s u i := by
  intro b lt
  have member := grown.owned.mem_iff (a := b)
  have same : used u b = used t b := by simp only [used, bamBlk, fs, dev]
  rw [same, head, dev, member, grown.alloc.used b lt, mem_append]
  by_cases new : b ∈ fresh
  · have free := (grown.alloc.free b new).2
    simp [new, free]
  · simp [new]

/-- The block map of file `i` has grown on the way to `t`, and `u` differs from `t` in what is remembered of it. -/
structure Regrown (s t u : Vol) (i log : Nat) (fresh : List Nat) : Prop where
  disk : Disk s
  ref : (s.fso i).refcnt ≠ 0
  grown : Grown s t i log fresh
  dev : u.dev = t.dev
  fs : u.fs = t.fs
  files : u.files = t.files
  fso : ∀ j, j ≠ i → u.fso j = t.fso j
  attrs : SameAttrs (t.fso i) (u.fso i)
  rest : (u.fso i).bmap = (t.fso i).bmap ∧ (u.fso i).blocks = (t.fso i).blocks ∧ (u.fso i).dirty = (t.fso i).dirty

theorem Regrown.refl (disk : Disk s) (ref : (s.fso i).refcnt ≠ 0) (grown : Grown s t i log fresh) :
    Regrown s t t i log fresh := ⟨disk, ref, grown, rfl, rfl, rfl, fun _ _ => rfl, .refl _, rfl, rfl, rfl⟩

section Regrown
variable (g : Regrown s t u i log fresh)
include g

theorem Regrown.file : i ∈ s.files := (g.disk.opened i g.ref).file

theorem Regrown.own : i ∉ (hdr s i).owned s.dev ∧ ((hdr s i).owned s.dev).Nodup :=
  nodup_cons.mp (g.disk.nodup i g.file)

theorem Regrown.head : (u.fso i).hdr = (t.fso i).hdr := by
  simp only [Fso.hdr, g.attrs.size, g.attrs.nlink, g.attrs.mode, g.attrs.ndirblks, g.attrs.nindirlev, g.rest.1,
    g.rest.2.1]

theorem Regrown.header : hdr u i = (t.fso i).hdr := by
  have ref' : (u.fso i).refcnt ≠ 0 := by
    rw [g.attrs.refcnt, g.grown.alloc.attrs.refcnt]
    exact g.ref
  rw [hdr_of_open ref', g.head]

theorem Regrown.bits (b : Nat) : used u b = used t b := by simp only [used, bamBlk, g.fs, g.dev]

theorem Regrown.unchanged (mem : b ∈ holds s i) (apart : b ∉ (hdr s i).inners s.dev) : u.dev b = s.dev b := by
  obtain ⟨inside, inUse⟩ := g.disk.data i g.file b mem
  rw [g.dev]
  exact g.grown.alloc.keeps inside inUse apart

theorem Regrown.blocks : (t.fso i).blocks = ((s.fso i).blocks + fresh.length) % 2 ^ 32 := by
  apply g.grown.alloc.blocks
  have bound := (g.disk.shape i g.file).blocks
  rwa [hdr_of_open g.ref] at bound

theorem Regrown.only : Only s u i := by
  have before := g.grown.alloc.only g.disk g.file fun b inner => mem_cons_of_mem _ (Hdr.inners_subset inner)
  refine ⟨before.bam.congr g.fs fun _ _ => by rw [g.dev], by rw [g.fs]; exact before.geo,
    by rw [g.files]; exact before.nodup, by rw [g.files]; exact before.files, ?_, ?_⟩
  · intro j ne
    rw [g.fso j ne, before.fso j ne]
  · rw [g.dev]
    exact before.dev

theorem Regrown.perm : (holds u i).Perm (fresh ++ holds s i) := by
  rw [holds, holds, g.header, g.dev]
  exact (g.grown.owned.cons i).trans perm_middle.symm

theorem Regrown.nodup : (holds u i).Nodup := by
  rw [g.perm.nodup_iff, nodup_append]
  refine ⟨g.grown.alloc.nodup, g.disk.nodup i g.file, ?_⟩
  intro b mem c mem' eq
  subst eq
  have inUse := (g.disk.data i g.file b mem').2
  rw [(g.grown.alloc.free b mem).2] at inUse
  exact absurd inUse (by decide)

theorem Regrown.data : ∀ b ∈ holds u i, s.fs.geo.inData b ∧ used u b = true := by
  intro b mem
  rw [g.bits]
  rcases mem_append.mp (g.perm.mem_iff.mp mem) with new | old
  · have free := g.grown.alloc.free b new
    refine ⟨free.1, ?_⟩
    rw [g.grown.alloc.used b (data_covered g.disk.bam.geo free.1)]
    simp [new]
  · obtain ⟨inside, inUse⟩ := g.disk.data i g.file b old
    exact ⟨inside, g.grown.alloc.used_mono inside inUse⟩

/-- A file that is not dirty has not grown. -/
theorem Regrown.saved (clean : (u.fso i).dirty = false) : savedHdr u i = (u.fso i).hdr := by
  rw [g.rest.2.2] at clean
  have alloc := g.grown.alloc
  have nothing : fresh = [] := by
    apply Classical.byContradiction
    intro some
    rw [alloc.dirty.mpr (.inr some)] at clean
    exact absurd clean (by decide)
  have before : (s.fso i).dirty = false := by
    apply Classical.byContradiction
    intro some
    rw [alloc.dirty.mpr (.inl (by simpa using some))] at clean
    exact absurd clean (by decide)
  have saved := (g.disk.opened i g.ref).saved before
  have bound := (g.disk.shape i g.file).blocks
  rw [hdr_of_open g.ref] at bound
  have count : (t.fso i).blocks = (s.fso i).blocks := by
    rw [g.blocks, nothing]
    exact Nat.mod_eq_of_lt bound
  rw [savedHdr, g.fs, alloc.geo, g.unchanged (mem_cons_self ..) fun inner => g.own.1 (Hdr.inners_subset inner), g.head]
  rw [savedHdr] at saved
  have same := alloc.attrs
  rw [saved]
  simp only [Fso.hdr, same.size, same.nlink, same.mode, same.ndirblks, same.nindirlev, count, g.grown.bmap nothing]

theorem Regrown.intact (cache : CacheOk u i) (small : (u.fso i).bmapLog < 2 ^ 32) : Disk u := by
  have alloc := g.grown.alloc
  refine g.only.disk g.disk (fun _ => g.nodup) (fun _ => ?_) (fun _ => g.data) ?_ ?_ fun _ =>
    ⟨by rw [g.files, alloc.files]; exact g.file, cache, small, g.saved⟩
  · have shape := g.disk.shape i g.file
    rw [hdr_of_open g.ref] at shape
    rw [g.header]
    exact ⟨⟨by rw [Fso.hdr, alloc.attrs.nindirlev]; exact shape.levels,
      by rw [Fso.hdr, alloc.attrs.ndirblks]; exact shape.direct⟩,
      by rw [Fso.hdr, alloc.attrs.nlink]; exact shape.nlink,
      by show (t.fso i).blocks < 2 ^ 32; rw [g.blocks]; exact Nat.mod_lt _ (by decide)⟩
  · intro _ b mem
    rcases mem_append.mp (g.perm.mem_iff.mp mem) with new | old
    · exact .inr (alloc.free b new).2
    · exact .inl ⟨g.file, old⟩
  · intro j other ne b mem
    obtain ⟨inside, inUse⟩ := g.disk.data j other b mem
    rw [g.bits]
    exact alloc.used_mono inside inUse

theorem Regrown.phys (found : (hdr s i).phys s.dev k ≠ 0) :
    (hdr u i).phys u.dev k = (hdr s i).phys s.dev k := by
  rw [g.header, g.dev]
  by_cases eq : k = log
  · rw [eq] at found ⊢
    exact g.grown.kept found
  · exact g.grown.others k eq

theorem Regrown.looks (new : (hdr s i).phys s.dev log = 0 →
    (t.fso i).hdr.phys t.dev log = 0 ∨ t.dev ((t.fso i).hdr.phys t.dev log) = zero) : obj u i = obj s i := by
  have contents : (hdr u i).block u.dev = (hdr s i).block s.dev := by
    funext k
    simp only [Hdr.block]
    by_cases found : (hdr s i).phys s.dev k = 0
    · rw [if_pos found, g.header, g.dev]
      by_cases eq : k = log
      · rw [eq] at found ⊢
        rcases new found with missing | blank
        · rw [if_pos missing]
        · rw [blank]
          split <;> rfl
      · rw [g.grown.others k eq, if_pos found]
    · rw [g.phys found, if_neg found, if_neg found]
      exact g.unchanged (mem_cons_of_mem _ (Hdr.phys_mem found).2.2) (Hdr.phys_not_inner g.own.2 found)
  have same := g.grown.alloc.attrs
  rw [obj, obj, contents, g.header, hdr_of_open g.ref]
  simp only [Fso.hdr, same.size, same.nlink, same.mode]

theorem Regrown.counted (count : (hdr s i).Counted s.dev) : (hdr u i).Counted u.dev := by
  have len := holds_length (g.only.geo ▸ g.disk.bam.geo) g.nodup fun b mem => g.only.geo ▸ (g.data b mem).1
  have total := g.perm.length_eq
  rw [Hdr.Counted] at count ⊢
  rw [holds, length_cons] at len
  simp only [length_append, holds, length_cons] at total
  have value : (hdr u i).blocks = ((hdr s i).blocks + fresh.length) % 2 ^ 32 := by
    rw [g.header, hdr_of_open g.ref]
    exact g.blocks
  rw [value, count, Nat.mod_eq_of_lt (by omega)]
  omega

theorem Regrown.extended (new : (hdr s i).phys s.dev log = 0 →
      (t.fso i).hdr.phys t.dev log = 0 ∨ t.dev ((t.fso i).hdr.phys t.dev log) = zero)
    (cache : CacheOk u i) (small : (u.fso i).bmapLog < 2 ^ 32) : Extended s u i := by
  refine ⟨g.intact cache small, g.only, by rw [g.files, g.grown.alloc.files], g.grown.alloc.attrs.trans g.attrs,
    g.looks new, fun _ => g.phys, g.counted, fun dirty => ?_⟩
  rw [g.rest.2.2]
  exact g.grown.alloc.dirty.mpr (.inl dirty)

end Regrown

end Finish

theorem Extended.refl (disk : Disk s) (i : Nat) : Extended s s i :=
  ⟨disk, .refl disk, rfl, .refl _, rfl, fun _ _ => rfl, id, id⟩

variable {log : Nat}

theorem extended_remembered (disk : Disk s)
    (file : i ∈ s.files) (ref : (s.fso i).refcnt ≠ 0) (small : log < 2 ^ 32)
    (slot : (hdr s i).slot log < 114) (grown : Grown s t i log fresh) (target : (t.fso i).hdr.phys t.dev log = x)
    (new : (hdr s i).phys s.dev log = 0 → t.dev x = zero) : let u := t.setFso i { t.fso i with bmapPhys := x, bmapLog := log, bmapValid := true }
    Extended s u i ∧ (u.fso i).bmapPhys = x ∧ (hdr u i).phys u.dev log = x := by
  intro u
  have shape := disk.shape i file
  rw [hdr_of_open ref] at shape slot
  have same := grown.alloc.attrs
  have here : u.fso i = { t.fso i with bmapPhys := x, bmapLog := log, bmapValid := true } :=
    update_same _ _ _
  refine ⟨Regrown.extended ⟨disk, ref, grown, rfl, rfl, rfl, fun j ne => update_ne _ _ _ ne,
    by rw [here]; exact ⟨rfl, rfl, rfl, rfl, rfl, rfl⟩, by rw [here]; exact ⟨rfl, rfl, rfl⟩⟩ ?_ ?_ ?_, by rw [here], ?_⟩
  · intro missing
    rw [target]
    exact .inr (new missing)
  · intro _
    have slot' : (t.fso i).hdr.slot log < 114 := by
      rw [Hdr.slot, Fso.hdr, same.ndirblks, same.nindirlev]
      exact slot
    have map : (t.fso i).hdr.Map := by
      refine ⟨?_, ?_⟩
      · rw [Fso.hdr, same.nindirlev]
        exact shape.levels
      · rw [Fso.hdr, same.ndirblks]
        exact shape.direct
    rw [here]
    refine ⟨?_, slot'⟩
    rw [← target, Hdr.phys_fileBlock map small slot']
    rfl
  · rw [here]
    exact small
  · rw [hdr_of_open (by rw [here]; show (t.fso i).refcnt ≠ 0; rw [same.refcnt]; exact ref), here]
    exact target

theorem cache_of_phys (map : (s.fso i).hdr.Map) (opened : Opened s i) (same : SameAttrs (s.fso i) (t.fso i))
    (cached : (t.fso i).bmapValid = (s.fso i).bmapValid ∧ (t.fso i).bmapLog = (s.fso i).bmapLog ∧
      (t.fso i).bmapPhys = (s.fso i).bmapPhys) (phys : (s.fso i).bmapValid = true →
      (t.fso i).hdr.phys t.dev (s.fso i).bmapLog = (s.fso i).hdr.phys s.dev (s.fso i).bmapLog) : CacheOk t i := by
  obtain ⟨valid, log, remembered⟩ := cached
  have map' : (t.fso i).hdr.Map := by
    refine ⟨?_, ?_⟩
    · rw [Fso.hdr, same.nindirlev]
      exact map.levels
    · rw [Fso.hdr, same.ndirblks]
      exact map.direct
  intro hit
  obtain ⟨value, slot⟩ := opened.cache (valid ▸ hit)
  have slot' : bmapSlot (t.fso i).ndirblks (t.fso i).nindirlev (s.fso i).bmapLog < 114 := by
    rw [same.ndirblks, same.nindirlev]
    exact slot
  rw [log]
  refine ⟨?_, slot'⟩
  rw [remembered, value, ← Hdr.phys_fileBlock map opened.small slot, ← phys (valid ▸ hit),
    Hdr.phys_fileBlock map' opened.small slot']

theorem grown_still (disk : Disk s) (ref : (s.fso i).refcnt ≠ 0) (log : Nat)
    (alloc : Alloc s t i [] fun _ => False) (fso : t.fso = s.fso) :
    Grown s t i log [] ∧ ∀ log', (t.fso i).hdr.phys t.dev log' = (s.fso i).hdr.phys s.dev log' := by
  have head : hdr s i = (s.fso i).hdr := hdr_of_open ref
  have inner : ∀ b ∈ (s.fso i).hdr.inners s.dev, t.dev b = s.dev b := by
    intro b mem
    obtain ⟨inside, inUse⟩ := disk.data i (disk.opened i ref).file b
      (mem_cons_of_mem _ (head ▸ Hdr.inners_subset mem))
    exact alloc.keeps inside inUse id
  obtain ⟨owned, _, phys⟩ := Hdr.trees_congr inner
  refine ⟨⟨alloc.weaken fun _ h => h.elim, ?_, ?_, ?_, ?_, ?_⟩, ?_⟩
  · rw [fso, owned, head, nil_append]
  · intro log' _
    rw [fso, phys, head]
  · intro _
    rw [fso, phys, head]
  · intro _
    rw [fso]
  · rw [fso]
    exact ⟨rfl, rfl, rfl⟩
  · intro log'
    rw [fso, phys]

def BmapAsks (P : Vol → Prop) (cx : Cx) (i log : Nat) (s : Vol) : Prop :=
  let f := s.fso i
  let k := bmapSlot f.ndirblks f.nindirlev log
  ¬ (f.bmapValid = true ∧ f.bmapLog = log ∧ f.bmapPhys ≠ 0) ∧ k < 114 ∧
    (f.bmap k = 0 ∧ P s ∨ ∃ r t, natBmapDir cx i k true s = (.ok r, t) ∧
      WalkAsks P cx i log (if log < f.ndirblks then 0 else f.nindirlev) r t)

theorem not_bmapAsks (never : ∀ t, ¬ P t) : ¬ BmapAsks P cx i log s := by
  rintro ⟨_, _, ⟨_, here⟩ | ⟨r, t, _, below⟩⟩
  · exact never s here
  · exact not_walkAsks never below

structure Sprouted (s t : Vol) (i : Nat) : Prop where
  header : t.dev i = s.dev i
  ndirblks : (t.fso i).ndirblks = (s.fso i).ndirblks
  nindirlev : (t.fso i).nindirlev = (s.fso i).nindirlev
  bmap : (t.fso i).bmap = (s.fso i).bmap ∨ ∃ k r, k < 114 ∧ (s.fso i).bmap k = 0 ∧ r ≠ 0 ∧
    used s r = false ∧ (t.fso i).bmap = update (s.fso i).bmap k r

theorem Sprouted.refl (s : Vol) (i : Nat) : Sprouted s s i := ⟨rfl, rfl, rfl, .inl rfl⟩

theorem Sprouted.still (a : Sprouted s t i) (header : u.dev i = t.dev i)
    (self : u.fso i = f) (ndirblks : f.ndirblks = (t.fso i).ndirblks)
    (nindirlev : f.nindirlev = (t.fso i).nindirlev) (bmap : f.bmap = (t.fso i).bmap) : Sprouted s u i := by
  subst self
  exact ⟨header.trans a.header, ndirblks.trans a.ndirblks, nindirlev.trans a.nindirlev, by rw [bmap]; exact a.bmap⟩

/-- File `i` owns more blocks than before: all that have been taken from the map. -/
structure Stretched (s s' : Vol) (i : Nat) : Prop where
  extended : Extended s s' i
  elsewhere : Elsewhere s s' i
  sprouted : Sprouted s s' i
  marked : ∀ b, b < 4096 * s.fs.geo.bamSize → used s b = true → used s' b = true
  longer : (s'.fso i).dirty = true → (s.fso i).dirty = true ∨
    ((hdr s i).owned s.dev).length < ((hdr s' i).owned s'.dev).length

theorem Stretched.refl (disk : Disk s) (i : Nat) : Stretched s s i :=
  ⟨.refl disk i, .refl s i, .refl s i, fun _ _ => id, .inl⟩

section Stretch
variable {s t u : Vol} {i log k r : Nat} {fresh fresh' : List Nat}

theorem Grown.longer (grown : Grown s t i log fresh) (ref : (t.fso i).refcnt ≠ 0)
    (dirty : (t.fso i).dirty = true) : (s.fso i).dirty = true ∨
      ((hdr s i).owned s.dev).length < ((hdr t i).owned t.dev).length := by
  refine (grown.alloc.dirty.mp dirty).imp_right fun some => ?_
  have length := grown.owned.length_eq
  have pos := length_pos_iff.mpr some
  rw [hdr_of_open ref, length, length_append]
  omega

theorem Grown.header (disk : Disk s) (file : i ∈ s.files) (grown : Grown s t i log fresh) : t.dev i = s.dev i := by
  obtain ⟨data, inUse⟩ := disk.data i file i (mem_cons_self ..)
  have own := nodup_cons.mp (disk.nodup i file)
  exact grown.alloc.keeps data inUse fun inner => own.1 (Hdr.inners_subset inner)

theorem sprouted_of_grown (disk : Disk s) (file : i ∈ s.files) (lt : k < 114) (root : Rooted s t i k r fresh)
    (grown : Grown s u i log fresh') (bmap : (u.fso i).bmap = (t.fso i).bmap) : Sprouted s u i := by
  have same := grown.alloc.attrs
  refine ⟨grown.header disk file, same.ndirblks, same.nindirlev, ?_⟩
  rw [bmap, root.bmap]
  rcases root.root with ⟨old, _⟩ | ⟨empty, new, _⟩
  · refine .inl ?_
    rw [← old]
    exact update_self _ _
  · refine .inr ⟨k, r, lt, empty, root.pos, ?_, rfl⟩
    exact (root.alloc.free r (by rw [new]; exact mem_singleton_self r)).2

theorem stretched_of_grown (disk : Disk s) (ref : (s.fso i).refcnt ≠ 0) (grown : Grown s t i log fresh)
    (missing : (hdr s i).phys s.dev log = 0 → (t.fso i).hdr.phys t.dev log = 0) (sprouted : Sprouted s t i) :
    Stretched s t i := by
  have opened := disk.opened i ref
  have file := opened.file
  have head : hdr s i = (s.fso i).hdr := hdr_of_open ref
  have ref' : (t.fso i).refcnt ≠ 0 := by
    rw [grown.alloc.attrs.refcnt]
    exact ref
  refine ⟨(Regrown.refl disk ref grown).extended (fun none => .inl (missing none)) ?_ ?_, elsewhere_of_grown grown rfl rfl (hdr_of_open ref'), sprouted,
    grown.alloc.marked, grown.longer ref'⟩
  · refine cache_of_phys (head ▸ (disk.shape i file).toMap) opened grown.alloc.attrs grown.cached ?_
    intro _
    generalize (s.fso i).bmapLog = c
    rw [← head]
    by_cases eq : c = log
    · rw [eq]
      by_cases found : (hdr s i).phys s.dev log = 0
      · rw [found]
        exact missing found
      · exact grown.kept found
    · exact grown.others c eq
  · rw [grown.cached.2.1]
    exact opened.small

theorem stretched_still (disk : Disk s) (ref : (s.fso i).refcnt ≠ 0) (log : Nat)
    (alloc : Alloc s t i [] fun _ => False) (fso : t.fso = s.fso) : Stretched s t i := by
  obtain ⟨grown, phys⟩ := grown_still disk ref log alloc fso
  refine stretched_of_grown disk ref grown ?_
    ⟨grown.header disk (disk.opened i ref).file, by rw [fso], by rw [fso], .inl (by rw [fso])⟩
  intro none
  rw [phys, ← hdr_of_open ref]
  exact none

end Stretch

section Walk
variable {cx : Cx} {Q : Res Errno Unit → Vol → Prop} (disk : Disk s) (ref : (s.fso i).refcnt ≠ 0) (small : log < 2 ^ 32)
  (kept : ¬ BmapAsks (BallocLoses cx) cx i log s)
  (done : ∀ s', ¬ BmapAsks (Drops cx) cx i log s → Stretched s s' i → (s'.fso i).bmapPhys ≠ 0 →
    (hdr s' i).phys s'.dev log = (s'.fso i).bmapPhys → Q (.ok ()) s')
  (failed : ∀ e s', ¬ BmapAsks (Drops cx) cx i log s → e = .ENOSPC ∨ cx.IoError e → Stretched s s' i → Q (.err e) s')
  (dropped : ∀ e t s' b, BmapAsks (Drops cx) cx i log s → cx.IoError e → Stretched s t i → Spilled t s' b →
    Q (.err e) s')
include disk ref small kept done failed dropped

/-- Both halves of `nat_bmap` look the entry up and go down from there. -/
theorem wp_natBmap_down (slot : (hdr s i).slot log = k) (lt : k < 114)
    (miss : ¬ ((s.fso i).bmapValid = true ∧ (s.fso i).bmapLog = log ∧ (s.fso i).bmapPhys ≠ 0))
    (level : (if log < (s.fso i).ndirblks then 0 else (s.fso i).nindirlev) = (hdr s i).level k) :
    wp (natBmapDir cx i k true) (Cmd.after (fun bn =>
      natBmapWalk cx i log true ((hdr s i).level k) bn >>= setBmapCache i log) Q) s := by
  have file := (disk.opened i ref).file
  have head : hdr s i = (s.fso i).hdr := hdr_of_open ref
  have slot' : bmapSlot (s.fso i).ndirblks (s.fso i).nindirlev log = k := by rw [← slot, head]; rfl
  have asks : ∀ P, BmapAsks P cx i log s ↔ (s.fso i).bmap k = 0 ∧ P s ∨ ∃ r t,
      natBmapDir cx i k true s = (.ok r, t) ∧ WalkAsks P cx i log ((hdr s i).level k) r t := by
    intro P
    simp only [BmapAsks, slot', level, miss, lt, not_false_iff, true_and]
  rw [asks, not_or] at kept
  have entry : (hdr s i).bmap k = (s.fso i).bmap k := by rw [head]; exact Fso.hdr_bmap _ lt
  have below := entry ▸ disk.tree file lt
  have missing : (hdr s i).phys s.dev log = 0 →
      mapLeaf s.dev ((hdr s i).level k) ((s.fso i).bmap k) log = 0 := by
    intro none
    rw [Hdr.phys, slot, if_pos ⟨small, lt⟩, entry] at none
    exact none
  apply wp_run
  apply wp_natBmapDir disk.bam lt fun empty loses => kept.1 ⟨empty, loses⟩
  · intro t r fresh unspilled root run
    obtain ⟨tree, _, _⟩ := root.tree below
    have drops : BmapAsks (Drops cx) cx i log s ↔ WalkAsks (Drops cx) cx i log ((hdr s i).level k) r t := by
      rw [asks]
      constructor
      · rintro (⟨empty, here⟩ | ⟨r', t', run', rest⟩)
        · exact absurd here (unspilled empty)
        · rw [run] at run'
          cases run'
          exact rest
      · exact fun rest => .inr ⟨r, t, run, rest⟩
    rw [drops] at done failed dropped
    simp only [after_ok, wp_bind]
    have stretch : ∀ {u fresh'}, (hdr s i).level k ≠ 0 → Walked t u i ((hdr s i).level k) r log fresh' →
        (mapLeaf t.dev ((hdr s i).level k) r log = 0 → mapLeaf u.dev ((hdr s i).level k) r log = 0) →
        Stretched s u i := by
      intro u fresh' deep walk nothing
      obtain ⟨grown, target⟩ := grown_of_walk disk file ref small slot lt root walk
      refine stretched_of_grown disk ref grown ?_ (sprouted_of_grown disk file lt root grown walk.bmap)
      intro none
      rw [target]
      exact nothing ((root.leaf below (fun _ => deep) log).trans (missing none))
    apply wp_natBmapWalk i log _ r root.alloc.bam root.pos tree fun loses => kept.2 ⟨r, t, run, loses⟩
    · intro t' x fresh' clear walk reach
      simp only [after_ok, setBmapCache, modifyFso, wp_modify]
      obtain ⟨grown, target⟩ := grown_of_walk disk file ref small slot lt root walk
      obtain ⟨ext, phys, translated⟩ := extended_remembered disk file ref small
        (by rw [slot]; exact lt) grown (target.trans reach.leaf)
        fun none => root.reached below walk reach (missing none)
      have ref' := ext.attrs.refcnt ▸ ref
      have ref₁ := grown.alloc.attrs.refcnt ▸ ref
      have self : (t'.setFso i { t'.fso i with bmapPhys := x, bmapLog := log, bmapValid := true }).fso i =
          { t'.fso i with bmapPhys := x, bmapLog := log, bmapValid := true } := update_same _ _ _
      have head' : hdr (t'.setFso i { t'.fso i with bmapPhys := x, bmapLog := log, bmapValid := true }) i =
          hdr t' i := by
        rw [hdr_of_open ref', hdr_of_open ref₁, self]
        rfl
      refine done _ clear ⟨ext, ?_, ?_, grown.alloc.marked, ?_⟩ (by rw [phys]; exact reach.pos) ?_
      · exact elsewhere_of_grown grown rfl rfl (head'.trans (hdr_of_open ref₁))
      · exact (sprouted_of_grown disk file lt root grown walk.bmap).still rfl self rfl rfl rfl
      · rw [head', self]
        exact grown.longer ref₁
      · rw [translated, phys]
    · exact fun e t' fresh' clear why deep walk nothing => failed e t' clear why (stretch deep walk nothing)
    · intro e u s' fresh' b spills io deep walk nothing spilled
      exact dropped e u s' b spills io (stretch deep walk nothing) spilled
  · intro e t empty unspilled why same run
    have clear : ¬ BmapAsks (Drops cx) cx i log s := by
      rw [asks]
      rintro (⟨_, here⟩ | ⟨r, t', run', _⟩)
      · exact unspilled here
      · rw [run] at run'
        cases run'
    exact failed e t clear why (stretched_still disk ref log (same.alloc i disk.bam) same.frame.fso)
  · intro e t b empty spills io spilled _
    exact dropped e s t b ((asks _).mpr (.inl ⟨empty, spills⟩)) io (.refl disk i) spilled

/-- `nat_bmap` with allocation when it loses no changes of the map, whichever requests fail: the block is
    there afterwards, or the file cannot have such a block, or it has got as far as it went. What it takes
    from the map goes to the file, but for a fresh block whose buffer could not be had. -/
theorem wp_natBmap_io
    (refused : ¬ BmapAsks (Drops cx) cx i log s → 114 ≤ (hdr s i).slot log → Q (.err .EFBIG) s) :
    wp (natBmap cx i log true) Q s := by
  have opened := disk.opened i ref
  have head : hdr s i = (s.fso i).hdr := hdr_of_open ref
  have map : (s.fso i).hdr.Map := head ▸ (disk.shape i opened.file).toMap
  -- no block is asked for when there is no place for it in the block map
  have outside : 114 ≤ (hdr s i).slot log → ¬ BmapAsks (Drops cx) cx i log s := by
    intro big asks
    have lt := asks.2.1
    rw [head] at big
    exact absurd lt (not_lt.mpr big)
  simp only [natBmap, wp_bind, wp_get, after_ok]
  split
  · rename_i hit
    simp only [Bool.not_true, Bool.false_or, Bool.and_eq_true, beq_iff_eq, bne_iff_ne] at hit
    obtain ⟨⟨valid, logged⟩, pos⟩ := hit
    obtain ⟨value, slot⟩ := opened.cache valid
    refine done s (fun asks => asks.1 ⟨valid, logged, pos⟩) (.refl disk i) pos ?_
    rw [head, ← logged, Hdr.phys_fileBlock map opened.small slot, value]
  · rename_i missed
    have miss : ¬ ((s.fso i).bmapValid = true ∧ (s.fso i).bmapLog = log ∧ (s.fso i).bmapPhys ≠ 0) := by
      rintro ⟨valid, logged, pos⟩
      apply missed
      simp [valid, logged, pos]
    split
    · rename_i direct
      obtain ⟨value, level⟩ := Hdr.slot_direct (h := (s.fso i).hdr) direct
      rw [← head] at value level
      rw [value] at level
      by_cases lt : log < 114
      · have run := wp_natBmap_down disk ref small kept done failed dropped value lt miss (by rw [if_pos direct, level])
        rw [level] at run
        rw [wp_bind]
        exact run
      · simp only [wp_bind, natBmapDir]
        rw [if_pos (not_lt.mp lt)]
        have big : 114 ≤ (hdr s i).slot log := by omega
        exact refused (outside big) big
    · rename_i indirect
      have value : (hdr s i).slot log =
          ((s.fso i).ndirblks + log >>> (7 * (s.fso i).nindirlev)) % 2 ^ 32 := by
        rw [head]
        exact if_neg indirect
      have level := (Hdr.slot_indirect (h := (s.fso i).hdr) map small (not_lt.mp indirect)).2
      rw [← head, value] at level
      by_cases lt : ((s.fso i).ndirblks + log >>> (7 * (s.fso i).nindirlev)) % 2 ^ 32 < 114
      · have run := wp_natBmap_down disk ref small kept done failed dropped value lt miss (by rw [if_neg indirect, level, head]; rfl)
        rw [level, head] at run
        rw [wp_bind]
        exact run
      · simp only [wp_bind, natBmapDir]
        rw [if_pos (not_lt.mp lt)]
        have big : 114 ≤ (hdr s i).slot log := by omega
        exact refused (outside big) big

end Walk

theorem Cx.NoIoError.full (noio : cx.NoIoError) (why : e = .ENOSPC ∨ cx.IoError e) : e = .ENOSPC := why.resolve_right fun io => noio.none io

/-- `nat_bmap` with allocation on a working device: the block is there afterwards, or the volume is full,
    or the file cannot have such a block. What it takes from the map goes to the file. -/
theorem wp_natBmap_grow (noio : cx.NoIoError) (disk : Disk s)
    (ref : (s.fso i).refcnt ≠ 0) (small : log < 2 ^ 32)
    (done : ∀ s', Extended s s' i → Elsewhere s s' i → (s'.fso i).bmapPhys ≠ 0 →
      (hdr s' i).phys s'.dev log = (s'.fso i).bmapPhys → Q (.ok ()) s')
    (full : ∀ s', Extended s s' i → Elsewhere s s' i → Q (.err .ENOSPC) s')
    (refused : 114 ≤ (hdr s i).slot log → Q (.err .EFBIG) s) : wp (natBmap cx i log true) Q s := by
  apply wp_natBmap_io disk ref small (not_bmapAsks (not_ballocLoses noio))
  · exact fun s' _ st pos phys => done s' st.extended st.elsewhere pos phys
  · intro e s' _ why st
    rw [noio.full why]
    exact full s' st.extended st.elsewhere
  · exact fun _ _ _ _ _ io _ _ => (noio.none io).elim
  · exact fun _ big => refused big

theorem extended_of_looked (disk : Disk s) (ref : (s.fso i).refcnt ≠ 0)
    (small : log < 2 ^ 32) (slot : (hdr s i).slot log < 114)
    (looked : Looked s s' i log (fileBlock s.dev (s.fso i) log)) :
    Extended s s' i ∧ (s'.fso i).bmapPhys = (hdr s' i).phys s'.dev log := by
  have file := (disk.opened i ref).file
  have head : hdr s i = (s.fso i).hdr := hdr_of_open ref
  have map : (s.fso i).hdr.Map := head ▸ (disk.shape i file).toMap
  rw [head] at slot
  have value : (s.fso i).hdr.phys s.dev log = fileBlock s.dev (s.fso i) log :=
    Hdr.phys_fileBlock map small slot
  obtain ⟨grown, _⟩ := grown_still disk ref log (Alloc.refl disk.bam i s.tick _) rfl
  refine ⟨Regrown.extended ⟨disk, ref, grown, looked.dev, looked.fs, looked.files, looked.other,
    by rw [looked.self]; exact ⟨rfl, rfl, rfl, rfl, rfl, rfl⟩, by rw [looked.self]; exact ⟨rfl, rfl, rfl⟩⟩ ?_ ?_ ?_, ?_⟩
  · intro missing
    exact .inl (head ▸ missing)
  · intro _
    rw [looked.self, looked.dev]
    exact ⟨rfl, slot⟩
  · rw [looked.self]
    exact small
  · rw [hdr_of_open (by rw [looked.self]; exact ref), looked.self, looked.dev]
    exact value.symm

/- Stores into a file -/

structure Stored (s s' : Vol) (i log : Nat) (m : Mem) : Prop where
  disk : Disk s'
  only : Only s s' i
  files : s'.files = s.files
  fso : s'.fso = s.fso
  hdr : hdr s' i = hdr s i
  phys : ∀ log', (Natfs.hdr s' i).phys s'.dev log' = (Natfs.hdr s i).phys s.dev log'
  obj : obj s' i = { obj s i with block := update (Natfs.obj s i).block log m }
  counted : (Natfs.hdr s i).Counted s.dev → (Natfs.hdr s' i).Counted s'.dev

theorem Disk.setLeaf (disk : Disk s) (file : i ∈ s.files)
    (found : (hdr s i).phys s.dev log = p) (pos : p ≠ 0) (m : Mem) : Stored s (s.setDev p m) i log m := by
  have own := disk.nodup i file
  rw [holds, nodup_cons] at own
  have found' : (hdr s i).phys s.dev log ≠ 0 := found ▸ pos
  have mine : p ∈ (hdr s i).owned s.dev := found ▸ (Hdr.phys_mem found').2.2
  have mine' : p ∈ holds s i := mem_cons_of_mem _ mine
  have outside : ¬ s.fs.geo.inBam p := data_not_bam disk.bam.geo (disk.data i file p mine').1
  have elsewhere : ∀ b, b ≠ p → (s.setDev p m).dev b = s.dev b := fun b ne => update_ne _ _ _ ne
  have inner : ∀ b ∈ (hdr s i).inners s.dev, (s.setDev p m).dev b = s.dev b := by
    intro b mem
    apply elsewhere
    rintro rfl
    exact Hdr.phys_not_inner own.2 found' (found ▸ mem)
  obtain ⟨owned, _, phys⟩ := Hdr.trees_congr inner
  have header : (s.setDev p m).dev i = s.dev i := by
    apply elsewhere
    rintro rfl
    exact own.1 mine
  have map : ∀ x, s.fs.geo.inBam x → (s.setDev p m).dev x = s.dev x := by
    intro x inside
    apply elsewhere
    rintro rfl
    exact outside inside
  have only : Only s (s.setDev p m) i := by
    refine ⟨disk.bam.congr rfl map, rfl, disk.files, fun _ _ => Iff.rfl, fun _ _ => rfl, ?_⟩
    intro j other ne b mem
    apply elsewhere
    rintro rfl
    exact disk.apart j other i file ne b mem mine'
  have saved : savedHdr (s.setDev p m) i = savedHdr s i := by
    rw [savedHdr, savedHdr, header]
    rfl
  have same : hdr (s.setDev p m) i = hdr s i := by
    simp only [hdr, saved]
    rfl
  have held : holds (s.setDev p m) i = holds s i := by
    rw [holds, holds, same, owned]
  have bits : ∀ b, s.fs.geo.inData b → used (s.setDev p m) b = used s b := by
    intro b inside
    refine used_congr ?_ ?_ ?_ (data_covered disk.bam.geo inside) map
    · rfl
    · rfl
    · rfl
  refine ⟨only.disk disk ?_ ?_ ?_ ?_ ?_ ?_, only, rfl, rfl, same, ?_, ?_, ?_⟩
  · intro _
    rw [held]
    exact disk.nodup i file
  · intro _
    rw [same]
    exact disk.shape i file
  · intro _ b mem
    rw [held] at mem
    obtain ⟨inside, inUse⟩ := disk.data i file b mem
    exact ⟨inside, by rw [bits b inside]; exact inUse⟩
  · intro _ b mem
    rw [held] at mem
    exact .inl ⟨file, mem⟩
  · intro j other _ b mem
    obtain ⟨inside, inUse⟩ := disk.data j other b mem
    rw [bits b inside]
    exact inUse
  · intro ref
    have opened := disk.opened i ref
    have head : hdr s i = (s.fso i).hdr := hdr_of_open ref
    refine ⟨file, ?_, opened.small, ?_⟩
    · refine cache_of_phys (head ▸ (disk.shape i file).toMap) opened (.refl _) ⟨rfl, rfl, rfl⟩ ?_
      intro _
      show (s.fso i).hdr.phys (s.setDev p m).dev _ = (s.fso i).hdr.phys s.dev _
      rw [← head]
      exact phys _
    · intro clean
      rw [saved]
      exact opened.saved clean
  · intro log'
    rw [same, phys]
  · have contents : (hdr s i).block (s.setDev p m).dev = update ((hdr s i).block s.dev) log m := by
      funext log'
      simp only [Hdr.block, phys]
      by_cases eq : log' = log
      · rw [eq, update_same, found, if_neg pos]
        exact update_same _ _ _
      · rw [update_ne _ _ _ eq, Hdr.block]
        split
        · rfl
        · rename_i hit
          apply elsewhere
          intro clash
          exact eq (Hdr.phys_inj (disk.shape i file).toMap own.2 hit (clash.trans found.symm))
    rw [obj, obj, same, contents]
  · intro count
    rw [Hdr.Counted, same, owned]
    exact count

structure Retitled (f f' : Fso) : Prop where
  refcnt : f'.refcnt = f.refcnt
  blocks : f'.blocks = f.blocks
  mode : f'.mode = f.mode
  bmap : f'.bmap = f.bmap
  ndirblks : f'.ndirblks = f.ndirblks
  nindirlev : f'.nindirlev = f.nindirlev
  cached : f'.bmapValid = f.bmapValid ∧ f'.bmapLog = f.bmapLog ∧ f'.bmapPhys = f.bmapPhys
  dirty : f'.dirty = true
  nlink : f'.nlink < 2 ^ 32

structure Renamed (s s' : Vol) (i : Nat) (f : Fso) : Prop where
  disk : Disk s'
  only : Only s s' i
  self : s'.fso i = f
  phys : ∀ log, (hdr s' i).phys s'.dev log = (hdr s i).phys s.dev log
  obj : obj s' i = { obj s i with size := f.size % 2 ^ 32, nlink := f.nlink }
  counted : (hdr s i).Counted s.dev → (hdr s' i).Counted s'.dev

theorem Disk.setAttrs (disk : Disk s) (ref : (s.fso i).refcnt ≠ 0)
    (title : Retitled (s.fso i) f) : Renamed s (s.setFso i f) i f := by
  have opened := disk.opened i ref
  have file := opened.file
  have shape := disk.shape i file
  have head : hdr s i = (s.fso i).hdr := hdr_of_open ref
  have self : (s.setFso i f).fso i = f := update_same _ _ _
  have ref' : ((s.setFso i f).fso i).refcnt ≠ 0 := by rw [self, title.refcnt]; exact ref
  have head' : hdr (s.setFso i f) i = { hdr s i with size := f.size % 2 ^ 32, nlink := f.nlink } := by
    rw [hdr_of_open ref', self, head]
    simp only [Fso.hdr, title.blocks, title.mode, title.bmap, title.ndirblks, title.nindirlev]
  have phys : ∀ log, (hdr (s.setFso i f) i).phys s.dev log = (hdr s i).phys s.dev log := by
    intro log
    rw [head']
    rfl
  have owned : (hdr (s.setFso i f) i).owned s.dev = (hdr s i).owned s.dev := by
    rw [head']
    rfl
  have held : holds (s.setFso i f) i = holds s i := by
    show i :: (hdr (s.setFso i f) i).owned s.dev = _
    rw [owned]
    rfl
  have only : Only s (s.setFso i f) i :=
    ⟨disk.bam.congr rfl fun _ _ => rfl, rfl, disk.files, fun _ _ => Iff.rfl,
      fun j ne => update_ne _ _ _ ne, fun _ _ _ _ _ => rfl⟩
  refine ⟨only.disk disk ?_ ?_ ?_ ?_ ?_ ?_, only, self, phys, ?_, ?_⟩
  · intro _
    rw [held]
    exact disk.nodup i file
  · intro _
    rw [head']
    exact ⟨⟨shape.levels, shape.direct⟩, title.nlink, shape.blocks⟩
  · intro _ b mem
    rw [held] at mem
    exact disk.data i file b mem
  · intro _ b mem
    rw [held] at mem
    exact .inl ⟨file, mem⟩
  · exact fun j other _ b mem => (disk.data j other b mem).2
  · intro _
    refine ⟨file, ?_, by rw [self, title.cached.2.1]; exact opened.small, ?_⟩
    · intro valid
      rw [self] at valid ⊢
      rw [title.cached.1] at valid
      obtain ⟨value, slot⟩ := opened.cache valid
      simp only [fileBlock, title.cached.2.1, title.cached.2.2, title.bmap, title.ndirblks,
        title.nindirlev]
      exact ⟨value, slot⟩
    · intro clean
      rw [self, title.dirty] at clean
      exact absurd clean (by decide)
  · rw [obj, head', obj]
    rfl
  · intro count
    show (hdr (s.setFso i f) i).Counted s.dev
    rw [Hdr.Counted, owned, head']
    exact count

end Natfs
