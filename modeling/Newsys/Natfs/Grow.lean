import Newsys.Natfs.Fso

/- What `nat_bmap` does to a file when it allocates: the trees of indirect blocks gain the
   fresh blocks, every other block keeps its contents, and only the requested logical block
   changes its translation. -/
namespace Natfs
open Bytes Cmds Cmd List

structure SameAttrs (f f' : Fso) : Prop where
  refcnt : f'.refcnt = f.refcnt
  nlink : f'.nlink = f.nlink
  mode : f'.mode = f.mode
  size : f'.size = f.size
  ndirblks : f'.ndirblks = f.ndirblks
  nindirlev : f'.nindirlev = f.nindirlev

theorem SameAttrs.refl (f : Fso) : SameAttrs f f := ⟨rfl, rfl, rfl, rfl, rfl, rfl⟩

theorem SameAttrs.trans (a : SameAttrs f g) (b : SameAttrs g h) : SameAttrs f h :=
  ⟨b.refcnt.trans a.refcnt, b.nlink.trans a.nlink, b.mode.trans a.mode, b.size.trans a.size,
    b.ndirblks.trans a.ndirblks, b.nindirlev.trans a.nindirlev⟩

/-- Allocation for object `i`: the blocks `fresh` were free data blocks and are used now; apart
    from them and the blocks in `touch` the device is as before. -/
structure Alloc (s s' : Vol) (i : Nat) (fresh : List Nat) (touch : Nat → Prop) : Prop where
  bam : BamOk s'
  geo : s'.fs.geo = s.fs.geo
  files : s'.files = s.files
  other : ∀ j, j ≠ i → s'.fso j = s.fso j
  attrs : SameAttrs (s.fso i) (s'.fso i)
  used : ∀ b, b < 4096 * s.fs.geo.bamSize → used s' b = (used s b || decide (b ∈ fresh))
  free : ∀ b ∈ fresh, s.fs.geo.inData b ∧ Natfs.used s b = false
  nodup : fresh.Nodup
  dev : ∀ b, ¬ s.fs.geo.inBam b → b ∉ fresh → ¬ touch b → s'.dev b = s.dev b
  blocks : (s.fso i).blocks < 2 ^ 32 →
    (s'.fso i).blocks = ((s.fso i).blocks + fresh.length) % 2 ^ 32
  dirty : (s'.fso i).dirty = true ↔ (s.fso i).dirty = true ∨ fresh ≠ []

variable {s : Vol}

theorem Alloc.refl (bam : BamOk s) (i : Nat) (t : Nat) (touch : Nat → Prop) :
    Alloc s { s with tick := t } i [] touch := by
  refine ⟨⟨bam.geo, bam.clean, bam.dirty, bam.outside⟩, rfl, rfl, fun _ _ => rfl,
    SameAttrs.refl _, ?_, ?_, nodup_nil, fun _ _ _ _ => rfl,
    fun room => (Nat.mod_eq_of_lt room).symm, by simp⟩
  · intro b _
    simp [Natfs.used, bamBlk]
  · intro b mem
    cases mem

variable {s' : Vol} {i : Nat} {fresh : List Nat} {touch : Nat → Prop}

theorem Alloc.ofTick (a : Alloc { s with tick := n } s' i fresh touch) : Alloc s s' i fresh touch :=
  ⟨a.bam, a.geo, a.files, a.other, a.attrs, a.used, a.free, a.nodup, a.dev, a.blocks, a.dirty⟩

theorem Alloc.weaken
    (a : Alloc s s' i fresh touch) (sub : ∀ b, touch b → touch' b) : Alloc s s' i fresh touch' :=
  { a with dev := fun b out new old => a.dev b out new fun h => old (sub b h) }

variable {t : Vol}

theorem Alloc.trans (a : Alloc s t i fresh touch) (b : Alloc t u i fresh' touch')
    (sub : ∀ x, touch' x → touch x ∨ x ∈ fresh) : Alloc s u i (fresh' ++ fresh) touch := by
  have bounds : ∀ x, s.fs.geo.inData x → x < 4096 * s.fs.geo.bamSize := fun x inside =>
    data_covered (a.geo ▸ a.bam.geo) inside
  have late : ∀ x ∈ fresh', s.fs.geo.inData x ∧ Natfs.used s x = false ∧ x ∉ fresh := by
    intro x mem
    obtain ⟨inside, free⟩ := b.free x mem
    rw [a.geo] at inside
    rw [a.used x (bounds x inside), Bool.or_eq_false_iff, decide_eq_false_iff_not] at free
    exact ⟨inside, free.1, free.2⟩
  refine ⟨b.bam, b.geo.trans a.geo, b.files.trans a.files, ?_, a.attrs.trans b.attrs, ?_, ?_, ?_, ?_,
    ?_, ?_⟩
  · intro j ne
    rw [b.other j ne, a.other j ne]
  · intro x lt
    rw [b.used x (by rw [a.geo]; exact lt), a.used x lt, Bool.or_assoc]
    congr 1
    simp only [mem_append, Bool.decide_or]
    rw [Bool.or_comm]
  · intro x mem
    rcases mem_append.mp mem with new | old
    · exact ⟨(late x new).1, (late x new).2.1⟩
    · exact a.free x old
  · rw [nodup_append]
    refine ⟨b.nodup, a.nodup, ?_⟩
    intro x mem y mem' eq
    subst eq
    exact (late x mem).2.2 mem'
  · intro x out new old
    simp only [mem_append, not_or] at new
    rw [b.dev x (by rw [a.geo]; exact out) new.1, a.dev x out new.2 old]
    intro h
    rcases sub x h with h | h
    · exact old h
    · exact new.2 h
  · intro room
    have first := a.blocks room
    rw [b.blocks (by omega), first, length_append]
    omega
  · have both : fresh' ++ fresh ≠ [] ↔ fresh ≠ [] ∨ fresh' ≠ [] := by
      rw [ne_eq, append_eq_nil_iff, not_and_or]
      exact or_comm
    rw [b.dirty, a.dirty, both, or_assoc]

def Drops (cx : Cx) (s : Vol) : Prop := ∃ bn t, natBalloc cx s = (.ok bn, t) ∧ cx.io t.tick ≠ none

structure Blank (s s' : Vol) (bn : Nat) : Prop where
  bam : BamOk s'
  geo : s'.fs.geo = s.fs.geo
  files : s'.files = s.files
  fso : s'.fso = s.fso
  used : ∀ b, b < 4096 * s.fs.geo.bamSize → used s' b = (used s b || decide (b = bn))
  data : s.fs.geo.inData bn
  free : Natfs.used s bn = false
  zeroed : s'.dev bn = zero
  dev : ∀ b, ¬ s.fs.geo.inBam b → b ≠ bn → s'.dev b = s.dev b

structure Spilled (s s' : Vol) (bn : Nat) : Prop where
  marked : Marked s s' bn true
  data : s.fs.geo.inData bn
  free : used s bn = false

variable {bn : Nat}

theorem blank_of_allocated (bam : BamOk s) (al : Allocated s t start bn) (n : Nat) :
    Blank s (Vol.setDev { t with tick := n } bn zero) bn := by
  have geo := al.marked.frame.geo
  have outside : ¬ s.fs.geo.inBam bn := data_not_bam bam.geo al.data
  have same : ∀ x, t.fs.geo.inBam x → (Vol.setDev { t with tick := n } bn zero).dev x = t.dev x := by
    intro x inside
    rw [geo] at inside
    exact update_ne _ _ _ (by intro eq; exact outside (eq ▸ inside))
  refine ⟨al.marked.ok.congr rfl same, geo, al.marked.frame.files, al.marked.frame.fso, ?_, al.data, al.free,
    update_same _ _ _, ?_⟩
  · intro b lt
    have moved : used (Vol.setDev { t with tick := n } bn zero) b = used t b := by
      refine used_congr ?_ ?_ ?_ (by rw [geo]; exact lt) same
      · rfl
      · rfl
      · rfl
    rw [moved, al.marked.used b lt]
    split
    · rename_i eq; simp [eq]
    · rename_i ne; simp [ne]
  · intro b out ne
    rw [← al.marked.frame.dev b out]
    exact update_ne _ _ _ ne

theorem wp_newBlock (bam : BamOk s) (kept : ¬ BallocLoses cx s)
    (done : ∀ s' bn, ¬ Drops cx s → Blank s s' bn → Q (.ok bn) s')
    (failed : ∀ e s', ¬ Drops cx s → e = .ENOSPC ∨ cx.IoError e → SameMap s s' → Q (.err e) s')
    (dropped : ∀ e s' bn, Drops cx s → cx.IoError e → Spilled s s' bn → Q (.err e) s') : wp (newBlock cx) Q s := by
  -- an allocator that fails hands out nothing that could be dropped
  have none : ∀ {e t}, natBalloc cx s = (.err e, t) → ¬ Drops cx s := by
    rintro e t run ⟨bn, t', run', _⟩
    rw [run] at run'
    cases run'
  simp only [newBlock, wp_bind]
  apply wp_run
  apply wp_natBalloc_io bam kept
  · intro t bn al _ run
    simp only [after_ok, wp_bind]
    cases outcome : cx.io t.tick with
    | none =>
      refine wp_blkGet_taken outcome ?_
      simp only [after_ok, wp_bind, wp_blkFill, wp_pure]
      refine done _ bn ?_ (blank_of_allocated bam al _)
      rintro ⟨bn', t', run', fails⟩
      rw [run] at run'
      cases run'
      exact fails outcome
    | some e =>
      have refused : blkGet cx bn t = (.err e, { t with tick := t.tick + 1 }) := by simp only [blkGet, outcome]
      refine wp_of_eq refused ?_
      have marked := al.marked
      refine dropped e _ bn ⟨bn, t, run, by rw [outcome]; simp⟩ ⟨_, outcome⟩ ⟨⟨?_, ?_, ?_⟩, al.data, al.free⟩
      · exact marked.ok.congr rfl fun _ _ => rfl
      · exact ⟨marked.frame.geo, marked.frame.fso, marked.frame.files, marked.frame.dev⟩
      · exact marked.used
  · exact fun t same _ run => failed _ t (none run) (.inl rfl) same
  · exact fun e t io same run => failed e t (none run) (.inr io) same

theorem imap_zero (d : Nat) : imap zero d = 0 := getLE_zero _ _

theorem imap_set_same (b : Mem) (d v : Nat) (small : v < 2 ^ 32) : imap (setLE b (4 * d) 4 v) d = v := by
  rw [imap, getLE_setLE_same]
  exact Nat.mod_eq_of_lt small

variable {d : Nat}

theorem imap_set_ne (b : Mem) (v : Nat) (ne : k ≠ d) : imap (setLE b (4 * d) 4 v) k = imap b k := by
  simp only [imap]
  exact getLE_setLE_ne _ _ _ _ _ _ (by omega)

structure TreeOk (s : Vol) (lev bn : Nat) : Prop where
  nodup : (mapNodes s.dev lev bn).Nodup
  data : ∀ b ∈ mapNodes s.dev lev bn, s.fs.geo.inData b ∧ used s b = true

structure Walked (s s' : Vol) (i lev bn log : Nat) (fresh : List Nat) : Prop where
  alloc : Alloc s s' i fresh (· ∈ mapInner s.dev lev bn)
  bmap : (s'.fso i).bmap = (s.fso i).bmap
  cached : (s'.fso i).bmapValid = (s.fso i).bmapValid ∧ (s'.fso i).bmapLog = (s.fso i).bmapLog ∧
    (s'.fso i).bmapPhys = (s.fso i).bmapPhys
  nodes : (mapNodes s'.dev lev bn).Perm (fresh ++ mapNodes s.dev lev bn)
  others : ∀ log', log' % 128 ^ lev ≠ log % 128 ^ lev →
    mapLeaf s'.dev lev bn log' = mapLeaf s.dev lev bn log'
  kept : mapLeaf s.dev lev bn log ≠ 0 → mapLeaf s'.dev lev bn log = mapLeaf s.dev lev bn log

variable {lev log : Nat}

theorem Walked.ofTick (w : Walked { s with tick := n } s' i lev bn log fresh) : Walked s s' i lev bn log fresh :=
  ⟨w.alloc.ofTick, w.bmap, w.cached, w.nodes, w.others, w.kept⟩

/-- The walk got to the end: a block that was missing is fresh and zeroed. -/
structure Reached (s s' : Vol) (lev bn log x : Nat) (fresh : List Nat) : Prop where
  leaf : mapLeaf s'.dev lev bn log = x
  pos : x ≠ 0
  new : mapLeaf s.dev lev bn log = 0 → x ∈ fresh ∧ s'.dev x = zero

theorem Alloc.keeps (a : Alloc s s' i fresh touch) (data : s.fs.geo.inData b)
    (inUse : Natfs.used s b = true) (apart : ¬ touch b) : s'.dev b = s.dev b := by
  refine a.dev b (data_not_bam (a.geo ▸ a.bam.geo) data) ?_ apart
  intro new
  rw [(a.free b new).2] at inUse
  exact absurd inUse (by decide)

theorem TreeOk.child (tree : TreeOk s (lev + 1) bn) (ne : bn ≠ 0)
    (lt : d < 128) : TreeOk s lev (imap (s.dev bn) d) := by
  have nodup := tree.nodup
  rw [mapNodes, Radix.nodes_succ ne, nodup_cons] at nodup
  refine ⟨(nodup_flatMap.mp nodup.2).1 d (mem_range.mpr lt), ?_⟩
  intro b mem
  apply tree.data
  rw [mapNodes, Radix.nodes_succ ne]
  exact mem_cons_of_mem _ (mem_flatMap.mpr ⟨d, mem_range.mpr lt, mem⟩)

theorem walked_still (tree : TreeOk s lev bn) (alloc : Alloc s s' i [] fun _ => False) (fso : s'.fso i = s.fso i) :
    Walked s s' i lev bn log [] := by
  have same : ∀ b ∈ mapInner s.dev lev bn, s'.dev b = s.dev b := by
    intro b mem
    obtain ⟨data, inUse⟩ := tree.data b (Radix.inner_subset_nodes _ _ mem)
    exact alloc.keeps data inUse id
  obtain ⟨nodes, _, leaves⟩ := Radix.tree_congr same
  refine ⟨alloc.weaken (fun _ h => h.elim), by rw [fso], by rw [fso]; exact ⟨rfl, rfl, rfl⟩, ?_, ?_, ?_⟩
  · rw [nil_append, mapNodes, nodes]
  · intro log' _
    exact leaves log' (by decide)
  · intro _
    exact leaves log (by decide)

theorem TreeOk.apart (tree : TreeOk s (lev + 1) bn) (ne : bn ≠ 0)
    (lt : d < 128) : bn ∉ mapNodes s.dev lev (imap (s.dev bn) d) ∧
      ∀ k, k < 128 → k ≠ d → ∀ b ∈ mapNodes s.dev lev (imap (s.dev bn) k),
        b ∉ mapNodes s.dev lev (imap (s.dev bn) d) := by
  have nodup := tree.nodup
  rw [mapNodes, Radix.nodes_succ ne, nodup_cons] at nodup
  refine ⟨?_, ?_⟩
  · intro mem
    exact nodup.1 (mem_flatMap.mpr ⟨d, mem_range.mpr lt, mem⟩)
  · intro k kn differ b mem
    exact Radix.range_disjoint nodup.2 kn lt differ mem

theorem TreeOk.self (tree : TreeOk s lev bn) (ne : bn ≠ 0) :
    s.fs.geo.inData bn ∧ used s bn = true := tree.data bn (Radix.self_mem_nodes ne)

theorem digit_or_rest (differ : log' % 128 ^ (lev + 1) ≠ log % 128 ^ (lev + 1)) :
    log' / 128 ^ lev % 128 ≠ log / 128 ^ lev % 128 ∨ log' % 128 ^ lev ≠ log % 128 ^ lev := by
  apply Classical.byContradiction
  intro same
  simp only [not_or, Decidable.not_not] at same
  apply differ
  rw [Nat.mod_pow_succ, Nat.mod_pow_succ, same.1, same.2]

section Child
variable {s s' : Vol} {i lev bn log : Nat} {fresh : List Nat}

theorem walked_child (ne : bn ≠ 0)
    (alloc : Alloc s s' i fresh (· ∈ mapInner s.dev (lev + 1) bn))
    (bmap : (s'.fso i).bmap = (s.fso i).bmap)
    (cached : (s'.fso i).bmapValid = (s.fso i).bmapValid ∧
      (s'.fso i).bmapLog = (s.fso i).bmapLog ∧ (s'.fso i).bmapPhys = (s.fso i).bmapPhys)
    (refs : ∀ k, k < 128 → k ≠ digit lev log → imap (s'.dev bn) k = imap (s.dev bn) k)
    (rest : ∀ k, k < 128 → k ≠ digit lev log →
      ∀ b ∈ mapInner s.dev lev (imap (s.dev bn) k), s'.dev b = s.dev b)
    (grow : (mapNodes s'.dev lev (imap (s'.dev bn) (digit lev log))).Perm
      (fresh ++ mapNodes s.dev lev (imap (s.dev bn) (digit lev log))))
    (others : ∀ log', log' % 128 ^ lev ≠ log % 128 ^ lev →
      mapLeaf s'.dev lev (imap (s'.dev bn) (digit lev log)) log' =
        mapLeaf s.dev lev (imap (s.dev bn) (digit lev log)) log')
    (kept : mapLeaf s.dev lev (imap (s.dev bn) (digit lev log)) log ≠ 0 →
      mapLeaf s'.dev lev (imap (s'.dev bn) (digit lev log)) log =
        mapLeaf s.dev lev (imap (s.dev bn) (digit lev log)) log) :
    Walked s s' i (lev + 1) bn log fresh := by
  refine ⟨alloc, bmap, cached, Radix.nodes_child ne refs rest (digit_lt lev log) grow, ?_, ?_⟩
  · intro log' differ
    by_cases same : log' / 128 ^ lev % 128 = digit lev log
    · rw [mapLeaf, mapLeaf, Radix.leaf_succ ne, Radix.leaf_succ ne, same]
      apply others
      rcases digit_or_rest differ with h | h
      · rw [← digit_eq lev log] at h
        exact absurd same h
      · exact h
    · exact Radix.leaf_other_child ne refs rest (by decide) same
  · rw [mapLeaf, mapLeaf, Radix.leaf_succ ne, Radix.leaf_succ ne, ← digit_eq]
    exact kept

theorem walked_below (tree : TreeOk s (lev + 1) bn) (ne : bn ≠ 0)
    (walk : Walked s s' i lev (imap (s.dev bn) (digit lev log)) log fresh) :
    Walked s s' i (lev + 1) bn log fresh ∧ s'.dev bn = s.dev bn := by
  have lt := digit_lt lev log
  obtain ⟨above, beside⟩ := tree.apart ne lt
  obtain ⟨data, inUse⟩ := tree.self ne
  have here : s'.dev bn = s.dev bn :=
    walk.alloc.keeps data inUse fun mem => above (Radix.inner_subset_nodes _ _ mem)
  have rest : ∀ k, k < 128 → k ≠ digit lev log →
      ∀ b ∈ mapInner s.dev lev (imap (s.dev bn) k), s'.dev b = s.dev b := by
    intro k kn differ b mem
    have node := Radix.inner_subset_nodes _ _ mem
    obtain ⟨data', inUse'⟩ := (tree.child ne kn).data b node
    exact walk.alloc.keeps data' inUse' fun mem' =>
      beside k kn differ b node (Radix.inner_subset_nodes _ _ mem')
  refine ⟨walked_child ne (walk.alloc.weaken ?_) walk.bmap walk.cached ?_ rest ?_ ?_ ?_, here⟩
  · intro b mem
    rw [mapInner, Radix.inner_succ ne]
    exact mem_cons_of_mem _ (mem_flatMap.mpr ⟨_, mem_range.mpr lt, mem⟩)
  · intro k _ _
    rw [here]
  · rw [here]
    exact walk.nodes
  · rw [here]
    exact walk.others
  · rw [here]
    exact walk.kept

variable {t : Vol} {nb : Nat}

theorem blank_tree (pos : nb ≠ 0) (blank : t.dev nb = zero) (lev : Nat) : mapNodes t.dev lev nb = [nb] :=
  Radix.tree_of_blank pos fun d _ => by rw [blank]; exact imap_zero d

/-- The fresh block `nb` is entry `d` of block `bn`, which belongs to object `i`. -/
structure Entered (s t : Vol) (i bn d nb : Nat) : Prop where
  alloc : Alloc s t i [nb] (· = bn)
  attrs : (t.fso i).bmap = (s.fso i).bmap ∧ (t.fso i).bmapValid = (s.fso i).bmapValid ∧
    (t.fso i).bmapLog = (s.fso i).bmapLog ∧ (t.fso i).bmapPhys = (s.fso i).bmapPhys
  blank : t.dev nb = zero
  entry : t.dev bn = setLE (s.dev bn) (4 * d) 4 nb

section Entered
variable {d : Nat} (e : Entered s t i bn d nb)
include e

theorem Entered.data : s.fs.geo.inData nb := (e.alloc.free nb (mem_singleton_self nb)).1

theorem Entered.pos : nb ≠ 0 := Nat.pos_iff_ne_zero.mp (data_pos (e.alloc.geo ▸ e.alloc.bam.geo) e.data)

theorem Entered.inUse : used t nb = true := by
  rw [e.alloc.used nb (data_covered (e.alloc.geo ▸ e.alloc.bam.geo) e.data)]
  simp

theorem Entered.single (lev : Nat) : mapNodes t.dev lev nb = [nb] := blank_tree e.pos e.blank lev

theorem Entered.tree (lev : Nat) : TreeOk t lev nb := by
  refine ⟨by rw [e.single]; exact nodup_singleton nb, ?_⟩
  intro b mem
  rw [e.single, mem_singleton] at mem
  rw [mem]
  exact ⟨e.alloc.geo ▸ e.data, e.inUse⟩

theorem Entered.leaf (deep : lev ≠ 0) (log : Nat) : mapLeaf t.dev lev nb log = 0 := by
  obtain ⟨lev, rfl⟩ := Nat.exists_eq_succ_of_ne_zero deep
  exact Radix.leaf_of_blank (by decide) e.pos (fun d _ => by rw [e.blank]; exact imap_zero d) log

end Entered

theorem walked_fresh (tree : TreeOk s (lev + 1) bn) (ne : bn ≠ 0) (empty : imap (s.dev bn) (digit lev log) = 0)
    (e : Entered s t i bn (digit lev log) nb) (walk : Walked t s' i lev nb log fresh) :
    Walked s s' i (lev + 1) bn log (fresh ++ [nb]) ∧ imap (s'.dev bn) (digit lev log) = nb := by
  obtain ⟨data, inUse⟩ := tree.self ne
  have first := e.alloc
  have newFree := (first.free nb (mem_singleton_self nb)).2
  have geo := first.geo
  have single := e.single lev
  have inUse₁ : ∀ b, s.fs.geo.inData b → used s b = true → used t b = true := by
    intro b inside h
    rw [first.used b (data_covered (geo ▸ first.bam.geo) inside), h, Bool.true_or]
  have differ : ∀ b, used s b = true → b ≠ nb := by
    intro b h eq
    rw [eq, newFree] at h
    exact absurd h (by decide)
  have untouched : ∀ b, used s b = true → b ∉ mapInner t.dev lev nb := by
    intro b h mem
    have node := Radix.inner_subset_nodes _ _ mem
    rw [show Radix.nodes imap 128 t.dev lev nb = [nb] from single, mem_singleton] at node
    exact differ b h node
  have here : s'.dev bn = t.dev bn :=
    walk.alloc.keeps (geo ▸ data) (inUse₁ bn data inUse) (untouched bn inUse)
  have leads : imap (s'.dev bn) (digit lev log) = nb := by
    rw [here, e.entry]
    exact imap_set_same _ _ _ (data_fits (geo ▸ first.bam.geo) e.data)
  have rest : ∀ k, k < 128 → k ≠ digit lev log →
      ∀ b ∈ mapInner s.dev lev (imap (s.dev bn) k), s'.dev b = s.dev b := by
    intro k kn _ b mem
    have node := Radix.inner_subset_nodes _ _ mem
    obtain ⟨data', used'⟩ := (tree.child ne kn).data b node
    have apart : b ≠ bn := by
      intro eq
      exact (tree.apart ne kn).1 (eq ▸ node)
    rw [walk.alloc.keeps (geo ▸ data') (inUse₁ b data' used') (untouched b used'),
      first.keeps data' used' apart]
  have composed : Alloc s s' i (fresh ++ [nb]) (· = bn) := by
    apply first.trans walk.alloc
    intro x mem
    have node := Radix.inner_subset_nodes _ _ mem
    rw [show Radix.nodes imap 128 t.dev lev nb = [nb] from single] at node
    exact .inr node
  refine ⟨walked_child ne (composed.weaken ?_) (walk.bmap.trans e.attrs.1) ?_ ?_ rest ?_ ?_ ?_, leads⟩
  · intro x eq
    rw [eq, mapInner, Radix.inner_succ ne]
    exact mem_cons_self ..
  · obtain ⟨valid, log', phys⟩ := walk.cached
    exact ⟨valid.trans e.attrs.2.1, log'.trans e.attrs.2.2.1, phys.trans e.attrs.2.2.2⟩
  · intro k kn other
    rw [here, e.entry]
    exact imap_set_ne _ _ other
  · rw [leads, empty, mapNodes, mapNodes, Radix.nodes_zero, append_nil, ← single]
    exact walk.nodes
  · intro log' other
    rw [leads, walk.others log' other, empty, mapLeaf, mapLeaf, Radix.leaf_zero]
    cases lev with
    | zero => exact absurd (by simp [Nat.mod_one]) other
    | succ lev => exact e.leaf (Nat.succ_ne_zero lev) _
  · intro found
    rw [empty, mapLeaf, Radix.leaf_zero] at found
    exact absurd rfl found

theorem reached_fresh (e : Entered s t i bn d nb) (walk : Walked t s' i lev nb log fresh)
    (reach : Reached t s' lev nb log x fresh) : x ∈ fresh ++ [nb] ∧ s'.dev x = zero := by
  have single := e.single lev
  by_cases missing : mapLeaf t.dev lev nb log = 0
  · obtain ⟨mem, empty⟩ := reach.new missing
    exact ⟨mem_append_left _ mem, empty⟩
  · have node := Radix.leaf_mem_nodes (by decide) missing
    rw [show Radix.nodes imap 128 t.dev lev nb = [nb] from single, mem_singleton] at node
    have last := Radix.leaf_not_inner (by decide) (by
      rw [show Radix.nodes imap 128 t.dev lev nb = [nb] from single]
      exact nodup_singleton nb) missing
    have same : x = nb := by rw [← reach.leaf, walk.kept missing]; exact node
    rw [node] at last
    rw [same]
    refine ⟨by simp, ?_⟩
    rw [walk.alloc.keeps (e.alloc.geo ▸ e.data) e.inUse last]
    exact e.blank

end Child

theorem SameMap.alloc (i : Nat) (same : SameMap s s') (bam : BamOk s) : Alloc s s' i [] fun _ => False := by
  have frame := same.frame
  refine ⟨same.ok bam, frame.geo, frame.files, ?_, ?_, ?_, ?_, nodup_nil,
    fun b out _ _ => frame.dev b out, ?_, ?_⟩
  · intro j _
    rw [frame.fso]
  · rw [frame.fso]
    exact .refl _
  · intro b lt
    rw [same.used bam.geo.bamPos b lt]
    simp
  · intro b mem
    cases mem
  · intro room
    rw [frame.fso]
    exact (Nat.mod_eq_of_lt room).symm
  · rw [frame.fso]
    simp

/-- A fresh block has been entered in block `bn`, which belongs to object `i`. -/
def entered (t : Vol) (i bn d nb : Nat) : Vol :=
  (t.setDev bn (setLE (t.dev bn) (4 * d) 4 nb)).setFso i
    { t.fso i with blocks := ((t.fso i).blocks + 1) % 2 ^ 32, dirty := true }

theorem Blank.entered (blank : Blank s t nb) (inside : s.fs.geo.inData bn) :
    Alloc s (entered t i bn d nb) i [nb] (· = bn) := by
  obtain ⟨bam, geo, files, fso, bits, data, free, _, dev⟩ := blank
  have apart : ¬ s.fs.geo.inBam bn := data_not_bam (geo ▸ bam.geo) inside
  have map : ∀ x, t.fs.geo.inBam x → (Natfs.entered t i bn d nb).dev x = t.dev x := by
    intro x at'
    exact update_ne _ _ _ (by intro eq; rw [geo, eq] at at'; exact apart at')
  refine ⟨bam.congr rfl map, geo, files, ?_, ?_, ?_, ?_, nodup_singleton nb, ?_, ?_, ?_⟩
  · intro j ne
    rw [← fso]
    exact update_ne _ _ _ ne
  · simp only [Natfs.entered, Vol.setFso, update_same, fso]
    exact ⟨rfl, rfl, rfl, rfl, rfl, rfl⟩
  · intro b lt
    have moved : Natfs.used (Natfs.entered t i bn d nb) b = Natfs.used t b := by
      refine used_congr ?_ ?_ ?_ (by rw [geo]; exact lt) map
      · rfl
      · rfl
      · rfl
    rw [moved, bits b lt]
    simp
  · intro b mem
    rw [mem_singleton.mp mem]
    exact ⟨data, free⟩
  · intro b out new old
    rw [← dev b out (by simpa using new)]
    exact update_ne _ _ _ old
  · intro _
    simp only [Natfs.entered, Vol.setFso, update_same, fso]
    rfl
  · simp [Natfs.entered, Vol.setFso]

theorem Blank.enters (blank : Blank s t nb) (tree : TreeOk s (lev + 1) bn) (ne : bn ≠ 0) :
    Entered s (Natfs.entered t i bn d nb) i bn d nb := by
  obtain ⟨data, inUse⟩ := tree.self ne
  have apart : nb ≠ bn := by
    intro eq
    rw [← eq] at inUse
    exact absurd (inUse.symm.trans blank.free) (by decide)
  refine ⟨blank.entered data, ?_, ?_, ?_⟩
  · simp only [Natfs.entered, Vol.setFso, update_same, blank.fso, and_self]
  · rw [← blank.zeroed]
    exact update_ne _ _ _ apart
  · rw [← blank.dev bn (data_not_bam (blank.geo ▸ blank.bam.geo) data) apart.symm]
    exact update_same _ _ _

theorem Entered.ofTick (e : Entered { s with tick := n } t i bn d nb) : Entered s t i bn d nb :=
  ⟨e.alloc.ofTick, e.attrs, e.blank, e.entry⟩

def WalkAsks (P : Vol → Prop) (cx : Cx) (i log : Nat) : Nat → Nat → Vol → Prop
  | 0, _, _ => False
  | lev + 1, bn, s => bn ≠ 0 ∧ ∃ b t, blkRead cx bn s = (.ok b, t) ∧
      (imap b (digit lev log) ≠ 0 ∧ WalkAsks P cx i log lev (imap b (digit lev log)) t ∨
        imap b (digit lev log) = 0 ∧ (P t ∨ ∃ nb u, newBlock cx t = (.ok nb, u) ∧
          WalkAsks P cx i log lev nb (entered u i bn (digit lev log) nb)))

section Asks
variable {P : Vol → Prop} {cx : Cx} {s t : Vol} {i log lev bn : Nat} {b : Mem}

theorem not_walkAsks (never : ∀ t, ¬ P t) : ∀ {bn : Nat} {s : Vol}, ¬ WalkAsks P cx i log lev bn s := by
  induction lev with
  | zero => exact fun asks => asks
  | succ lev ih =>
    rintro bn s ⟨_, b, t, _, ⟨_, below⟩ | ⟨_, here | ⟨nb, u, _, below⟩⟩⟩
    · exact ih below
    · exact never t here
    · exact ih below

theorem walkAsks_unread (read : blkRead cx bn s = (.err e, t)) :
    ¬ WalkAsks P cx i log (lev + 1) bn s := by
  rintro ⟨_, b, t', read', _⟩
  rw [read] at read'
  cases read'

theorem walkAsks_below (ne : bn ≠ 0) (read : blkRead cx bn s = (.ok b, t)) (found : imap b (digit lev log) ≠ 0) :
    WalkAsks P cx i log (lev + 1) bn s ↔ WalkAsks P cx i log lev (imap b (digit lev log)) t := by
  constructor
  · rintro ⟨_, b', t', read', ⟨_, below⟩ | ⟨none, _⟩⟩ <;> rw [read] at read' <;> cases read'
    · exact below
    · exact absurd none found
  · exact fun below => ⟨ne, b, t, read, .inl ⟨found, below⟩⟩

theorem walkAsks_here (ne : bn ≠ 0) (read : blkRead cx bn s = (.ok b, t)) (none : imap b (digit lev log) = 0) :
    WalkAsks P cx i log (lev + 1) bn s ↔ P t ∨ ∃ nb u, newBlock cx t = (.ok nb, u) ∧
      WalkAsks P cx i log lev nb (entered u i bn (digit lev log) nb) := by
  constructor
  · rintro ⟨_, b', t', read', ⟨found, _⟩ | ⟨_, asks⟩⟩ <;> rw [read] at read' <;> cases read'
    · exact absurd none found
    · exact asks
  · exact fun asks => ⟨ne, b, t, read, .inr ⟨none, asks⟩⟩

end Asks

/-- What the walk does when it loses no changes of the map, whichever requests fail: up to the end or to
    the failure the tree has grown, and a fresh block that could not be had is left over. -/
theorem wp_natBmapWalk {cx : Cx} (i log : Nat) (lev : Nat) :
    ∀ (bn : Nat) {s : Vol}, BamOk s → bn ≠ 0 → TreeOk s lev bn →
    ¬ WalkAsks (BallocLoses cx) cx i log lev bn s → ∀ {Q : Res Errno Nat → Vol → Prop},
    (∀ s' x fresh, ¬ WalkAsks (Drops cx) cx i log lev bn s → Walked s s' i lev bn log fresh →
      Reached s s' lev bn log x fresh → Q (.ok x) s') →
    (∀ e s' fresh, ¬ WalkAsks (Drops cx) cx i log lev bn s → e = .ENOSPC ∨ cx.IoError e → lev ≠ 0 →
      Walked s s' i lev bn log fresh → (mapLeaf s.dev lev bn log = 0 → mapLeaf s'.dev lev bn log = 0) →
      Q (.err e) s') →
    (∀ e t s' fresh b, WalkAsks (Drops cx) cx i log lev bn s → cx.IoError e → lev ≠ 0 →
      Walked s t i lev bn log fresh → (mapLeaf s.dev lev bn log = 0 → mapLeaf t.dev lev bn log = 0) →
      Spilled t s' b → Q (.err e) s') → wp (natBmapWalk cx i log true lev bn) Q s := by
  induction lev with
  | zero =>
    intro bn s bam ne tree _ Q done _ _
    refine done s bn [] id (walked_still tree (.refl bam i s.tick _) rfl) ⟨rfl, ne, ?_⟩
    intro missing
    exact absurd missing ne
  | succ lev ih =>
    intro bn s bam ne tree kept Q done failed dropped
    have lt := digit_lt lev log
    have deep : lev + 1 ≠ 0 := Nat.succ_ne_zero lev
    simp only [natBmapWalk, if_neg ne, wp_bind]
    have bam₁ : BamOk { s with tick := s.tick + 1 } := ⟨bam.geo, bam.clean, bam.dirty, bam.outside⟩
    apply wp_run
    apply wp_blkRead_any
    · intro read
      rw [after_ok]
      by_cases empty : imap (s.dev bn) (digit lev log) = 0
      · have drops := walkAsks_here (P := Drops cx) (i := i) ne read empty
        rw [walkAsks_here ne read empty, not_or] at kept
        rw [if_neg (by simpa using empty)]
        simp only [if_true, wp_bind]
        apply wp_run
        apply wp_newBlock bam₁ kept.1
        · intro t nb unspilled blank run
          simp only [after_ok, wp_bind, wp_modify, modifyFso]
          have entry : Entered s (entered t i bn (digit lev log) nb) i bn (digit lev log) nb :=
            (blank.enters ⟨tree.nodup, tree.data⟩ ne).ofTick
          have goOn : WalkAsks (Drops cx) cx i log (lev + 1) bn s ↔
              WalkAsks (Drops cx) cx i log lev nb (entered t i bn (digit lev log) nb) := by
            rw [drops]
            constructor
            · rintro (here | ⟨nb', u, run', rest⟩)
              · exact absurd here unspilled
              · rw [run] at run'
                cases run'
                exact rest
            · exact fun rest => .inr ⟨nb, t, run, rest⟩
          rw [goOn] at done failed dropped
          have follow : ∀ {u : Vol}, imap (u.dev bn) (digit lev log) = nb →
              mapLeaf u.dev (lev + 1) bn log = mapLeaf u.dev lev nb log := by
            intro u leads
            rw [mapLeaf, Radix.leaf_succ ne, ← digit_eq, leads]
          apply ih nb entry.alloc.bam entry.pos (entry.tree lev) fun loses => kept.2 ⟨nb, t, run, loses⟩
          · intro s' x fresh clear walk reach
            obtain ⟨walk', leads⟩ := walked_fresh tree ne empty entry walk
            refine done s' x _ clear walk' ⟨(follow leads).trans reach.leaf, reach.pos, ?_⟩
            intro _
            exact reached_fresh entry walk reach
          · intro e s' fresh clear why some walk missing
            obtain ⟨walk', leads⟩ := walked_fresh tree ne empty entry walk
            exact failed e s' _ clear why deep walk' fun _ => (follow leads).trans (missing (entry.leaf some log))
          · intro e u s' fresh b spills io some walk missing spilled
            obtain ⟨walk', leads⟩ := walked_fresh tree ne empty entry walk
            exact dropped e u s' _ b spills io deep walk'
              (fun _ => (follow leads).trans (missing (entry.leaf some log))) spilled
        · intro e s' unspilled why same run
          have still : Alloc s s' i [] fun _ => False := (same.alloc i bam₁).ofTick
          have here : s'.dev bn = s.dev bn := still.keeps (tree.self ne).1 (tree.self ne).2 id
          refine failed e s' [] ?_ why deep (walked_still tree still (by rw [same.frame.fso])) ?_
          · rw [drops]
            rintro (spills | ⟨nb, u, run', _⟩)
            · exact unspilled spills
            · rw [run] at run'
              cases run'
          · intro _
            rw [mapLeaf, Radix.leaf_succ ne, ← digit_eq, here, empty, Radix.leaf_zero]
        · intro e s' b spills io spilled _
          exact dropped e _ s' [] b (drops.mpr (.inl spills)) io deep
            (walked_still tree (.refl bam i (s.tick + 1) _) rfl) (fun missing => missing) spilled
      · rw [if_pos empty]
        have drops := walkAsks_below (P := Drops cx) (i := i) ne read empty
        rw [drops] at done failed dropped
        rw [walkAsks_below ne read empty] at kept
        have above : ∀ u : Vol, u.dev bn = s.dev bn →
            mapLeaf u.dev (lev + 1) bn log = mapLeaf u.dev lev (imap (s.dev bn) (digit lev log)) log := by
          intro u here
          rw [mapLeaf, Radix.leaf_succ ne, ← digit_eq, here]
        refine ih _ bam₁ empty ⟨(tree.child ne lt).nodup, (tree.child ne lt).data⟩ kept ?_ ?_ ?_
        · intro s' x fresh clear walk reach
          obtain ⟨walk', here⟩ := walked_below tree ne walk.ofTick
          refine done s' x fresh clear walk' ⟨(above s' here).trans reach.leaf, reach.pos, ?_⟩
          rw [above s rfl]
          exact reach.new
        · intro e s' fresh clear why _ walk missing
          obtain ⟨walk', here⟩ := walked_below tree ne walk.ofTick
          refine failed e s' fresh clear why deep walk' ?_
          rw [above s rfl, above s' here]
          exact missing
        · intro e u s' fresh b spills io _ walk missing spilled
          obtain ⟨walk', here⟩ := walked_below tree ne walk.ofTick
          refine dropped e u s' fresh b spills io deep walk' ?_ spilled
          rw [above s rfl, above u here]
          exact missing
    · intro e io read
      refine failed e _ [] (walkAsks_unread read) (.inr io) deep
        (walked_still tree (.refl bam i (s.tick + 1) _) rfl) fun missing => missing

end Natfs
