import Newsys.Natfs.Extend

/- `nat_trunc` (kern/fs/nat/bmap.c): all blocks of the trees of a file are given back. -/
namespace Natfs
open Bytes Cmds Cmd List

/-- The blocks in `gone` have been given back; apart from the map nothing has changed. -/
structure Freed (s s' : Vol) (gone : Nat → Prop) : Prop where
  ok : BamOk s'
  frame : BamFrame s s'
  used : ∀ b, b < 4096 * s.fs.geo.bamSize → (used s' b = true ↔ used s b = true ∧ ¬ gone b)

variable {s s' : Vol}

theorem Freed.none (ok : BamOk s') (frame : BamFrame s s')
    (same : ∀ b, b < 4096 * s.fs.geo.bamSize → Natfs.used s' b = Natfs.used s b) : Freed s s' fun _ => False :=
  ⟨ok, frame, fun b lt => by rw [same b lt]; exact ⟨fun h => ⟨h, id⟩, And.left⟩⟩

theorem Freed.tick (ok : BamOk s) (n : Nat) : Freed s { s with tick := n } fun _ => False :=
  .none ⟨ok.geo, ok.clean, ok.dirty, ok.outside⟩ ⟨rfl, rfl, rfl, fun _ _ => rfl⟩ fun _ _ => rfl

variable {bn : Nat}

theorem Freed.of_marked (m : Marked s s' bn false) : Freed s s' (· = bn) := by
  refine ⟨m.ok, m.frame, ?_⟩
  intro b lt
  rw [m.used b lt]
  split
  · rename_i eq
    simp [eq]
  · rename_i ne
    simp [ne]

variable {t : Vol}

variable {gone : Nat → Prop}

theorem Freed.trans (a : Freed s t gone) (b : Freed t u gone') : Freed s u fun x => gone x ∨ gone' x := by
  refine ⟨b.ok, a.frame.trans b.frame, ?_⟩
  intro x lt
  rw [b.used x (by rw [a.frame.geo]; exact lt), a.used x lt, and_assoc, not_or]

theorem Freed.congr (a : Freed s t gone) (same : ∀ b, gone b ↔ gone' b) : Freed s t gone' :=
  ⟨a.ok, a.frame, fun b lt => by rw [a.used b lt, same b]⟩

theorem Freed.dev (a : Freed s t gone) (inside : s.fs.geo.inData b) : t.dev b = s.dev b :=
  a.frame.dev b (data_not_bam (a.frame.geo ▸ a.ok.geo) inside)

variable {lev : Nat}

theorem Freed.nodes (a : Freed s t gone)
    (inside : ∀ b ∈ mapNodes s.dev lev bn, s.fs.geo.inData b) : mapNodes t.dev lev bn = mapNodes s.dev lev bn := by
  have inner : ∀ b ∈ mapInner s.dev lev bn, t.dev b = s.dev b := fun b mem =>
    a.dev (inside b (Radix.inner_subset_nodes _ _ mem))
  exact (Radix.tree_congr inner).1

/-- What `nat_trunc_indir` gives back: everything below the entries `ds` of block `bn`. -/
def below (dev : Image) (lev bn : Nat) (ds : List Nat) (b : Nat) : Prop :=
  ∃ d ∈ ds, b ∈ mapNodes dev lev (imap (dev bn) d)

/-- What is expected of the levels below: all blocks of the tree but its root are given back. -/
def Frees (lev : Nat) (f : Nat → NatM (Option Errno)) : Prop :=
  ∀ (s : Vol) (bn : Nat) (Q : Res Errno (Option Errno) → Vol → Prop), BamOk s → bn ≠ 0 →
    (mapNodes s.dev lev bn).Nodup → (∀ b ∈ mapNodes s.dev lev bn, s.fs.geo.inData b) →
    (∀ s' e, Freed s s' (fun b => b ∈ mapNodes s.dev lev bn ∧ b ≠ bn) → Q (.ok e) s') →
    wp (f bn) Q s

variable {cx : Cx}

theorem wp_truncEntries (noio : cx.NoIoError) {sub : Option (Nat → NatM (Option Errno))}
    (frees : sub = none ∧ lev = 0 ∨ ∃ f, sub = some f ∧ Frees lev f) (ds : List Nat) :
    ∀ {s : Vol} {err : Option Errno}, BamOk s → s.fs.geo.inData bn →
    (∀ d ∈ ds, (mapNodes s.dev lev (imap (s.dev bn) d)).Nodup) →
    (∀ d ∈ ds, ∀ b ∈ mapNodes s.dev lev (imap (s.dev bn) d), s.fs.geo.inData b) →
    ∀ {Q : Res Errno (Option Errno) → Vol → Prop},
    (∀ s' e, Freed s s' (below s.dev lev bn ds) → Q (.ok e) s') → wp (truncEntries cx bn sub ds err) Q s := by
  induction ds with
  | nil =>
    intro s err ok _ _ _ Q post
    apply post
    exact (Freed.tick ok s.tick).congr fun b => by simp [below]
  | cons d ds ih =>
    intro s err ok inside nodup data Q post
    have dataRest : ∀ x ∈ ds, ∀ b ∈ mapNodes s.dev lev (imap (s.dev bn) x), s.fs.geo.inData b :=
      fun x mem => data x (mem_cons_of_mem _ mem)
    -- the entries still to come are as they were after some blocks have been given back
    have rest : ∀ {t : Vol} {err : Option Errno}, Freed s t
        (· ∈ mapNodes s.dev lev (imap (s.dev bn) d)) → wp (truncEntries cx bn sub ds err) Q t := by
      intro t err freed
      have geo := freed.frame.geo
      have here := freed.dev inside
      have trees : ∀ x ∈ ds, mapNodes t.dev lev (imap (s.dev bn) x) =
          mapNodes s.dev lev (imap (s.dev bn) x) := fun x mem => freed.nodes (dataRest x mem)
      apply ih freed.ok (geo ▸ inside)
      · intro x mem
        rw [here, trees x mem]
        exact nodup x (mem_cons_of_mem _ mem)
      · intro x mem b node
        rw [here, trees x mem] at node
        rw [geo]
        exact dataRest x mem b node
      · intro s' e later
        apply post
        refine (freed.trans later).congr ?_
        intro b
        simp only [below, mem_cons, exists_eq_or_imp, here]
        refine or_congr_right ⟨?_, ?_⟩
        · rintro ⟨x, mem, node⟩
          exact ⟨x, mem, trees x mem ▸ node⟩
        · rintro ⟨x, mem, node⟩
          exact ⟨x, mem, (trees x mem).symm ▸ node⟩
    simp only [truncEntries, wp_bind, wp_get, after_ok]
    by_cases empty : imap (s.dev bn) d = 0
    · rw [if_pos empty]
      apply rest
      refine (Freed.tick ok s.tick).congr fun b => ?_
      simp [empty, mapNodes]
    · rw [if_neg empty]
      have top := data d (mem_cons_self ..)
      have last : ∀ {t : Vol} {e : Option Errno}, Freed s t
          (fun b => b ∈ mapNodes s.dev lev (imap (s.dev bn) d) ∧ b ≠ imap (s.dev bn) d) →
          wp (attempt (natBfree cx (imap (s.dev bn) d)) >>= fun err1 =>
            truncEntries cx bn sub ds (firstErr e (errOf err1))) Q t := by
        intro t e freed
        have self := top _ (Radix.self_mem_nodes empty)
        simp only [wp_bind, wp_attempt]
        apply wp_natBfree noio freed.ok (freed.frame.geo ▸ self)
        intro t' marked
        simp only [caught_ok, after_ok]
        apply rest
        refine (freed.trans (Freed.of_marked marked)).congr ?_
        intro b
        constructor
        · rintro (deep | eq)
          · exact deep.1
          · rw [eq]
            exact Radix.self_mem_nodes empty
        · intro mem
          by_cases eq : b = imap (s.dev bn) d
          · exact .inr eq
          · exact .inl ⟨mem, eq⟩
      rcases frees with ⟨none, flat⟩ | ⟨f, some, run⟩
      · subst none flat
        apply last
        refine (Freed.tick ok s.tick).congr fun b => ?_
        simp [mapNodes, Radix.nodes, empty]
      · subst some
        simp only [wp_bind, wp_attempt]
        apply run s _ _ ok empty (nodup d (mem_cons_self ..)) top
        intro t e freed
        simp only [caught_ok, after_ok]
        exact last freed

theorem wp_truncBlock (noio : cx.NoIoError)
    {sub : Option (Nat → NatM (Option Errno))} {Q : Res Errno (Option Errno) → Vol → Prop}
    (frees : sub = none ∧ lev = 0 ∨ ∃ f, sub = some f ∧ Frees lev f) (ok : BamOk s) (ne : bn ≠ 0)
    (nodup : (mapNodes s.dev (lev + 1) bn).Nodup) (data : ∀ b ∈ mapNodes s.dev (lev + 1) bn, s.fs.geo.inData b)
    (post : ∀ s' e, Freed s s' (fun b => b ∈ mapNodes s.dev (lev + 1) bn ∧ b ≠ bn) → Q (.ok e) s') :
    wp (truncEntries cx bn sub (range 128) none) Q { s with tick := s.tick + 1 } := by
  have first := Freed.tick ok (s.tick + 1)
  rw [mapNodes, Radix.nodes_succ ne, nodup_cons] at nodup
  have member : ∀ {b d}, d ∈ range 128 → b ∈ mapNodes s.dev lev (imap (s.dev bn) d) →
      b ∈ mapNodes s.dev (lev + 1) bn := by
    intro b d mem node
    rw [mapNodes, Radix.nodes_succ ne]
    exact mem_cons_of_mem _ (mem_flatMap.mpr ⟨d, mem, node⟩)
  apply wp_truncEntries noio frees
  · exact first.ok
  · exact data bn (Radix.self_mem_nodes ne)
  · exact fun d mem => (nodup_flatMap.mp nodup.2).1 d mem
  · exact fun d mem b node => data b (member mem node)
  · intro s' e freed
    apply post
    refine (first.trans freed).congr ?_
    intro b
    simp only [false_or, below]
    constructor
    · rintro ⟨d, mem, node⟩
      refine ⟨member mem node, ?_⟩
      rintro rfl
      exact nodup.1 (mem_flatMap.mpr ⟨d, mem, node⟩)
    · rintro ⟨node, differ⟩
      rw [mapNodes, Radix.nodes_succ ne] at node
      rcases mem_cons.mp node with eq | deep
      · exact absurd eq differ
      · exact mem_flatMap.mp deep

theorem frees_natTruncIndir (noio : cx.NoIoError) (lev : Nat) : Frees (lev + 1) (natTruncIndir cx lev) := by
  induction lev with
  | zero =>
    intro s bn Q ok ne nodup data post
    simp only [natTruncIndir, wp_bind, wp_blkRead noio, after_ok]
    exact wp_truncBlock noio (.inl ⟨rfl, rfl⟩) ok ne nodup data post
  | succ lev ih =>
    intro s bn Q ok ne nodup data post
    simp only [natTruncIndir, wp_bind, wp_blkRead noio, after_ok]
    exact wp_truncBlock noio (.inr ⟨_, rfl, ih⟩) ok ne nodup data post

/-- The entries `ks` of the block map have been emptied and what they referred to given back. -/
structure Emptied (s s' : Vol) (i : Nat) (ks : List Nat) : Prop where
  ok : BamOk s'
  geo : s'.fs.geo = s.fs.geo
  files : s'.files = s.files
  other : ∀ j, j ≠ i → s'.fso j = s.fso j
  self : s'.fso i = { s.fso i with bmap := fun k => if k ∈ ks then 0 else (s.fso i).bmap k }
  dev : ∀ b, ¬ s.fs.geo.inBam b → s'.dev b = s.dev b
  used : ∀ b, b < 4096 * s.fs.geo.bamSize → (used s' b = true ↔ used s b = true ∧
    ¬ ∃ k ∈ ks, b ∈ mapNodes s.dev ((s.fso i).hdr.level k) ((s.fso i).bmap k))

variable {i : Nat}

variable {Q : Res Errno Unit → Vol → Prop}

theorem wp_truncSlot (noio : cx.NoIoError) (ok : BamOk s) (levels : 1 ≤ (s.fso i).nindirlev)
    (nodup : (mapNodes s.dev ((s.fso i).hdr.level k) ((s.fso i).bmap k)).Nodup)
    (data : ∀ b ∈ mapNodes s.dev ((s.fso i).hdr.level k) ((s.fso i).bmap k), s.fs.geo.inData b)
    (post : ∀ s', Emptied s s' i [k] → Q (.ok ()) s') : wp (truncSlot cx i (s.fso i).nindirlev k) Q s := by
  simp only [truncSlot, wp_bind, wp_get, after_ok]
  by_cases empty : (s.fso i).bmap k = 0
  · rw [if_pos empty, wp_pure]
    apply post
    refine ⟨ok, rfl, rfl, fun _ _ => rfl, ?_, fun _ _ => rfl, ?_⟩
    · have same : (fun x => if x ∈ [k] then 0 else (s.fso i).bmap x) = (s.fso i).bmap := by
        funext x
        by_cases eq : x = k
        · simp [eq, empty]
        · simp [eq]
      rw [same]
    · intro b _
      simp [empty, mapNodes]
  · rw [if_neg empty]
    have last : ∀ {t : Vol}, Freed s t (fun b => b ∈ mapNodes s.dev ((s.fso i).hdr.level k)
        ((s.fso i).bmap k) ∧ b ≠ (s.fso i).bmap k) →
        wp (attempt (natBfree cx ((s.fso i).bmap k)) >>= fun _ =>
          modifyFso i fun f => { f with bmap := update f.bmap k 0 }) Q t := by
      intro t freed
      simp only [wp_bind, wp_attempt]
      apply wp_natBfree noio freed.ok (freed.frame.geo ▸ data _ (Radix.self_mem_nodes empty))
      intro t' marked
      simp only [caught_ok, after_ok, modifyFso, wp_modify]
      have all := freed.trans (Freed.of_marked marked)
      apply post
      refine ⟨all.ok.congr rfl fun _ _ => rfl, all.frame.geo, all.frame.files, ?_, ?_, all.frame.dev, ?_⟩
      · intro j ne
        rw [← all.frame.fso]
        exact update_ne _ _ _ ne
      · simp only [Vol.setFso, update_same, all.frame.fso]
        congr 1
        funext x
        by_cases eq : x = k
        · simp [eq]
        · simp [eq, update_ne]
      · intro b lt
        refine (all.used b lt).trans (and_congr_right fun _ => not_congr ?_)
        simp only [mem_singleton, exists_eq_left]
        constructor
        · rintro (deep | eq)
          · exact deep.1
          · rw [eq]
            exact Radix.self_mem_nodes empty
        · intro mem
          by_cases eq : b = (s.fso i).bmap k
          · exact .inr eq
          · exact .inl ⟨mem, eq⟩
    by_cases indirect : (s.fso i).ndirblks ≤ k
    · rw [if_pos indirect]
      have deep : (s.fso i).hdr.level k = (s.fso i).nindirlev := if_neg (Nat.not_lt.mpr indirect)
      have level : (s.fso i).hdr.level k = (s.fso i).nindirlev - 1 + 1 := by omega
      rw [level] at nodup data last
      simp only [wp_bind, wp_attempt]
      apply frees_natTruncIndir noio _ s _ _ ok empty nodup data
      intro t e freed
      simp only [caught_ok, after_ok]
      exact last freed
    · rw [if_neg indirect]
      apply last
      refine (Freed.tick ok s.tick).congr fun b => ?_
      have level : (s.fso i).hdr.level k = 0 := if_pos (Nat.not_le.mp indirect)
      simp [level, mapNodes, Radix.nodes, empty]

theorem wp_truncSlots (noio : cx.NoIoError) (i : Nat) (ks : List Nat) :
    ∀ {s : Vol}, BamOk s → 1 ≤ (s.fso i).nindirlev → ks.Nodup →
    (∀ k ∈ ks, (mapNodes s.dev ((s.fso i).hdr.level k) ((s.fso i).bmap k)).Nodup) →
    (∀ k ∈ ks, ∀ b ∈ mapNodes s.dev ((s.fso i).hdr.level k) ((s.fso i).bmap k), s.fs.geo.inData b) →
    ∀ {Q : Res Errno Unit → Vol → Prop}, (∀ s', Emptied s s' i ks → Q (.ok ()) s') →
    wp (forEach ks (truncSlot cx i (s.fso i).nindirlev)) Q s := by
  induction ks with
  | nil =>
    intro s ok _ _ _ _ Q post
    apply post
    refine ⟨ok, rfl, rfl, fun _ _ => rfl, ?_, fun _ _ => rfl, ?_⟩
    · simp [forEach]
      rfl
    · intro b _
      simp [forEach]
      rfl
  | cons k ks ih =>
    intro s ok levels distinct nodup data Q post
    rw [nodup_cons] at distinct
    simp only [forEach, wp_bind]
    apply wp_truncSlot noio ok levels (nodup k (mem_cons_self ..)) (data k (mem_cons_self ..))
    intro t first
    simp only [after_ok]
    have level : ∀ x, (t.fso i).hdr.level x = (s.fso i).hdr.level x := by
      intro x
      rw [first.self]
      rfl
    have entry : ∀ x ∈ ks, (t.fso i).bmap x = (s.fso i).bmap x := by
      intro x mem
      rw [first.self]
      have ne : x ≠ k := by
        rintro rfl
        exact distinct.1 mem
      simp [ne]
    have nodes : ∀ x ∈ ks, mapNodes t.dev ((s.fso i).hdr.level x) ((s.fso i).bmap x) =
        mapNodes s.dev ((s.fso i).hdr.level x) ((s.fso i).bmap x) := by
      intro x mem
      have inner : ∀ b ∈ mapInner s.dev ((s.fso i).hdr.level x) ((s.fso i).bmap x),
          t.dev b = s.dev b := fun b node =>
        first.dev b (data_not_bam ok.geo
          (data x (mem_cons_of_mem _ mem) b (Radix.inner_subset_nodes _ _ node)))
      exact (Radix.tree_congr inner).1
    have indl : (t.fso i).nindirlev = (s.fso i).nindirlev := by rw [first.self]
    rw [← indl]
    apply ih first.ok (by rw [indl]; exact levels) distinct.2
    · intro x mem
      rw [level, entry x mem, nodes x mem]
      exact nodup x (mem_cons_of_mem _ mem)
    · intro x mem
      rw [level, entry x mem, nodes x mem, first.geo]
      exact data x (mem_cons_of_mem _ mem)
    · intro s' later
      apply post
      refine ⟨later.ok, later.geo.trans first.geo, later.files.trans first.files, ?_, ?_, ?_, ?_⟩
      · intro j ne
        rw [later.other j ne, first.other j ne]
      · have map : (fun x => if x ∈ ks then 0 else (t.fso i).bmap x) =
            fun x => if x ∈ k :: ks then 0 else (s.fso i).bmap x := by
          rw [first.self]
          funext x
          by_cases here : x = k
          · simp [here]
          · simp [here]
        rw [later.self, map, first.self]
      · intro b out
        rw [later.dev b (by rw [first.geo]; exact out), first.dev b out]
      · intro b lt
        rw [later.used b (by rw [first.geo]; exact lt), first.used b lt, and_assoc, ← not_or]
        refine and_congr_right fun _ => not_congr ?_
        simp only [mem_cons, exists_eq_or_imp, not_mem_nil, or_false, exists_eq_left]
        refine or_congr_right ⟨?_, ?_⟩
        · rintro ⟨x, mem, node⟩
          rw [level, entry x mem, nodes x mem] at node
          exact ⟨x, mem, node⟩
        · rintro ⟨x, mem, node⟩
          refine ⟨x, mem, ?_⟩
          rw [level, entry x mem, nodes x mem]
          exact node

structure Truncated (s s' : Vol) (i : Nat) : Prop where
  disk : Disk s'
  only : Only s s' i
  files : s'.files = s.files
  self : s'.fso i = { s.fso i with
    bmap := fun k => if k < 114 then 0 else (s.fso i).bmap k
    bmapValid := false, dirty := true, blocks := 1, size := 0 }

theorem Truncated.owned (t : Truncated s s' i) (ref : (s.fso i).refcnt ≠ 0) : (hdr s' i).owned s'.dev = [] := by
  rw [hdr_of_open (by rw [t.self]; exact ref), t.self]
  simp only [Hdr.owned, flatMap_eq_nil_iff, mem_range]
  intro k lt
  rw [Fso.hdr_bmap _ lt, mapNodes]
  simp only [if_pos lt, Radix.nodes_zero]

def truncated (t : Vol) (i : Nat) : Vol :=
  t.setFso i { t.fso i with bmapValid := false, dirty := true, blocks := 1, size := 0 }

/-- The entries `ks` of the block map have been emptied, and blocks of the file given back at most. -/
structure Cleared (s s' : Vol) (i : Nat) (ks : List Nat) : Prop where
  ok : BamOk s'
  geo : s'.fs.geo = s.fs.geo
  files : s'.files = s.files
  other : ∀ j, j ≠ i → s'.fso j = s.fso j
  self : s'.fso i = { s.fso i with bmap := fun k => if k ∈ ks then 0 else (s.fso i).bmap k }
  dev : ∀ b, ¬ s.fs.geo.inBam b → s'.dev b = s.dev b
  still : ∀ b, b < 4096 * s.fs.geo.bamSize → used s b = true → b ∉ (s.fso i).hdr.owned s.dev → used s' b = true

theorem Emptied.cleared (emptied : Emptied s t i (range 114)) : Cleared s t i (range 114) := by
  refine ⟨emptied.ok, emptied.geo, emptied.files, emptied.other, emptied.self, emptied.dev, ?_⟩
  -- only blocks below the entries of the block map were given back
  intro b lt inUse apart
  refine (emptied.used b lt).mpr ⟨inUse, ?_⟩
  rintro ⟨k, mem, node⟩
  rw [mem_range] at mem
  exact apart (Hdr.mem_owned mem (by rw [Fso.hdr_bmap _ mem]; exact node))

theorem truncated_of_cleared (disk : Disk s) (ref : (s.fso i).refcnt ≠ 0)
    (cleared : Cleared s t i (range 114)) : Truncated s (truncated t i) i := by
  have file := (disk.opened i ref).file
  have head : hdr s i = (s.fso i).hdr := hdr_of_open ref
  have shape : (s.fso i).hdr.Shape := head ▸ disk.shape i file
  have self : (truncated t i).fso i =
      { s.fso i with bmap := fun k => if k < 114 then 0 else (s.fso i).bmap k
                     bmapValid := false, dirty := true, blocks := 1, size := 0 } := by
    simp only [truncated, Vol.setFso, update_same, cleared.self, mem_range]
  have only : Only s (truncated t i) i := by
    refine ⟨cleared.ok.congr rfl fun _ _ => rfl, cleared.geo, ?_, ?_, ?_, ?_⟩
    · exact cleared.files ▸ disk.files
    · intro j _
      rw [show (truncated t i).files = s.files from cleared.files]
    · intro j ne
      rw [← cleared.other j ne]
      exact update_ne _ _ _ ne
    · intro j other _ b mem
      exact cleared.dev b (data_not_bam disk.bam.geo (disk.data j other b mem).1)
  have files : (truncated t i).files = s.files := cleared.files
  have ref' : ((truncated t i).fso i).refcnt ≠ 0 := by rw [self]; exact ref
  have bare : holds (truncated t i) i = [i] := by
    have none : (hdr (truncated t i) i).owned (truncated t i).dev = [] := by
      rw [hdr_of_open ref', self]
      simp only [Hdr.owned, flatMap_eq_nil_iff, mem_range]
      intro k lt
      rw [Fso.hdr_bmap _ lt, mapNodes]
      simp only [if_pos lt, Radix.nodes_zero]
    rw [holds, none]
  have still : ∀ b, s.fs.geo.inData b → used s b = true → b ∉ (hdr s i).owned s.dev →
      used (truncated t i) b = true := fun b inside inUse apart =>
    cleared.still b (data_covered disk.bam.geo inside) inUse (head ▸ apart)
  have own := disk.nodup i file
  rw [holds, nodup_cons] at own
  obtain ⟨inside, inUse⟩ := disk.data i file i (mem_cons_self ..)
  refine ⟨only.disk disk ?_ ?_ ?_ ?_ ?_ ?_, only, files, self⟩
  · intro _
    rw [bare]
    exact nodup_singleton i
  · intro _
    rw [hdr_of_open ref', self]
    exact ⟨⟨shape.levels, shape.direct⟩, shape.nlink, by simp [Fso.hdr]⟩
  · intro _ b mem
    rw [bare, mem_singleton] at mem
    rw [mem]
    exact ⟨inside, still i inside inUse own.1⟩
  · intro _ b mem
    rw [bare, mem_singleton] at mem
    rw [mem]
    exact .inl ⟨file, mem_cons_self ..⟩
  · intro j other ne b mem
    obtain ⟨inside', inUse'⟩ := disk.data j other b mem
    exact still b inside' inUse' fun mem' => disk.apart j other i file ne b mem (mem_cons_of_mem _ mem')
  · intro _
    refine ⟨by rw [files]; exact file, ?_, ?_, ?_⟩
    · intro valid
      simp [self] at valid
    · rw [self]
      exact (disk.opened i ref).small
    · intro clean
      simp [self] at clean

theorem used_of_emptied (ref : (s.fso i).refcnt ≠ 0)
    (emptied : Emptied s t i (range 114)) (b : Nat) (lt : b < 4096 * s.fs.geo.bamSize) :
    used (truncated t i) b = true ↔ used s b = true ∧ b ∉ (hdr s i).owned s.dev := by
  refine (emptied.used b lt).trans (and_congr_right fun _ => not_congr ?_)
  rw [hdr_of_open ref, Hdr.owned, mem_flatMap]
  constructor
  · rintro ⟨k, mem, node⟩
    exact ⟨k, mem, by rw [Fso.hdr_bmap _ (mem_range.mp mem)]; exact node⟩
  · rintro ⟨k, mem, node⟩
    exact ⟨k, mem, by rw [Fso.hdr_bmap _ (mem_range.mp mem)] at node; exact node⟩

theorem wp_natTrunc_exact (noio : cx.NoIoError) (disk : Disk s) (ref : (s.fso i).refcnt ≠ 0)
    (post : ∀ s', Truncated s s' i → (∀ b, b < 4096 * s.fs.geo.bamSize →
      (used s' b = true ↔ used s b = true ∧ b ∉ (hdr s i).owned s.dev)) → Q (.ok ()) s') :
    wp (natTrunc cx i) Q s := by
  have file := (disk.opened i ref).file
  have head : hdr s i = (s.fso i).hdr := hdr_of_open ref
  have levels : 1 ≤ (s.fso i).nindirlev ∧ (s.fso i).nindirlev ≤ 4 := by
    have shape := disk.shape i file
    rw [head] at shape
    exact shape.levels
  have trees : ∀ k ∈ range 114, TreeOk s ((s.fso i).hdr.level k) ((s.fso i).bmap k) := by
    intro k mem
    have tree := disk.tree file (mem_range.mp mem)
    rw [head, Fso.hdr_bmap _ (mem_range.mp mem)] at tree
    exact tree
  simp only [natTrunc, wp_bind, wp_get, after_ok]
  rw [if_neg (by omega)]
  simp only [wp_bind]
  apply wp_truncSlots noio i _ disk.bam levels.1 nodup_range (fun k mem => (trees k mem).nodup)
    (fun k mem b node => ((trees k mem).data b node).1)
  intro t emptied
  simp only [after_ok, modifyFso, wp_modify]
  exact post _ (truncated_of_cleared disk ref emptied.cleared) (used_of_emptied ref emptied)

theorem wp_natTrunc (noio : cx.NoIoError) (disk : Disk s) (ref : (s.fso i).refcnt ≠ 0)
    (post : ∀ s', Truncated s s' i → Q (.ok ()) s') : wp (natTrunc cx i) Q s :=
  wp_natTrunc_exact noio disk ref fun s' cut _ => post s' cut

theorem Truncated.obj (t : Truncated s s' i) (ref : (s.fso i).refcnt ≠ 0) :
    obj s' i = { obj s i with size := 0, block := fun _ => zero } := by
  have ref' : (s'.fso i).refcnt ≠ 0 := by rw [t.self]; exact ref
  have none : (hdr s' i).block s'.dev = fun _ => zero := by
    funext log
    rw [Hdr.block, if_pos]
    apply Classical.byContradiction
    intro found
    have mem := (Hdr.phys_mem found).2.2
    rw [t.owned ref] at mem
    cases mem
  rw [Natfs.obj, none, hdr_of_open ref', t.self, Natfs.obj, hdr_of_open ref]
  rfl

theorem Truncated.counted (t : Truncated s s' i) (ref : (s.fso i).refcnt ≠ 0) : (hdr s' i).Counted s'.dev := by
  rw [Hdr.Counted, t.owned ref, hdr_of_open (by rw [t.self]; exact ref), t.self]
  rfl

end Natfs
