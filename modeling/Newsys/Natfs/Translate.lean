import Newsys.Natfs.Rw

/- The translation of logical blocks (kern/fs/nat/bmap.c) over any sequence of lookups, allocations and truncations of
   one file, on any device: where an entry of the map stands, and that the remembered translation is the current one.
   Between two calls the buffer cache may have to write a dirty buffer back, and nobody hears that the device refused
   it: the block is lost. -/
namespace Natfs.Translate
open Bytes Cmds Cmd Natfs List

/- Truncation when requests fail -/

def BfreeLoses (cx : Cx) (bn : Nat) (s : Vol) : Prop := SwitchLoses cx (s.fs.geo.bamBlock + bn / 4096) s

/-- The loop over the entries of block `bn` gets to a `nat_bfree` that loses changes; `sub` is what is done below an
    entry, and whether it loses some. -/
def EntriesLose (cx : Cx) (bn : Nat) (sub : Option ((Nat → NatM (Option Errno)) × (Nat → Vol → Prop))) :
    List Nat → Vol → Prop
  | [], _ => False
  | d :: ds, s =>
    let next := imap (s.dev bn) d
    let t := sub.elim s fun f => (f.1 next s).2
    if next = 0 then EntriesLose cx bn sub ds s
    else (∃ f, sub = some f ∧ f.2 next s) ∨ BfreeLoses cx next t ∨ EntriesLose cx bn sub ds (natBfree cx next t).2

def IndirLoses (cx : Cx) : Nat → Nat → Vol → Prop
  | 0, bn, s => cx.io s.tick = none ∧ EntriesLose cx bn none (range 128) { s with tick := s.tick + 1 }
  | indl + 1, bn, s => cx.io s.tick = none ∧
    EntriesLose cx bn (some (natTruncIndir cx indl, IndirLoses cx indl)) (range 128) { s with tick := s.tick + 1 }

def SlotLoses (cx : Cx) (i indl k : Nat) (s : Vol) : Prop :=
  let bn := (s.fso i).bmap k
  let indirect := (s.fso i).ndirblks ≤ k
  bn ≠ 0 ∧ (indirect ∧ IndirLoses cx (indl - 1) bn s ∨
    BfreeLoses cx bn (if indirect then (natTruncIndir cx (indl - 1) bn s).2 else s))

def SlotsLose (cx : Cx) (i indl : Nat) : List Nat → Vol → Prop
  | [], _ => False
  | k :: ks, s => SlotLoses cx i indl k s ∨ SlotsLose cx i indl ks (truncSlot cx i indl k s).2

def TruncLoses (cx : Cx) (i : Nat) (s : Vol) : Prop := SlotsLose cx i (s.fso i).nindirlev (range 114) s

/-- Blocks of `file` have been given back at most; apart from the map nothing has changed. -/
structure Thinned (s t : Vol) (file : List Nat) : Prop where
  ok : BamOk t
  frame : BamFrame s t
  still : ∀ b, b < 4096 * s.fs.geo.bamSize → used s b = true → b ∉ file → used t b = true

section Thin
variable {s t u : Vol} {file : List Nat} {cx : Cx}

theorem Thinned.tick (ok : BamOk s) (n : Nat) : Thinned s { s with tick := n } file :=
  ⟨ok.congr rfl fun _ _ => rfl, ⟨rfl, rfl, rfl, fun _ _ => rfl⟩, fun _ _ inUse _ => inUse⟩

theorem Thinned.trans (first : Thinned s t file) (second : Thinned t u file) : Thinned s u file := by
  refine ⟨second.ok, first.frame.trans second.frame, ?_⟩
  intro b lt inUse apart
  exact second.still b (by rw [first.frame.geo]; exact lt) (first.still b lt inUse apart) apart

theorem Thinned.dev (thin : Thinned s t file) (inside : s.fs.geo.inData b) : t.dev b = s.dev b :=
  thin.frame.dev b (data_not_bam (thin.frame.geo ▸ thin.ok.geo) inside)

theorem wp_natBfree_thins (ok : BamOk s) (mem : bn ∈ file) (data : s.fs.geo.inData bn)
    (kept : ¬ BfreeLoses cx bn s)
    (post : ∀ e, Thinned s (natBfree cx bn s).2 file → Q (.ok e) (natBfree cx bn s).2) :
    wp (attempt (natBfree cx bn)) Q s := by
  rw [wp_attempt]
  apply wp_run
  apply wp_natBfree_io ok.synced (data_covered ok.geo data) kept
  · intro s' written run
    rw [run] at post
    obtain ⟨ok', frame, bits⟩ := written.marked ok fun _ => data
    refine post _ ⟨ok', frame, ?_⟩
    intro b lt inUse apart
    rw [bits b lt, if_neg (ne_of_mem_of_not_mem mem apart).symm]
    exact inUse
  · intro e s' _ _ same run
    rw [run] at post
    refine post _ ⟨same.ok ok, same.frame, ?_⟩
    intro b lt inUse _
    rw [same.used ok.geo.bamPos b lt]
    exact inUse

def Thins (lev : Nat) (f : (Nat → NatM (Option Errno)) × (Nat → Vol → Prop)) : Prop :=
  ∀ (s : Vol) (bn : Nat) (file : List Nat) (Q : Res Errno (Except Errno (Option Errno)) → Vol → Prop), BamOk s →
    bn ≠ 0 → (∀ b ∈ file, s.fs.geo.inData b) → mapNodes s.dev lev bn ⊆ file → ¬ f.2 bn s →
    (∀ e, Thinned s (f.1 bn s).2 file → Q (.ok e) (f.1 bn s).2) → wp (attempt (f.1 bn)) Q s

theorem wp_truncEntries_thins {lev bn : Nat} {sub : Option ((Nat → NatM (Option Errno)) × (Nat → Vol → Prop))}
    (thins : sub = none ∧ lev = 0 ∨ ∃ f, sub = some f ∧ Thins lev f) (ds : List Nat) :
    ∀ {s : Vol} {err : Option Errno}, BamOk s → s.fs.geo.inData bn → (∀ b ∈ file, s.fs.geo.inData b) →
    (∀ d ∈ ds, mapNodes s.dev lev (imap (s.dev bn) d) ⊆ file) → ¬ EntriesLose cx bn sub ds s →
    ∀ {Q : Res Errno (Option Errno) → Vol → Prop}, (∀ t e, Thinned s t file → Q (.ok e) t) →
    wp (truncEntries cx bn (sub.map Prod.fst) ds err) Q s := by
  induction ds with
  | nil =>
    intro s err ok _ _ _ _ Q post
    exact post _ _ (.tick ok s.tick)
  | cons d ds ih =>
    intro s err ok inside data nodes kept Q post
    simp only [EntriesLose] at kept
    -- the entries still to come are as they were
    have rest : ∀ {t : Vol} {err : Option Errno}, Thinned s t file → ¬ EntriesLose cx bn sub ds t →
        wp (truncEntries cx bn (sub.map Prod.fst) ds err) Q t := by
      intro t err thin kept'
      have geo := thin.frame.geo
      apply ih thin.ok (geo ▸ inside) (geo ▸ data) ?_ kept'
      · exact fun u e later => post u e (thin.trans later)
      · intro x mem
        have below := nodes x (mem_cons_of_mem _ mem)
        have inner : ∀ b ∈ mapInner s.dev lev (imap (s.dev bn) x), t.dev b = s.dev b := fun b node =>
          thin.dev (data b (below (Radix.inner_subset_nodes _ _ node)))
        rw [thin.dev inside, mapNodes, (Radix.tree_congr inner).1]
        exact below
    simp only [truncEntries, wp_bind, wp_get, after_ok]
    by_cases empty : imap (s.dev bn) d = 0
    · rw [if_pos empty] at kept ⊢
      exact rest (.tick ok s.tick) kept
    · rw [if_neg empty, not_or, not_or] at kept
      rw [if_neg empty]
      obtain ⟨below, freed, later⟩ := kept
      have top := nodes d (mem_cons_self ..)
      have self : imap (s.dev bn) d ∈ file := top (Radix.self_mem_nodes empty)
      have last : ∀ {t : Vol} {e : Option Errno}, Thinned s t file → ¬ BfreeLoses cx (imap (s.dev bn) d) t →
          ¬ EntriesLose cx bn sub ds (natBfree cx (imap (s.dev bn) d) t).2 →
          wp (attempt (natBfree cx (imap (s.dev bn) d)) >>= fun err1 =>
            truncEntries cx bn (sub.map Prod.fst) ds (firstErr e (errOf err1))) Q t := by
        intro t e thin kept' later'
        rw [wp_bind]
        apply wp_natBfree_thins thin.ok self (thin.frame.geo ▸ data _ self) kept'
        intro err1 thin'
        rw [after_ok]
        exact rest (thin.trans thin') later'
      rcases thins with ⟨none, flat⟩ | ⟨f, some, thin⟩
      · subst none flat
        exact last (.tick ok s.tick) freed later
      · subst some
        simp only [Option.map_some, wp_bind]
        apply thin s _ file _ ok empty data top fun loses => below ⟨f, rfl, loses⟩
        intro e thinned
        rw [after_ok]
        cases e with
        | ok e => exact last thinned freed later
        | error e => exact last thinned freed later

theorem wp_truncBlock_thins {s : Vol} {bn lev : Nat} {sub : Option ((Nat → NatM (Option Errno)) × (Nat → Vol → Prop))}
    {f : NatM (Option Errno)} (thins : sub = none ∧ lev = 0 ∨ ∃ f, sub = some f ∧ Thins lev f)
    (shape : f = blkRead cx bn >>= fun _ => truncEntries cx bn (sub.map Prod.fst) (range 128) none)
    (ok : BamOk s) (ne : bn ≠ 0) (data : ∀ b ∈ file, s.fs.geo.inData b)
    (nodes : mapNodes s.dev (lev + 1) bn ⊆ file)
    (kept : ¬ (cx.io s.tick = none ∧ EntriesLose cx bn sub (range 128) { s with tick := s.tick + 1 }))
    {Q : Res Errno (Except Errno (Option Errno)) → Vol → Prop}
    (post : ∀ e, Thinned s (f s).2 file → Q (.ok e) (f s).2) : wp (attempt f) Q s := by
  rw [mapNodes, Radix.nodes_succ ne, cons_subset] at nodes
  have first : Thinned s { s with tick := s.tick + 1 } file := .tick ok _
  rw [wp_attempt]
  apply wp_run
  rw [shape, wp_bind, ← shape]
  simp only [blkRead, wp_bind]
  cases outcome : cx.io s.tick with
  | none =>
    apply wp_blkGet_taken outcome
    simp only [after_ok, wp_bind, wp_get, wp_pure]
    apply wp_truncEntries_thins thins _ first.ok (data bn nodes.1) data
    · intro d mem b node
      exact nodes.2 (mem_flatMap.mpr ⟨d, mem, node⟩)
    · exact fun loses => kept ⟨outcome, loses⟩
    · intro t e thin run
      rw [run] at post
      exact post _ (first.trans thin)
  | some e =>
    have failed : blkGet cx bn s = (.err e, { s with tick := s.tick + 1 }) := by simp only [blkGet, outcome]
    apply wp_of_eq failed
    intro run
    rw [run] at post
    exact post _ first

theorem thins_natTruncIndir (lev : Nat) : Thins (lev + 1) (natTruncIndir cx lev, IndirLoses cx lev) := by
  induction lev with
  | zero =>
    intro s bn file Q ok ne data nodes kept post
    exact wp_truncBlock_thins (.inl ⟨rfl, rfl⟩) rfl ok ne data nodes kept post
  | succ lev ih =>
    intro s bn file Q ok ne data nodes kept post
    exact wp_truncBlock_thins (.inr ⟨_, rfl, ih⟩) rfl ok ne data nodes kept post

theorem cleared_refl (ok : BamOk s) (i : Nat) : Cleared s s i [] :=
  ⟨ok, rfl, rfl, fun _ _ => rfl, by simp, fun _ _ => rfl, fun _ _ inUse _ => inUse⟩

theorem cleared_next (before : Cleared s t i ks) (thin : Thinned t u ((s.fso i).hdr.owned s.dev)) :
    Cleared s (u.setFso i { u.fso i with bmap := update (u.fso i).bmap k 0 }) i (ks ++ [k]) := by
  obtain ⟨ok, frame, still⟩ := thin
  have geo := frame.geo.trans before.geo
  refine ⟨ok.congr rfl fun _ _ => rfl, geo, frame.files.trans before.files, ?_, ?_, ?_, ?_⟩
  · intro j ne
    rw [← before.other j ne, ← frame.fso]
    exact update_ne _ _ _ ne
  · simp only [Vol.setFso, update_same, frame.fso, before.self]
    congr 1
    funext x
    by_cases eq : x = k
    · simp [eq]
    · simp [eq, update_ne]
  · intro b out
    rw [← before.dev b out]
    exact frame.dev b (before.geo ▸ out)
  · intro b lt inUse apart
    exact still b (before.geo ▸ lt) (before.still b lt inUse apart) apart

theorem wp_truncSlot_thins (disk : Disk s) (ref : (s.fso i).refcnt ≠ 0) (lt : k < 114)
    (new : k ∉ ks) (before : Cleared s t i ks) (kept : ¬ SlotLoses cx i (s.fso i).nindirlev k t)
    (post : ∀ u, Cleared s u i (ks ++ [k]) → Q (.ok ()) u) :
    wp (truncSlot cx i (s.fso i).nindirlev k) Q t := by
  have file := (disk.opened i ref).file
  have head : hdr s i = (s.fso i).hdr := hdr_of_open ref
  have own : ∀ b ∈ (s.fso i).hdr.owned s.dev, s.fs.geo.inData b := fun b mem =>
    (disk.data i file b (mem_cons_of_mem _ (head ▸ mem))).1
  have entry : (t.fso i).bmap k = (s.fso i).bmap k := by simp [before.self, new]
  have direct : (t.fso i).ndirblks = (s.fso i).ndirblks := by rw [before.self]
  have nodes : mapNodes s.dev ((s.fso i).hdr.level k) ((s.fso i).bmap k) ⊆ (s.fso i).hdr.owned s.dev := by
    intro b node
    exact Hdr.mem_owned lt (by rw [Fso.hdr_bmap _ lt]; exact node)
  simp only [SlotLoses, entry, direct] at kept
  simp only [truncSlot, wp_bind, wp_get, after_ok, entry, direct]
  by_cases empty : (s.fso i).bmap k = 0
  · rw [if_pos empty, wp_pure]
    have done := cleared_next (k := k) before (.tick before.ok t.tick)
    have same : update (t.fso i).bmap k 0 = (t.fso i).bmap := by rw [← empty, ← entry]; exact update_self _ _
    rw [same, Vol.setFso, update_self] at done
    exact post _ done
  · rw [if_neg empty]
    simp only [empty, ne_eq, not_false_iff, true_and, not_or, not_and] at kept
    obtain ⟨below, freed⟩ := kept
    have self := nodes (Radix.self_mem_nodes empty)
    have last : ∀ {u : Vol}, Thinned t u ((s.fso i).hdr.owned s.dev) → ¬ BfreeLoses cx ((s.fso i).bmap k) u →
        wp (attempt (natBfree cx ((s.fso i).bmap k)) >>= fun _ =>
          modifyFso i fun f => { f with bmap := update f.bmap k 0 }) Q u := by
      intro u thin kept'
      rw [wp_bind]
      apply wp_natBfree_thins thin.ok self _ kept'
      · intro e thin'
        simp only [after_ok, modifyFso, wp_modify]
        exact post _ (cleared_next before (thin.trans thin'))
      · rw [thin.frame.geo, before.geo]
        exact own _ self
    by_cases indirect : (s.fso i).ndirblks ≤ k
    · rw [if_pos indirect] at freed ⊢
      have levels : 1 ≤ (s.fso i).nindirlev := (head ▸ (disk.shape i file).toMap : (s.fso i).hdr.Map).levels.1
      have level : (s.fso i).hdr.level k = (s.fso i).nindirlev - 1 + 1 := by
        rw [Nat.sub_add_cancel levels]
        exact if_neg (Nat.not_lt.mpr indirect)
      rw [level] at nodes
      simp only [wp_bind]
      apply thins_natTruncIndir _ t _ _ _ before.ok empty (before.geo ▸ own) ?_ (below indirect)
      · intro e thin
        simp only [after_ok]
        exact last thin freed
      · have inner : ∀ b ∈ mapInner s.dev ((s.fso i).nindirlev - 1 + 1) ((s.fso i).bmap k), t.dev b = s.dev b :=
          fun b node => before.dev b (data_not_bam disk.bam.geo (own b (nodes (Radix.inner_subset_nodes _ _ node))))
        rw [mapNodes, (Radix.tree_congr inner).1]
        exact nodes
    · rw [if_neg indirect] at freed ⊢
      exact last (.tick before.ok t.tick) freed

theorem wp_truncSlots_thins {i : Nat} (disk : Disk s) (ref : (s.fso i).refcnt ≠ 0) (ks : List Nat) :
    ∀ {t : Vol} {done : List Nat}, (done ++ ks).Nodup → (∀ k ∈ ks, k < 114) → Cleared s t i done →
    ¬ SlotsLose cx i (s.fso i).nindirlev ks t → ∀ {Q : Res Errno Unit → Vol → Prop},
    (∀ u, Cleared s u i (done ++ ks) → Q (.ok ()) u) →
    wp (forEach ks (truncSlot cx i (s.fso i).nindirlev)) Q t := by
  induction ks with
  | nil =>
    intro t done _ _ before _ Q post
    rw [append_nil] at post
    exact post t before
  | cons k ks ih =>
    intro t done nodup lt before kept Q post
    rw [SlotsLose, not_or] at kept
    have new : k ∉ done := fun mem => disjoint_of_nodup_append nodup mem (mem_cons_self ..)
    simp only [forEach, wp_bind]
    apply wp_run
    apply wp_truncSlot_thins disk ref (lt k (mem_cons_self ..)) new before kept.1
    intro u cleared run
    have later := kept.2
    rw [run] at later
    rw [after_ok]
    rw [append_cons] at nodup post
    exact ih nodup (fun x mem => lt x (mem_cons_of_mem _ mem)) cleared later post

theorem wp_natTrunc_io {i : Nat} (disk : Disk s) (ref : (s.fso i).refcnt ≠ 0) (kept : ¬ TruncLoses cx i s)
    {Q : Res Errno Unit → Vol → Prop} (post : ∀ t, Truncated s t i → Q (.ok ()) t) : wp (natTrunc cx i) Q s := by
  have head : hdr s i = (s.fso i).hdr := hdr_of_open ref
  have levels : 1 ≤ (s.fso i).nindirlev ∧ (s.fso i).nindirlev ≤ 4 :=
    (head ▸ (disk.shape i (disk.opened i ref).file).toMap : (s.fso i).hdr.Map).levels
  simp only [natTrunc, wp_bind, wp_get, after_ok]
  rw [if_neg (by omega), wp_bind]
  have nodup : ([] ++ range 114).Nodup := nodup_range
  apply wp_truncSlots_thins disk ref _ nodup (fun k mem => mem_range.mp mem) (cleared_refl disk.bam i) kept
  intro t cleared
  simp only [after_ok, modifyFso, wp_modify]
  exact post _ (truncated_of_cleared disk ref cleared)

end Thin

/- Where a translation stands -/

/-- The map block in which `log` is looked up, `none` for the header, and the entry. -/
def position (dev : Image) (f : Fso) (log : Nat) : Option Nat × Nat :=
  if log < f.ndirblks then (none, log)
  else (some (mapLeaf dev (f.nindirlev - 1) (f.bmap (bmapSlot f.ndirblks f.nindirlev log)) (log / 128)), log % 128)

theorem hdr_above_inj {h : Hdr} {dev : Image} (map : h.Map) (nodup : (h.owned dev).Nodup) {lev log log' : Nat}
    (deep : h.nindirlev = lev + 1) (small : log < 2 ^ 32) (small' : log' < 2 ^ 32) (indirect : h.ndirblks ≤ log)
    (indirect' : h.ndirblks ≤ log') (lt : h.slot log < 114) (lt' : h.slot log' < 114)
    (found : mapLeaf dev lev (h.bmap (h.slot log)) (log / 128) ≠ 0)
    (blocks : mapLeaf dev lev (h.bmap (h.slot log)) (log / 128) = mapLeaf dev lev (h.bmap (h.slot log')) (log' / 128))
    (digits : log % 128 = log' % 128) : log = log' := by
  obtain ⟨_, level⟩ := Hdr.slot_indirect map small indirect
  obtain ⟨_, level'⟩ := Hdr.slot_indirect map small' indirect'
  rw [deep] at level level'
  have upper : ∀ bn, (mapNodes dev lev bn).Sublist (mapNodes dev (lev + 1) bn) := Radix.nodes_sublist lev
  have mem := Radix.leaf_mem_nodes (by decide) found
  have mem' : mapLeaf dev lev (h.bmap (h.slot log)) (log / 128) ∈ mapNodes dev lev (h.bmap (h.slot log')) := by
    rw [blocks] at found ⊢
    exact Radix.leaf_mem_nodes (by decide) found
  have slots : h.slot log = h.slot log' := by
    apply Hdr.slots_apart nodup lt lt'
    · rw [level]
      exact (upper _).subset mem
    · rw [level']
      exact (upper _).subset mem'
  have tree := Hdr.tree_nodup nodup lt
  rw [level] at tree
  rw [← slots] at blocks
  have high := Radix.leaf_inj (by decide) (tree.sublist (upper _)) found blocks
  refine Hdr.log_eq map small small' slots ?_
  rw [level, Nat.pow_succ', Nat.mod_mul, Nat.mod_mul, digits, high]

/-- What is to hold of file `i` in every state. Block numbers have no place while their map block is missing. -/
structure Sound (s : Vol) (i : Nat) : Prop where
  apart : ∀ log log', log < 2 ^ 32 → log' < 2 ^ 32 →
    bmapSlot (s.fso i).ndirblks (s.fso i).nindirlev log < 114 →
    bmapSlot (s.fso i).ndirblks (s.fso i).nindirlev log' < 114 →
    (position s.dev (s.fso i) log).1 ≠ some 0 →
    position s.dev (s.fso i) log = position s.dev (s.fso i) log' → log = log'
  current : (s.fso i).bmapValid = true → (s.fso i).bmapPhys = fileBlock s.dev (s.fso i) (s.fso i).bmapLog

theorem sound_of_disk (disk : Disk s) (ref : (s.fso i).refcnt ≠ 0) : Sound s i := by
  have opened := disk.opened i ref
  have head : hdr s i = (s.fso i).hdr := hdr_of_open ref
  have map : (s.fso i).hdr.Map := head ▸ (disk.shape i opened.file).toMap
  have nodup : ((s.fso i).hdr.owned s.dev).Nodup := by
    have all := disk.nodup i opened.file
    rw [holds, head] at all
    exact (nodup_cons.mp all).2
  refine ⟨?_, fun valid => (opened.cache valid).1⟩
  intro log log' small small' lt lt' found eq
  simp only [position] at found eq
  by_cases direct : log < (s.fso i).ndirblks <;> by_cases direct' : log' < (s.fso i).ndirblks
  · rw [if_pos direct, if_pos direct'] at eq
    exact (Prod.mk.inj eq).2
  · rw [if_pos direct, if_neg direct'] at eq
    cases (Prod.mk.inj eq).1
  · rw [if_neg direct, if_pos direct'] at eq
    cases (Prod.mk.inj eq).1
  · rw [if_neg direct, if_neg direct'] at eq
    rw [if_neg direct] at found
    obtain ⟨blocks, digits⟩ := Prod.mk.inj eq
    obtain ⟨lev, deep⟩ := Nat.exists_eq_add_of_le' map.levels.1
    have below : (s.fso i).nindirlev - 1 = lev := by
      change (s.fso i).nindirlev = lev + 1 at deep
      omega
    rw [below, ← Fso.hdr_bmap _ lt] at blocks found
    rw [← Fso.hdr_bmap _ lt'] at blocks
    exact hdr_above_inj map nodup deep small small' (not_lt.mp direct) (not_lt.mp direct') lt lt'
      (fun none => found (congrArg some none)) (Option.some.inj blocks) digits

/- Sequences of calls -/

inductive Op where
  | bmap (log : Nat) (alloc : Bool)
  | dir (log : Nat)
  | trunc
  /-- `blk_get` has taken the dirty buffer of block `bn` for another block (or a sync has written it) and the device has
      refused the write: the block is what it was there. -/
  | lose (bn : Nat) (old : Mem)

namespace Op

def run (cx : Cx) (i : Nat) : Op → NatM Unit
  | .bmap log alloc => natBmap cx i log alloc
  | .dir log => do
    let _ ← natBmapDir cx i log true
    pure ()
  | .trunc => natTrunc cx i
  | .lose bn old => blkFill bn old

/-- `nat_bmap_dir` is called for a direct block, and not for the one that is remembered. -/
def Proper (i : Nat) (s : Vol) : Op → Prop
  | .bmap log _ => log < 2 ^ 32
  | .dir log => log < (s.fso i).ndirblks ∧ ¬ ((s.fso i).bmapValid = true ∧ (s.fso i).bmapLog = log)
  | _ => True

/-- A buffer is lost, or the call gets to a `nat_switch_bam` that goes on after it has found no buffer for the map. -/
def Loses (cx : Cx) (i : Nat) (s : Vol) : Op → Prop
  | .bmap log alloc => alloc = true ∧ BmapAsks (BallocLoses cx) cx i log s
  | .dir log => (s.fso i).bmap log = 0 ∧ BallocLoses cx s
  | .trunc => TruncLoses cx i s
  | .lose _ _ => True

def Answers (cx : Cx) (i : Nat) (s : Vol) : Op → Res Errno Unit → Vol → Prop
  | .bmap log alloc, .ok _, t => bmapSlot (s.fso i).ndirblks (s.fso i).nindirlev log < 114 ∧
    (t.fso i).bmapPhys = fileBlock t.dev (t.fso i) log ∧ (alloc = true → (t.fso i).bmapPhys ≠ 0)
  | .bmap log false, .err e, _ =>
    e = .EFBIG ∧ 114 ≤ bmapSlot (s.fso i).ndirblks (s.fso i).nindirlev log ∨ cx.IoError e
  | .bmap _ _, .crash, _ => False
  | _, _, _ => True

end Op

section Steps
variable {s t : Vol} {cx : Cx} {i : Nat}

theorem extended_of_root (disk : Disk s) (ref : (s.fso i).refcnt ≠ 0)
    (direct : log < (s.fso i).ndirblks) (other : ¬ ((s.fso i).bmapValid = true ∧ (s.fso i).bmapLog = log))
    (root : Rooted s t i log r fresh) : Extended s t i := by
  have opened := disk.opened i ref
  have head : hdr s i = (s.fso i).hdr := hdr_of_open ref
  have map : (s.fso i).hdr.Map := head ▸ (disk.shape i opened.file).toMap
  have lt : log < 114 := lt_of_lt_of_le direct map.direct
  obtain ⟨slot, level⟩ := Hdr.slot_direct (h := (s.fso i).hdr) direct
  rw [slot, ← head] at level
  rw [← head] at slot
  have below := disk.tree opened.file lt
  rw [level, head, Fso.hdr_bmap _ lt] at below
  have walk : Walked t t i 0 r log [] := walked_still (root.tree below).1 (.refl root.alloc.bam i t.tick _) rfl
  rw [← level] at walk
  obtain ⟨grown, target⟩ := grown_of_walk disk opened.file ref (by omega) slot lt root walk
  rw [level] at target
  refine (Regrown.refl disk ref grown).extended ?_ ?_ ?_
  · intro missing
    rw [target]
    rcases root.root with ⟨old, _⟩ | ⟨_, _, blank⟩
    · rw [Hdr.phys, slot, level, if_pos ⟨by omega, lt⟩, head, Fso.hdr_bmap _ lt] at missing
      exact absurd (old.symm.trans missing) root.pos
    · exact .inr blank
  · refine cache_of_phys map opened grown.alloc.attrs grown.cached fun valid => ?_
    rw [← head]
    exact grown.others _ fun eq => other ⟨valid, eq⟩
  · rw [grown.cached.2.1]
    exact opened.small

/-- What every call keeps, unless it loses changes of the map. -/
structure Kept (s t : Vol) (i : Nat) : Prop where
  disk : Disk t
  refcnt : (t.fso i).refcnt = (s.fso i).refcnt

theorem kept_of_worked (worked : Worked s t i) : Kept s t i := ⟨worked.disk, worked.refcnt⟩

theorem kept_of_extended (extended : Extended s t i) : Kept s t i := kept_of_worked (.of_extended extended)

theorem Kept.spilled (before : Kept s t i) (ref : (s.fso i).refcnt ≠ 0) (spilled : Spilled t u b) :
    Kept s u i := by
  have file := (before.disk.opened i (before.refcnt ▸ ref)).file
  have worked := (Seen.of_spilled before.disk file spilled).worked
  exact ⟨worked.disk, worked.refcnt.trans before.refcnt⟩

theorem wp_op (disk : Disk s) (ref : (s.fso i).refcnt ≠ 0) (op : Op) (proper : op.Proper i s)
    (kept : ¬ op.Loses cx i s) : wp (op.run cx i) (fun r t => Kept s t i ∧ op.Answers cx i s r t) s := by
  have opened := disk.opened i ref
  have head : hdr s i = (s.fso i).hdr := hdr_of_open ref
  have map : (s.fso i).hdr.Map := head ▸ (disk.shape i opened.file).toMap
  cases op with
  | bmap log alloc =>
    cases alloc with
    | false =>
      apply wp_natBmap_lookup opened.cache
      · intro slot t looked
        refine ⟨kept_of_extended (extended_of_looked disk ref proper (head ▸ slot) looked).1, slot, ?_, by simp⟩
        rw [looked.self, looked.dev]
        rfl
      · exact fun big => ⟨⟨disk, rfl⟩, .inl ⟨rfl, big⟩⟩
      · exact fun e n io => ⟨kept_of_worked (.tick disk n), .inr io⟩
    | true =>
      apply wp_natBmap_io disk ref proper fun asks => kept ⟨rfl, asks⟩
      · intro t _ stretched pos phys
        have kept' := kept_of_extended stretched.extended
        have ref' : (t.fso i).refcnt ≠ 0 := kept'.refcnt ▸ ref
        have head' : hdr t i = (t.fso i).hdr := hdr_of_open ref'
        have map' : (t.fso i).hdr.Map := head' ▸ (kept'.disk.shape i (kept'.disk.opened i ref').file).toMap
        rw [head'] at phys
        have inside := (Hdr.phys_mem (phys ▸ pos)).1
        have same := stretched.extended.attrs
        refine ⟨kept', ?_, ?_, fun _ => pos⟩
        · rw [← same.ndirblks, ← same.nindirlev]
          exact inside
        · rw [← phys, Hdr.phys_fileBlock map' proper inside]
      · exact fun e t _ _ stretched => ⟨kept_of_extended stretched.extended, trivial⟩
      · exact fun e t u b _ _ stretched spilled =>
          ⟨(kept_of_extended stretched.extended).spilled ref spilled, trivial⟩
      · exact fun _ _ => ⟨⟨disk, rfl⟩, trivial⟩
  | dir log =>
    have lt : log < 114 := lt_of_lt_of_le proper.1 map.direct
    simp only [Op.run, wp_bind]
    apply wp_natBmapDir disk.bam lt fun empty loses => kept ⟨empty, loses⟩
    · exact fun t r fresh _ root => ⟨kept_of_extended (extended_of_root disk ref proper.1 proper.2 root), trivial⟩
    · intro e t _ _ _ same
      have still := stretched_still disk ref log (same.alloc i disk.bam) same.frame.fso
      exact ⟨kept_of_extended still.extended, trivial⟩
    · exact fun e t b _ _ _ spilled => ⟨Kept.spilled ⟨disk, rfl⟩ ref spilled, trivial⟩
  | trunc =>
    apply wp_natTrunc_io disk ref kept
    exact fun t cut => ⟨⟨cut.disk, by rw [cut.self]⟩, trivial⟩
  | lose bn old => exact absurd trivial kept

end Steps

def ProperRun (cx : Cx) (i : Nat) : List Op → Vol → Prop
  | [], _ => True
  | op :: ops, s => op.Proper i s ∧ ProperRun cx i ops (op.run cx i s).2

def RunLoses (cx : Cx) (i : Nat) : List Op → Vol → Prop
  | [], _ => False
  | op :: ops, s => op.Loses cx i s ∨ RunLoses cx i ops (op.run cx i s).2

def Holds (cx : Cx) (i : Nat) : List Op → Vol → Prop
  | [], s => Sound s i
  | op :: ops, s => Sound s i ∧ op.Answers cx i s (op.run cx i s).1 (op.run cx i s).2 ∧
    Holds cx i ops (op.run cx i s).2

theorem translations_hold {cx : Cx} {s : Vol} {i : Nat} (ops : List Op) (disk : Disk s) (ref : (s.fso i).refcnt ≠ 0)
    (proper : ProperRun cx i ops s) (kept : ¬ RunLoses cx i ops s) : Holds cx i ops s := by
  induction ops generalizing s with
  | nil => exact sound_of_disk disk ref
  | cons op ops ih =>
    rw [RunLoses, not_or] at kept
    obtain ⟨after, answer⟩ := wp_op disk ref op proper.1 kept.1
    exact ⟨sound_of_disk disk ref, answer, ih after.disk (after.refcnt ▸ ref) proper.2 kept.2⟩

/-- Two allocations, one of them direct, and a lookup in the sample file. -/
theorem translations_hold_sample :
    let ops := [.bmap 200 true, .dir 1, .bmap 200 false]
    Disk sampleVol ∧ Holds sampleCx 9 ops sampleVol := by
  refine ⟨sampleVol_disk, translations_hold _ sampleVol_disk (by decide) ?_ ?_⟩
  · simp only [ProperRun, Op.Proper, and_true]
    decide +kernel
  · have noio : sampleCx.NoIoError := fun _ => rfl
    simp [RunLoses, Op.Loses, not_bmapAsks (not_ballocLoses noio), not_ballocLoses noio]

/-- The map block of the first block that is not direct is written back and refused: the remembered translation is no
    longer what a walk finds. -/
theorem translations_fail :
    let ops := [.bmap 98 true, .lose 13 (sampleVol.dev 13)]
    Disk sampleVol ∧ (sampleVol.fso 9).refcnt ≠ 0 ∧ ProperRun sampleCx 9 ops sampleVol ∧
      ¬ Holds sampleCx 9 ops sampleVol := by
  have small : 98 < 2 ^ 32 := by decide
  refine ⟨sampleVol_disk, by decide, ⟨small, trivial, trivial⟩, ?_⟩
  rintro ⟨_, _, _, _, sound⟩
  exact absurd (sound.current (by decide +kernel)) (by decide +kernel)

end Natfs.Translate
