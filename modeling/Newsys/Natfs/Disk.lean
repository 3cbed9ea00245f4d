import Newsys.Natfs.Grow

/- What the volume holds: every file has a header and owns the blocks of its trees, and no
   block has two owners. The header of an object in use is the one in memory. -/
namespace Natfs
open Bytes Cmds List

structure Hdr where
  size : Nat
  nlink : Nat
  blocks : Nat
  kind : Nat
  ndirblks : Nat
  nindirlev : Nat
  bmap : Nat → Nat

/-- The size is a `size_t` in memory and a 32-bit number in a header. -/
def Fso.hdr (f : Fso) : Hdr :=
  { size := f.size % 2 ^ 32, nlink := f.nlink, blocks := f.blocks, kind := sIfmt f.mode,
    ndirblks := f.ndirblks, nindirlev := f.nindirlev
    bmap := fun k => if k < 114 then f.bmap k else 0 }

variable {k : Nat}

theorem Fso.hdr_bmap (f : Fso) (lt : k < 114) : f.hdr.bmap k = f.bmap k := if_pos lt

def savedHdr (s : Vol) (i : Nat) : Hdr := (loadFso s.fs.geo (s.dev i)).hdr

def hdr (s : Vol) (i : Nat) : Hdr := if (s.fso i).refcnt = 0 then savedHdr s i else (s.fso i).hdr

namespace Hdr

def level (h : Hdr) (k : Nat) : Nat := slotLevel h.ndirblks h.nindirlev k

def slot (h : Hdr) (log : Nat) : Nat := bmapSlot h.ndirblks h.nindirlev log

def owned (dev : Image) (h : Hdr) : List Nat :=
  (range 114).flatMap fun k => mapNodes dev (h.level k) (h.bmap k)

def phys (dev : Image) (h : Hdr) (log : Nat) : Nat :=
  if log < 2 ^ 32 ∧ h.slot log < 114 then mapLeaf dev (h.level (h.slot log)) (h.bmap (h.slot log)) log
  else 0

def block (dev : Image) (h : Hdr) (log : Nat) : Mem :=
  if h.phys dev log = 0 then zero else dev (h.phys dev log)

structure Map (h : Hdr) : Prop where
  levels : 1 ≤ h.nindirlev ∧ h.nindirlev ≤ 4
  direct : h.ndirblks ≤ 114

structure Shape (h : Hdr) : Prop extends Map h where
  nlink : h.nlink < 2 ^ 32
  blocks : h.blocks < 2 ^ 32

/-- `blocks` counts the header and what it refers to. -/
def Counted (dev : Image) (h : Hdr) : Prop := h.blocks = 1 + (h.owned dev).length

end Hdr

def holds (s : Vol) (i : Nat) : List Nat := i :: (hdr s i).owned s.dev

/-- An object in use belongs to a file; its header has been saved unless it is marked dirty,
    and the translation it remembers is the current one. -/
structure Opened (s : Vol) (i : Nat) : Prop where
  file : i ∈ s.files
  cache : CacheOk s i
  small : (s.fso i).bmapLog < 2 ^ 32
  saved : (s.fso i).dirty = false → savedHdr s i = (s.fso i).hdr

structure Disk (s : Vol) : Prop where
  bam : BamOk s
  files : s.files.Nodup
  nodup : ∀ i ∈ s.files, (holds s i).Nodup
  apart : ∀ i ∈ s.files, ∀ j ∈ s.files, i ≠ j → ∀ b ∈ holds s i, b ∉ holds s j
  data : ∀ i ∈ s.files, ∀ b ∈ holds s i, s.fs.geo.inData b ∧ used s b = true
  shape : ∀ i ∈ s.files, (hdr s i).Shape
  opened : ∀ i, (s.fso i).refcnt ≠ 0 → Opened s i

theorem hdr_of_open (ref : (s.fso i).refcnt ≠ 0) : hdr s i = (s.fso i).hdr := by
  simp [hdr, ref]

theorem hdr_of_closed (ref : (s.fso i).refcnt = 0) : hdr s i = savedHdr s i := by
  simp [hdr, ref]

/- Saving and loading a header -/

theorem getLE_setBmap_below (m : Mem) (bmap : Nat → Nat) (below : off + n ≤ 56) :
    getLE (setBmap m bmap) off n = getLE m off n := by
  apply getLE_congr
  intro k _ hi
  simp only [setBmap]
  rw [if_neg (by omega)]

theorem getLE_setBmap_entry (m : Mem) (bmap : Nat → Nat) (lt : k < 114) :
    getLE (setBmap m bmap) (56 + 4 * k) 4 = bmap k % 2 ^ 32 := by
  have same : getLE (setBmap m bmap) (56 + 4 * k) 4 =
      getLE (setLE m (56 + 4 * k) 4 (bmap k)) (56 + 4 * k) 4 := by
    apply getLE_congr
    intro x lo hi
    simp only [setBmap, setLE]
    rw [if_pos (by omega), if_pos (by omega), show (x - 56) / 4 = k by omega,
      show (x - 56) % 4 = x - (56 + 4 * k) by omega]
  rw [same, getLE_setLE_same, show 256 ^ 4 = 2 ^ 32 from rfl]

theorem sIfmt_natImode (mode : Nat) : sIfmt (natImode mode) = sIfmt mode := by
  have bits : ∀ v : Nat, v &&& 0o70000 = 0 → ∀ n, sIfmt (n ||| v) = sIfmt n := by
    intro v apart n
    simp only [sIfmt, Nat.and_or_distrib_right, apart, Nat.or_zero]
  have idem : sIfmt (sIfmt mode) = sIfmt mode := by
    simp only [sIfmt, Nat.and_assoc, Nat.and_self]
  simp only [natImode]
  split <;> split <;>
    simp only [bits 0o111 (by decide), bits 0o222 (by decide), bits 0o444 (by decide), idem]

theorem hdBmap_headerOf (geo : Geo) (f : Fso) (lt : k < 114) : hdBmap (headerOf geo f) k = f.bmap k % 2 ^ 32 := by
  simp only [hdBmap, headerOf]
  rw [getLE_setLE_ne _ _ _ _ _ _ (by omega), getLE_setLE_ne _ _ _ _ _ _ (by omega),
    getLE_setBmap_entry _ _ lt]

theorem hdr_headerOf (geo : Geo) (f : Fso) (shape : f.hdr.Shape) (bmap : ∀ k, k < 114 → f.bmap k < 2 ^ 32) :
    (loadFso geo (headerOf geo f)).hdr = f.hdr := by
  have levels := shape.levels.2
  have direct := shape.direct
  have nlink := shape.nlink
  have blocks := shape.blocks
  simp only [Fso.hdr] at levels direct nlink blocks
  have mode : sIfmt (if geo.insecure then natImode (hdMode (headerOf geo f))
      else hdMode (headerOf geo f)) = sIfmt f.mode := by
    have read : hdMode (headerOf geo f) =
        (if geo.insecure then natImode f.mode else f.mode) % 2 ^ 32 := by
      simp (disch := omega) only [hdMode, headerOf, getLE_setLE_ne, getLE_setBmap_below,
        getLE_setLE_same, show 256 ^ 4 = 2 ^ 32 from rfl]
    have wide : ∀ n, sIfmt (n % 2 ^ 32) = sIfmt n := by
      intro n
      simp only [sIfmt]
      apply Nat.eq_of_testBit_eq
      intro j
      rw [Nat.testBit_and, Nat.testBit_and, Nat.testBit_mod_two_pow]
      by_cases low : j < 32
      · simp [low]
      · have high : Nat.testBit 0o70000 j = false :=
          Nat.testBit_lt_two_pow (lt_of_lt_of_le (by decide : 0o70000 < 2 ^ 32)
            (Nat.pow_le_pow_right (by omega) (by omega)))
        simp [high]
    rw [read]
    cases geo.insecure with
    | false => simp only [Bool.false_eq_true, if_false, wide]
    | true => simp only [if_true, sIfmt_natImode, wide]
  have entries : (fun k => if k < 114 then hdBmap (headerOf geo f) k else 0) =
      fun k => if k < 114 then f.bmap k else 0 := by
    funext k
    split
    · rename_i lt
      rw [hdBmap_headerOf geo f lt, Nat.mod_eq_of_lt (bmap k lt)]
    · rfl
  simp only [Fso.hdr, loadFso, mode, entries, Hdr.mk.injEq, and_true, true_and]
  simp (disch := omega) only [hdSize, hdNlink, hdBlocks, hdNdirblks, hdNindirlev, headerOf,
    getLE_setLE_ne, getLE_setBmap_below, getLE_setLE_same]
  refine ⟨by omega, ?_, ?_, ?_, ?_⟩ <;> exact Nat.mod_eq_of_lt (by omega)

/- The trees of one file -/

section Trees
variable {h : Hdr} {dev dev' : Image}

def Hdr.inners (dev : Image) (h : Hdr) : List Nat :=
  (range 114).flatMap fun k => mapInner dev (h.level k) (h.bmap k)

variable {k b : Nat}

theorem Hdr.mem_owned (lt : k < 114) (mem : b ∈ mapNodes dev (h.level k) (h.bmap k)) :
    b ∈ h.owned dev := mem_flatMap.mpr ⟨k, mem_range.mpr lt, mem⟩

theorem Hdr.inners_subset (mem : b ∈ h.inners dev) : b ∈ h.owned dev := by
  obtain ⟨k, lt, inner⟩ := mem_flatMap.mp mem
  exact Hdr.mem_owned (mem_range.mp lt) (Radix.inner_subset_nodes _ _ inner)

theorem Hdr.trees_congr (same : ∀ b ∈ h.inners dev, dev' b = dev b) :
    h.owned dev' = h.owned dev ∧ h.inners dev' = h.inners dev ∧
      ∀ log, h.phys dev' log = h.phys dev log := by
  have tree : ∀ k, k < 114 → mapNodes dev' (h.level k) (h.bmap k) = mapNodes dev (h.level k) (h.bmap k) ∧
      mapInner dev' (h.level k) (h.bmap k) = mapInner dev (h.level k) (h.bmap k) ∧
      ∀ log, 0 < 128 →
        mapLeaf dev' (h.level k) (h.bmap k) log = mapLeaf dev (h.level k) (h.bmap k) log := by
    intro k lt
    apply Radix.tree_congr
    intro b mem
    exact same b (mem_flatMap.mpr ⟨k, mem_range.mpr lt, mem⟩)
  refine ⟨?_, ?_, ?_⟩
  · apply flatMap_congr
    intro k mem
    exact (tree k (mem_range.mp mem)).1
  · apply flatMap_congr
    intro k mem
    exact (tree k (mem_range.mp mem)).2.1
  · intro log
    simp only [Hdr.phys]
    split
    · rename_i inside
      exact (tree _ inside.2).2.2 log (by decide)
    · rfl

variable {log : Nat}

theorem Hdr.phys_mem (found : h.phys dev log ≠ 0) :
    h.slot log < 114 ∧ h.phys dev log ∈ mapNodes dev (h.level (h.slot log)) (h.bmap (h.slot log)) ∧
      h.phys dev log ∈ h.owned dev := by
  by_cases inside : log < 2 ^ 32 ∧ h.slot log < 114
  · simp only [Hdr.phys, if_pos inside] at found ⊢
    have mem := Radix.leaf_mem_nodes (by decide) found
    exact ⟨inside.2, mem, Hdr.mem_owned inside.2 mem⟩
  · simp only [Hdr.phys, if_neg inside] at found
    exact absurd rfl found

section
variable (nodup : (h.owned dev).Nodup)
include nodup

theorem Hdr.slots_apart (lt : k < 114) (lt' : k' < 114)
    (mem : b ∈ mapNodes dev (h.level k) (h.bmap k)) (mem' : b ∈ mapNodes dev (h.level k') (h.bmap k')) : k = k' := by
  apply Classical.byContradiction
  intro differ
  exact Radix.range_disjoint nodup lt lt' differ mem mem'

theorem Hdr.tree_nodup (lt : k < 114) : (mapNodes dev (h.level k) (h.bmap k)).Nodup :=
  (nodup_flatMap.mp nodup).1 k (mem_range.mpr lt)

theorem Hdr.phys_not_inner (found : h.phys dev log ≠ 0) :
    h.phys dev log ∉ h.inners dev := by
  obtain ⟨lt, mem, _⟩ := Hdr.phys_mem found
  intro inner
  obtain ⟨k, lt', inner⟩ := mem_flatMap.mp inner
  rw [mem_range] at lt'
  have same := Hdr.slots_apart nodup lt lt' mem (Radix.inner_subset_nodes _ _ inner)
  rw [← same] at inner
  have tree := Hdr.tree_nodup nodup lt
  by_cases small : log < 2 ^ 32 ∧ h.slot log < 114
  · simp only [Hdr.phys, if_pos small] at found inner
    exact Radix.leaf_not_inner (by decide) tree found inner
  · simp only [Hdr.phys, if_neg small] at found
    exact absurd rfl found

end

theorem Hdr.slot_indirect (map : h.Map) (small : log < 2 ^ 32) (indirect : h.ndirblks ≤ log) :
    h.slot log = h.ndirblks + log / 128 ^ h.nindirlev ∧ h.level (h.slot log) = h.nindirlev := by
  have levels := map.levels
  have direct := map.direct
  have power : 128 ^ 1 ≤ 128 ^ h.nindirlev := Nat.pow_le_pow_right (by decide) levels.1
  have bound : log / 128 ^ h.nindirlev ≤ log / 128 ^ 1 := Nat.div_le_div_left power (by decide)
  have wide : h.ndirblks + log / 128 ^ h.nindirlev < 2 ^ 32 := by omega
  have value : h.slot log = h.ndirblks + log / 128 ^ h.nindirlev := by
    rw [Hdr.slot, bmapSlot, if_neg (by omega), Nat.shiftRight_eq_div_pow, Nat.pow_mul,
      show 2 ^ 7 = 128 from rfl, Nat.mod_eq_of_lt wide]
  refine ⟨value, ?_⟩
  rw [Hdr.level, slotLevel, value, if_neg (Nat.not_lt.mpr (Nat.le_add_right _ _))]

theorem Hdr.slot_direct (direct : log < h.ndirblks) : h.slot log = log ∧ h.level (h.slot log) = 0 := by
  have value : h.slot log = log := by rw [Hdr.slot, bmapSlot, if_pos direct]
  refine ⟨value, ?_⟩
  rw [Hdr.level, slotLevel, value, if_pos direct]

theorem Hdr.log_eq (map : h.Map) (small : log < 2 ^ 32) (small' : log' < 2 ^ 32)
    (slots : h.slot log = h.slot log')
    (rest : log % 128 ^ h.level (h.slot log) = log' % 128 ^ h.level (h.slot log)) : log = log' := by
  by_cases direct : log < h.ndirblks
  · obtain ⟨value, _⟩ := Hdr.slot_direct direct
    by_cases direct' : log' < h.ndirblks
    · rw [(Hdr.slot_direct direct').1] at slots
      omega
    · rw [(Hdr.slot_indirect map small' (by omega)).1] at slots
      generalize log' / 128 ^ h.nindirlev = high at slots
      omega
  · obtain ⟨value, level⟩ := Hdr.slot_indirect map small (by omega)
    by_cases direct' : log' < h.ndirblks
    · rw [(Hdr.slot_direct direct').1, value] at slots
      generalize log / 128 ^ h.nindirlev = high at slots
      omega
    · rw [value, (Hdr.slot_indirect map small' (by omega)).1] at slots
      rw [level] at rest
      have high : log / 128 ^ h.nindirlev = log' / 128 ^ h.nindirlev := by omega
      rw [← Nat.div_add_mod log (128 ^ h.nindirlev), high, rest, Nat.div_add_mod]

theorem Hdr.phys_inj (map : h.Map) (nodup : (h.owned dev).Nodup)
    (found : h.phys dev log ≠ 0) (eq : h.phys dev log = h.phys dev log') : log = log' := by
  obtain ⟨lt, mem, _⟩ := Hdr.phys_mem found
  obtain ⟨lt', mem', _⟩ := Hdr.phys_mem (eq ▸ found)
  have slots := Hdr.slots_apart nodup lt lt' mem (eq ▸ mem')
  have small : log < 2 ^ 32 ∧ h.slot log < 114 := by
    apply Classical.byContradiction
    intro big
    simp only [Hdr.phys, if_neg big] at found
    exact found rfl
  have small' : log' < 2 ^ 32 ∧ h.slot log' < 114 := by
    apply Classical.byContradiction
    intro big
    rw [eq] at found
    simp only [Hdr.phys, if_neg big] at found
    exact found rfl
  have tree := Hdr.tree_nodup nodup lt
  simp only [Hdr.phys, if_pos small, if_pos small'] at found eq
  rw [← slots] at eq
  exact Hdr.log_eq map small.1 small'.1 slots (Radix.leaf_inj (by decide) tree found eq)

theorem Hdr.phys_fileBlock (map : f.hdr.Map) (small : log < 2 ^ 32)
    (inside : f.hdr.slot log < 114) : f.hdr.phys dev log = fileBlock dev f log := by
  rw [Hdr.phys, if_pos ⟨small, inside⟩, fileBlock]
  have entry : f.hdr.bmap (f.hdr.slot log) = f.bmap (f.hdr.slot log) := if_pos inside
  rw [entry]
  by_cases direct : log < f.ndirblks
  · obtain ⟨value, level⟩ := Hdr.slot_direct (h := f.hdr) direct
    rw [if_pos direct, level, value]
    rfl
  · obtain ⟨_, level⟩ := Hdr.slot_indirect (h := f.hdr) map small (not_lt.mp direct)
    rw [if_neg direct, level]
    rfl

end Trees

/- What an operation on one file leaves alone -/

structure Obj where
  size : Nat
  nlink : Nat
  kind : Nat
  block : Nat → Mem

def obj (s : Vol) (i : Nat) : Obj :=
  ⟨(hdr s i).size, (hdr s i).nlink, (hdr s i).kind, (hdr s i).block s.dev⟩

/-- Only file `i` has changed: the other objects and the blocks of the other files are as
    before. -/
structure Only (s s' : Vol) (i : Nat) : Prop where
  bam : BamOk s'
  geo : s'.fs.geo = s.fs.geo
  nodup : s'.files.Nodup
  files : ∀ j, j ≠ i → (j ∈ s'.files ↔ j ∈ s.files)
  fso : ∀ j, j ≠ i → s'.fso j = s.fso j
  dev : ∀ j ∈ s.files, j ≠ i → ∀ b ∈ holds s j, s'.dev b = s.dev b

/-- File `j` has the same header, and all its blocks have the same contents. -/
structure Kept (s s' : Vol) (j : Nat) : Prop where
  hdr : hdr s' j = hdr s j
  dev : ∀ b ∈ holds s j, s'.dev b = s.dev b

namespace Kept
variable {s s' : Vol} {j : Nat}

theorem trees (k : Kept s s' j) : holds s' j = holds s j ∧
    ∀ log, (Natfs.hdr s' j).phys s'.dev log = (Natfs.hdr s j).phys s.dev log := by
  have inner : ∀ b ∈ (Natfs.hdr s j).inners s.dev, s'.dev b = s.dev b := fun b mem =>
    k.dev b (mem_cons_of_mem _ (Hdr.inners_subset mem))
  obtain ⟨owned, _, phys⟩ := Hdr.trees_congr inner
  refine ⟨?_, ?_⟩
  · rw [holds, holds, k.hdr, owned]
  · intro log
    rw [k.hdr, phys]

theorem obj (k : Kept s s' j) : obj s' j = obj s j := by
  have blocks : (Natfs.hdr s' j).block s'.dev = (Natfs.hdr s j).block s.dev := by
    funext log
    simp only [Hdr.block, k.trees.2 log]
    split
    · rfl
    · rename_i found
      exact k.dev _ (mem_cons_of_mem _ (Hdr.phys_mem found).2.2)
  rw [Natfs.obj, Natfs.obj, blocks, k.hdr]

theorem counted (k : Kept s s' j) (count : (Natfs.hdr s j).Counted s.dev) :
    (Natfs.hdr s' j).Counted s'.dev := by
  have same := k.trees.1
  simp only [holds, cons.injEq, true_and] at same
  rw [Hdr.Counted, same, k.hdr]
  exact count

theorem opened (k : Kept s s' j) (geo : s'.fs.geo = s.fs.geo) (fso : s'.fso j = s.fso j)
    (file : j ∈ s'.files) (ref : (s.fso j).refcnt ≠ 0) (shape : (Natfs.hdr s j).Shape)
    (open' : Opened s j) : Opened s' j := by
  rw [hdr_of_open ref] at shape
  refine ⟨file, ?_, by rw [fso]; exact open'.small, ?_⟩
  · intro valid
    rw [fso] at valid ⊢
    obtain ⟨phys, slot⟩ := open'.cache valid
    refine ⟨?_, slot⟩
    have same := k.trees.2 (s.fso j).bmapLog
    rw [hdr_of_open (by rw [fso]; exact ref), hdr_of_open ref, fso,
      Hdr.phys_fileBlock shape.toMap open'.small slot,
      Hdr.phys_fileBlock shape.toMap open'.small slot] at same
    rw [phys, same]
  · intro clean
    rw [fso] at clean
    rw [savedHdr, geo, k.dev j (mem_cons_self ..), fso]
    exact open'.saved clean

end Kept

namespace Only
variable {s s' : Vol} {i : Nat}

theorem refl (disk : Disk s) : Only s s i :=
  ⟨disk.bam, rfl, disk.files, fun _ _ => Iff.rfl, fun _ _ => rfl, fun _ _ _ _ _ => rfl⟩

theorem kept (o : Only s s' i) (file : j ∈ s.files) (ne : j ≠ i) : Kept s s' j := by
  refine ⟨?_, o.dev j file ne⟩
  rw [hdr, hdr, savedHdr, savedHdr, o.fso j ne, o.geo, o.dev j file ne j (mem_cons_self ..)]

theorem trans (a : Only s t i) (b : Only t s' i) : Only s s' i := by
  refine ⟨b.bam, b.geo.trans a.geo, b.nodup, ?_, ?_, ?_⟩
  · intro j ne
    rw [b.files j ne, a.files j ne]
  · intro j ne
    rw [b.fso j ne, a.fso j ne]
  · intro j file ne x mem
    have kept := a.kept file ne
    rw [b.dev j ((a.files j ne).mpr file) ne x (by rw [kept.trees.1]; exact mem), a.dev j file ne x mem]

theorem disk (o : Only s s' i) (d : Disk s)
    (nodup : i ∈ s'.files → (holds s' i).Nodup) (shape : i ∈ s'.files → (hdr s' i).Shape)
    (data : i ∈ s'.files → ∀ b ∈ holds s' i, s.fs.geo.inData b ∧ used s' b = true)
    (source : i ∈ s'.files → ∀ b ∈ holds s' i, i ∈ s.files ∧ b ∈ holds s i ∨ used s b = false)
    (still : ∀ j ∈ s.files, j ≠ i → ∀ b ∈ holds s j, used s' b = true)
    (opened : (s'.fso i).refcnt ≠ 0 → Opened s' i) : Disk s' := by
  have same : ∀ j, j ∈ s'.files → j ≠ i → j ∈ s.files ∧ holds s' j = holds s j := by
    intro j file ne
    have old := (o.files j ne).mp file
    exact ⟨old, (o.kept old ne).trees.1⟩
  have foreign : i ∈ s'.files → ∀ j ∈ s.files, j ≠ i → ∀ b ∈ holds s' i, b ∉ holds s j := by
    intro file j other ne b mem mem'
    rcases source file b mem with ⟨old, held⟩ | free
    · exact d.apart i old j other (fun eq => ne eq.symm) b held mem'
    · rw [(d.data j other b mem').2] at free
      exact absurd free (by decide)
  refine ⟨o.bam, o.nodup, ?_, ?_, ?_, ?_, ?_⟩
  · intro j file
    by_cases eq : j = i
    · rw [eq] at file ⊢
      exact nodup file
    · obtain ⟨old, held⟩ := same j file eq
      rw [held]
      exact d.nodup j old
  · intro j file k file' ne b mem
    by_cases eq : j = i
    · obtain ⟨old, held⟩ := same k file' (fun h => ne (eq.trans h.symm))
      rw [held]
      rw [eq] at file mem
      exact foreign file k old (fun h => ne (eq.trans h.symm)) b mem
    · obtain ⟨old, held⟩ := same j file eq
      rw [held] at mem
      by_cases eq' : k = i
      · intro mem'
        rw [eq'] at file' mem'
        exact foreign file' j old eq b mem' mem
      · obtain ⟨old', held'⟩ := same k file' eq'
        rw [held']
        exact d.apart j old k old' ne b mem
  · intro j file b mem
    rw [o.geo]
    by_cases eq : j = i
    · rw [eq] at file mem
      exact data file b mem
    · obtain ⟨old, held⟩ := same j file eq
      rw [held] at mem
      exact ⟨(d.data j old b mem).1, still j old eq b mem⟩
  · intro j file
    by_cases eq : j = i
    · rw [eq] at file ⊢
      exact shape file
    · obtain ⟨old, _⟩ := same j file eq
      rw [(o.kept old eq).hdr]
      exact d.shape j old
  · intro j ref
    by_cases eq : j = i
    · rw [eq] at ref ⊢
      exact opened ref
    · rw [o.fso j eq] at ref
      have before := d.opened j ref
      exact (o.kept before.file eq).opened o.geo (o.fso j eq) ((o.files j eq).mpr before.file) ref
        (d.shape j before.file) before

end Only

end Natfs
