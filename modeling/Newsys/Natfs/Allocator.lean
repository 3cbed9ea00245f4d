import Mathlib.Order.Bounds.Basic
import Newsys.Natfs.Mount

/- The allocation map as a set of block numbers (kern/fs/nat/bmap.c): whichever block of the map
   is in memory, `nat_balloc` adds the least number it may hand out and `nat_bfree` removes its
   argument. -/
namespace Natfs.Allocator
open Bytes Cmds

inductive Call where
  | balloc
  | bfree (blk : Nat)
  deriving DecidableEq

def Call.run (cx : Cx) : Call → NatM Nat
  | .balloc => natBalloc cx
  | .bfree blk => do
    natBfree cx blk
    pure blk

def Call.Inside (g : Geo) : Call → Prop
  | .balloc => True
  | .bfree blk => blk < 4096 * g.bamSize

def allocMap (s : Vol) : Set Nat := {b | b < 4096 * s.fs.geo.bamSize ∧ used s b = true}

/- The abstract allocator -/

/-- The numbers that may be handed out when those of `U` are in use. -/
def free (g : Geo) (U : Set Nat) : Set Nat :=
  {b | g.dataBlock / 4096 * 4096 ≤ b ∧ b < 4096 * g.bamSize ∧ b ∉ U}

def Answer (g : Geo) (U : Set Nat) : Call → Res Errno Nat → Prop
  | .balloc, .ok bn => IsLeast (free g U) bn
  | .balloc, .err e => e = .ENOSPC ∧ free g U = ∅
  | .bfree _, .ok _ => True
  | _, _ => False

def next (U : Set Nat) : Call → Res Errno Nat → Set Nat
  | .balloc, .ok bn => insert bn U
  | .bfree blk, _ => U \ {blk}
  | .balloc, _ => U

/-- Along the calls `cs` the map is the set `U` that the answers lead to, and the answers are
    those of the abstract allocator. -/
def Tracks (cx : Cx) : List Call → Set Nat → Vol → Prop
  | [], U, s => allocMap s = U
  | c :: cs, U, s => allocMap s = U ∧ Answer s.fs.geo U c (c.run cx s).1 ∧
      Tracks cx cs (next U c (c.run cx s).1) (c.run cx s).2

variable {s s' : Vol}

theorem allocMap_written (w : Written s s' bn v) (inside : bn < 4096 * s.fs.geo.bamSize) :
    allocMap s' = if v = true then insert bn (allocMap s) else allocMap s \ {bn} := by
  ext b
  by_cases lt : b < 4096 * s.fs.geo.bamSize
  · by_cases eq : b = bn
    · subst eq
      cases v <;> simp [allocMap, w.frame.geo, w.used _ lt, lt]
    · cases v <;> simp [allocMap, w.frame.geo, w.used _ lt, lt, eq]
  · have ne : b ≠ bn := by omega
    cases v <;> simp [allocMap, w.frame.geo, lt, ne]

theorem allocMap_congr (geo : s'.fs.geo = s.fs.geo)
    (same : ∀ b, b < 4096 * s.fs.geo.bamSize → used s' b = used s b) : allocMap s' = allocMap s := by
  ext b
  simp only [allocMap, Set.mem_ofPred_eq, geo]
  exact and_congr_right fun lt => by rw [same b lt]

theorem not_mem_allocMap (lt : b < 4096 * s.fs.geo.bamSize) : b ∉ allocMap s ↔ used s b = false := by
  simp [allocMap, lt]

theorem least_of_taken (t : Taken s s' (4096 * (s.fs.geo.dataBlock / 4096)) bn) :
    IsLeast (free s.fs.geo (allocMap s)) bn := by
  have above := t.above
  constructor
  · exact ⟨by omega, t.covered, (not_mem_allocMap t.covered).mpr t.free⟩
  · intro b mem
    obtain ⟨lower, upper, clear⟩ := mem
    rw [not_mem_allocMap upper] at clear
    apply Nat.not_lt.mp
    intro lt
    have set := t.lowest b (by omega) lt
    rw [clear] at set
    cases set

variable {cx : Cx}

theorem wp_run (noio : cx.NoIoError) (sync : Synced s)
    (fits : 4096 * s.fs.geo.bamSize ≤ 2 ^ 32) (inside : c.Inside s.fs.geo) :
    Cmd.wp (c.run cx) (fun r s' => Answer s.fs.geo (allocMap s) c r ∧ Synced s' ∧
      s'.fs.geo = s.fs.geo ∧ allocMap s' = next (allocMap s) c r) s := by
  cases c with
  | balloc =>
    apply wp_natBalloc_any_io sync (not_ballocLoses noio s)
    · intro s' bn t _
      have covered := t.covered
      rw [Nat.mod_eq_of_lt (by omega)]
      refine ⟨least_of_taken t, t.written.sync, t.written.frame.geo, ?_⟩
      exact allocMap_written t.written t.covered
    · intro s' sync' frame same rest
      refine ⟨⟨rfl, ?_⟩, sync', frame.geo, allocMap_congr frame.geo same⟩
      ext b
      simp only [free, Set.mem_ofPred_eq, Set.mem_empty_iff_false, iff_false]
      rintro ⟨lower, upper, clear⟩
      rw [not_mem_allocMap upper, rest b (by omega) upper] at clear
      cases clear
    · exact fun _ _ io _ => (noio.none io).elim
  | bfree blk =>
    simp only [Call.run, Cmd.wp_bind]
    apply wp_natBfree_any noio sync inside
    intro s' w
    exact ⟨trivial, w.sync, w.frame.geo, allocMap_written w inside⟩

theorem tracks_of_fits (noio : cx.NoIoError) (cs : List Call) :
    ∀ {s : Vol}, Synced s → 4096 * s.fs.geo.bamSize ≤ 2 ^ 32 → (∀ c ∈ cs, c.Inside s.fs.geo) →
    Tracks cx cs (allocMap s) s := by
  induction cs with
  | nil =>
    intro s _ _ _
    rfl
  | cons c cs ih =>
    intro s sync fits inside
    obtain ⟨answer, sync', geo, map⟩ := wp_run noio sync fits (inside c (List.mem_cons_self ..))
    refine ⟨rfl, answer, ?_⟩
    rw [← map]
    apply ih sync'
    · rw [geo]
      exact fits
    · intro c' mem
      rw [geo]
      exact inside c' (List.mem_cons_of_mem _ mem)

/- A map with more bits than there are block numbers -/

/-- All numbers of 32 bits are in use, the first block of the map is the cached one. -/
def fullVol (g : Geo) : Vol :=
  { dev := fun x => if x < g.bamBlock + 2 ^ 20 then fun _ => 0xff else zero
    fs := { geo := g, freeBlock := g.dataBlock, bamBuf := fun _ => 0xff, bamCurr := g.bamBlock,
            bamDirty := false }
    fso := fun _ => Fso.unused
    files := []
    tick := 0 }

theorem fullVol_synced (g : Geo) : Synced (fullVol g) := by
  refine ⟨fun _ _ => ?_, fun dirty => by cases dirty⟩
  simp [fullVol]

theorem fullVol_bamBlk (g : Geo) (j : Nat) :
    bamBlk (fullVol g) j = if j < 2 ^ 20 then fun _ => 0xff else zero := by
  show (if g.bamBlock = g.bamBlock + j then fun _ => 0xff
    else if g.bamBlock + j < g.bamBlock + 2 ^ 20 then fun _ => 0xff else zero) = _
  by_cases first : g.bamBlock = g.bamBlock + j
  · rw [if_pos first, if_pos (by omega)]
  · rw [if_neg first]
    exact if_congr (by omega) rfl rfl

theorem fullVol_used (g : Geo) (b : Nat) : used (fullVol g) b = decide (b < 2 ^ 32) := by
  have ones : ∀ j, j < 8 → BitVec.getLsbD (0xff : Byte) j = true := by decide
  rw [used, fullVol_bamBlk]
  by_cases small : b < 2 ^ 32
  · rw [if_pos (by omega), decide_eq_true small]
    exact ones _ (Nat.mod_lt _ (by decide))
  · rw [if_neg (by omega), decide_eq_false small]
    exact bit_zero _

theorem fullVol_balloc (noio : cx.NoIoError) (start : g.dataBlock < 2 ^ 32)
    (more : 2 ^ 32 < 4096 * g.bamSize) : (natBalloc cx (fullVol g)).1 = .ok 0 := by
  show Cmd.wp (natBalloc cx) (fun r _ => r = .ok 0) (fullVol g)
  have past : used (fullVol g) (2 ^ 32) = false := by simp [fullVol_used]
  apply wp_natBalloc_any_io (fullVol_synced g) (not_ballocLoses noio _)
  · intro s' bn t _
    have clear := t.free
    rw [fullVol_used, decide_eq_false_iff_not] at clear
    have first : bn = 2 ^ 32 := by
      apply Classical.byContradiction
      intro ne
      have set := t.lowest (2 ^ 32) (by show 4096 * (g.dataBlock / 4096) ≤ 2 ^ 32; omega) (by omega)
      rw [past] at set
      cases set
    rw [first, Nat.mod_self]
  · intro s' _ _ _ rest
    have set := rest (2 ^ 32) (by show 4096 * (g.dataBlock / 4096) ≤ 2 ^ 32; omega) more
    rw [past] at set
    cases set
  · exact fun _ _ io _ => (noio.none io).elim

theorem fullVol_strays (noio : cx.NoIoError) (start : g.dataBlock < 2 ^ 32)
    (more : 2 ^ 32 < 4096 * g.bamSize) : ¬ Tracks cx [.balloc] (allocMap (fullVol g)) (fullVol g) := by
  intro tracks
  have answer := tracks.2.1
  rw [Call.run, fullVol_balloc noio start more] at answer
  have zeroFree : 0 ∉ allocMap (fullVol g) := answer.1.2.2
  apply zeroFree
  constructor
  · show 0 < 4096 * g.bamSize
    omega
  · simp [fullVol_used]

def sampleGeo : Geo :=
  { bamBlock := 2, bamSize := 2 ^ 20 + 1, dataBlock := 2 ^ 20 + 3, dataSize := 2 ^ 32 - (2 ^ 20 + 3)
    rootBlock := 2 ^ 20 + 3, ndirblks := 64, nindirlev := 1, readOnly := false, noAtime := false
    insecure := false }

def sampleCx : Cx := { io := fun _ => none, nomem := fun _ => none, clock := id, euid := 0, egid := 0 }

theorem sampleCx_noio : sampleCx.NoIoError := fun _ => rfl

/-- The numbers of a superblock, and the blocks of the map, are numbers of 32 bits. -/
structure Words (g : Geo) : Prop where
  data : g.dataBlock < 2 ^ 32
  map : g.bamBlock + g.bamSize ≤ 2 ^ 32

/-- Over whole runs the map with its one cached block is the abstract set, exactly when the map
    has no more bits than there are block numbers. -/
theorem tracks_iff_fits (g : Geo) (words : Words g) :
    (∀ (cx : Cx) (s : Vol) (cs : List Call), cx.NoIoError → Synced s → s.fs.geo = g →
      (∀ c ∈ cs, c.Inside g) → Tracks cx cs (allocMap s) s) ↔ 4096 * g.bamSize ≤ 2 ^ 32 := by
  constructor
  · intro tracks
    apply Nat.not_lt.mp
    intro more
    apply fullVol_strays sampleCx_noio words.data more
    apply tracks sampleCx (fullVol g) [.balloc] sampleCx_noio (fullVol_synced g) rfl
    intro c mem
    rw [List.mem_singleton.mp mem]
    trivial
  · intro fits cx s cs noio sync geo inside
    subst geo
    exact tracks_of_fits noio cs sync fits inside

/-- A map of one block. -/
theorem tracks_iff_fits_small : Words { sampleGeo with bamSize := 1 } ∧
    ((∀ (cx : Cx) (s : Vol) (cs : List Call), cx.NoIoError → Synced s →
      s.fs.geo = { sampleGeo with bamSize := 1 } →
      (∀ c ∈ cs, c.Inside { sampleGeo with bamSize := 1 }) → Tracks cx cs (allocMap s) s) ↔
      4096 * 1 ≤ 2 ^ 32) :=
  ⟨⟨by decide, by decide⟩, tracks_iff_fits { sampleGeo with bamSize := 1 } ⟨by decide, by decide⟩⟩

/-- With every number of 32 bits in use `nat_balloc` answers 0, whose bit was set. -/
theorem strays_past_words : Words sampleGeo ∧ sampleCx.NoIoError ∧ Synced (fullVol sampleGeo) ∧
    (natBalloc sampleCx (fullVol sampleGeo)).1 = .ok 0 ∧ used (fullVol sampleGeo) 0 = true ∧
    ¬ Tracks sampleCx [.balloc] (allocMap (fullVol sampleGeo)) (fullVol sampleGeo) :=
  ⟨⟨by decide, by decide⟩, sampleCx_noio, fullVol_synced sampleGeo,
    fullVol_balloc sampleCx_noio (by decide) (by decide), by simp [fullVol_used],
    fullVol_strays sampleCx_noio (by decide) (by decide)⟩

end Natfs.Allocator
