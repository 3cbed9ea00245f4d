import Newsys.Natfs.Layout

/- The block allocation map (kern/fs/nat/bmap.c): one bit per block, kept in `bamSize` blocks
   of 4096 bits, of which `struct fs` holds one in memory and writes it back when it switches. -/
namespace Natfs
open Bytes Cmds Cmd List Nat

def natSyncBam (cx : Cx) : NatM Unit := do
  let s ← get
  if s.fs.bamDirty then
    modify fun s => { s with fs := { s.fs with bamDirty := false } }
    blkGet cx s.fs.bamCurr
    blkFill s.fs.bamCurr s.fs.bamBuf
  else pure ()

def natSwitchBam (cx : Cx) (blk : Nat) : NatM Unit := do
  let s ← get
  if blk = s.fs.bamCurr then pure () else
    let _ ← attempt (natSyncBam cx)
    match ← attempt (blkRead cx blk) with
    | .error e =>
      modify fun s => { s with fs := { s.fs with bamCurr := 0 } }
      fail e
    | .ok b => modify fun s => { s with fs := { s.fs with bamBuf := b, bamCurr := blk } }

def natWriteBam (cx : Cx) (blk : Nat) (bused : Bool) : NatM Unit := do
  let s ← get
  natSwitchBam cx (s.fs.geo.bamBlock + blk / 512 / 8)
  modify fun s => { s with fs := { s.fs with
    bamBuf := setBit s.fs.bamBuf (8 * (blk / 8 % 512) + blk % 8) bused, bamDirty := true } }

def freeWord (b : Mem) : Option Nat :=
  (range 128).find? fun w => getLE b (4 * w) 4 != 0xffffffff

def lowOnes : Nat → Nat → Nat
  | 0, _ => 0
  | fuel + 1, bamw => if bamw % 2 = 1 then lowOnes fuel (bamw / 2) + 1 else 0

def natBallocFrom (cx : Cx) (i : Nat) : Nat → NatM Nat
  | 0 => fail .ENOSPC
  | n + 1 => do
    let s ← get
    natSwitchBam cx (s.fs.geo.bamBlock + i)
    let s ← get
    match freeWord s.fs.bamBuf with
    | none => natBallocFrom cx (i + 1) n
    | some w =>
      let bamw := getLE s.fs.bamBuf (4 * w) 4
      let bn := lowOnes 32 bamw
      modify fun s => { s with fs := { s.fs with
        bamBuf := setLE s.fs.bamBuf (4 * w) 4 (bamw ||| 2 ^ bn), bamDirty := true } }
      pure ((bn + 32 * w + i * 512 * 8) % 2 ^ 32)

def natBalloc (cx : Cx) : NatM Nat := do
  let s ← get
  let i := s.fs.geo.dataBlock / 512 / 8
  natBallocFrom cx i (s.fs.geo.bamSize - i)

def natBfree (cx : Cx) (blk : Nat) : NatM Unit := do
  modify fun s => { s with fs := { s.fs with freeBlock := min s.fs.freeBlock blk } }
  natWriteBam cx blk false

/- The map as a set of used blocks -/

/-- Block `j` of the map: the cached copy when it is the one in memory. -/
def bamBlk (s : Vol) (j : Nat) : Mem :=
  if s.fs.bamCurr = s.fs.geo.bamBlock + j then s.fs.bamBuf else s.dev (s.fs.geo.bamBlock + j)

def used (s : Vol) (b : Nat) : Bool := bit (bamBlk s (b / 4096)) (b % 4096)

def Geo.inData (g : Geo) (b : Nat) : Prop := g.dataBlock ≤ b ∧ b < g.dataBlock + g.dataSize

def Geo.inBam (g : Geo) (b : Nat) : Prop := g.bamBlock ≤ b ∧ b < g.bamBlock + g.bamSize

instance (g : Geo) (b : Nat) : Decidable (g.inData b) := inferInstanceAs (Decidable (_ ∧ _))
instance (g : Geo) (b : Nat) : Decidable (g.inBam b) := inferInstanceAs (Decidable (_ ∧ _))

/-- A superblock the operations can work with: block 0 stands for a hole, so it is no data
    block, the map lies outside the data area and has a bit for every block of it. -/
structure Geo.Ok (g : Geo) : Prop where
  bamPos : 0 < g.bamBlock
  dataPos : 0 < g.dataBlock
  apart : g.bamBlock + g.bamSize ≤ g.dataBlock ∨ g.dataBlock + g.dataSize ≤ g.bamBlock
  covered : g.dataBlock + g.dataSize ≤ 4096 * g.bamSize
  fits : g.dataBlock + g.dataSize ≤ 2 ^ 32
  root : g.inData g.rootBlock

structure BamOk (s : Vol) : Prop where
  geo : s.fs.geo.Ok
  clean : s.fs.bamDirty = false → s.fs.geo.inBam s.fs.bamCurr → s.dev s.fs.bamCurr = s.fs.bamBuf
  dirty : s.fs.bamDirty = true → s.fs.geo.inBam s.fs.bamCurr
  outside : ∀ b, b < 4096 * s.fs.geo.bamSize → ¬ s.fs.geo.inData b → used s b = true

structure BamFrame (s s' : Vol) : Prop where
  geo : s'.fs.geo = s.fs.geo
  fso : s'.fso = s.fso
  files : s'.files = s.files
  dev : ∀ b, ¬ s.fs.geo.inBam b → s'.dev b = s.dev b

theorem BamFrame.refl (s : Vol) : BamFrame s s := ⟨rfl, rfl, rfl, fun _ _ => rfl⟩

variable {s : Vol}

theorem BamFrame.trans {t u : Vol} (a : BamFrame s t) (b : BamFrame t u) : BamFrame s u := by
  refine ⟨b.geo.trans a.geo, b.fso.trans a.fso, b.files.trans a.files, ?_⟩
  intro x out
  rw [b.dev x (by rw [a.geo]; exact out), a.dev x out]

variable {b : Nat}

variable {g : Geo}

theorem data_not_bam (ok : g.Ok) (inside : g.inData b) : ¬ g.inBam b := by
  intro both
  have apart := ok.apart
  simp only [Geo.inData, Geo.inBam] at inside both
  omega

theorem data_pos (ok : g.Ok) (inside : g.inData b) : 0 < b := by
  have pos := ok.dataPos
  simp only [Geo.inData] at inside
  omega

theorem data_covered (ok : g.Ok) (inside : g.inData b) : b < 4096 * g.bamSize := by
  have cover := ok.covered
  simp only [Geo.inData] at inside
  omega

theorem data_fits (ok : g.Ok) (inside : g.inData b) : b < 2 ^ 32 := by
  have fits := ok.fits
  simp only [Geo.inData] at inside
  omega

variable {cx : Cx} {bn : Nat} {Q : Res Errno Unit → Vol → Prop}

theorem wp_blkGet_taken (taken : cx.io s.tick = none) (ok : Q (.ok ()) { s with tick := s.tick + 1 }) :
    wp (blkGet cx bn) Q s := by
  simp only [wp, blkGet, taken]
  exact ok

theorem blkGet_ok (noio : cx.NoIoError) (bn : Nat) (s : Vol) :
    blkGet cx bn s = (.ok (), { s with tick := s.tick + 1 }) := by
  have none := noio s.tick
  simp only [blkGet, none]

@[simp] theorem wp_blkGet (noio : cx.NoIoError) (bn : Nat) (s : Vol) (Q : Res Errno Unit → Vol → Prop) :
    wp (blkGet cx bn) Q s = Q (.ok ()) { s with tick := s.tick + 1 } := by
  simp only [wp, blkGet_ok noio]

@[simp] theorem wp_blkRead (noio : cx.NoIoError) (bn : Nat) (s : Vol) (Q : Res Errno Mem → Vol → Prop) :
    wp (blkRead cx bn) Q s = Q (.ok (s.dev bn)) { s with tick := s.tick + 1 } := by
  simp only [blkRead, wp_bind, wp_blkGet noio, after_ok, wp_get, wp_pure]

theorem wp_blkGet_any (ok : Q (.ok ()) { s with tick := s.tick + 1 })
    (failed : ∀ e, cx.IoError e → Q (.err e) { s with tick := s.tick + 1 }) : wp (blkGet cx bn) Q s := by
  simp only [wp, blkGet]
  cases outcome : cx.io s.tick with
  | none => exact ok
  | some e => exact failed e ⟨_, outcome⟩

theorem wp_blkRead_any {Q : Res Errno Mem → Vol → Prop} (ok : Q (.ok (s.dev bn)) { s with tick := s.tick + 1 })
    (failed : ∀ e, cx.IoError e → Q (.err e) { s with tick := s.tick + 1 }) : wp (blkRead cx bn) Q s := by
  simp only [blkRead, wp_bind]
  exact wp_blkGet_any ok failed

@[simp] theorem wp_blkFill (bn : Nat) (b : Mem) (s : Vol) (Q : Res Errno Unit → Vol → Prop) :
    wp (blkFill bn b) Q s = Q (.ok ()) (s.setDev bn b) := rfl

@[simp] theorem wp_clockTime (cx : Cx) (s : Vol) (Q : Res Errno Nat → Vol → Prop) :
    wp (clockTime cx) Q s = Q (.ok (cx.clock s.tick)) s := rfl

variable {s' : Vol}

theorem used_congr (geo : s'.fs.geo = s.fs.geo) (curr : s'.fs.bamCurr = s.fs.bamCurr)
    (buf : s'.fs.bamBuf = s.fs.bamBuf) (inside : b < 4096 * s.fs.geo.bamSize)
    (dev : ∀ x, s.fs.geo.inBam x → s'.dev x = s.dev x) : used s' b = used s b := by
  have place : s.fs.geo.inBam (s.fs.geo.bamBlock + b / 4096) := by
    simp only [Geo.inBam]; omega
  simp only [used, bamBlk, geo, curr, buf, dev _ place]

theorem BamOk.congr (ok : BamOk s) (fs : s'.fs = s.fs)
    (dev : ∀ x, s.fs.geo.inBam x → s'.dev x = s.dev x) : BamOk s' := by
  refine ⟨by rw [fs]; exact ok.geo, ?_, by rw [fs]; exact ok.dirty, ?_⟩
  · rw [fs]
    intro clean inside
    rw [dev _ inside]
    exact ok.clean clean inside
  · rw [fs]
    intro b lt out
    rw [used_congr (by rw [fs]) (by rw [fs]) (by rw [fs]) lt dev]
    exact ok.outside b lt out

/-- The block in memory is a block of the map if it is to be written back, and agrees with the
    device if it is one that is not. -/
structure Synced (s : Vol) : Prop where
  clean : s.fs.bamDirty = false → s.fs.geo.inBam s.fs.bamCurr → s.dev s.fs.bamCurr = s.fs.bamBuf
  dirty : s.fs.bamDirty = true → s.fs.geo.inBam s.fs.bamCurr

theorem BamOk.synced (ok : BamOk s) : Synced s := ⟨ok.clean, ok.dirty⟩

theorem BamOk.of_synced (ok : BamOk s) (sync : Synced s') (geo : s'.fs.geo = s.fs.geo)
    (still : ∀ b, b < 4096 * s.fs.geo.bamSize → ¬ s.fs.geo.inData b → used s b = true →
      used s' b = true) : BamOk s' := by
  refine ⟨by rw [geo]; exact ok.geo, sync.clean, sync.dirty, ?_⟩
  rw [geo]
  intro b lt out
  exact still b lt out (ok.outside b lt out)

structure Switched (s s' : Vol) (j : Nat) : Prop where
  sync : Synced s'
  frame : BamFrame s s'
  used : ∀ b, b < 4096 * s.fs.geo.bamSize → used s' b = used s b
  curr : s'.fs.bamCurr = s.fs.geo.bamBlock + j

variable {j : Nat}

theorem switched_of_used (frame : BamFrame s s')
    (same : ∀ b, b < 4096 * s.fs.geo.bamSize → Natfs.used s' b = Natfs.used s b)
    (curr : s'.fs.bamCurr = s.fs.geo.bamBlock + j) (inside : j < s.fs.geo.bamSize)
    (clean : s'.fs.bamDirty = false → s'.dev s'.fs.bamCurr = s'.fs.bamBuf) : Switched s s' j := by
  refine ⟨⟨fun c _ => clean c, ?_⟩, frame, same, curr⟩
  intro _
  rw [frame.geo, curr]
  simp only [Geo.inBam]; omega

theorem wp_natSyncBam (sync : Synced s) (taken : s.fs.bamDirty = true → cx.io s.tick = none)
    (post : ∀ s', BamFrame s s' → s'.fs.bamDirty = false → s'.fs.bamCurr = s.fs.bamCurr → s'.fs.bamBuf = s.fs.bamBuf →
      (∀ x, s.fs.geo.inBam x → x ≠ s.fs.bamCurr → s'.dev x = s.dev x) →
      (s.fs.geo.inBam s.fs.bamCurr → s'.dev s.fs.bamCurr = s.fs.bamBuf) →
      Q (.ok ()) s') : wp (natSyncBam cx) Q s := by
  simp only [natSyncBam, wp_bind, wp_get, after_ok]
  by_cases d : s.fs.bamDirty = true
  · rw [if_pos d]
    have inside := sync.dirty d
    simp only [wp_bind, wp_modify, after_ok]
    refine wp_blkGet_taken (by exact taken d) ?_
    simp only [after_ok, wp_blkFill]
    apply post
    · refine ⟨rfl, rfl, rfl, ?_⟩
      intro b out
      exact update_ne _ _ _ (by intro eq; exact out (eq ▸ inside))
    · rfl
    · rfl
    · rfl
    · intro x _ ne
      exact update_ne _ _ _ ne
    · intro _
      exact update_same _ _ _
  · have clean : s.fs.bamDirty = false := by simpa using d
    rw [if_neg d]
    exact post s (BamFrame.refl s) clean rfl rfl (fun _ _ _ => rfl) (sync.clean clean)

/-- A switch to another map block loses the changes of the one in memory: `nat_switch_bam` goes on when
    `nat_sync_bam` fails, and the block is not marked dirty any more. -/
def SwitchLoses (cx : Cx) (blk : Nat) (s : Vol) : Prop :=
  blk ≠ s.fs.bamCurr ∧ s.fs.bamDirty = true ∧ cx.io s.tick ≠ none

theorem not_switchLoses (noio : cx.NoIoError) (blk : Nat) (s : Vol) : ¬ SwitchLoses cx blk s :=
  fun loses => loses.2.2 (noio s.tick)

structure SameMap (s s' : Vol) : Prop where
  frame : BamFrame s s'
  sync : 0 < s.fs.geo.bamBlock → Synced s'
  used : 0 < s.fs.geo.bamBlock → ∀ b, b < 4096 * s.fs.geo.bamSize → used s' b = used s b

theorem SameMap.ok (same : SameMap s s') (ok : BamOk s) : BamOk s' := by
  have pos := ok.geo.bamPos
  refine ok.of_synced (same.sync pos) same.frame.geo ?_
  intro b lt _ before
  rw [same.used pos b lt]
  exact before

theorem Switched.sameMap {t u : Vol} (sw : Switched s t j) (same : SameMap t u) : SameMap s u := by
  have geo := sw.frame.geo
  refine ⟨sw.frame.trans same.frame, fun pos => same.sync (by rw [geo]; exact pos), ?_⟩
  intro pos b lt
  rw [same.used (by rw [geo]; exact pos) b (by rw [geo]; exact lt), sw.used b lt]

theorem wp_natSwitchBam_io (sync : Synced s) (inside : j < s.fs.geo.bamSize)
    (kept : ¬ SwitchLoses cx (s.fs.geo.bamBlock + j) s)
    (post : ∀ s', Switched s s' j → s' = s ∨ s'.fs.bamDirty = false → Q (.ok ()) s')
    (failed : ∀ e s', s.fs.geo.bamBlock + j ≠ s.fs.bamCurr → cx.IoError e → SameMap s s' → Q (.err e) s') :
    wp (natSwitchBam cx (s.fs.geo.bamBlock + j)) Q s := by
  have place : s.fs.geo.inBam (s.fs.geo.bamBlock + j) := by simp only [Geo.inBam]; omega
  simp only [natSwitchBam, wp_bind, wp_get, after_ok]
  by_cases here : s.fs.geo.bamBlock + j = s.fs.bamCurr
  · rw [if_pos here]
    exact post s ⟨sync, BamFrame.refl s, fun _ _ => rfl, here.symm⟩ (.inl rfl)
  · rw [if_neg here]
    have taken : s.fs.bamDirty = true → cx.io s.tick = none := fun dirty =>
      Decidable.not_not.mp fun fails => kept ⟨here, dirty, fails⟩
    simp only [wp_bind, wp_attempt]
    apply wp_natSyncBam sync taken
    intro s₁ frame clean curr buf other saved
    simp only [caught_ok, after_ok, wp_bind, wp_attempt]
    apply wp_blkRead_any
    · simp only [caught_ok, after_ok, wp_modify]
      refine post _ (switched_of_used ⟨frame.geo, frame.fso, frame.files, frame.dev⟩ ?_ rfl inside
        (fun _ => rfl)) (.inr clean)
      intro b lt
      have at' : s.fs.geo.inBam (s.fs.geo.bamBlock + b / 4096) := by simp only [Geo.inBam]; omega
      simp only [Natfs.used, bamBlk, frame.geo]
      by_cases target : j = b / 4096
      · subst target
        rw [if_pos rfl, if_neg (fun eq => here eq.symm)]
        rw [other _ place here]
      · rw [if_neg (by omega)]
        by_cases old : s.fs.bamCurr = s.fs.geo.bamBlock + b / 4096
        · rw [if_pos old, ← old, saved (old ▸ at')]
        · rw [if_neg old, other _ at' (fun eq => old eq.symm)]
    · intro e io
      simp only [caught_err, after_ok, wp_bind, wp_modify, wp_fail]
      refine failed e _ here io ⟨⟨frame.geo, frame.fso, frame.files, frame.dev⟩, ?_, ?_⟩
      · intro pos
        have none : ¬ s.fs.geo.inBam 0 := by simp only [Geo.inBam]; omega
        refine ⟨fun _ inBam => ?_, fun dirty => ?_⟩
        · exact absurd inBam (by rw [frame.geo]; exact none)
        · rw [clean] at dirty
          cases dirty
      · intro pos b lt
        have at' : s.fs.geo.inBam (s.fs.geo.bamBlock + b / 4096) := by simp only [Geo.inBam]; omega
        simp only [Natfs.used, bamBlk, frame.geo]
        rw [if_neg (by omega)]
        by_cases old : s.fs.bamCurr = s.fs.geo.bamBlock + b / 4096
        · rw [if_pos old, ← old, saved (old ▸ at')]
        · rw [if_neg old, other _ at' (fun eq => old eq.symm)]

/-- The bit of block `bn` now reads `v`; nothing else of the map has changed. -/
structure Written (s s' : Vol) (bn : Nat) (v : Bool) : Prop where
  sync : Synced s'
  frame : BamFrame s s'
  used : ∀ b, b < 4096 * s.fs.geo.bamSize → used s' b = if b = bn then v else used s b

structure Marked (s s' : Vol) (bn : Nat) (v : Bool) : Prop where
  ok : BamOk s'
  frame : BamFrame s s'
  used : ∀ b, b < 4096 * s.fs.geo.bamSize → used s' b = if b = bn then v else used s b

variable {v : Bool}

theorem Written.marked (w : Written s s' bn v) (ok : BamOk s)
    (data : v = false → s.fs.geo.inData bn) : Marked s s' bn v := by
  refine ⟨ok.of_synced w.sync w.frame.geo ?_, w.frame, w.used⟩
  intro b lt out before
  rw [w.used b lt]
  split
  · rename_i eq
    cases v with
    | true => rfl
    | false => exact absurd (eq ▸ data rfl) out
  · exact before

theorem written_of_buf {s₁ : Vol} (sw : Switched s s₁ (bn / 4096)) (inside : bn < 4096 * s.fs.geo.bamSize)
    (geo : s'.fs.geo = s₁.fs.geo) (fso : s'.fso = s₁.fso) (files : s'.files = s₁.files)
    (dev : s'.dev = s₁.dev) (curr : s'.fs.bamCurr = s₁.fs.bamCurr) (dirty : s'.fs.bamDirty = true)
    (buf : ∀ k, bit s'.fs.bamBuf k = if k = bn % 4096 then v else bit s₁.fs.bamBuf k) : Written s s' bn v := by
  have geoEq : s'.fs.geo = s.fs.geo := geo.trans sw.frame.geo
  refine ⟨⟨?_, ?_⟩, ?_, ?_⟩
  · intro clean; rw [dirty] at clean; exact absurd clean (by decide)
  · intro _
    rw [geoEq, curr, sw.curr]
    simp only [Geo.inBam]; omega
  · exact ⟨geoEq, fso.trans sw.frame.fso, files.trans sw.frame.files,
      fun b out => by rw [dev]; exact sw.frame.dev b out⟩
  · intro b lt
    rw [← sw.used b lt]
    simp only [Natfs.used, bamBlk, geo, curr, dev, sw.frame.geo, sw.curr]
    by_cases block : bn / 4096 = b / 4096
    · rw [block, if_pos rfl, if_pos rfl, buf]
      by_cases eq : b = bn
      · rw [if_pos (by rw [eq]), if_pos eq]
      · rw [if_neg (by omega), if_neg eq]
    · rw [if_neg (by omega), if_neg (fun eq => block (by rw [eq])), if_neg (by omega)]

theorem wp_natWriteBam_io (sync : Synced s)
    (inside : bn < 4096 * s.fs.geo.bamSize) (kept : ¬ SwitchLoses cx (s.fs.geo.bamBlock + bn / 4096) s)
    (post : ∀ s', Written s s' bn v → Q (.ok ()) s')
    (failed : ∀ e s', s.fs.geo.bamBlock + bn / 4096 ≠ s.fs.bamCurr → cx.IoError e → SameMap s s' →
      Q (.err e) s') : wp (natWriteBam cx bn v) Q s := by
  simp only [natWriteBam, wp_bind, wp_get, after_ok, Nat.div_div_eq_div_mul]
  apply wp_natSwitchBam_io sync (by omega) kept
  · intro s₁ sw _
    simp only [after_ok, wp_modify]
    apply post
    refine written_of_buf sw inside rfl rfl rfl rfl rfl rfl ?_
    intro k
    rw [bit_setBit, show 8 * (bn / 8 % 512) + bn % 8 = bn % 4096 by omega]
  · exact failed

theorem wp_natBfree_io (sync : Synced s)
    (inside : bn < 4096 * s.fs.geo.bamSize) (kept : ¬ SwitchLoses cx (s.fs.geo.bamBlock + bn / 4096) s)
    (post : ∀ s', Written s s' bn false → Q (.ok ()) s')
    (failed : ∀ e s', s.fs.geo.bamBlock + bn / 4096 ≠ s.fs.bamCurr → cx.IoError e → SameMap s s' →
      Q (.err e) s') : wp (natBfree cx bn) Q s := by
  simp only [natBfree, wp_bind, wp_modify, after_ok]
  have sync' : Synced { s with fs := { s.fs with freeBlock := min s.fs.freeBlock bn } } :=
    ⟨sync.clean, sync.dirty⟩
  refine wp_natWriteBam_io sync' inside kept ?_ ?_
  · intro s' w
    exact post s' ⟨w.sync, ⟨w.frame.geo, w.frame.fso, w.frame.files, w.frame.dev⟩, w.used⟩
  · intro e s' away io same
    have frame := same.frame
    exact failed e s' away io ⟨⟨frame.geo, frame.fso, frame.files, frame.dev⟩, same.sync, same.used⟩

theorem wp_natBfree_any (noio : cx.NoIoError) (sync : Synced s) (inside : bn < 4096 * s.fs.geo.bamSize)
    (post : ∀ s', Written s s' bn false → Q (.ok ()) s') : wp (natBfree cx bn) Q s :=
  wp_natBfree_io sync inside (not_switchLoses noio _ s) post fun _ _ _ io _ => (noio.none io).elim

theorem wp_natBfree (noio : cx.NoIoError) (ok : BamOk s) (data : s.fs.geo.inData bn)
    (post : ∀ s', Marked s s' bn false → Q (.ok ()) s') : wp (natBfree cx bn) Q s :=
  wp_natBfree_any noio ok.synced (data_covered ok.geo data) fun s' w =>
    post s' (w.marked ok fun _ => data)

theorem lowOnes_spec (fuel bamw : Nat) (room : ∃ k, k < fuel ∧ bamw.testBit k = false) :
    lowOnes fuel bamw < fuel ∧ bamw.testBit (lowOnes fuel bamw) = false ∧
      ∀ k, k < lowOnes fuel bamw → bamw.testBit k = true := by
  induction fuel generalizing bamw with
  | zero => obtain ⟨k, lt, _⟩ := room; omega
  | succ fuel ih =>
    simp only [lowOnes]
    by_cases odd : bamw % 2 = 1
    · rw [if_pos odd]
      obtain ⟨k, lt, clear⟩ := room
      have half : ∃ k, k < fuel ∧ (bamw / 2).testBit k = false := by
        cases k with
        | zero => simp [testBit_zero, odd] at clear
        | succ k => exact ⟨k, by omega, by rw [← clear, testBit_succ]⟩
      obtain ⟨bound, here, below⟩ := ih (bamw / 2) half
      refine ⟨by omega, by rw [testBit_succ]; exact here, ?_⟩
      intro k lt
      cases k with
      | zero => simp [testBit_zero, odd]
      | succ k => rw [testBit_succ]; exact below k (by omega)
    · rw [if_neg odd]
      refine ⟨by omega, by simp [testBit_zero]; omega, by intro k lt; omega⟩

theorem clear_bit_of_ne {v : Nat} (lt : v < 2 ^ 32) (ne : v ≠ 0xffffffff) :
    ∃ k, k < 32 ∧ v.testBit k = false := by
  apply Classical.byContradiction
  intro none
  apply ne
  apply eq_of_testBit_eq
  intro k
  rw [show (0xffffffff : Nat) = 2 ^ 32 - 1 from rfl, testBit_two_pow_sub_one]
  by_cases low : k < 32
  · simp only [low, decide_true]
    cases h : v.testBit k with
    | true => rfl
    | false => exact absurd ⟨k, low, h⟩ none
  · simp only [low, decide_false]
    exact Nat.testBit_lt_two_pow (Nat.lt_of_lt_of_le lt (Nat.pow_le_pow_right (by omega) (by omega)))

theorem freeWord_none {b : Mem} (full : freeWord b = none) (k : Nat) (lt : k < 4096) :
    bit b k = true := by
  simp only [freeWord, find?_eq_none, mem_range] at full
  have word := full (k / 32) (by omega)
  simp only [bne_iff_ne, ne_eq, Decidable.not_not] at word
  have read := testBit_getLE b (4 * (k / 32)) 4 (k % 32) (by omega)
  rw [word, show (0xffffffff : Nat) = 2 ^ 32 - 1 from rfl, testBit_two_pow_sub_one] at read
  rw [show k = 8 * (4 * (k / 32)) + k % 32 by omega, ← read]
  simp [show k % 32 < 32 by omega]

theorem freeWord_some {b : Mem} {w : Nat} (found : freeWord b = some w) :
    w < 128 ∧ getLE b (4 * w) 4 ≠ 0xffffffff ∧ ∀ k, k < 32 * w → bit b k = true := by
  have here := find?_some found
  have mem := mem_of_find?_eq_some found
  simp only [mem_range] at mem
  refine ⟨mem, by simpa using here, ?_⟩
  intro k lt
  obtain ⟨i, hi, at', before⟩ := find?_eq_some_iff_getElem.mp found |>.2
  simp only [getElem_range] at at' before
  have word := before (k / 32) (by omega)
  simp only [Bool.not_eq_true', bne_eq_false_iff_eq] at word
  have read := testBit_getLE b (4 * (k / 32)) 4 (k % 32) (by omega)
  rw [word, show (0xffffffff : Nat) = 2 ^ 32 - 1 from rfl, testBit_two_pow_sub_one] at read
  rw [show k = 8 * (4 * (k / 32)) + k % 32 by omega, ← read]
  simp [show k % 32 < 32 by omega]

/-- The lowest free block from `start` on has been marked. -/
structure Taken (s s' : Vol) (start bn : Nat) : Prop where
  written : Written s s' bn true
  free : Natfs.used s bn = false
  covered : bn < 4096 * s.fs.geo.bamSize
  above : start ≤ bn
  lowest : ∀ b, start ≤ b → b < bn → Natfs.used s b = true

/-- An allocation: a block of the data area that was free, the lowest one the scan can see. -/
structure Allocated (s s' : Vol) (start bn : Nat) : Prop where
  marked : Marked s s' bn true
  free : Natfs.used s bn = false
  data : s.fs.geo.inData bn
  lowest : ∀ b, start ≤ b → b < bn → Natfs.used s b = true

theorem Taken.allocated (t : Taken s s' start bn) (ok : BamOk s) : Allocated s s' start bn := by
  have data : s.fs.geo.inData bn := by
    apply Classical.byContradiction
    intro out
    have marked := ok.outside bn t.covered out
    rw [t.free] at marked
    exact absurd marked (by decide)
  exact ⟨t.written.marked ok (by intro h; cases h), t.free, data, t.lowest⟩

theorem taken_of_word {s₁ : Vol} {i w : Nat} (sw : Switched s s₁ i)
    (inside : i < s.fs.geo.bamSize) (found : freeWord s₁.fs.bamBuf = some w) : let bamw := getLE s₁.fs.bamBuf (4 * w) 4
    let bn := lowOnes 32 bamw
    let s' := { s₁ with fs := { s₁.fs with
      bamBuf := setLE s₁.fs.bamBuf (4 * w) 4 (bamw ||| 2 ^ bn), bamDirty := true } }
    Taken s s' (4096 * i) (bn + 32 * w + i * 512 * 8) := by
  intro bamw bn s'
  obtain ⟨small, notFull, before⟩ := freeWord_some found
  have wordLt : bamw < 2 ^ 32 := getLE_lt _ _ 4
  obtain ⟨bnLt, clear, ones⟩ := lowOnes_spec 32 bamw (clear_bit_of_ne wordLt notFull)
  have bitAt : ∀ k, k < 32 → bit s₁.fs.bamBuf (32 * w + k) = bamw.testBit k := by
    intro k lt
    have read := testBit_getLE s₁.fs.bamBuf (4 * w) 4 k (by omega)
    rw [read]
    congr 1
    omega
  let blk := 4096 * i + 32 * w + bn
  have blkBlock : blk / 4096 = i := by omega
  have covered : blk < 4096 * s.fs.geo.bamSize := by omega
  have read : ∀ b, b / 4096 = i → b < 4096 * s.fs.geo.bamSize →
      Natfs.used s b = bit s₁.fs.bamBuf (b % 4096) := by
    intro b at' lt
    rw [← sw.used b lt]
    simp only [Natfs.used, bamBlk, sw.curr, sw.frame.geo, at', if_true]
  have free : Natfs.used s blk = false := by
    rw [read blk blkBlock covered, show blk % 4096 = 32 * w + bn by omega, bitAt bn bnLt]
    exact clear
  rw [show bn + 32 * w + i * 512 * 8 = blk by omega]
  refine ⟨?_, free, covered, by omega, ?_⟩
  · have sw' : Switched s s₁ (blk / 4096) := by rw [blkBlock]; exact sw
    refine written_of_buf sw' covered rfl rfl rfl rfl rfl rfl ?_
    intro k
    rw [bit_setLE, show blk % 4096 = 32 * w + bn by omega]
    by_cases word : 8 * (4 * w) ≤ k ∧ k < 8 * (4 * w + 4)
    · rw [if_pos word, testBit_or, testBit_two_pow]
      have same := bitAt (k - 32 * w) (by omega)
      rw [show 32 * w + (k - 32 * w) = k by omega] at same
      rw [show k - 8 * (4 * w) = k - 32 * w by omega, ← same]
      by_cases eq : k = 32 * w + bn
      · rw [if_pos eq]; simp [eq]
      · rw [if_neg eq]
        have apart : ¬ bn = k - 32 * w := by omega
        simp [apart]
    · rw [if_neg word, if_neg (by omega)]
  · intro b lower upper
    have at' : b / 4096 = i := by omega
    rw [read b at' (by omega)]
    by_cases early : b % 4096 < 32 * w
    · exact before _ early
    · have bit' := bitAt (b % 4096 - 32 * w) (by omega)
      rw [show 32 * w + (b % 4096 - 32 * w) = b % 4096 by omega] at bit'
      rw [bit']
      exact ones _ (by omega)

/-- The scan of the `n` map blocks from `i` on loses the changes of the one in memory: they are to be
    written back at the first switch, which the scan gets to unless the block has a free bit. -/
def ScanLoses (cx : Cx) (i n : Nat) (s : Vol) : Prop :=
  s.fs.bamDirty = true ∧ cx.io s.tick ≠ none ∧ 0 < n ∧
    (s.fs.geo.bamBlock + i ≠ s.fs.bamCurr ∨ freeWord s.fs.bamBuf = none ∧ 1 < n)

def BallocLoses (cx : Cx) (s : Vol) : Prop :=
  ScanLoses cx (s.fs.geo.dataBlock / 4096) (s.fs.geo.bamSize - s.fs.geo.dataBlock / 4096) s

theorem not_ballocLoses (noio : cx.NoIoError) (s : Vol) : ¬ BallocLoses cx s :=
  fun loses => loses.2.1 (noio s.tick)

theorem wp_natBallocFrom_io (n : Nat) :
    ∀ {s : Vol} {i : Nat}, Synced s → i + n = s.fs.geo.bamSize → ¬ ScanLoses cx i n s →
    ∀ {Q : Res Errno Nat → Vol → Prop},
    (∀ s' bn, Taken s s' (4096 * i) bn → s'.fs.bamCurr = s.fs.geo.bamBlock + bn / 4096 → Q (.ok (bn % 2 ^ 32)) s') →
    (∀ s', Synced s' → BamFrame s s' → (∀ b, b < 4096 * s.fs.geo.bamSize → used s' b = used s b) →
      (∀ b, 4096 * i ≤ b → b < 4096 * s.fs.geo.bamSize → used s b = true) → Q (.err .ENOSPC) s') →
    (∀ e s', cx.IoError e → SameMap s s' → Q (.err e) s') → wp (natBallocFrom cx i n) Q s := by
  induction n with
  | zero =>
    intro s i sync size _ Q _ full _
    simp only [natBallocFrom, wp_fail]
    refine full s sync (BamFrame.refl s) (fun _ _ => rfl) ?_
    intro b lower upper
    omega
  | succ n ih =>
    intro s i sync size kept Q done full failed
    simp only [natBallocFrom, wp_bind, wp_get, after_ok]
    apply wp_natSwitchBam_io sync (by omega) fun loses => kept ⟨loses.2.1, loses.2.2, succ_pos n, .inl loses.1⟩
    · intro s₁ sw fate
      have geo := sw.frame.geo
      simp only [after_ok, wp_bind, wp_get]
      split
      · rename_i none
        have skip : ∀ b, 4096 * i ≤ b → b < 4096 * (i + 1) → used s b = true := by
          intro b lower upper
          rw [← sw.used b (by omega)]
          simp only [used, bamBlk, sw.curr, sw.frame.geo, show b / 4096 = i by omega, if_true]
          exact freeWord_none none _ (by omega)
        -- a block that has been read in is clean, so only the first switch can lose something
        have kept' : ¬ ScanLoses cx (i + 1) n s₁ := by
          rintro ⟨dirty, fails, more, _⟩
          rcases fate with same | clean
          · rw [same] at dirty fails none
            exact kept ⟨dirty, fails, succ_pos n, .inr ⟨none, by omega⟩⟩
          · rw [clean] at dirty
            cases dirty
        apply ih sw.sync (by rw [geo]; omega) kept'
        · intro s' bn t curr
          have covered : bn < 4096 * s.fs.geo.bamSize := geo ▸ t.covered
          have above := t.above
          refine done s' bn ⟨⟨t.written.sync, sw.frame.trans t.written.frame, ?_⟩, ?_, covered,
            by omega, ?_⟩ (by rw [curr, geo])
          · intro b lt
            rw [t.written.used b (by rw [geo]; exact lt), sw.used b lt]
          · rw [← sw.used bn covered]; exact t.free
          · intro b lower upper
            by_cases here : b < 4096 * (i + 1)
            · exact skip b lower here
            · rw [← sw.used b (by omega)]
              exact t.lowest b (by omega) upper
        · intro s' sync' frame same rest
          refine full s' sync' (sw.frame.trans frame) ?_ ?_
          · intro b lt
            rw [same b (by rw [geo]; exact lt), sw.used b lt]
          · intro b lower upper
            by_cases here : b < 4096 * (i + 1)
            · exact skip b lower here
            · rw [← sw.used b upper]
              exact rest b (by omega) (by rw [geo]; exact upper)
        · exact fun e s' io same => failed e s' io (sw.sameMap same)
      · rename_i w found
        simp only [wp_bind, wp_modify, after_ok, wp_pure]
        have taken := taken_of_word sw (by omega) found
        refine done _ _ taken ?_
        obtain ⟨small, _, _⟩ := freeWord_some found
        have inWord := (lowOnes_spec 32 _ (clear_bit_of_ne (getLE_lt _ _ 4) (freeWord_some found).2.1)).1
        show s₁.fs.bamCurr = _
        rw [sw.curr]
        omega
    · exact fun e s' _ io same => failed e s' io same

/-- The allocator on any map, when it loses no changes of it: it takes the lowest free block at or after
    the map block in which the data area starts, or there is none, or the map cannot be read. -/
theorem wp_natBalloc_any_io (sync : Synced s) (kept : ¬ BallocLoses cx s) {Q : Res Errno Nat → Vol → Prop}
    (done : ∀ s' bn, Taken s s' (4096 * (s.fs.geo.dataBlock / 4096)) bn →
      s'.fs.bamCurr = s.fs.geo.bamBlock + bn / 4096 → Q (.ok (bn % 2 ^ 32)) s')
    (full : ∀ s', Synced s' → BamFrame s s' → (∀ b, b < 4096 * s.fs.geo.bamSize → used s' b = used s b) →
      (∀ b, 4096 * (s.fs.geo.dataBlock / 4096) ≤ b → b < 4096 * s.fs.geo.bamSize →
        used s b = true) → Q (.err .ENOSPC) s') (failed : ∀ e s', cx.IoError e → SameMap s s' → Q (.err e) s') :
    wp (natBalloc cx) Q s := by
  simp only [natBalloc, wp_bind, wp_get, after_ok, Nat.div_div_eq_div_mul]
  by_cases room : s.fs.geo.dataBlock / 4096 ≤ s.fs.geo.bamSize
  · exact wp_natBallocFrom_io _ sync (by omega) kept done full failed
  · -- the data area starts past the end of the map: the loop is not entered
    rw [show s.fs.geo.bamSize - s.fs.geo.dataBlock / (512 * 8) = 0 by omega]
    simp only [natBallocFrom, wp_fail]
    refine full s sync (BamFrame.refl s) (fun _ _ => rfl) ?_
    intro b lower upper
    omega

theorem wp_natBalloc_io (ok : BamOk s) (kept : ¬ BallocLoses cx s) {Q : Res Errno Nat → Vol → Prop}
    (done : ∀ s' bn, Allocated s s' (4096 * (s.fs.geo.dataBlock / 4096)) bn →
      s'.fs.bamCurr = s.fs.geo.bamBlock + bn / 4096 → Q (.ok bn) s')
    (full : ∀ s', SameMap s s' → (∀ b, s.fs.geo.inData b → used s b = true) → Q (.err .ENOSPC) s')
    (failed : ∀ e s', cx.IoError e → SameMap s s' → Q (.err e) s') : wp (natBalloc cx) Q s := by
  apply wp_natBalloc_any_io ok.synced kept
  · intro s' bn t curr
    have al := t.allocated ok
    rw [mod_eq_of_lt (data_fits ok.geo al.data)]
    exact done s' bn al curr
  · intro s' sync frame same rest
    refine full s' ⟨frame, fun _ => sync, fun _ => same⟩ ?_
    intro b inside
    have bound := data_covered ok.geo inside
    simp only [Geo.inData] at inside
    exact rest b (by omega) bound
  · exact failed

theorem wp_natBalloc (noio : cx.NoIoError) (ok : BamOk s) {Q : Res Errno Nat → Vol → Prop}
    (done : ∀ s' bn, Allocated s s' (4096 * (s.fs.geo.dataBlock / 4096)) bn → Q (.ok bn) s')
    (full : ∀ s', BamOk s' → BamFrame s s' → (∀ b, b < 4096 * s.fs.geo.bamSize → used s' b = used s b) →
      (∀ b, s.fs.geo.inData b → used s b = true) → Q (.err .ENOSPC) s') : wp (natBalloc cx) Q s :=
  wp_natBalloc_io ok (not_ballocLoses noio s) (fun s' bn al _ => done s' bn al)
    (fun s' same rest => full s' (same.ok ok) same.frame (same.used ok.geo.bamPos) rest)
    fun _ _ io _ => (noio.none io).elim

end Natfs
