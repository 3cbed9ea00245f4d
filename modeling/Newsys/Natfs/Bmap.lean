import Newsys.Natfs.Mount
import Newsys.Lib.Radix

/- The block map of a file (kern/fs/nat/bmap.c): `ndirblks` direct entries, then the roots of
   trees of indirect blocks, `nindirlev` levels deep, 128 entries to a block. -/
namespace Natfs
open Bytes Cmds Cmd

def newBlock (cx : Cx) : NatM Nat := do
  let bn ← natBalloc cx
  blkGet cx bn
  blkFill bn zero
  pure bn

def modifyFso (i : Nat) (f : Fso → Fso) : NatM Unit := modify fun s => s.setFso i (f (s.fso i))

def natBmapDir (cx : Cx) (i log : Nat) (alloc : Bool) : NatM Nat := do
  if 114 ≤ log then fail .EFBIG else
    let s ← get
    if alloc && (s.fso i).bmap log == 0 then
      let bn ← newBlock cx
      modifyFso i fun f => { f with
        bmap := update f.bmap log bn, blocks := (f.blocks + 1) % 2 ^ 32, dirty := true }
      pure bn
    else pure ((s.fso i).bmap log)

/-- The digit of a logical block number that selects the entry of an indirect block with
    `lev` more levels below it: `(log >> shift) & 127`. -/
def digit (lev log : Nat) : Nat := log >>> (7 * lev) &&& 127

/-- The loop over the levels of indirect blocks. The buffer of the block being looked at is
    held while a block is allocated for it, so the entry goes into its current data. -/
def natBmapWalk (cx : Cx) (i log : Nat) (alloc : Bool) : Nat → Nat → NatM Nat
  | 0, bn => pure bn
  | indl + 1, bn =>
    if bn = 0 then pure 0 else do
      let b ← blkRead cx bn
      let next := imap b (digit indl log)
      if next ≠ 0 then natBmapWalk cx i log alloc indl next
      else if alloc then do
        let nb ← newBlock cx
        modify fun s => s.setDev bn (setLE (s.dev bn) (4 * digit indl log) 4 nb)
        modifyFso i fun f => { f with blocks := (f.blocks + 1) % 2 ^ 32, dirty := true }
        natBmapWalk cx i log alloc indl nb
      else pure 0

def setBmapCache (i log bn : Nat) : NatM Unit :=
  modifyFso i fun f => { f with bmapPhys := bn, bmapLog := log, bmapValid := true }

def natBmap (cx : Cx) (i log : Nat) (alloc : Bool) : NatM Unit := do
  let s ← get
  let f := s.fso i
  if f.bmapValid && f.bmapLog == log && (!alloc || f.bmapPhys != 0) then pure ()
  else if log < f.ndirblks then
    let bn ← natBmapDir cx i log alloc
    setBmapCache i log bn
  else
    let bn ← natBmapDir cx i ((f.ndirblks + log >>> (7 * f.nindirlev)) % 2 ^ 32) alloc
    let bn ← natBmapWalk cx i log alloc f.nindirlev bn
    setBmapCache i log bn

/-- The first error of two, as `if (!err) err = err1` keeps it. -/
def firstErr (a b : Option Errno) : Option Errno := a <|> b

def errOf : Except Errno Unit → Option Errno
  | .ok _ => none
  | .error e => some e

/-- The loop of `nat_trunc_indir` over the entries of block `bn`; `sub` frees what is below an
    entry, and there is none in the last level of indirect blocks. -/
def truncEntries (cx : Cx) (bn : Nat) (sub : Option (Nat → NatM (Option Errno))) :
    List Nat → Option Errno → NatM (Option Errno)
  | [], err => pure err
  | d :: ds, err => do
    let s ← get
    let next := imap (s.dev bn) d
    if next = 0 then truncEntries cx bn sub ds err else do
      let err ← match sub with
        | none => pure err
        | some below => do
          match ← attempt (below next) with
          | .ok e => pure (firstErr err e)
          | .error e => pure (firstErr err (some e))
      let err1 ← attempt (natBfree cx next)
      truncEntries cx bn sub ds (firstErr err (errOf err1))

def natTruncIndir (cx : Cx) : Nat → Nat → NatM (Option Errno)
  | 0, bn => do
    let _ ← blkRead cx bn
    truncEntries cx bn none (List.range 128) none
  | indl + 1, bn => do
    let _ ← blkRead cx bn
    truncEntries cx bn (some (natTruncIndir cx indl)) (List.range 128) none

/-- One round of the loop of `nat_trunc` over the entries of the block map. -/
def truncSlot (cx : Cx) (i indl k : Nat) : NatM Unit := do
  let s ← get
  let bn := (s.fso i).bmap k
  if bn = 0 then pure () else do
    if (s.fso i).ndirblks ≤ k then do
      let _ ← attempt (natTruncIndir cx (indl - 1) bn)
      pure ()
    else pure ()
    let _ ← attempt (natBfree cx bn)
    modifyFso i fun f => { f with bmap := update f.bmap k 0 }

def natTrunc (cx : Cx) (i : Nat) : NatM Unit := do
  let s ← get
  let indl := (s.fso i).nindirlev
  if indl < 1 ∨ 8 < indl then fail .EINVAL else
    forEach (List.range 114) (truncSlot cx i indl)
    modifyFso i fun f => { f with bmapValid := false, dirty := true, blocks := 1, size := 0 }

/- What the block map means -/

/-- The entry of the block map that a logical block is looked up through. -/
def bmapSlot (ndirblks nindirlev log : Nat) : Nat :=
  if log < ndirblks then log else (ndirblks + log >>> (7 * nindirlev)) % 2 ^ 32

def slotLevel (ndirblks nindirlev k : Nat) : Nat := if k < ndirblks then 0 else nindirlev

abbrev mapLeaf (dev : Image) (lev bn log : Nat) : Nat := Radix.leaf imap 128 dev lev bn log

abbrev mapNodes (dev : Image) (lev bn : Nat) : List Nat := Radix.nodes imap 128 dev lev bn

abbrev mapInner (dev : Image) (lev bn : Nat) : List Nat := Radix.inner imap 128 dev lev bn

theorem digit_eq (lev log : Nat) : digit lev log = log / 128 ^ lev % 128 := by
  simp only [digit]
  rw [show (127 : Nat) = 2 ^ 7 - 1 from rfl, Nat.and_two_pow_sub_one_eq_mod, Nat.shiftRight_eq_div_pow,
    Nat.pow_mul]

theorem digit_lt (lev log : Nat) : digit lev log < 128 := by
  rw [digit_eq]
  exact Nat.mod_lt _ (by decide)

def fileBlock (dev : Image) (f : Fso) (log : Nat) : Nat :=
  if log < f.ndirblks then f.bmap log
  else mapLeaf dev f.nindirlev (f.bmap (bmapSlot f.ndirblks f.nindirlev log)) log

structure Looked (s s' : Vol) (i log phys : Nat) : Prop where
  dev : s'.dev = s.dev
  fs : s'.fs = s.fs
  files : s'.files = s.files
  other : ∀ j, j ≠ i → s'.fso j = s.fso j
  self : s'.fso i = { s.fso i with bmapPhys := phys, bmapLog := log, bmapValid := true }

theorem wp_natBmapWalk_lookup {cx : Cx} (i log : Nat) (indl : Nat) :
    ∀ (bn : Nat) {s : Vol} {Q : Res Errno Nat → Vol → Prop},
      (∀ t, Q (.ok (mapLeaf s.dev indl bn log)) { s with tick := t }) →
      (∀ e t, cx.IoError e → Q (.err e) { s with tick := t }) →
      wp (natBmapWalk cx i log false indl bn) Q s := by
  induction indl with
  | zero =>
    intro bn s Q post _
    exact post s.tick
  | succ indl ih =>
    intro bn s Q post failed
    simp only [natBmapWalk]
    by_cases hole : bn = 0
    · rw [if_pos hole]
      simpa [mapLeaf, hole] using post s.tick
    · rw [if_neg hole]
      simp only [mapLeaf, Radix.leaf_succ hole, ← digit_eq] at post
      simp only [wp_bind]
      apply wp_blkRead_any
      · simp only [after_ok]
        by_cases found : imap (s.dev bn) (digit indl log) = 0
        · rw [if_neg (by simpa using found)]
          simp only [found, Radix.leaf_zero] at post
          exact post _
        · rw [if_pos found]
          exact ih _ (fun t => post t) (fun e t io => failed e t io)
      · exact fun e io => failed e _ io

def CacheOk (s : Vol) (i : Nat) : Prop :=
  (s.fso i).bmapValid = true → (s.fso i).bmapPhys = fileBlock s.dev (s.fso i) (s.fso i).bmapLog ∧
    bmapSlot (s.fso i).ndirblks (s.fso i).nindirlev (s.fso i).bmapLog < 114

theorem wp_natBmap_lookup (cache : CacheOk s i)
    (post : bmapSlot (s.fso i).ndirblks (s.fso i).nindirlev log < 114 →
      ∀ s', Looked s s' i log (fileBlock s.dev (s.fso i) log) → Q (.ok ()) s')
    (refused : 114 ≤ bmapSlot (s.fso i).ndirblks (s.fso i).nindirlev log → Q (.err .EFBIG) s)
    (failed : ∀ e t, cx.IoError e → Q (.err e) { s with tick := t }) :
    wp (natBmap cx i log false) Q s := by
  simp only [natBmap, wp_bind, wp_get, after_ok]
  split
  · rename_i hit
    simp only [Bool.not_false, Bool.true_or, Bool.and_true, Bool.and_eq_true, beq_iff_eq] at hit
    obtain ⟨phys, slot⟩ := cache hit.1
    rw [hit.2] at phys slot
    refine post slot s ⟨rfl, rfl, rfl, fun _ _ => rfl, ?_⟩
    rw [← phys, ← hit.2, ← hit.1]
  · split
    · rename_i direct
      have slot : bmapSlot (s.fso i).ndirblks (s.fso i).nindirlev log = log := by
        simp [bmapSlot, direct]
      simp only [wp_bind, natBmapDir]
      by_cases big : 114 ≤ log
      · rw [if_pos big]
        exact refused (by omega)
      · rw [if_neg big]
        simp only [wp_bind, wp_get, after_ok, Bool.false_and, Bool.false_eq_true,
          if_false, wp_pure, setBmapCache, modifyFso, wp_modify]
        apply post (by omega)
        refine ⟨rfl, rfl, rfl, fun j ne => update_ne _ _ _ ne, ?_⟩
        simp [Vol.setFso, fileBlock, direct]
    · rename_i indirect
      have slot : bmapSlot (s.fso i).ndirblks (s.fso i).nindirlev log =
          ((s.fso i).ndirblks + log >>> (7 * (s.fso i).nindirlev)) % 2 ^ 32 := by
        simp [bmapSlot, indirect]
      simp only [wp_bind, natBmapDir]
      by_cases big : 114 ≤ ((s.fso i).ndirblks + log >>> (7 * (s.fso i).nindirlev)) % 2 ^ 32
      · rw [if_pos big]
        exact refused (by omega)
      · rw [if_neg big]
        simp only [wp_bind, wp_get, after_ok, Bool.false_and, Bool.false_eq_true,
          if_false, wp_pure]
        apply wp_natBmapWalk_lookup
        · intro t
          simp only [after_ok, setBmapCache, modifyFso, wp_modify]
          apply post (by omega)
          refine ⟨rfl, rfl, rfl, fun j ne => update_ne _ _ _ ne, ?_⟩
          simp [Vol.setFso, fileBlock, indirect, slot]
        · exact fun e t io => failed e t io

end Natfs
