import Newsys.Natfs.Atomic

/- Files as the boot loader reads them (sysload/disk.c, sysload/fs-native.c). The block map is read through a buffer for
   each level that the files of all disks share; a request that the firmware refuses leaves the buffer as it was. -/
namespace Sysload
open Bytes Cmds Natfs List

/-- `struct disk`: a part of what the firmware reads, of an unknown size if that is 0. -/
structure DiskDev where
  offset : Nat
  size : Nat
  sector : Image

/-- The disks, and the requests that the firmware refuses. -/
structure Machine where
  disk : Nat → DiskDev
  io : Nat → Option Errno

/-- `struct fs_native_bce`; no disk is the null pointer. -/
structure Bce where
  buf : Mem
  block : Nat
  disk : Option Nat

structure State where
  cache : Nat → Bce
  tick : Nat

abbrev LoadM := Cmd Errno State

def Machine.volume (m : Machine) (dk : Nat) : Image := fun blk => (m.disk dk).sector ((blk + (m.disk dk).offset) % 2 ^ 32)

def diskRead (m : Machine) (dk blk : Nat) : LoadM Mem := fun s =>
  if (m.disk dk).size ≤ blk ∧ 0 < (m.disk dk).size then (.err .EINVAL, s)
  else match m.io s.tick with
    | some e => (.err e, { s with tick := s.tick + 1 })
    | none => (.ok (m.volume dk blk), { s with tick := s.tick + 1 })

def fsNativeReadBmap (m : Machine) (dk block level : Nat) : LoadM Mem := fun s =>
  let bce := s.cache (level % 4)
  if bce.disk = some dk ∧ bce.block = block then (.ok bce.buf, s)
  else match diskRead m dk block s with
    | (.ok b, s) => (.ok b, { s with cache := update s.cache (level % 4) ⟨b, block, some dk⟩ })
    | refused => refused

/-- The loop over the levels; the buffer of a level is not used any more when the next is read. -/
def bmapLoop (m : Machine) (dk log : Nat) : Nat → Nat → Nat → LoadM Nat
  | 0, _, bn => pure bn
  | indl + 1, il, bn =>
    if bn = 0 then pure 0 else do
      let buf ← fsNativeReadBmap m dk bn il
      bmapLoop m dk log indl (il + 1) (imap buf (digit indl log))

/-- An entry of `bmap`; what lies behind the last one is not read with a meaning. -/
def bmapEntry (hd : Mem) (i : Nat) : LoadM Nat := if 114 ≤ i then Cmd.crash else pure (hdBmap hd i)

def fsNativeBmap (m : Machine) (dk index log : Nat) : LoadM Nat := do
  let hd ← fsNativeReadBmap m dk index 0
  if log < hdNdirblks hd then bmapEntry hd log
  else do
    let bn ← bmapEntry hd (hdNdirblks hd + log >>> (7 * hdNindirlev hd))
    bmapLoop m dk log (hdNindirlev hd) 1 bn

/-- The loop of `fs_native_load`: a hole advances by `cl` as the block before it has left that. -/
def loadLoop (m : Machine) (dk index : Nat) : Nat → Nat → Option Nat → Nat → LoadM (List Byte)
  | 0, _, _, _ => pure []
  | fuel + 1, resid, cl, log =>
    if resid = 0 then pure [] else do
      let phys ← fsNativeBmap m dk index log
      if phys ≠ 0 then do
        let lbuf ← diskRead m dk phys
        let rest ← loadLoop m dk index fuel (resid - min resid 512) (some (min resid 512)) (log + 1)
        pure (slice lbuf 0 (min resid 512) ++ rest)
      else match cl with
        | none => Cmd.crash
        | some cl =>
          if resid < cl then Cmd.crash else do
            let rest ← loadLoop m dk index fuel (resid - cl) (some cl) (log + 1)
            pure (List.replicate cl 0 ++ rest)

def fsNativeLoad (m : Machine) (dk index sz : Nat) : LoadM (List Byte) := loadLoop m dk index sz sz none 0

/-- The buffers before the first request. -/
def cold : State := ⟨fun _ => ⟨zero, 0, none⟩, 0⟩

/- What is read while the cache agrees with the disks -/

def Coherent (m : Machine) (l : State) : Prop :=
  ∀ k dk, (l.cache k).disk = some dk → (l.cache k).buf = m.volume dk (l.cache k).block

/-- The result, unless a request goes behind the end of a disk whose size is known, or the firmware refuses it. -/
def Answers (m : Machine) (dk : Nat) (a : α) : Res Errno α → Prop
  | .ok b => b = a
  | .err e => e = .EINVAL ∧ 0 < (m.disk dk).size ∨ ∃ n, m.io n = some e
  | .crash => False

def Reads (m : Machine) (dk : Nat) (a : α) (c : LoadM α) : Prop :=
  ∀ l, Coherent m l → Coherent m (c l).2 ∧ Answers m dk a (c l).1

section Rules
variable {α β : Type} {m : Machine} {dk : Nat} {a : α} {b : β} {c : LoadM α} {f : α → LoadM β}

theorem reads_pure : Reads m dk a (pure a) := fun _ coh => ⟨coh, rfl⟩

theorem reads_bind (first : Reads m dk a c) (next : Reads m dk b (f a)) : Reads m dk b (c >>= f) := by
  intro l coh
  obtain ⟨coh', known⟩ := first l coh
  show Coherent m (Cmd.bind c f l).2 ∧ Answers m dk b (Cmd.bind c f l).1
  simp only [Cmd.bind]
  rcases run : c l with ⟨_ | _ | _, l'⟩ <;> rw [run] at coh' known
  · cases known
    exact next l' coh'
  · exact ⟨coh', known⟩
  · exact known.elim

theorem reads_diskRead (blk : Nat) : Reads m dk (m.volume dk blk) (diskRead m dk blk) := by
  intro l coh
  rw [diskRead]
  split
  · rename_i behind
    exact ⟨coh, .inl ⟨rfl, behind.2⟩⟩
  · cases io : m.io l.tick with
    | some e => exact ⟨coh, .inr ⟨_, io⟩⟩
    | none => exact ⟨coh, rfl⟩

theorem reads_fsNativeReadBmap (block level : Nat) : Reads m dk (m.volume dk block) (fsNativeReadBmap m dk block level) := by
  intro l coh
  unfold fsNativeReadBmap
  dsimp only
  split
  · rename_i hit
    have current := coh _ _ hit.1
    rw [hit.2] at current
    exact ⟨coh, current⟩
  · have answer := (reads_diskRead block : Reads m dk _ _) l coh
    rcases read : diskRead m dk block l with ⟨b | e | _, l'⟩ <;> rw [read] at answer
    · obtain ⟨coh', rfl⟩ := answer
      refine ⟨?_, rfl⟩
      intro k dk' held
      dsimp only at held ⊢
      by_cases place : k = level % 4
      · subst place
        rw [update_same] at held ⊢
        cases held
        rfl
      · rw [update_ne _ _ _ place] at held ⊢
        exact coh' k dk' held
    · exact answer
    · exact answer

theorem reads_bmapLoop (log indl : Nat) : ∀ {il bn : Nat},
    Reads m dk (mapLeaf (m.volume dk) indl bn log) (bmapLoop m dk log indl il bn) := by
  induction indl with
  | zero => exact reads_pure
  | succ indl ih =>
    intro il bn
    rw [bmapLoop]
    by_cases hole : bn = 0
    · rw [if_pos hole, mapLeaf, hole, Radix.leaf_zero]
      exact reads_pure
    · rw [if_neg hole]
      apply reads_bind (reads_fsNativeReadBmap bn il)
      rw [mapLeaf, Radix.leaf_succ hole, ← digit_eq]
      exact ih

end Rules

/- Files -/

/-- The disk holds the blocks of a closed file of the kernel's volume. Its map reaches over `sz` bytes, and neither the
    first block nor a last one that is not full is a hole. -/
structure Loadable (m : Machine) (dk : Nat) (s : Vol) (index sz : Nat) : Prop where
  arises : Arises s
  file : index ∈ s.files
  closed : (s.fso index).refcnt = 0
  image : ∀ b ∈ holds s index, m.volume dk b = s.dev b
  small : sz < 2 ^ 31
  covered : ∀ log, 512 * log < sz → (hdr s index).slot log < 114
  first : sz ≠ 0 → (hdr s index).phys s.dev 0 ≠ 0
  last : sz % 512 ≠ 0 → (hdr s index).phys s.dev (sz / 512) ≠ 0

section Files
variable {m : Machine} {dk index sz : Nat} {s : Vol}

theorem reads_fsNativeBmap (fit : Loadable m dk s index sz) {log : Nat} (inside : 512 * log < sz) :
    Reads m dk ((hdr s index).phys s.dev log) (fsNativeBmap m dk index log) := by
  have small := fit.small
  have slot := fit.covered log inside
  have map := (fit.arises.sane.disk.shape index fit.file).toMap
  have head : hdr s index = (loadFso s.fs.geo (m.volume dk index)).hdr := by
    rw [hdr_of_closed fit.closed, savedHdr, fit.image index (mem_cons_self ..)]
  rw [← (Hdr.trees_congr fun b mem => fit.image b (mem_cons_of_mem _ (Hdr.inners_subset mem))).2.2 log]
  rw [head] at slot map ⊢
  rw [Hdr.phys_fileBlock map (by omega) slot]
  apply reads_bind (reads_fsNativeReadBmap index 0)
  change bmapSlot (hdNdirblks (m.volume dk index)) (hdNindirlev (m.volume dk index)) log < 114 at slot
  show Reads m dk (if log < hdNdirblks (m.volume dk index) then hdBmap (m.volume dk index) log else
    mapLeaf (m.volume dk) (hdNindirlev (m.volume dk index)) (hdBmap (m.volume dk index)
      (bmapSlot (hdNdirblks (m.volume dk index)) (hdNindirlev (m.volume dk index)) log)) log) _
  unfold bmapSlot at slot ⊢
  split at slot
  · rename_i direct
    rw [if_pos direct, if_pos direct, bmapEntry, if_neg (by omega)]
    exact reads_pure
  · rename_i indirect
    have le := Nat.shiftRight_le log (7 * hdNindirlev (m.volume dk index))
    have byte : hdNdirblks (m.volume dk index) < 256 := getLE_lt _ _ 1
    rw [Nat.mod_eq_of_lt (by omega)] at slot
    rw [if_neg indirect, if_neg indirect, if_neg indirect, Nat.mod_eq_of_lt (by omega), bmapEntry, if_neg (by omega)]
    exact reads_bmapLoop log _

theorem slice_block (s : Vol) (index log : Nat) (le : n ≤ 512) : slice (content s index).byte (512 * log) n =
    slice ((hdr s index).block s.dev log) 0 n := by
  apply map_congr_left
  intro k mem
  rw [mem_range] at mem
  show (hdr s index).block s.dev ((512 * log + k) / 512) ((512 * log + k) % 512) = _
  rw [show (512 * log + k) / 512 = log by omega, show (512 * log + k) % 512 = 0 + k by omega]

theorem slice_next (mem : Mem) (log resid : Nat) : slice mem (512 * log) (min resid 512) ++
    slice mem (512 * (log + 1)) (resid - min resid 512) = slice mem (512 * log) resid := by
  by_cases long : 512 ≤ resid
  · obtain ⟨more, rfl⟩ := Nat.exists_eq_add_of_le long
    rw [Nat.min_eq_right long, Nat.add_sub_cancel_left]
    simp only [slice, range_add, map_append, map_map, Nat.mul_succ, add_assoc, Function.comp_def]
  · rw [Nat.min_eq_left (by omega), Nat.sub_self]
    exact append_nil _

theorem reads_loadLoop (fit : Loadable m dk s index sz) (fuel : Nat) : ∀ (resid log : Nat) (cl : Option Nat),
    resid ≤ fuel → (resid ≠ 0 → 512 * log + resid = sz ∧ cl = if log = 0 then none else some 512) →
    Reads m dk (slice (content s index).byte (512 * log) resid) (loadLoop m dk index fuel resid cl log) := by
  induction fuel with
  | zero =>
    intro resid log cl enough _
    rw [Nat.le_zero.mp enough]
    exact reads_pure
  | succ fuel ih =>
    intro resid log cl enough at'
    simp only [loadLoop]
    by_cases empty : resid = 0
    · rw [if_pos empty, empty]
      exact reads_pure
    · obtain ⟨place, stale⟩ := at' empty
      have whole := slice_next (content s index).byte log resid
      rw [slice_block s index log (min_le_right ..), Hdr.block] at whole
      rw [if_neg empty, ← whole]
      apply reads_bind (reads_fsNativeBmap fit (by omega))
      by_cases hole : (hdr s index).phys s.dev log = 0
      · -- a hole is not the first block, and there is a whole block of it
        have later : log ≠ 0 := by
          rintro rfl
          exact fit.first (by omega) hole
        have full : ¬ resid < 512 := by
          intro lt
          apply fit.last (by omega)
          rw [show sz / 512 = log by omega]
          exact hole
        have zeros : ∀ n, List.replicate n 0 = slice zero 0 n := by
          intro n
          simp [slice, zero, map_const']
        rw [if_neg (not_not.mpr hole), stale, if_neg later, if_pos hole, min_eq_right (by omega), ← zeros]
        show Reads m dk _ (if resid < 512 then _ else _)
        rw [if_neg full]
        apply reads_bind (ih (resid - 512) (log + 1) (some 512) (by omega) fun _ => ⟨by omega, (if_neg (by omega)).symm⟩)
        exact reads_pure
      · have full : resid - min resid 512 ≠ 0 → min resid 512 = 512 := by omega
        rw [if_pos hole, if_neg hole, ← fit.image _ (mem_cons_of_mem _ (Hdr.phys_mem hole).2.2)]
        apply reads_bind (reads_diskRead _)
        apply reads_bind (ih _ _ _ (by omega) fun more => ⟨by omega, by rw [if_neg (by omega), full more]⟩)
        exact reads_pure

/-- One file after the other is loaded, each as the kernel has written it. -/
def AllLoaded (m : Machine) (vol : Nat → Vol) : List (Nat × Nat × Nat) → State → Prop
  | [], _ => True
  | (dk, index, sz) :: files, l =>
    Answers m dk (slice (content (vol dk) index).byte 0 sz) (fsNativeLoad m dk index sz l).1 ∧
      AllLoaded m vol files (fsNativeLoad m dk index sz l).2

/-- Whatever was loaded before, from whichever disks, and whichever requests were refused, a file that can be loaded has
    the contents that it has for the kernel. -/
theorem loads_content {vol : Nat → Vol} {files : List (Nat × Nat × Nat)}
    (fit : ∀ f ∈ files, Loadable m f.1 (vol f.1) f.2.1 f.2.2) : AllLoaded m vol files cold := by
  have all : ∀ {l : State}, Coherent m l → AllLoaded m vol files l := by
    induction files with
    | nil => exact fun _ => trivial
    | cons f files ih =>
      intro l coh
      obtain ⟨coh', right⟩ := reads_loadLoop (fit f (mem_cons_self ..)) _ _ 0 none (le_refl _)
        (fun _ => ⟨zero_add _, rfl⟩) l coh
      exact ⟨right, ih (fun g mem => fit g (mem_cons_of_mem _ mem)) coh'⟩
  exact all fun k dk none => by cases none

end Files

/-- The root directory, twice, on a partition behind 63 sectors. -/
theorem loads_content_root :
    AllLoaded ⟨fun _ => ⟨63, 100, fun b => withFile.dev (b - 63)⟩, fun _ => none⟩ (fun _ => withFile)
      [(0, 3, 512), (0, 3, 512)] cold := by
  refine loads_content fun f mem => ?_
  obtain rfl : f = (0, 3, 512) := by simpa using mem
  have place : ∀ b ∈ holds withFile 3, (b + 63) % 2 ^ 32 - 63 = b := by decide +kernel
  refine ⟨withFile_arises, by decide +kernel, by decide +kernel, fun b mem => congrArg withFile.dev (place b mem),
    by decide, fun log lt => ?_, fun _ => by decide +kernel, fun part => absurd rfl part⟩
  have lt : 512 * log < 512 := lt
  obtain rfl : log = 0 := by omega
  decide +kernel

end Sysload
