import Newsys.Natfs.Calls
import Newsys.Natfs.Statfs
import Newsys.Mkfs

/- Runs on a volume that mkfs has laid out: who owns its blocks, and what its link counts mean. -/
namespace Natfs
open Bytes Cmds Cmd Kern Links Mkfs List

def formatted (m : Machine) (blockCount reservedCount : Nat) (dev : Image) (readOnly noAtime insecure : Bool) : Vol :=
  { freshVol (mkfs m .device blockCount reservedCount dev) readOnly noAtime insecure with
    files := [rootBlock blockCount reservedCount] }

/-- A volume that has just been laid out and mounted. The root header is where the superblock says; on i386 the root block
    is below 2^23 then (`rootSeek_eq`). -/
inductive Mounted (blockCount reservedCount : Nat) (s : Vol) : Prop where
  | mount (m : Machine) (home : rootSeek m (rootBlock blockCount reservedCount) = rootBlock blockCount reservedCount)
      (cx : Cx) (dev : Image) (readOnly noAtime insecure : Bool) (noio : cx.NoIoError)
      (run : natMount cx (formatted m blockCount reservedCount dev readOnly noAtime insecure) = (.ok (), s))

section Start
variable {blockCount reservedCount : Nat} {s : Vol}

theorem rootHeader_fresh (geo : Geo) :
    (loadFso geo rootHeader).hdr.Fresh ∧ (loadFso geo rootHeader).hdr.kind = 0o30000 := by
  refine ⟨⟨⟨?_, ?_⟩, ?_, ?_, ?_, ?_⟩, ?_⟩
  · simp (disch := omega) only [Fso.hdr, loadFso, hdNindirlev, rootHeader, getLE_setLE_same]
    decide
  · simp (disch := omega) only [Fso.hdr, loadFso, hdNdirblks, rootHeader, getLE_setLE_ne, getLE_setLE_same]
    decide
  · simp (disch := omega) only [Fso.hdr, loadFso, hdSize, rootHeader, getLE_setLE_ne, getLE_zero]
    rfl
  · simp (disch := omega) only [Fso.hdr, loadFso, hdNlink, rootHeader, getLE_setLE_ne, getLE_setLE_same]
    rfl
  · simp (disch := omega) only [Fso.hdr, loadFso, hdBlocks, rootHeader, getLE_setLE_ne, getLE_setLE_same]
    rfl
  · intro k lt
    rw [Fso.hdr_bmap _ lt]
    simp (disch := omega) only [loadFso, hdBmap, rootHeader, getLE_setLE_ne, getLE_zero]
  · simp (disch := omega) only [Fso.hdr, loadFso, hdMode, rootHeader, getLE_setLE_ne, getLE_setLE_same]
    cases geo.insecure <;> decide

theorem Mounted.exact (sound : Sound blockCount reservedCount)
    (room : dataBlock blockCount reservedCount < blockCount) (mounted : Mounted blockCount reservedCount s) :
    Sane s ∧ (tree s).Exact := by
  obtain ⟨m, home, cx, dev, readOnly, noAtime, insecure, noio, run⟩ := mounted
  have dataEq := dataBlock_eq sound.2.2.1 sound.2.1
  have fits : Fits m .device blockCount reservedCount :=
    ⟨sound, by have := sound.1; rw [home, rootBlock]; omega, nofun⟩
  generalize start : formatted m blockCount reservedCount dev readOnly noAtime insecure = s₀ at run
  have image : s₀.dev = mkfs m .device blockCount reservedCount dev := by rw [← start]; rfl
  have mounted : wp (natMount cx) (fun _ t => t.fs.geo = geoOf (s₀.dev 1) s₀.fs.geo ∧ t.fs.bamCurr = 0 ∧
      t.fs.bamDirty = false ∧ t.fso = s₀.fso ∧ t.files = s₀.files ∧ ∀ x, x ≠ 1 → t.dev x = s₀.dev x) s₀ :=
    wp_natMount noio (by rw [image]; exact mkfs_magic fits dev)
      fun t geo curr clean fso files same => ⟨geo, curr, clean, fso, files, same⟩
  rw [wp, run] at mounted
  obtain ⟨geo, curr, clean, fso, files, same⟩ := mounted
  rw [image] at geo same
  obtain ⟨bam, bits⟩ := mounted_bamOk fits room geo curr clean same
  obtain ⟨_, size, data, dsize, root, direct, levels⟩ := mkfs_fields fits dev
  obtain ⟨low, high, small, bytes⟩ := sound
  have rootEq : s.fs.geo.rootBlock = rootBlock blockCount reservedCount := by rw [geo]; exact root
  have files : s.files = [s.fs.geo.rootBlock] := by rw [rootEq, files, ← start]; rfl
  have closed : ∀ i, (s.fso i).refcnt = 0 := by
    intro i
    rw [fso, ← start]
    rfl
  have header : s.dev s.fs.geo.rootBlock = rootHeader := by
    rw [rootEq, same _ (by simp only [rootBlock]; omega)]
    rw [mkfs_eq m fits.room, newbam, newbamFrom_untouched _ _ _ _ _ _ _ _ _ _ (by rw [seek_eq high, rootBlock]; omega),
      home, update_same]
  obtain ⟨fresh, kind⟩ := rootHeader_fresh s.fs.geo
  have head : hdr s s.fs.geo.rootBlock = (loadFso s.fs.geo rootHeader).hdr := by
    rw [hdr_of_closed (closed _), savedHdr, header]
  have held : holds s s.fs.geo.rootBlock = [s.fs.geo.rootBlock] := by rw [holds, head, fresh.owned]
  have only : ∀ {i}, i ∈ s.files → i = s.fs.geo.rootBlock := by
    intro i mem
    rw [files] at mem
    exact mem_singleton.mp mem
  have empty : (obj s s.fs.geo.rootBlock).size = 0 := by rw [obj, head]; exact fresh.size
  have inside : s.fs.geo.inData s.fs.geo.rootBlock := bam.geo.root
  have disk : Disk s := by
    refine ⟨bam, by rw [files]; exact nodup_singleton _, ?_, ?_, ?_, ?_, ?_⟩
    · intro i mem
      rw [only mem, held]
      exact nodup_singleton _
    · intro i mem j mem' ne
      exact absurd ((only mem).trans (only mem').symm) ne
    · intro i mem b held'
      rw [only mem, held] at held'
      rw [mem_singleton.mp held']
      refine ⟨inside, ?_⟩
      have covered := data_covered bam.geo inside
      have sizeEq : s.fs.geo.bamSize = bamSize blockCount := by rw [geo]; exact size
      rw [bits _ (by rw [← sizeEq]; exact covered), rootEq]
      exact decide_eq_true (.inl (le_refl _))
    · intro i mem
      rw [only mem, head]
      exact fresh.shape
    · exact fun i ref => absurd (closed i) ref
  have inOrder : InOrder s := by
    refine ⟨disk, ?_, ?_, ?_, ?_⟩
    · intro i mem
      rw [only mem, head]
      exact fresh.counted _
    · intro d mem _
      rw [only mem]
      exact .empty empty fun ref => absurd (closed _) ref
    · rw [geo, show (geoOf _ _).nindirlev = _ from levels]
      decide
    · rw [geo, show (geoOf _ _).ndirblks = _ from direct]
      decide
  have dir : isDir s s.fs.geo.rootBlock := by rw [isDir, head]; exact kind
  have ents : (tree s).ents s.fs.geo.rootBlock = [] := by
    show (if isDir s _ then live s _ else []) = []
    rw [if_pos dir, live_empty empty]
  have nlink : (tree s).nlink s.fs.geo.rootBlock = 1 := by
    show (obj s _).nlink = 1
    rw [obj, head]
    exact fresh.nlink
  have refs : (tree s).refs s.fs.geo.rootBlock = 1 := by
    show ((s.files.map fun d => into ((tree s).ents d) s.fs.geo.rootBlock).sum +
      if s.fs.geo.rootBlock = s.fs.geo.rootBlock then 1 else 0) = 1
    rw [files, map_singleton, sum_singleton, ents, if_pos rfl]
    rfl
  have bounded : (tree s).Bounded := by
    refine ⟨disk.files, by rw [show (tree s).nodes = s.files from rfl, files]; exact mem_singleton_self _,
      decide_eq_true dir, ?_, ?_, ?_, ?_, ?_⟩ <;> intro i mem <;> rw [only mem]
    · rw [ents]
      exact fun e mem => by cases mem
    · exact fun _ => ents
    · exact fun _ => le_of_eq nlink
    · rw [refs, nlink]
    · rw [nlink]
      exact fun _ => Nat.one_ne_zero
  refine ⟨⟨inOrder, bounded⟩, bounded, ?_, ?_, ?_⟩ <;> intro i mem <;> rw [only mem]
  · rw [refs, nlink]
  · exact fun _ => ents
  · exact fun _ => .refl _

end Start

/-- A state that the requests of a run have led to, on a volume laid out by mkfs. -/
inductive Arises (s : Vol) : Prop where
  | run (blockCount reservedCount : Nat) (s₀ : Vol) (sound : Sound blockCount reservedCount)
      (room : dataBlock blockCount reservedCount < blockCount) (mounted : Mounted blockCount reservedCount s₀)
      (run : Op.Run (fun op s => op.Fits s) s₀ s)

theorem Arises.sane (arises : Arises s) : Sane s := by
  obtain ⟨_, _, s₀, sound, room, mounted, run⟩ := arises
  exact run.sane (mounted.exact sound room).1

/- Who owns the blocks -/

/-- Every block of a linked or open file is owned once, lies in the data area and is marked used, and
    each file counts its blocks. -/
structure BlocksOwned (s : Vol) : Prop where
  linked : ∀ i ∈ s.files, (hdr s i).nlink ≠ 0 ∨ (s.fso i).refcnt ≠ 0
  opened : ∀ i, (s.fso i).refcnt ≠ 0 → i ∈ s.files
  named : ∀ d n b, (tree s).Edge d n b → b ∈ s.files
  distinct : (s.files.flatMap (holds s)).Nodup
  data : ∀ i ∈ s.files, ∀ b ∈ holds s i, s.fs.geo.inData b ∧ used s b = true
  counted : ∀ i ∈ s.files, (hdr s i).blocks = 1 + ((hdr s i).owned s.dev).length

theorem Sane.blocksOwned (sane : Sane s) : BlocksOwned s := by
  have disk := sane.disk
  refine ⟨?_, fun i ref => (disk.opened i ref).file, fun d n b edge => sane.bounded.edge_node edge, ?_,
    disk.data, sane.counted⟩
  · intro i file
    by_cases ref : (s.fso i).refcnt = 0
    · exact .inl (sane.bounded.linked i file ref)
    · exact .inr ref
  · rw [nodup_flatMap]
    refine ⟨disk.nodup, disk.files.imp_of_mem ?_⟩
    intro i j file file' ne b mem mem'
    exact disk.apart i file j file' ne b mem mem'

def rootCx : Cx := ⟨fun _ => none, fun _ => none, fun _ => 0, 0, 0⟩

def newVolume (blockCount reservedCount : Nat) : Vol :=
  (natMount rootCx (formatted .i386 blockCount reservedCount (fun _ => zero) false false false)).2

/-- The path of a file in the root directory whose name is `n` letters long. -/
def letters (n : Nat) : CStr := ⟨replicate n 102, fun mem => by cases eq_of_mem_replicate mem⟩

theorem newVolume_mounted (small : rootBlock blockCount reservedCount < 2 ^ 23)
    (ok : (natMount rootCx (formatted .i386 blockCount reservedCount (fun _ => zero) false false false)).1 = .ok ()) :
    Mounted blockCount reservedCount (newVolume blockCount reservedCount) :=
  ⟨.i386, rootSeek_eq (fun _ => small) (by omega), rootCx, fun _ => zero, false, false, false, fun _ => rfl,
    Prod.ext ok rfl⟩

def withFile : Vol := (natCreat rootCx (letters 1) 0 0 (newVolume 100 2)).2

theorem withFile_run : Op.Run (fun op s => op.Fits s) (newVolume 100 2) withFile := by
  have made : ((Op.creat (letters 1) 0 0).run rootCx (newVolume 100 2)).1 = .ok () := by decide +kernel
  have same : ((Op.creat (letters 1) 0 0).run rootCx (newVolume 100 2)).2 = withFile := by
    show (Cmd.bind _ _ _).2 = _
    rw [Cmd.bind, withFile]
    rcases natCreat rootCx (letters 1) 0 0 (newVolume 100 2) with ⟨_ | _ | _, _⟩ <;> rfl
  exact .single ⟨rootCx, .creat (letters 1) 0 0, .ok (), fun _ => rfl, trivial, trivial, Prod.ext made same, by decide⟩

theorem sound_hundred : Sound 100 2 := ⟨by decide, by decide, by decide, by decide⟩

theorem mounted_hundred : Mounted 100 2 (newVolume 100 2) := newVolume_mounted (by decide) (by decide +kernel)

theorem withFile_arises : Arises withFile := ⟨100, 2, _, sound_hundred, by decide, mounted_hundred, withFile_run⟩

theorem BlocksOwned.sum_blocks (owned : BlocksOwned s) :
    (s.files.map fun i => (hdr s i).blocks).sum = (s.files.flatMap (holds s)).length := by
  rw [length_flatMap]
  apply congrArg sum
  apply map_congr_left
  intro i mem
  rw [owned.counted i mem, holds, length_cons, add_comm]

theorem BlocksOwned.blocks_le (owned : BlocksOwned s) :
    (s.files.map fun i => (hdr s i).blocks).sum + Statfs.freeBlocks s ≤ s.fs.geo.dataSize := by
  have held : s.files.flatMap (holds s) ⊆
      (range' s.fs.geo.dataBlock s.fs.geo.dataSize).filter fun b => used s b := by
    intro b mem
    obtain ⟨i, file, mem⟩ := mem_flatMap.mp mem
    obtain ⟨inside, marked⟩ := owned.data i file b mem
    exact mem_filter.mpr ⟨mem_range'_1.mpr inside, marked⟩
  have le := (subperm_of_subset owned.distinct held).length_le
  rw [← countP_eq_length_filter] at le
  have free : Statfs.freeBlocks s ≤ (range' s.fs.geo.dataBlock s.fs.geo.dataSize).countP fun b => used s b = false := by
    apply countP_mono_left
    intro b _ free
    exact decide_eq_true (decide_eq_true_eq.mp free).2
  have all := length_eq_countP_add_countP (fun b => used s b) (l := range' s.fs.geo.dataBlock s.fs.geo.dataSize)
  simp only [length_range', Bool.not_eq_true] at all
  rw [owned.sum_blocks]
  omega

/-- After any run `statfs` reports the free blocks of the data area. As many can be allocated, and they are other blocks
    than those that the headers count. -/
theorem statfs_after_run {s : Vol} (arises : Arises s) {cx : Cx} (noio : cx.NoIoError) :
    wp (Statfs.natStatfs cx) (fun r t => r = .ok (s.fs.geo.dataSize, Statfs.freeBlocks s) ∧
      (s.files.map fun i => (hdr s i).blocks).sum + Statfs.freeBlocks s ≤ s.fs.geo.dataSize ∧
      Statfs.Leaves cx (Statfs.freeBlocks s) t) s := by
  have sane := arises.sane
  have bam := sane.disk.bam
  have ok : Statfs.MapOk s := ⟨bam.synced, bam.outside⟩
  have le := sane.blocksOwned.blocks_le
  have fits := bam.geo.fits
  have pos := bam.geo.dataPos
  simp only [Statfs.natStatfs, wp_bind, wp_get, after_ok]
  refine wp_mono (Statfs.statfsFrom_counts noio s.fs.geo.bamSize ok.sync (zero_add _) (by decide)) ?_
  rintro r t ⟨rfl, sync, geo, same⟩
  have ok' : Statfs.MapOk t := by
    refine ⟨sync, ?_⟩
    rw [geo]
    intro b lt out
    rw [same b lt]
    exact ok.outside b lt out
  have count : Statfs.clear t 0 (4096 * t.fs.geo.bamSize) = Statfs.freeBlocks s := by
    rw [← Statfs.clear_all ok, geo]
    exact Statfs.clear_congr fun b _ hi => same b (by omega)
  rw [mul_zero, Statfs.clear_all ok, zero_add, Nat.mod_eq_of_lt (by omega), after_ok, wp_pure]
  exact ⟨rfl, le, Statfs.leaves_of_clear noio ok' count⟩

/-- The file and the root directory have taken three blocks. -/
theorem statfs_after_run_file : (Statfs.natStatfs rootCx withFile).1 = .ok (97, 94) := by
  have free : Statfs.freeBlocks withFile = 94 := by decide +kernel
  have size : withFile.fs.geo.dataSize = 97 := by decide +kernel
  have exact := statfs_after_run withFile_arises fun _ : Nat => (rfl : rootCx.io _ = none)
  rw [free, size] at exact
  exact exact.1

/- What link counts mean -/

end Natfs
