import Newsys.Natfs.Mount
import Newsys.Fsck.Super
import Newsys.Kern.Machine

/- Laying out a file system (cmd/sbin/mkfs.c). Counts are 32-bit block numbers. The seek to the allocation map is
   computed in 32 bits, that to the root header in a `long`. -/
namespace Mkfs
open Bytes Cmds Cmd Kern Natfs List Classical

/-- What mkfs is run on: a block device, or a regular file of the file system itself. -/
inductive Target where
  | device
  | file
  deriving DecidableEq

def natFileSizeMax : Nat := 0x7fffffff

/-- Whether a whole block can be written at a seek. `nat_write` refuses what ends behind its limit, and an `off_t` below
    0 is a large offset. -/
def Target.accepts (t : Target) (bn : Nat) : Bool :=
  match t with
  | device => true
  | file => bn * 512 + 512 < natFileSizeMax

theorem accepts_file (bn : Nat) : Target.file.accepts bn = true ↔ bn * 512 + 512 < natFileSizeMax := by
  simp only [Target.accepts]
  exact decide_eq_true_iff

/-- The block that `lseek(fd, (long)bn * (long)BLK_SIZE, SEEK_SET)` selects. On i386 the product may be below 0;
    `devfs_write` then takes the offset as an `unsigned long`. -/
def rootSeek (m : Machine) (bn : Nat) : Nat := bn * 512 % m.word / 512

def bamSize (blockCount : Nat) : Nat := (blockCount + 8 * 512 - 1) % 2 ^ 32 / 512 / 8

def dataBlock (blockCount reservedCount : Nat) : Nat :=
  (reservedCount + bamSize blockCount) % 2 ^ 32

def dataSize (blockCount reservedCount : Nat) : Nat :=
  (blockCount + 2 ^ 32 - dataBlock blockCount reservedCount) % 2 ^ 32

def rootBlock (blockCount reservedCount : Nat) : Nat := dataBlock blockCount reservedCount

def superBlock (blockCount reservedCount : Nat) : Mem :=
  let sb := blit zero 0 natMagic
  let sb := setLE sb 8 4 reservedCount
  let sb := setLE sb 12 4 (bamSize blockCount)
  let sb := setLE sb 16 4 (dataBlock blockCount reservedCount)
  let sb := setLE sb 20 4 (dataSize blockCount reservedCount)
  let sb := setLE sb 24 4 (rootBlock blockCount reservedCount)
  let sb := setLE sb 28 1 110
  setLE sb 29 1 3

def rootHeader : Mem :=
  let hd := setLE zero 36 4 0o30755
  let hd := setLE hd 40 4 1
  let hd := setLE hd 44 4 1
  let hd := setLE hd 52 1 114
  setLE hd 53 1 1

def newbamSplit (dataBlock edata i : Nat) (buf : Mem) : Mem :=
  let dbamb := dataBlock / 512 / 8
  let ebamb := edata / 512 / 8
  let buf :=
    if i = dbamb then
      let bysplit := dataBlock % (512 * 8) / 8
      put (fill buf bysplit 512 0) bysplit ((255 : Byte) >>> (8 - dataBlock % 8))
    else if i = dbamb + 1 then fill buf 0 512 0
    else buf
  if i = ebamb then
    let bysplit := edata % (512 * 8) / 8
    put (fill buf bysplit 512 255) bysplit (~~~((255 : Byte) >>> (8 - edata % 8)))
  else if i = ebamb + 1 then fill buf 0 512 255
  else buf

/-- The rounds of `newbam` from `i` on: the root bit is set in the block that is written and
    cleared again in the buffer. mkfs exits when a write is refused. -/
def newbamFrom (t : Target) (dataBlock edata rootBlock start : Nat) : Nat → Nat → Mem → Image → Image
  | 0, _, _, dev => dev
  | n + 1, i, buf, dev =>
    let buf := newbamSplit dataBlock edata i buf
    let rbamb := rootBlock / 512 / 8
    let rbit := 8 * (rootBlock / 8 % 512) + rootBlock % 8
    let marked := if i = rbamb then setBit buf rbit true else buf
    let buf := if i = rbamb then setBit marked rbit false else buf
    if t.accepts (start + i) then
      newbamFrom t dataBlock edata rootBlock start n (i + 1) buf (update dev (start + i) marked)
    else dev

def newbam (t : Target) (blockCount reservedCount : Nat) (dev : Image) : Image :=
  let data := dataBlock blockCount reservedCount
  newbamFrom t data ((data + dataSize blockCount reservedCount) % 2 ^ 32)
    (rootBlock blockCount reservedCount) (Fsck.seek reservedCount) (bamSize blockCount) 0
    (fill zero 0 512 255) dev

def mkfs (m : Machine) (t : Target) (blockCount reservedCount : Nat) (dev : Image) : Image :=
  let dev := update dev 1 (blit (dev 1) 0 (slice (superBlock blockCount reservedCount) 0 36))
  let root := rootSeek m (rootBlock blockCount reservedCount)
  if t.accepts root then newbam t blockCount reservedCount (update dev root rootHeader)
  else dev

/- What the allocator and the checker expect of the result -/

def BamExact (blockCount reservedCount : Nat) (img : Image) : Prop :=
  ∀ b, b < 4096 * bamSize blockCount →
    bit (img (reservedCount + b / 4096)) (b % 4096) =
      decide (b ≤ rootBlock blockCount reservedCount ∨ blockCount ≤ b)

def CheckerAgrees (blockCount reservedCount : Nat) (img : Image) : Prop :=
  ∃ s, Fsck.loadSuper true ⟨img, zero, zero, [], []⟩ = (.ok (), s) ∧
    ∀ i, i < 512 * bamSize blockCount →
      Fsck.bused s.rbam (rootBlock blockCount reservedCount) i =
        img (reservedCount + i / 512) (i % 512)

def FirstAlloc (blockCount reservedCount : Nat) (img : Image) : Prop :=
  ∀ (cx : Cx) (readOnly noAtime insecure : Bool), cx.NoIoError →
    ((do natMount cx; natBalloc cx) (freshVol img readOnly noAtime insecure)).1 =
      if dataSize blockCount reservedCount = 1 then .err .ENOSPC
      else .ok (rootBlock blockCount reservedCount + 1)

/-- All three, whatever the device held before. -/
def Agrees (m : Machine) (t : Target) (blockCount reservedCount : Nat) : Prop :=
  ∀ dev, BamExact blockCount reservedCount (mkfs m t blockCount reservedCount dev) ∧
    CheckerAgrees blockCount reservedCount (mkfs m t blockCount reservedCount dev) ∧
    FirstAlloc blockCount reservedCount (mkfs m t blockCount reservedCount dev)

/-- The sizes that `newbam` handles: the superblock is clear of the map, no 32-bit computation
    wraps, and the data area does not begin and end inside one byte of the map. -/
def Sound (blockCount reservedCount : Nat) : Prop :=
  2 ≤ reservedCount ∧ reservedCount < 2 ^ 23 ∧ blockCount ≤ 2 ^ 32 - 4096 ∧
    (dataBlock blockCount reservedCount / 8 = blockCount / 8 →
      dataBlock blockCount reservedCount % 8 = 0)

/-- Besides, the root header is not written over the superblock, and a regular file has room for it. -/
structure Fits (m : Machine) (t : Target) (blockCount reservedCount : Nat) : Prop where
  sound : Sound blockCount reservedCount
  clear : rootSeek m (rootBlock blockCount reservedCount) ≠ 1
  room : t = .file → rootBlock blockCount reservedCount + 1 < 2 ^ 22

theorem bit_startSplit (data : Nat) (buf : Mem) (k : Nat) (lt : k < 4096) :
    bit (put (fill buf (data % (512 * 8) / 8) 512 0) (data % (512 * 8) / 8)
      ((255 : Byte) >>> (8 - data % 8))) k =
      if k / 8 < data % 4096 / 8 then bit buf k else decide (k < data % 4096) := by
  rw [bit_put, bit_fill, show 512 * 8 = 4096 from rfl]
  by_cases below : k / 8 < data % 4096 / 8
  · rw [if_pos below, if_neg (by omega), if_neg (by omega)]
  · rw [if_neg below]
    by_cases here : k / 8 = data % 4096 / 8
    · rw [if_pos here, low_ones_getLsbD _ _ (by omega)]
      simp only [decide_eq_decide]
      omega
    · rw [if_neg here, if_pos (by omega)]
      simp only [BitVec.ofNat_eq_ofNat, BitVec.getLsbD_zero, Bool.false_eq, decide_eq_false_iff_not]
      omega

theorem bit_endSplit (edata : Nat) (buf : Mem) (k : Nat) (lt : k < 4096) :
    bit (put (fill buf (edata % (512 * 8) / 8) 512 255) (edata % (512 * 8) / 8)
      (~~~((255 : Byte) >>> (8 - edata % 8)))) k =
      if k / 8 < edata % 4096 / 8 then bit buf k else decide (edata % 4096 ≤ k) := by
  rw [bit_put, bit_fill, show 512 * 8 = 4096 from rfl]
  by_cases below : k / 8 < edata % 4096 / 8
  · rw [if_pos below, if_neg (by omega), if_neg (by omega)]
  · rw [if_neg below]
    by_cases here : k / 8 = edata % 4096 / 8
    · rw [if_pos here, high_ones_getLsbD _ _ (by omega) (by omega)]
      simp only [decide_eq_decide]
      omega
    · rw [if_neg here, if_pos (by omega), full_getLsbD _ (by omega)]
      simp only [Bool.true_eq, decide_eq_true_eq]
      omega

/-- What the buffer holds when round `i` begins: ones up to the start of the data area, zeros
    inside it, ones after it. The rounds in which it is rebuilt ask nothing. -/
def Carried (data edata i : Nat) (buf : Mem) : Prop :=
  ∀ k, k < 4096 → (i ≤ data / 4096 → bit buf k = true) ∧
    (data / 4096 + 1 < i → i ≤ edata / 4096 → bit buf k = false) ∧
    (edata / 4096 + 1 < i → bit buf k = true)

variable {data edata i : Nat} {buf : Mem} {t : Target}

theorem newbamSplit_bit (lt : data < edata)
    (bytes : data / 8 = edata / 8 → data % 8 = 0) (carried : Carried data edata i buf) (k : Nat) (small : k < 4096) :
    bit (newbamSplit data edata i buf) k = decide (4096 * i + k < data ∨ edata ≤ 4096 * i + k) := by
  obtain ⟨before, between, beyond⟩ := carried k small
  have order : data / 4096 ≤ edata / 4096 := Nat.div_le_div_right (le_of_lt lt)
  simp only [newbamSplit, Nat.div_div_eq_div_mul, show 512 * 8 = 4096 from rfl]
  rcases lt_trichotomy i (data / 4096) with early | start | late
  · rw [if_neg (by omega), if_neg (by omega), if_neg (by omega), if_neg (by omega),
      before (by omega)]
    simp only [Bool.true_eq, decide_eq_true_eq]
    omega
  · rw [if_pos start]
    by_cases ends : i = edata / 4096
    · rw [if_pos ends, bit_endSplit _ _ _ small]
      split
      · rename_i low
        rw [bit_startSplit _ _ _ small]
        split
        · rw [before (by omega)]
          simp only [Bool.true_eq, decide_eq_true_eq]
          omega
        · simp only [decide_eq_decide]
          omega
      · simp only [decide_eq_decide]
        omega
    · rw [if_neg ends, if_neg (by omega), bit_startSplit _ _ _ small]
      split
      · rw [before (by omega)]
        simp only [Bool.true_eq, decide_eq_true_eq]
        omega
      · simp only [decide_eq_decide]
        omega
  · have notStart : ¬ i = data / 4096 := by omega
    rw [if_neg notStart]
    by_cases ends : i = edata / 4096
    · rw [if_pos ends, bit_endSplit _ _ _ small]
      split
      · rename_i low
        have clear : bit (if i = data / 4096 + 1 then fill buf 0 512 0 else buf) k = false := by
          split
          · rw [bit_fill, if_pos (by omega)]; simp
          · exact between (by omega) (by omega)
        rw [clear]
        simp only [Bool.false_eq, decide_eq_false_iff_not]
        omega
      · simp only [decide_eq_decide]
        omega
    · rw [if_neg ends]
      by_cases after : i = edata / 4096 + 1
      · rw [if_pos after, bit_fill, if_pos (by omega), full_getLsbD _ (by omega)]
        simp only [Bool.true_eq, decide_eq_true_eq]
        omega
      · rw [if_neg after]
        by_cases past : edata / 4096 < i
        · have notNext : ¬ i = data / 4096 + 1 := by omega
          rw [if_neg notNext, beyond (by omega)]
          simp only [Bool.true_eq, decide_eq_true_eq]
          omega
        · have clear : bit (if i = data / 4096 + 1 then fill buf 0 512 0 else buf) k = false := by
            split
            · rw [bit_fill, if_pos (by omega)]; simp
            · exact between (by omega) (by omega)
          rw [clear]
          simp only [Bool.false_eq, decide_eq_false_iff_not]
          omega

theorem newbamSplit_carried (lt : data < edata)
    (bytes : data / 8 = edata / 8 → data % 8 = 0) (carried : Carried data edata i buf) :
    Carried data edata (i + 1) (newbamSplit data edata i buf) := by
  intro k small
  rw [newbamSplit_bit lt bytes carried k small]
  simp only [decide_eq_true_eq, decide_eq_false_iff_not]
  refine ⟨?_, ?_, ?_⟩ <;> intros <;> omega

theorem newbamFrom_untouched (t : Target) (data edata root start n i : Nat) (buf : Mem) (dev : Image) (x : Nat)
    (out : x < start + i ∨ start + i + n ≤ x) :
    newbamFrom t data edata root start n i buf dev x = dev x := by
  induction n generalizing i buf dev with
  | zero => rfl
  | succ n ih =>
    simp only [newbamFrom]
    split
    · rw [ih _ _ _ (by omega), update_ne _ _ _ (by omega)]
    · rfl

theorem newbamFrom_bit (lt : data < edata)
    (bytes : data / 8 = edata / 8 → data % 8 = 0) (carried : Carried data edata i buf)
    (accepts : ∀ x, x < start + i + n → t.accepts x = true) (j k : Nat) (lower : i ≤ j) (upper : j < i + n) (small : k < 4096) :
    bit (newbamFrom t data edata data start n i buf dev (start + j)) k =
      decide (4096 * j + k ≤ data ∨ edata ≤ 4096 * j + k) := by
  induction n generalizing i buf dev with
  | zero => omega
  | succ n ih =>
    have split := newbamSplit_bit lt bytes carried
    have rbit : 8 * (data / 8 % 512) + data % 8 = data % 4096 := by omega
    simp only [newbamFrom, Nat.div_div_eq_div_mul, show 512 * 8 = 4096 from rfl, rbit]
    rw [if_pos (accepts _ (by omega))]
    by_cases here : j = i
    · subst here
      rw [newbamFrom_untouched _ _ _ _ _ _ _ _ _ _ (by omega), update_same]
      by_cases root : j = data / 4096
      · rw [if_pos root, bit_setBit]
        split
        · rename_i eq
          simp only [Bool.true_eq, decide_eq_true_eq]
          omega
        · rename_i ne
          rw [split k small]
          simp only [decide_eq_decide]
          omega
      · rw [if_neg root, split k small]
        simp only [decide_eq_decide]
        omega
    · apply ih _ (fun x before => accepts x (by omega)) (by omega) (by omega)
      have next := newbamSplit_carried lt bytes carried
      by_cases root : i = data / 4096
      · rw [if_pos root, if_pos root]
        -- the root bit was clear before it was set for the write
        have same : ∀ q, q < 4096 → bit (setBit (setBit (newbamSplit data edata i buf)
            (data % 4096) true) (data % 4096) false) q = bit (newbamSplit data edata i buf) q := by
          intro q small
          rw [bit_setBit, bit_setBit]
          by_cases at' : q = data % 4096
          · rw [if_pos at', split q small]
            simp only [Bool.false_eq, decide_eq_false_iff_not]
            omega
          · rw [if_neg at', if_neg at']
        intro q small
        rw [same q small]
        exact next q small
      · rw [if_neg root]
        exact next

/- The numbers that mkfs computes, when no computation wraps -/

section Sizes
variable {blockCount reservedCount : Nat}

theorem bamSize_eq (small : blockCount ≤ 2 ^ 32 - 4096) :
    bamSize blockCount = (blockCount + 4095) / 4096 := by
  simp only [bamSize, Nat.div_div_eq_div_mul]
  rw [Nat.mod_eq_of_lt (by omega)]
  rfl

theorem dataBlock_eq (small : blockCount ≤ 2 ^ 32 - 4096) (reserved : reservedCount < 2 ^ 23) :
    dataBlock blockCount reservedCount = reservedCount + bamSize blockCount := by
  have size := bamSize_eq small
  simp only [dataBlock]
  rw [Nat.mod_eq_of_lt (by omega)]

theorem dataSize_eq (small : blockCount < 2 ^ 32)
    (room : dataBlock blockCount reservedCount < blockCount) :
    dataSize blockCount reservedCount = blockCount - dataBlock blockCount reservedCount := by
  simp only [dataSize]
  rw [show blockCount + 2 ^ 32 - dataBlock blockCount reservedCount =
    blockCount - dataBlock blockCount reservedCount + 2 ^ 32 by omega, Nat.add_mod_right,
    Nat.mod_eq_of_lt (by omega)]

theorem edata_eq (small : blockCount < 2 ^ 32)
    (room : dataBlock blockCount reservedCount < blockCount) :
    (dataBlock blockCount reservedCount + dataSize blockCount reservedCount) % 2 ^ 32 =
      blockCount := by
  rw [dataSize_eq small room]
  rw [Nat.mod_eq_of_lt (by omega)]
  omega

theorem seek_eq (small : bn < 2 ^ 23) : Fsck.seek bn = bn := by
  simp only [Fsck.seek]
  omega

theorem rootSeek_eq (small : m = .i386 → bn < 2 ^ 23) (bound : bn < 2 ^ 32) : rootSeek m bn = bn := by
  cases m with
  | i386 =>
    have lt := small rfl
    simp only [rootSeek, Machine.word]
    omega
  | amd64 =>
    simp only [rootSeek, Machine.word]
    omega

theorem accepts_of_room {root : Nat} (room : t = .file → root + 1 < 2 ^ 22) (le : x ≤ root) : t.accepts x = true := by
  cases t with
  | device => rfl
  | file =>
    have lt := room rfl
    rw [accepts_file, natFileSizeMax]
    omega

theorem mkfs_eq (m : Machine) (room : t = .file → rootBlock blockCount reservedCount + 1 < 2 ^ 22) (dev : Image) :
    mkfs m t blockCount reservedCount dev = newbam t blockCount reservedCount
      (update (update dev 1 (blit (dev 1) 0 (slice (superBlock blockCount reservedCount) 0 36)))
        (rootSeek m (rootBlock blockCount reservedCount)) rootHeader) := by
  have le : rootSeek m (rootBlock blockCount reservedCount) ≤ rootBlock blockCount reservedCount := by
    cases m <;> simp only [rootSeek, Machine.word] <;> omega
  exact if_pos (accepts_of_room room le)

theorem carried_start (data edata : Nat) : Carried data edata 0 (fill zero 0 512 255) := by
  intro k small
  have ones : bit (fill zero 0 512 255) k = true := by
    rw [bit_fill, if_pos (by omega), full_getLsbD _ (by omega)]
  refine ⟨fun _ => ones, fun h => by omega, fun _ => ones⟩

/- The superblock that is written, read back -/

theorem superBlock_magic : sbMagic (superBlock blockCount reservedCount) = natMagic := by
  apply ext_getElem
  · simp [sbMagic, slice, natMagic]
  · intro k lt bound
    simp only [sbMagic, slice, length_map, length_range] at lt
    simp only [sbMagic, slice, getElem_map, getElem_range, superBlock]
    rw [setLE_outside _ _ _ _ _ (by omega), setLE_outside _ _ _ _ _ (by omega),
      setLE_outside _ _ _ _ _ (by omega), setLE_outside _ _ _ _ _ (by omega),
      setLE_outside _ _ _ _ _ (by omega), setLE_outside _ _ _ _ _ (by omega),
      setLE_outside _ _ _ _ _ (by omega)]
    rw [blit_inside _ _ _ _ (by omega) (by simp [natMagic]; omega)]
    simp [getD, bound]

theorem superBlock_fields (reserved : reservedCount < 2 ^ 32) :
    sbBamBlock (superBlock blockCount reservedCount) = reservedCount ∧
      sbBamSize (superBlock blockCount reservedCount) = bamSize blockCount ∧
      sbDataBlock (superBlock blockCount reservedCount) = dataBlock blockCount reservedCount ∧
      sbDataSize (superBlock blockCount reservedCount) = dataSize blockCount reservedCount ∧
      sbRootBlock (superBlock blockCount reservedCount) = rootBlock blockCount reservedCount ∧
      sbNdirblks (superBlock blockCount reservedCount) = 110 ∧
      sbNindirlev (superBlock blockCount reservedCount) = 3 := by
  have size : bamSize blockCount < 2 ^ 32 := by
    simp only [bamSize, Nat.div_div_eq_div_mul]; omega
  have data : dataBlock blockCount reservedCount < 2 ^ 32 := Nat.mod_lt _ (by decide)
  have rest : dataSize blockCount reservedCount < 2 ^ 32 := Nat.mod_lt _ (by decide)
  simp only [sbBamBlock, sbBamSize, sbDataBlock, sbDataSize, sbRootBlock, sbNdirblks, sbNindirlev,
    superBlock, rootBlock]
  simp (disch := omega) only [getLE_setLE_ne, getLE_setLE_same, show (256 : Nat) ^ 4 = 2 ^ 32 from rfl,
    Nat.mod_eq_of_lt, and_self]

section
variable (fits : Fits m t blockCount reservedCount)
include fits

theorem mkfs_super (dev : Image) :
    mkfs m t blockCount reservedCount dev 1 =
      blit (dev 1) 0 (slice (superBlock blockCount reservedCount) 0 36) := by
  obtain ⟨⟨low, high, _⟩, clear, room⟩ := fits
  rw [mkfs_eq m room, newbam, newbamFrom_untouched _ _ _ _ _ _ _ _ _ _ (by rw [seek_eq high]; omega),
    update_ne _ _ _ clear.symm, update_same]

theorem mkfs_magic (dev : Image) :
    sbMagic (mkfs m t blockCount reservedCount dev 1) = natMagic := by
  rw [mkfs_super fits, sbMagic, slice_blit_slice _ _ _ _ (by omega)]
  exact superBlock_magic

theorem mkfs_fields (dev : Image) :
    let sb := mkfs m t blockCount reservedCount dev 1
    sbBamBlock sb = reservedCount ∧ sbBamSize sb = bamSize blockCount ∧
      sbDataBlock sb = dataBlock blockCount reservedCount ∧
      sbDataSize sb = dataSize blockCount reservedCount ∧
      sbRootBlock sb = rootBlock blockCount reservedCount ∧
      sbNdirblks sb = 110 ∧ sbNindirlev sb = 3 := by
  have reserved := fits.sound.2.1
  intro sb
  simp only [sb, mkfs_super fits, sbBamBlock, sbBamSize, sbDataBlock, sbDataSize, sbRootBlock,
    sbNdirblks, sbNindirlev]
  simp (disch := omega) only [getLE_blit_slice]
  exact superBlock_fields (by omega)

section
variable (room : dataBlock blockCount reservedCount < blockCount)
include room

theorem bamExact_of_fits
    (dev : Image) :
    BamExact blockCount reservedCount (mkfs m t blockCount reservedCount dev) := by
  obtain ⟨⟨_, high, small, bytes⟩, _, fileRoom⟩ := fits
  intro b lt
  have root : rootBlock blockCount reservedCount = dataBlock blockCount reservedCount := rfl
  have data := dataBlock_eq small high
  rw [mkfs_eq m fileRoom]
  simp only [newbam, seek_eq high, edata_eq (by omega) room, root]
  rw [newbamFrom_bit room bytes (carried_start _ _) (fun x before => accepts_of_room fileRoom (by omega)) _ _
    (by omega) (by omega) (by omega)]
  rw [show 4096 * (b / 4096) + b % 4096 = b by omega]

theorem mounted_bamOk
   
    (geo : s.fs.geo = geoOf (mkfs m t blockCount reservedCount dev 1) flags)
    (curr : s.fs.bamCurr = 0) (clean : s.fs.bamDirty = false)
    (same : ∀ x, x ≠ 1 → s.dev x = mkfs m t blockCount reservedCount dev x) :
    BamOk s ∧ ∀ b, b < 4096 * bamSize blockCount →
      used s b = decide (b ≤ rootBlock blockCount reservedCount ∨ blockCount ≤ b) := by
  have exact := bamExact_of_fits fits room dev
  obtain ⟨block, size, data, dsize, root, _⟩ := mkfs_fields fits dev
  obtain ⟨low, high, small, bytes⟩ := fits.sound
  have sizeEq := bamSize_eq small
  have dataEq := dataBlock_eq small high
  have dsizeEq := dataSize_eq (by omega) room
  have rootEq : rootBlock blockCount reservedCount = dataBlock blockCount reservedCount := rfl
  have geoBlock : s.fs.geo.bamBlock = reservedCount := by rw [geo]; exact block
  have geoSize : s.fs.geo.bamSize = bamSize blockCount := by rw [geo]; exact size
  have geoData : s.fs.geo.dataBlock = dataBlock blockCount reservedCount := by rw [geo]; exact data
  have geoDsize : s.fs.geo.dataSize = dataSize blockCount reservedCount := by rw [geo]; exact dsize
  have geoRoot : s.fs.geo.rootBlock = rootBlock blockCount reservedCount := by rw [geo]; exact root
  have bits : ∀ b, b < 4096 * bamSize blockCount →
      used s b = decide (b ≤ rootBlock blockCount reservedCount ∨ blockCount ≤ b) := by
    intro b lt
    simp only [used, bamBlk, geoBlock, curr]
    rw [if_neg (by omega), same _ (by omega)]
    exact exact b lt
  refine ⟨⟨⟨by omega, by omega, by omega, by omega, by omega, ?_⟩, ?_, ?_, ?_⟩, bits⟩
  · simp only [Geo.inData]; omega
  · intro _ inside
    simp only [Geo.inBam, curr] at inside
    omega
  · intro dirty; rw [clean] at dirty; exact absurd dirty (by decide)
  · intro b lt out
    rw [geoSize] at lt
    simp only [Geo.inData] at out
    rw [bits b lt]
    simp only [decide_eq_true_eq]
    omega

end

end

/- The sizes that mkfs does not handle -/

end Sizes

end Mkfs
