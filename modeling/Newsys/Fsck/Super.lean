import Newsys.Natfs.Layout

/- The file system checker (cmd/sbin/fsck.c): its state, its device access and the setup of
   the reference map from the superblock. Block offsets are computed in 32 bits there, so a
   seek to block `bn` lands on block `bn % 2^23`. -/
namespace Fsck
open Bytes Cmds Cmd Natfs Bool

inductive Report where
  | badMagic
  | badImapEntry | dupImapEntry
  | badBmapEntry | dupBmapEntry
  | badIndirection | sharedHeader
  | badFileType | badBlockCount
  | nameTooLong | slashInName | noName | badFirstBlock
  | badLinkCount
  | badBam
  deriving DecidableEq

/-- `struct file`: a header as it was read, and what has been counted for it. -/
structure FileRec where
  hd : Mem
  firstBlock : Nat
  trueNlink : Nat
  checked : Bool

structure State where
  img : Image
  sb : Mem
  rbam : Mem
  file : List FileRec
  log : List Report

abbrev FsckM := Cmd Nat State

/-- The block that `lseek(dev_fd, bn * BLK_SIZE, SEEK_SET)` selects. -/
def seek (bn : Nat) : Nat := bn * 512 % 2 ^ 32 / 512

def readBlk (bn : Nat) : FsckM Mem := do
  let s ← get
  pure (s.img (seek bn))

def writeBlk (bn : Nat) (b : Mem) : FsckM Unit :=
  modify fun s => { s with img := update s.img (seek bn) b }

def warnx (r : Report) : FsckM Unit := modify fun s => { s with log := s.log ++ [r] }

def bused (rbam : Mem) (bn : Nat) : Mem := setBit rbam bn true

/-- The map of a superblock before anything is marked: the blocks outside the data area. -/
def outsideMap (dataBlock edata rbamsz : Nat) : Mem :=
  let bdai := dataBlock / 8
  let edai := edata / 8
  let m := fill (fill zero 0 bdai 255) edai rbamsz 255
  let m := if dataBlock % 8 ≠ 0 then put m bdai ((255 : Byte) >>> (8 - dataBlock % 8)) else m
  if edata % 8 ≠ 0 then put m edai (~~~((255 : Byte) >>> (8 - edata % 8))) else m

def loadSuper (fix : Bool) : FsckM Unit := do
  let b ← readBlk 1
  modify fun s => { s with sb := b }
  if sbMagic b ≠ natMagic then
    warnx .badMagic
    if fix then
      -- the magic number that is written is not the one that is expected
      let b := blit b 0 [0x4f, 0x53, 0x33, 0x38, 0x36, 0x46, 0x53, 0]
      modify fun s => { s with sb := b }
      writeBlk 1 b
    else fail 255
  else pure ()
  let s ← get
  let rbamsz := sbBamSize s.sb * 512 % 2 ^ 32
  let edata := (sbDataBlock s.sb + sbDataSize s.sb) % 2 ^ 32
  if rbamsz ≤ sbDataBlock s.sb / 8 ∨ rbamsz < edata / 8 then fail 255
  else if edata % 8 ≠ 0 ∧ edata / 8 = rbamsz then crash
  else modify fun s => { s with rbam := outsideMap (sbDataBlock s.sb) edata rbamsz }

end Fsck
