import Newsys.Lib.Bytes
import Newsys.Lib.Cmd

/- The on-disk structures of the native file system (priv/natfs.h) as overlays of 512-byte
   blocks, and the in-memory structures the kernel keeps of a mounted volume (kern/fs.h).
   A device is the function from block numbers to contents that the buffer cache presents. -/
namespace Natfs
open Bytes Cmds

inductive Errno where
  | ENOENT | EACCES | EPERM | EBUSY | EEXIST | EFAULT | EFBIG | EINVAL | ENOMEM | EMFILE
  | ENAMETOOLONG | ENFILE | EIO | ENOSPC | ENOTDIR | ENOTEMPTY | EROFS | EXDEV | EBADF | EISDIR
  deriving DecidableEq

abbrev Image := Nat → Mem

def natMagic : List Byte := [0x42, 0x45, 0x33, 0x32, 0x55, 0x4c, 0x46, 0]

/- struct nat_super -/

def sbMagic (b : Mem) : List Byte := slice b 0 8
def sbBamBlock (b : Mem) : Nat := getLE b 8 4
def sbBamSize (b : Mem) : Nat := getLE b 12 4
def sbDataBlock (b : Mem) : Nat := getLE b 16 4
def sbDataSize (b : Mem) : Nat := getLE b 20 4
def sbRootBlock (b : Mem) : Nat := getLE b 24 4
def sbNdirblks (b : Mem) : Nat := getLE b 28 1
def sbNindirlev (b : Mem) : Nat := getLE b 29 1
def sbDirty (b : Mem) : Nat := getLE b 32 4

/- struct nat_header: 56 bytes of attributes, then the 114 entries of the block map -/

def hdSize (b : Mem) : Nat := getLE b 32 4
def hdMode (b : Mem) : Nat := getLE b 36 4
def hdNlink (b : Mem) : Nat := getLE b 40 4
def hdBlocks (b : Mem) : Nat := getLE b 44 4
def hdNdirblks (b : Mem) : Nat := getLE b 52 1
def hdNindirlev (b : Mem) : Nat := getLE b 53 1
def hdBmap (b : Mem) (i : Nat) : Nat := getLE b (56 + 4 * i) 4

def imap (b : Mem) (i : Nat) : Nat := getLE b (4 * i) 4

/- struct nat_dirent: a 28-byte name and a block number, 16 to a block -/

/-- The characters from `off` up to the first NUL, looking at no more than `fuel` bytes. -/
def cstr (b : Mem) (off : Nat) : Nat → List Byte
  | 0 => []
  | fuel + 1 => if b off = 0 then [] else b off :: cstr b (off + 1) fuel

def deFirstBlock (b : Mem) (i : Nat) : Nat := getLE b (32 * i + 28) 4

def deName (b : Mem) (i : Nat) : List Byte := cstr b (32 * i) (512 - 32 * i)

def clearDirent (b : Mem) (i : Nat) : Mem := fill b (32 * i) (32 * i + 32) 0

/-- The entry cleared, its name copied in with `strcpy` and its block number set. -/
def setDirent (b : Mem) (i : Nat) (name : List Byte) (firstBlock : Nat) : Mem :=
  setLE (blit (clearDirent b i) (32 * i) (name ++ [0])) (32 * i + 28) 4 firstBlock

/- File types in a mode word -/

def sIfmt (mode : Nat) : Nat := mode &&& 0o70000
def sIsdir (mode : Nat) : Bool := sIfmt mode == 0o30000
def sIsreg (mode : Nat) : Bool := sIfmt mode == 0
def sIsfifo (mode : Nat) : Bool := sIfmt mode == 0o10000

/-- What `struct fs` keeps of the superblock and of the mount flags. -/
structure Geo where
  bamBlock : Nat
  bamSize : Nat
  dataBlock : Nat
  dataSize : Nat
  rootBlock : Nat
  ndirblks : Nat
  nindirlev : Nat
  readOnly : Bool
  noAtime : Bool
  insecure : Bool
  deriving DecidableEq

/-- The native part of `struct fs`: the geometry and the one cached map block. -/
structure Fs where
  geo : Geo
  freeBlock : Nat
  bamBuf : Mem
  bamCurr : Nat
  bamDirty : Bool

structure Fso where
  refcnt : Nat
  dirty : Bool
  nlink : Nat
  uid : Nat
  gid : Nat
  atime : Nat
  ctime : Nat
  mtime : Nat
  blocks : Nat
  mode : Nat
  size : Nat
  rdev : Nat
  bmapValid : Bool
  bmapLog : Nat
  bmapPhys : Nat
  bmap : Nat → Nat
  ndirblks : Nat
  nindirlev : Nat

/-- A mounted volume. The table of objects is keyed by their index: two live entries of
    `fs_fso` never carry the same index of one file system. `files` is a ghost: the header
    blocks of the files that exist, read by no operation. -/
structure Vol where
  dev : Image
  fs : Fs
  fso : Nat → Fso
  files : List Nat
  tick : Nat

/-- What a call takes from outside: the outcome of each buffer request and of each table
    request, numbered by `tick`, the clock, and the caller's identity. -/
structure Cx where
  io : Nat → Option Errno
  nomem : Nat → Option Errno
  clock : Nat → Nat
  euid : Nat
  egid : Nat

abbrev NatM := Cmd Errno Vol

def Cx.NoIoError (cx : Cx) : Prop := ∀ n, cx.io n = none

def Cx.IoError (cx : Cx) (e : Errno) : Prop := ∃ n, cx.io n = some e

def Cx.NoSlot (cx : Cx) (e : Errno) : Prop := ∃ n, cx.nomem n = some e

theorem Cx.NoIoError.none {cx : Cx} (noio : cx.NoIoError) {e : Errno} (io : cx.IoError e) : False := by
  obtain ⟨n, failed⟩ := io
  rw [noio n] at failed
  cases failed

def update (f : Nat → α) (k : Nat) (v : α) : Nat → α := fun x => if x = k then v else f x

@[simp] theorem update_same (f : Nat → α) (k : Nat) (v : α) : update f k v k = v := by
  simp [update]

theorem update_ne (f : Nat → α) (k : Nat) (v : α) (ne : x ≠ k) : update f k v x = f x := by
  simp [update, ne]

theorem update_self (f : Nat → α) (i : Nat) : update f i (f i) = f := by
  funext x
  by_cases eq : x = i
  · rw [eq, update_same]
  · rw [update_ne _ _ _ eq]

theorem update_update (f : Nat → α) (i : Nat) (v w : α) : update (update f i v) i w = update f i w := by
  funext x
  by_cases eq : x = i
  · rw [eq, update_same, update_same]
  · rw [update_ne _ _ _ eq, update_ne _ _ _ eq, update_ne _ _ _ eq]

def Vol.setDev (s : Vol) (bn : Nat) (b : Mem) : Vol := { s with dev := update s.dev bn b }

def Vol.setFso (s : Vol) (i : Nat) (f : Fso) : Vol := { s with fso := update s.fso i f }

/- The buffer cache as its callers use it (kern/block.c). A buffer stays attached to its
   block while it is referenced, so a handle is the block number. -/

/-- `blk_get` and `blk_read`: the request may fail, else the block can be used. That is more than the cache does: it reads
    a buffer that has just been filled without a request, and a `blk_pwrite` of a whole block asks for a buffer only.
    Less: a dirty buffer that the device refuses to take is lost in silence, here the cache loses nothing. -/
def blkGet (cx : Cx) (_bn : Nat) : NatM Unit := fun s =>
  match cx.io s.tick with
  | some e => (.err e, { s with tick := s.tick + 1 })
  | none => (.ok (), { s with tick := s.tick + 1 })

def blkRead (cx : Cx) (bn : Nat) : NatM Mem := do
  blkGet cx bn
  let s ← Cmd.get
  pure (s.dev bn)

def blkFill (bn : Nat) (b : Mem) : NatM Unit := Cmd.modify fun s => s.setDev bn b

def clockTime (cx : Cx) : NatM Nat := fun s => (.ok (cx.clock s.tick), s)

end Natfs
