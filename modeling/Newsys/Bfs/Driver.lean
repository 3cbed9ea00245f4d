import Newsys.Kern.Buffers
import Newsys.Kern.Objects
import Newsys.Kern.Prefixes

/- The boot file system (kern/fs/bfs/bfs.c): the headers of its files form a chain through the device, from
   block 128 on, and the blocks of a file follow its header. All blocks are read through the buffer cache;
   a buffer that a call takes is to be given back before the call returns. -/
namespace Bfs
open Bytes Cmds Cmd Kern Objects Block

abbrev blkSize : Nat := 512

abbrev bfsPathMax : Nat := 499
abbrev bfsNameMax : Nat := 31

abbrev direntSize : Nat := bfsNameMax + 1

abbrev bfsDPerBlock : Nat := blkSize / direntSize

abbrev firstBlk : Nat := 128

def wrap (n : Nat) : Nat := n % 2 ^ 32

/- The fields of `struct bfs_head` in a block -/

/-- The memory from the start of a block on; `past` is what lies behind the block. -/
def bytesOf (m : Blk) (past : Mem) : Mem := fun k => if h : k < blkSize then m ⟨k, h⟩ else past k

def headMode (m : Blk) : Nat := getLE (bytesOf m zero) 0 4

def headSize (m : Blk) : Nat := getLE (bytesOf m zero) 4 4

def headNext (m : Blk) : Nat := getLE (bytesOf m zero) 8 4

def headNamed (m : Blk) (past : Mem) (name : Vfs.CString) : Prop :=
  slice (bytesOf m past) 12 name.val.length = name.val ∧ bytesOf m past (12 + name.val.length) = 0

instance (m : Blk) (past : Mem) (name : Vfs.CString) : Decidable (headNamed m past name) :=
  inferInstanceAs (Decidable (_ ∧ _))

/- The driver -/

structure Attr where
  nlink : Nat
  blocks : Nat
  size : Nat
  mode : Nat
  atime : Nat
  ctime : Nat
  mtime : Nat
  state : Nat

def Attr.zero : Attr := ⟨0, 0, 0, 0, 0, 0, 0, 0⟩

structure Super where
  dev : Nat
  mountTime : Nat
  readOnly : Bool

structure Own where
  cache : Cache
  fs : Nat → Super

abbrev BfsM := ObjM Own Attr

abbrev State := Sys Own Attr

def setCache (c : Cache) (s : State) : State := { s with own := { s.own with cache := c } }

def onCache {α : Type} (m : BlkM α) : BfsM α := fun s => ((m s.own.cache).1, setCache (m s.own.cache).2 s)

def blkData (b : Nat) : BfsM Blk := do
  let s ← get
  pure (s.own.cache.bufs b).data

abbrev rOK : Nat := 4
abbrev wOK : Nat := 2

def bfsMount (fs now : Nat) : BfsM Unit :=
  modify fun s => { s with own := { s.own with
    fs := Function.update s.own.fs fs { s.own.fs fs with mountTime := now, readOnly := true } } }

def bfsGetfso (io : Io) (f : Nat) : BfsM Unit := do
  let s ← get
  let fs := s.own.fs (s.fso f).fs
  let b ← onCache (blkRead io fs.dev (s.fso f).index)
  let h ← blkData b
  let t := fs.mountTime
  modify (setFso f fun x => { x with data := {
    nlink := 1
    blocks := wrap (wrap (headSize h + blkSize - 1) / blkSize + 1)
    size := headSize h
    mode := headMode h
    atime := t
    ctime := t
    mtime := t
    state := rOK ||| wOK } })
  onCache (blkPut b)

/-- The loop of `bfs_lookup`, which may have no end: there is no result yet after so many rounds. `mem` is what
    `pg_atmem` returns to `fs_getfso`. -/
def lookupFrom (io : Io) (mem : Option Errno) (past : Mem) (fs : Nat) (name : Vfs.CString) :
    Nat → Nat → BfsM (Option Nat)
  | 0, _ => pure none
  | n + 1, i => do
    let s ← get
    let b ← onCache (blkRead io (s.own.fs fs).dev i)
    let h ← blkData b
    if headNamed h past name then do
      onCache (blkPut b)
      let f ← fsGetfso (bfsGetfso io) Attr.zero fs i mem
      pure (some f)
    else do
      let i := headNext h
      onCache (blkPut b)
      if i = 0 then fail .ENOENT else lookupFrom io mem past fs name n i

def bfsLookup (io : Io) (mem : Option Errno) (past : Mem) (fs : Nat) (name : Vfs.CString) (rounds : Nat) :
    BfsM (Option Nat) := lookupFrom io mem past fs name rounds firstBlk

/-- `strcpy` goes on behind a name that fills its field. -/
def bfsReaddir (io : Io) (dir : Nat) (index : Int) : BfsM (List Byte) := do
  let s ← get
  let f := s.fso dir
  if index < 0 then fail .EINVAL
  else if f.data.size ≤ wrap (index.toNat * direntSize) then fail .ENOENT
  else do
    let bd ← onCache (blkPread io (s.own.fs f.fs).dev (wrap (f.index + 1 + index.toNat / bfsDPerBlock))
      (index.toNat % bfsDPerBlock * direntSize) direntSize)
    if 0 ∈ bd then pure (bd.takeWhile (· ≠ 0)) else crash

def pieceLen (offset count : Nat) : Nat :=
  if blkSize - offset % blkSize > count then count else blkSize - offset % blkSize

theorem pieceLen_pos (some : count ≠ 0) : 0 < pieceLen offset count := by
  unfold pieceLen
  split
  · omega
  · have inside : offset % blkSize < blkSize := Nat.mod_lt _ (by decide)
    omega

def readFrom (io : Io) (dev index offset count : Nat) : BfsM (List Byte) :=
  if count = 0 then pure []
  else do
    let l := pieceLen offset count
    let buf ← onCache (blkPread io dev (wrap (index + 1 + offset / blkSize)) (offset % blkSize) l)
    let rest ← readFrom io dev index (offset + l) (count - l)
    pure (buf ++ rest)
termination_by count
decreasing_by
  have pos : 0 < pieceLen offset count := pieceLen_pos ‹_›
  omega

def bfsRead (io : Io) (f offset count : Nat) : BfsM (List Byte) := do
  let s ← get
  let f := s.fso f
  if f.data.size ≤ offset then pure []
  else
    let count := if offset + count > f.data.size then f.data.size - offset else count
    readFrom io (s.own.fs f.fs).dev f.index offset count

structure Statfs where
  blkTotal : Nat
  blkFree : Nat

/-- The loop of `bfs_statfs`: the last buffer is not put. -/
def statfsFrom (io : Io) (fs : Nat) : Nat → Nat → BfsM (Option Statfs)
  | 0, _ => pure none
  | n + 1, i => do
    let s ← get
    let b ← onCache (blkRead io (s.own.fs fs).dev i)
    let h ← blkData b
    if headNext h = 0 then pure (some ⟨wrap (i + wrap (headSize h + 511) / 512), 0⟩)
    else do
      let i := headNext h
      onCache (blkPut b)
      statfsFrom io fs n i

def bfsStatfs (io : Io) (fs rounds : Nat) : BfsM (Option Statfs) := statfsFrom io fs rounds firstBlk

end Bfs
