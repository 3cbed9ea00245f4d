import Newsys.Tar.Header

/- Archives: what the archiver stores (cmd/bin/tar.c) and what the library finds in them (lib/tar.c). The tree that is
   stored does not change meanwhile, its directories can be read to their ends, and reads and writes are not short. -/
namespace Tar
open Bytes Ints Kern Cstr Libc Cmds Cmd

abbrev slash : Byte := chr '/'

def sreqSize : Nat := 32768

mutual

/-- What there is under a path name: what `stat` finds, whether `open` succeeds, and what is read then. -/
inductive Node where
  | absent
  | found (st : Stat) (opens : Bool) (data : List Byte) (items : Items)

inductive Items where
  | nil
  | sub (name : List Byte) (node : Node) (rest : Items)

end

structure Namenode where
  dev : Nat
  ino : Nat
  pathname : List Byte
  deriving DecidableEq

/-- The archive so far, `namenodes`, and the path names that have been warned of. -/
structure Out where
  tape : List Byte
  namenodes : List Namenode
  warned : List (List Byte)

abbrev TarM := Cmd Unit Out

def warn (pathname : List Byte) : TarM Unit := modify fun o => { o with warned := o.warned ++ [pathname] }

def write (buf : List Byte) : TarM Unit := modify fun o => { o with tape := o.tape ++ buf }

def addNamenode (pathname : List Byte) (dev ino : Nat) : TarM Unit :=
  modify fun o => { o with namenodes := ⟨dev, ino, pathname⟩ :: o.namenodes }

def findNamenode (namenodes : List Namenode) (dev ino : Nat) : Option Namenode :=
  namenodes.find? fun nn => nn.dev = dev ∧ nn.ino = ino

def roundUp (n : Nat) : Nat := (n + 511) / 512 * 512

def copyData (data : List Byte) : TarM Unit :=
  if data = [] then pure ()
  else do
    let buf := data.take sreqSize
    write (buf ++ List.replicate (roundUp buf.length - buf.length) 0)
    copyData (data.drop sreqSize)
termination_by data.length
decreasing_by
  rename_i some
  have pos := List.length_pos_iff.mpr some
  rw [List.length_drop, sreqSize]
  omega

def sreg (pathname : List Byte) (opens : Bool) (data : List Byte) : TarM Unit :=
  if opens then copyData data else warn pathname

def dot : List Byte := [chr '.']

def dotdot : List Byte := [chr '.', chr '.']

mutual

/-- `store1`; the size of what is not a regular file is cleared. -/
def store1 (m : Machine) (pathname : List Byte) : Node → TarM Unit
  | .absent => warn pathname
  | .found st opens data items => do
    let st := if st.isReg then st else { st with size := 0 }
    (if TooLong pathname then warn pathname else pure ())
    let hd := initHead m st pathname
    let o ← get
    let nn := if 1 < st.nlink then findNamenode o.namenodes st.dev st.ino else none
    (if 1 < st.nlink ∧ nn = none then addNamenode pathname st.dev st.ino else pure ())
    match nn with
    | some nn => write (slice (cksum m (linkHead hd nn.pathname)) 0 512)
    | none => do
      write (slice (cksum m hd) 0 512)
      if st.isReg then sreg pathname opens data
      else if st.isDir then
        -- readdir(NULL)
        if opens then sdir m pathname items else crash
      else pure ()

def sdir (m : Machine) (pathname : List Byte) : Items → TarM Unit
  | .nil => pure ()
  | .sub name node rest => do
    if name = dot ∨ name = dotdot then pure () else store1 m (pathname ++ slash :: name) node
    sdir m pathname rest

end

def store (m : Machine) (members : List (List Byte × Node)) : TarM Unit := do
  forEach members fun member => store1 m member.1 member.2
  write (List.replicate 1024 0)

def create (m : Machine) (members : List (List Byte × Node)) : Res Unit Unit × Out := store m members ⟨[], [], []⟩

set_option linter.dupNamespace false in
structure Tar where
  files : List TarFile
  appendOffset : Int
  deriving DecidableEq

abbrev offT : Int → Int := signed 64

def readAt (tape : List Byte) (pos : Int) (n : Nat) : List Byte := if pos < 0 then [] else (tape.drop pos.toNat).take n

def skip (m : Machine) (u : List Byte) : Int :=
  let size := offT (offT (valueAt m u atSize) + 511)
  size - size % 512

def countHdrs (m : Machine) (tape : List Byte) : Nat → Int → Nat → Nat → Option Nat
  | 0, _, _, _ => none
  | n + 1, pos, zcnt, fcnt =>
    let u := readAt tape pos 512
    if u.length ≠ 512 then some fcnt
    else if str u 0 = [] then
      if 2 ≤ zcnt + 1 then some fcnt else countHdrs m tape n (offT (pos + 512 + skip m u)) (zcnt + 1) fcnt
    else countHdrs m tape n (offT (pos + 512 + skip m u)) zcnt (fcnt + 1)

/-- The second loop, which is left where `left` is 0 and fails at the end of the archive. -/
def readHdrs (m : Machine) (tape : List Byte) : Nat → Int → Int → Nat → Tar → Option (Option Tar)
  | _, _, _, 0, tar => some (some tar)
  | 0, _, _, _ + 1, _ => none
  | n + 1, pos, off, left + 1, tar =>
    let u := readAt tape pos 512
    if u.length < 512 then some none
    else if str u 0 = [] then readHdrs m tape n (offT (pos + 512)) (offT (off + 512)) (left + 1) tar
    else
      let file := parseHdr m u (offT (off + 512))
      let off := offT (off + (skip m u + 512))
      readHdrs m tape n (offT (pos + 512 + skip m u)) off left ⟨tar.files ++ [file], off⟩

/-- `tar_open2`, if it is done after so many rounds of each loop; it may return NULL. -/
def tarOpen2 (m : Machine) (tape : List Byte) (n : Nat) : Option (Option Tar) := do
  let fcnt ← countHdrs m tape n 0 0 0
  if fcnt = 0 then some (some ⟨[], 0⟩) else readHdrs m tape n 0 0 fcnt ⟨[], 0⟩

/-- Whether `off + len > file->size`; a `size_t` of 64 bits makes the comparison unsigned. -/
def pastEnd (m : Machine) (size off : Int) (len : Nat) : Bool :=
  match m with
  | .i386 => offT (off + len) > size
  | .amd64 => unsigned 64 (off + len) > unsigned 64 size

def tarRead (m : Machine) (tape : List Byte) (file : TarFile) (len : Nat) (off : Int) : Option (List Byte) :=
  if off > file.size then some []
  else
    let isz := if pastEnd m file.size off len then (unsigned (longBits m) (file.size - off)).toNat else len
    let pos := offT (file.offset + off)
    if pos < 0 then none else some (readAt tape pos isz)

end Tar
