import Newsys.Bfs.Driver

/- The tool that writes a boot file system (cross/mkbfs.c) from a directory tree of the host, which does not
   change meanwhile and can be read. The headers come in the order in which the tree is left: the files and
   directories of a directory are written before it. -/
namespace Mkbfs
open Bytes Cmds Cmd Bfs

abbrev pathMax : Nat := 4096

abbrev slash : Byte := 47

abbrev Name := { s : List Byte // s ≠ [] ∧ (0 : Byte) ∉ s ∧ slash ∉ s }

mutual

inductive Node where
  | reg (mode : Nat) (data : List Byte)
  | dir (mode : Nat) (items : Items)

inductive Items where
  | nil
  | dots (parent : Bool) (rest : Items)
  | sub (name : Name) (node : Node) (rest : Items)

end

def dotName (parent : Bool) : List Byte := if parent then [46, 46] else [46]

def Items.names : Items → List (List Byte)
  | nil => []
  | dots parent rest => dotName parent :: rest.names
  | sub name _ rest => name.val :: rest.names

structure Out where
  dev : Mem
  pos : Nat
  currBlk : Nat

abbrev MkM := Cmd Nat Out

def modeOf (isDir : Bool) (mode : Nat) : Nat :=
  let m := if isDir then 0o30000 else 0
  let m := if mode &&& 0o400 ≠ 0 then m ||| 0o400 else m
  let m := if mode &&& 0o200 ≠ 0 then m ||| 0o200 else m
  if mode &&& 0o100 ≠ 0 then m ||| 0o100 else m

def nextOf (currBlk size : Nat) : Nat := wrap (wrap (size + 511) / 512 + currBlk + 1)

def headOf (name : List Byte) (mode size next : Nat) : Mem :=
  let hd := setLE zero 4 4 size
  let hd := setLE hd 8 4 next
  let hd := blit hd 12 name
  setLE hd 0 4 mode

def addBlock (offset : Nat) (data : List Byte) : MkM Unit :=
  modify fun o =>
    let pos := wrap (wrap (offset + o.currBlk) * 512)
    ⟨blit o.dev pos data, pos + 512, wrap (o.currBlk + 1)⟩

def piece (data : List Byte) : List Byte := data.take 512 ++ List.replicate (512 - data.length) 0

/-- The loop of `add_reg`, which is run while `curr_blk` is below `hd.next`. -/
def addBlocks (offset : Nat) : Nat → List Byte → MkM Unit
  | 0, _ => pure ()
  | n + 1, data => do
    addBlock offset (piece data)
    addBlocks offset n (data.drop 512)

/-- `mkhead` copies the name into a field of 500 bytes. -/
def addReg (offset : Nat) (dpath : List Byte) (mode : Nat) (data : List Byte) : MkM Unit := do
  let o ← get
  let size := wrap data.length
  let next := nextOf o.currBlk size
  if bfsPathMax < dpath.length then crash
  else do
    addBlock offset (slice (headOf dpath (modeOf false mode) size next) 0 512)
    let o ← get
    addBlocks offset (next - o.currBlk) data

/-- `strncpy` into the name of a cleared `struct bfs_dirent` -/
def direntOf (name : List Byte) : List Byte := name.take direntSize ++ List.replicate (direntSize - name.length) 0

def writeDirent (name : List Byte) : MkM Unit :=
  modify fun o => { o with dev := blit o.dev o.pos (direntOf name), pos := o.pos + direntSize }

def closeDir (offset : Nat) (dpath : List Byte) (mode : Nat) (names : List (List Byte)) (last : Bool) : MkM Unit := do
  let o ← get
  let size := wrap (direntSize * names.length)
  let nblk := nextOf o.currBlk size
  if bfsPathMax < dpath.length then crash
  else do
    addBlock offset (slice (headOf dpath (modeOf true mode) size (if last then 0 else nblk)) 0 512)
    modify fun o => { o with currBlk := nblk }
    forEach names writeDirent

def subPath (dpath : List Byte) (name : Name) : List Byte :=
  if dpath = [] then name.val else dpath ++ slash :: name.val

mutual

def addNode (offset : Nat) (spath dpath : List Byte) : Node → MkM Unit
  | .reg mode data => addReg offset dpath mode data
  | .dir mode items => do
    addItems offset spath dpath items
    closeDir offset dpath mode items.names false

def addItems (offset : Nat) (spath dpath : List Byte) : Items → MkM Unit
  | .nil => pure ()
  | .dots _ rest => addItems offset spath dpath rest
  | .sub name node rest =>
    if pathMax ≤ (spath ++ slash :: name.val).length then crash
    else if bfsPathMax < (subPath dpath name).length then crash
    else do
      addNode offset (spath ++ slash :: name.val) (subPath dpath name) node
      addItems offset spath dpath rest

end

def mkbfs (offset : Nat) (template : List Byte) (mode : Nat) (items : Items) : MkM Unit := do
  modify fun o => { o with currBlk := firstBlk }
  addItems offset template [] items
  closeDir offset [] mode items.names true

end Mkbfs
