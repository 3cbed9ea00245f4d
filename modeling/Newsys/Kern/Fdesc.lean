import Mathlib.Algebra.Group.Nat.Defs
import Mathlib.Algebra.Ring.Int.Defs
import Newsys.Lib.Cmd
import Newsys.Kern.Errno

/- Descriptors, open files and file system objects (kern/fs/fdesc.c, main.c, syscall.c, pipe.c, misc.c), and
   what making, executing and ending tasks does to them (kern/task.c, fork.c, exec.c). Files, objects, file
   systems and tasks are numbers. -/
namespace Fdesc
open Cmds Cmd Kern Function List

def fsMaxfile : Nat := 256
def fsMaxfso : Nat := 256
def openMax : Nat := 64
def taskMax : Nat := 64

abbrev Mode := BitVec 32

def oDirection : Mode := 0o7
def oRdonly : Mode := 0o0
def oWronly : Mode := 0o1
def oRdwr : Mode := 0o2
def oNoio : Mode := 0o3
def oTrunc : Mode := 0o1000
def oAppend : Mode := 0o2000
def oNonblock : Mode := 0o10000

def direction (mode : Mode) : Mode := mode &&& oDirection

def reads (mode : Mode) : Bool := direction mode = oRdonly || direction mode = oRdwr
def writes (mode : Mode) : Bool := direction mode = oWronly || direction mode = oRdwr

structure FsFile where
  refcnt : Nat
  fso : Nat
  omode : Mode
  opened : Mode

structure Fso where
  refcnt : Nat
  fs : Nat
  index : Nat
  readerCount : Int
  writerCount : Int

def noIndex : Nat := 2 ^ 32 - 1

structure FsDesc where
  file : Option Nat
  closeOnExec : Int

def FsDesc.null : FsDesc := ⟨none, 0⟩

/-- The tables: `task[i]` is not null where `used` holds, and its descriptors are row `i` of `desc`. -/
structure Sys where
  file : Nat → FsFile
  fso : Nat → Fso
  fsoHigh : Nat
  desc : Nat → Nat → FsDesc
  used : Nat → Bool
  exited : Nat → Bool
  curr : Nat

abbrev FdM := Cmd Errno Sys

def setFile (f : Nat) (g : FsFile → FsFile) (s : Sys) : Sys :=
  { s with file := update s.file f (g (s.file f)) }

def setFso (o : Nat) (g : Fso → Fso) (s : Sys) : Sys := { s with fso := update s.fso o (g (s.fso o)) }

def setDesc (t n : Nat) (d : FsDesc) (s : Sys) : Sys :=
  { s with desc := update s.desc t (update (s.desc t) n d) }

def check : Option Errno → FdM Unit
  | none => pure ()
  | some e => fail e

/- Objects (kern/fs/main.c) -/

/-- What `fs_getfso` is asked for, and what `pg_atmem` and `type->getfso` answer. -/
structure Visit where
  fs : Nat
  index : Nat
  mem : Option Errno
  get : Option Errno

def isOpen (v : Visit) (o : Fso) : Bool :=
  o.refcnt ≠ 0 && v.index ≠ noIndex && o.index = v.index && o.fs = v.fs

/-- An entry of the table for a new object: the last free one, or one past the highest. -/
def fsoSlot (v : Visit) : FdM Nat := do
  let s ← get
  match (range s.fsoHigh).reverse.find? fun o => (s.fso o).refcnt = 0 with
  | some o => pure o
  | none =>
    if s.fsoHigh ≥ fsMaxfso then fail .ENOMEM
    else do
      check v.mem
      modify fun s => { s with fsoHigh := s.fsoHigh + 1 }
      pure s.fsoHigh

def fsGetfso (v : Visit) : FdM Nat := do
  let s ← get
  match (range s.fsoHigh).find? fun o => isOpen v (s.fso o) with
  | some o => do
    modify (setFso o fun f => { f with refcnt := f.refcnt + 1 })
    pure o
  | none => do
    let o ← fsoSlot v
    modify (setFso o fun _ => ⟨1, v.fs, v.index, 0, 0⟩)
    onError (check v.get) (modify (setFso o fun f => { f with refcnt := 0 }))
    pure o

def fsPutfso (o : Nat) : FdM Unit := do
  let s ← get
  if (s.fso o).refcnt = 0 then crash
  else modify (setFso o fun f => { f with refcnt := f.refcnt - 1 })

/-- How a driver's lookup ends. `nat_lookup_dir` returns 0 with no object at a component longer than
    `NAT_NAME_MAX`. -/
inductive Found where
  | missing (e : Errno)
  | object (v : Visit)
  | long

structure Lookup where
  dirs : List Visit
  found : Found

def fsLookup (path : Lookup) : FdM Nat := do
  forEach path.dirs fun v => do
    let dir ← fsGetfso v
    fsPutfso dir
  match path.found with
  | .missing e => fail e
  | .object v => fsGetfso v
  | .long => crash

/- Files and descriptors (kern/fs/fdesc.c) -/

/-- `n` more files of the object are open for what `mode` says. -/
def count (mode : Mode) (n : Int) (f : Fso) : Fso :=
  { f with readerCount := f.readerCount + if reads mode then n else 0
           writerCount := f.writerCount + if writes mode then n else 0 }

def fsGetfile (o : Nat) (omode : Mode) : FdM Nat := do
  let s ← get
  match (range fsMaxfile).find? fun f => (s.file f).refcnt = 0 with
  | none => fail .ENFILE
  | some f => do
    modify (setFile f fun _ => ⟨1, o, omode, omode⟩)
    modify (setFso o (count omode 1))
    pure f

def fsPutfile (f : Nat) : FdM Unit := do
  let s ← get
  if (s.file f).refcnt = 0 then crash
  else if (s.file f).refcnt = 1 then do
    modify (setFso (s.file f).fso (count (s.file f).omode (-1)))
    fsPutfso (s.file f).fso
    modify (setFile f fun e => { e with refcnt := e.refcnt - 1 })
  else modify (setFile f fun e => { e with refcnt := e.refcnt - 1 })

def fsGetfd (f : Nat) : FdM Nat := do
  let s ← get
  match (range openMax).find? fun n => (s.desc s.curr n).file = none with
  | none => fail .EMFILE
  | some n => do
    modify (setDesc s.curr n ⟨some f, 0⟩)
    pure n

def unsigned (fd : Int) : Nat := (fd % 2 ^ 32).toNat

def fsPutfd (fd : Nat) : FdM Unit := do
  let s ← get
  if fd ≥ openMax then fail .EBADF
  else match (s.desc s.curr fd).file with
    | none => fail .EBADF
    | some f => do
      fsPutfile f
      modify (setDesc s.curr fd FsDesc.null)

def fsFdaccess (fd : Nat) (perm : Option Errno) : FdM Nat := do
  let s ← get
  if fd ≥ openMax then fail .EBADF
  else match (s.desc s.curr fd).file with
    | none => fail .EBADF
    | some f => do
      check perm
      pure f

/- System calls (kern/fs/syscall.c, pipe.c, misc.c) -/

structure OpenAnswers where
  usa : Option Errno
  path : Lookup
  perm : Option Errno
  write : Option Errno
  trunc : Option Errno

def openPerm (mode : Mode) (perm : Option Errno) : Option Errno :=
  if direction mode = oRdonly ∨ direction mode = oWronly ∨ direction mode = oRdwr then perm
  else if direction mode = oNoio then none
  else some .EINVAL

def sysOpen (a : OpenAnswers) (mode : Mode) : FdM Nat := do
  check a.usa
  let o ← fsLookup a.path
  onError (check (openPerm mode a.perm)) (fsPutfso o)
  if mode &&& oTrunc ≠ 0 then do
    onError (check a.write) (fsPutfso o)
    onError (check a.trunc) (fsPutfso o)
  let f ← onError (fsGetfile o mode) (fsPutfso o)
  onError (fsGetfd f) (fsPutfile f)

def sysClose (fd : Int) : FdM Unit := fsPutfd (unsigned fd)

def fGetfd : Int := 1
def fSetfd : Int := 2
def fDupfd : Int := 3
def fGetfl : Int := 4
def fSetfl : Int := 5

def toInt (arg : Int) : Int := arg.bmod (2 ^ 32)

def dupfd (f : Nat) (start : Int) : FdM Int := do
  let s ← get
  if start < 0 then crash
  else match (range openMax).find? fun n => start.toNat ≤ n && (s.desc s.curr n).file = none with
    | none => fail .EMFILE
    | some n => do
      modify (setDesc s.curr n { s.desc s.curr n with file := some f })
      modify (setFile f fun e => { e with refcnt := e.refcnt + 1 })
      pure n

def sysFcntl (fd cmd arg : Int) (perm : Option Errno) : FdM Int := do
  let f ← fsFdaccess (unsigned fd) perm
  let s ← get
  let d := s.desc s.curr (unsigned fd)
  if cmd = fGetfd then pure d.closeOnExec
  else if cmd = fSetfd then do
    modify (setDesc s.curr (unsigned fd) { d with closeOnExec := toInt arg })
    pure 0
  else if cmd = fDupfd then dupfd f (toInt arg)
  else if cmd = fGetfl then pure (s.file f).omode.toInt
  else if cmd = fSetfl then do
    modify (setFile f fun e =>
      { e with omode := (e.omode &&& ~~~(oAppend ||| oNonblock)) ||| (BitVec.ofInt 32 arg &&& (oAppend ||| oNonblock)) })
    pure 0
  else fail .EINVAL

def sysPipe (v : Visit) (copied : Option Errno) : FdM Unit := do
  let o ← fsGetfso { v with index := noIndex }
  modify (setFso o fun f => { f with refcnt := f.refcnt + 1 })
  let f0 ← onError (fsGetfile o oRdonly) (do fsPutfso o; fsPutfso o)
  let f1 ← onError (fsGetfile o oWronly) (do fsPutfile f0; fsPutfso o)
  let fd0 ← onError (fsGetfd f0) (do fsPutfile f0; fsPutfile f1)
  let fd1 ← onError (fsGetfd f1) (do let _ ← attempt (fsPutfd fd0); fsPutfile f1)
  onError (check copied) (do let _ ← attempt (fsPutfd fd0); let _ ← attempt (fsPutfd fd1))

def fsRevoke (path : Lookup) (perm : Option Errno) : FdM Unit := do
  let o ← fsLookup path
  onError (check perm) (fsPutfso o)
  forEach (range taskMax) fun t =>
    forEach (range openMax) fun n => do
      let s ← get
      if s.used t then
        match (s.desc t n).file with
        | none => pure ()
        | some f =>
          if (s.file f).fso = o then
            modify (setFile f fun e => { e with omode := (e.omode &&& ~~~oDirection) ||| oNoio })
      else pure ()
  fsPutfso o

/- Tasks (kern/task.c, fork.c, exec.c, kern/fs/main.c) -/

def taskGetslot (mem : Option Errno) : FdM Nat := do
  let s ← get
  match (range taskMax).find? fun t => !s.used t with
  | none => fail .EAGAIN
  | some t => do
    check mem
    modify fun s => { s with used := update s.used t true
                             exited := update s.exited t false
                             desc := update s.desc t fun _ => FsDesc.null }
    pure t

def fsNewtask (p : Nat) : FdM Unit := do
  modify fun s => { s with desc := update s.desc p (s.desc s.curr) }
  forEach (range openMax) fun n => do
    let s ← get
    match (s.desc p n).file with
    | none => pure ()
    | some f => modify (setFile f fun e => { e with refcnt := e.refcnt + 1 })

def doFork (mem pages : Option Errno) : FdM Unit := do
  let t ← taskGetslot mem
  fsNewtask t
  check pages

def taskCreat (name mem pgdir : Option Errno) : FdM Unit := do
  check name
  let t ← taskGetslot mem
  onError (check pgdir) (modify fun s => { s with used := update s.used t false })
  fsNewtask t

structure ExecAnswers where
  load : Option Errno
  path : Lookup
  perm : Option Errno
  regular : Option Errno

def doExec (a : ExecAnswers) : FdM Unit := do
  forEach (range openMax) fun n => do
    let s ← get
    if (s.desc s.curr n).closeOnExec ≠ 0 then do
      let _ ← attempt (fsPutfd n)
    else pure ()
  check a.load
  let o ← fsLookup a.path
  onError (check a.perm) (fsPutfso o)
  onError (check a.regular) (fsPutfso o)
  let f ← onError (fsGetfile o oRdonly) (fsPutfso o)
  let _ ← onError (fsGetfd f) (fsPutfile f)

def fsClean : FdM Unit :=
  forEach (range openMax) fun n => do
    let s ← get
    if (s.desc s.curr n).file ≠ none then do
      let _ ← attempt (fsPutfd n)
    else pure ()

def taskExit : FdM Unit := do
  fsClean
  modify fun s => { s with exited := update s.exited s.curr true }

inductive Call where
  | open (a : OpenAnswers) (mode : Mode)
  | close (fd : Int)
  | fcntl (fd cmd arg : Int) (perm : Option Errno)
  | pipe (v : Visit) (copied : Option Errno)
  | revoke (path : Lookup) (perm : Option Errno)
  | fork (mem pages : Option Errno)
  | creat (name mem pgdir : Option Errno)
  | exec (a : ExecAnswers)
  | exit

def Call.run : Call → FdM Unit
  | .open a mode => do let _ ← sysOpen a mode
  | .close fd => sysClose fd
  | .fcntl fd cmd arg perm => do let _ ← sysFcntl fd cmd arg perm
  | .pipe v copied => sysPipe v copied
  | .revoke path perm => fsRevoke path perm
  | .fork mem pages => doFork mem pages
  | .creat name mem pgdir => taskCreat name mem pgdir
  | .exec a => doExec a
  | .exit => taskExit

def start : Sys :=
  { file := fun _ => ⟨0, 0, 0, 0⟩, fso := fun _ => ⟨0, 0, 0, 0, 0⟩, fsoHigh := 0, desc := fun _ _ => FsDesc.null
    used := update (fun _ => false) 0 true, exited := fun _ => false, curr := 0 }

/-- A run between calls: the running task makes a call, `sched` goes over to another task, and the slot of
    a task that has ended is freed. -/
inductive Step (fits : Sys → Call → Prop) : Sys → Sys → Prop where
  | call {s : Sys} (c : Call) (runs : s.used s.curr = true ∧ s.exited s.curr = false) (fit : fits s c) :
      Step fits s (c.run s).2
  | sched {s : Sys} (t : Nat) (lt : t < taskMax) (runs : s.used t = true ∧ s.exited t = false) :
      Step fits s { s with curr := t }
  | putslot {s : Sys} (t : Nat) (ended : s.exited t = true) :
      Step fits s { s with used := update s.used t false }

inductive Reached (fits : Sys → Call → Prop) : Sys → Prop where
  | start : Reached fits start
  | next {s s' : Sys} (before : Reached fits s) (step : Step fits s s') : Reached fits s'

end Fdesc
