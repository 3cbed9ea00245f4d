import Newsys.Natfs.Balance
import Newsys.Natfs.Header

/- The system calls on a mounted native volume, with what they ask of the buffer cache (kern/fs/syscall.c,
   kern/fs/mount.c, kern/fs/main.c, kern/fs/nat/mount.c, kern/fs/nat/main.c, kern/fs/nat/rw.c). -/
namespace Natfs.Pins
open Bytes Cmds Cmd

def natMount (cx : Cx) : PinM Unit := do
  let sb ← blkRead cx 1
  if sbMagic sb ≠ natMagic then
    blkPut 1
    fail .EINVAL
  else
    onVol (modify fun s => { s with fs :=
      { geo := { s.fs.geo with
          bamBlock := sbBamBlock sb, bamSize := sbBamSize sb, dataBlock := sbDataBlock sb
          dataSize := sbDataSize sb, rootBlock := sbRootBlock sb, ndirblks := sbNdirblks sb
          nindirlev := sbNindirlev sb }
        freeBlock := sbDataBlock sb, bamBuf := s.fs.bamBuf, bamCurr := 0, bamDirty := false } })
    let s ← getVol
    if s.fs.geo.readOnly then pure ()
    else
      blkFill 1 (setLE sb 32 4 1)
      ask (.write 1)
    blkPut 1

def natUmount (cx : Cx) : PinM Unit := do
  let s ← getVol
  if s.fs.geo.readOnly then pure ()
  else
    let _ ← attempt (natSyncBam cx)
    match ← attempt (blkRead cx 1) with
    | .error _ => pure ()
    | .ok sb =>
      blkFill 1 (setLE sb 32 4 0)
      ask (.write 1)
      blkPut 1

/-- The loop of `nat_statfs` over the blocks of the map, with the number of free blocks so far. -/
def natStatfsFrom (cx : Cx) (i : Nat) : Nat → Nat → PinM Nat
  | 0, free => pure free
  | n + 1, free => do
    let s ← getVol
    natSwitchBam cx (s.fs.geo.bamBlock + i)
    let s ← getVol
    natStatfsFrom cx (i + 1) n ((free + (List.range 4096).countP fun k => !bit s.fs.bamBuf k) % 2 ^ 32)

def natStatfs (cx : Cx) : PinM (Nat × Nat) := do
  let s ← getVol
  let free ← natStatfsFrom cx 0 s.fs.geo.bamSize 0
  pure (s.fs.geo.dataSize, free)

/-- One round of the loop of `fs_sync` over the table of objects; the first error is kept. -/
def syncObjects (cx : Cx) : List Nat → Option Errno → PinM (Option Errno)
  | [], err => pure err
  | i :: is, err => do
    let s ← getVol
    if (s.fso i).refcnt ≠ 0 ∧ (s.fso i).dirty = true then
      let last ← attempt (natSyncfso cx i)
      syncObjects cx is (firstErr err (errOf last))
    else syncObjects cx is err

def fsSync (cx : Cx) (slots : List Nat) : PinM Unit := do
  let s ← getVol
  if s.fs.geo.readOnly then pure ()
  else
    let err ← syncObjects cx slots none
    let last ← attempt (natSyncBam cx)
    match firstErr err (errOf last) with
    | some e => fail e
    | none => pure ()

def natReadFrom (cx : Cx) (i : Nat) : Nat → Nat → Nat → PinM (List Byte)
  | 0, _, _ => pure []
  | fuel + 1, off, count =>
    if count = 0 then pure [] else do
      let l := chunkLen off count
      natBmap cx i (off / 512 % 2 ^ 32) false
      let s ← getVol
      let phys := (s.fso i).bmapPhys
      let chunk ← if phys = 0 then pure (List.replicate l 0) else do
        let b ← blkRead cx phys
        blkPut phys
        pure (slice b (off % 512) l)
      let rest ← natReadFrom cx i fuel ((off + l) % 2 ^ 64) (count - l)
      pure (chunk ++ rest)

def natRead (cx : Cx) (i offset count : Nat) : PinM (List Byte) := do
  fsChkPerm cx i rOk
  let s ← getVol
  let f := s.fso i
  if sIsdir f.mode then fail .EISDIR
  else if !sIsreg f.mode then fail .EINVAL
  else if f.size < offset then pure []
  else
    let count := if f.size < (offset + count) % 2 ^ 64 then f.size - offset else count
    if !s.fs.geo.readOnly && !s.fs.geo.noAtime then
      let now ← onVol (clockTime cx)
      onVol (modifyFso i fun f => { f with atime := now, dirty := true })
    else pure ()
    natReadFrom cx i count offset count

def natWriteFrom (cx : Cx) (i : Nat) : Nat → Nat → List Byte → PinM Unit
  | 0, _, _ => pure ()
  | fuel + 1, off, data =>
    if data = [] then pure () else do
      let l := chunkLen off data.length
      natBmap cx i (off / 512 % 2 ^ 32) true
      let s ← getVol
      let phys := (s.fso i).bmapPhys
      if phys = 0 then crash else
        if (s.fso i).size < (off + l) % 2 ^ 64 then
          onVol (modifyFso i fun f => { f with size := (off + l) % 2 ^ 64, dirty := true })
        else pure ()
        if l ≠ 512 then do
          let _ ← blkRead cx phys
          pure ()
        else blkGet cx phys
        onVol (modify fun s => s.setDev phys (blit (s.dev phys) (off % 512) (data.take l)))
        ask (.fill phys)
        blkPut phys
        natWriteFrom cx i fuel ((off + l) % 2 ^ 64) (data.drop l)

def natWrite (cx : Cx) (i offset : Nat) (data : List Byte) : PinM Unit := do
  fsChkPerm cx i wOk
  let s ← getVol
  let f := s.fso i
  if sIsdir f.mode then fail .EISDIR
  else if !sIsreg f.mode then fail .EINVAL
  else if 0x7fffffff ≤ (offset + data.length) % 2 ^ 64 then fail .EINVAL
  else
    let now ← onVol (clockTime cx)
    onVol (modifyFso i fun f => { f with mtime := now, dirty := true })
    natWriteFrom cx i data.length offset data

/- The system calls -/

def sysOpen (cx : Cx) (pathname : CStr) (mode : Nat) : PinM Unit := do
  let fso ← natLookup cx pathname
  onError (onVol (openPerm cx fso mode)) (fsPutfso cx fso)
  if mode &&& oTrunc ≠ 0 then
    onError (fsChkPerm cx fso wOk) (fsPutfso cx fso)
    onError (natTrunc cx fso) (fsPutfso cx fso)
  else pure ()
  onError (onVol (newSlot cx)) (fsPutfso cx fso)
  onError (onVol (newSlot cx)) (fsPutfso cx fso)

def sysMknod (cx : Cx) (pathname : CStr) (mode rdev : Nat) : PinM Unit :=
  if cx.euid ≠ 0 ∧ !sIsreg mode ∧ !sIsfifo mode then fail .EPERM
  else do
    let f ← natCreat cx pathname mode rdev
    fsPutfso cx f

def sysLink (cx : Cx) (oldname newname : CStr) : PinM Unit := do
  let f ← natLookup cx oldname
  let s ← getVol
  if cx.euid ≠ 0 ∧ (s.fso f).uid ≠ cx.euid then
    fsPutfso cx f
    fail .EACCES
  else
    onError (natLink cx f newname) (fsPutfso cx f)
    fsPutfso cx f

/-- A system call. One on a descriptor is a call on the object behind it. `mount` is made again and again when the
    device is removable. -/
inductive SysCall where
  | mount
  | umount
  | open (pathname : CStr) (mode : Nat)
  | close (i : Nat)
  | read (i offset count : Nat)
  | write (i offset : Nat) (data : List Byte)
  | mknod (pathname : CStr) (mode rdev : Nat)
  | mkdir (pathname : CStr) (mode : Nat)
  | link (oldname newname : CStr)
  | unlink (pathname : CStr)
  | rename (oldname newname : CStr)
  | rmdir (pathname : CStr)
  | chdir (pathname : CStr)
  | fchmod (i mode : Nat)
  | fchown (i uid gid : Nat)
  | readdir (i : Nat) (index : Int)
  | statfs
  | sync (slots : List Nat)

namespace SysCall

def run (cx : Cx) : SysCall → PinM Unit
  | mount => natMount cx
  | umount => natUmount cx
  | .open pathname mode => sysOpen cx pathname mode
  | close i => fsPutfso cx i
  | read i offset count => do
    fsChkPerm cx i rOk
    let _ ← natRead cx i offset count
    pure ()
  | write i offset data => do
    fsChkPerm cx i wOk
    natWrite cx i offset data
  | mknod pathname mode rdev => sysMknod cx pathname mode rdev
  | mkdir pathname mode => natMkdir cx pathname mode
  | link oldname newname => sysLink cx oldname newname
  | unlink pathname => natUnlink cx pathname
  | rename oldname newname => natRename cx oldname newname
  | rmdir pathname => natRmdir cx pathname
  | chdir pathname => natChdir cx pathname
  | fchmod i mode => onVol (sysFchmod cx i mode)
  | fchown i uid gid => onVol (sysFchown cx i uid gid)
  | readdir i index => do
    let _ ← natReaddir cx i index
    pure ()
  | statfs => do
    let _ ← natStatfs cx
    pure ()
  | sync slots => fsSync cx slots

/-- A lookup of the call comes to a component that is longer than NAT_NAME_MAX, and goes on with a pointer that was
    never set. -/
def Strays (cx : Cx) (s : Pinned) : SysCall → Prop
  | .open pathname _ | mkdir pathname _ | unlink pathname | rmdir pathname | chdir pathname => Pins.Strays cx pathname s
  | mknod pathname mode _ => ¬ (cx.euid ≠ 0 ∧ !sIsreg mode ∧ !sIsfifo mode) ∧ Pins.Strays cx pathname s
  | link oldname newname => Pins.Strays cx oldname s ∨ ∃ f t, natLookup cx oldname s = (.ok f, t) ∧
      ¬ (cx.euid ≠ 0 ∧ (t.vol.fso f).uid ≠ cx.euid) ∧ (DirCall.link f newname).Strays cx t
  | rename oldname newname => (DirCall.rename oldname newname).Strays cx s
  | _ => False

end SysCall

def fresh (image : Image) (noAtime insecure : Bool) : Pinned := ⟨freshVol image true noAtime insecure, fun _ => 0, []⟩

/-- The states of a volume that has been mounted for reading: any callers make any calls, whatever requests fail. -/
inductive Session (image : Image) (noAtime insecure : Bool) : Pinned → Prop where
  | mounted {cx : Cx} {s : Pinned} (ran : natMount cx (fresh image noAtime insecure) = (.ok (), s)) :
      Session image noAtime insecure s
  | call {s : Pinned} (cx : Cx) (call : SysCall) : Session image noAtime insecure s → ¬ call.Strays cx s →
      Session image noAtime insecure (call.run cx s).2

end Natfs.Pins
