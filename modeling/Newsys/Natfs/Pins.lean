import Newsys.Natfs.DirMap
import Newsys.Natfs.Dirops

/- The operations of the native file system with what they ask of the buffer cache: the references to buffers that they
   take and give back (`blk_get`, `blk_read` and `blk_put`) and the buffers they mark dirty. The functions are those of
   the other modules, in the same order, with a `blkPut` wherever the source has one. -/
namespace Natfs.Pins
open Bytes Cmds Cmd List

/-- What is asked of the buffer cache for a block: a buffer, to give it back, to mark it dirty after a change, to
    write it at once. -/
inductive Ask where
  | get (bn : Nat)
  | read (bn : Nat)
  | put (bn : Nat)
  | fill (bn : Nat)
  | write (bn : Nat)
  deriving DecidableEq

/-- A volume, how often the buffer of each of its blocks is referenced, and what has been asked of the cache, the
    last thing first. -/
structure Pinned where
  vol : Vol
  pins : Nat → Nat
  asked : List Ask

abbrev PinM := Cmd Errno Pinned

def onVol (m : NatM α) : PinM α := fun s => ((m s.vol).1, { s with vol := (m s.vol).2 })

def getVol : PinM Vol := onVol get

def ask (a : Ask) : PinM Unit := modify fun s => { s with asked := a :: s.asked }

def blkGet (cx : Cx) (bn : Nat) : PinM Unit := do
  ask (.get bn)
  onVol (Natfs.blkGet cx bn)
  modify fun s => { s with pins := update s.pins bn (s.pins bn + 1) }

def blkRead (cx : Cx) (bn : Nat) : PinM Mem := do
  ask (.read bn)
  let b ← onVol (Natfs.blkRead cx bn)
  modify fun s => { s with pins := update s.pins bn (s.pins bn + 1) }
  pure b

/-- A buffer without references is not put: the kernel panics. -/
def blkPut (bn : Nat) : PinM Unit := do
  ask (.put bn)
  let s ← get
  if s.pins bn = 0 then crash
  else modify fun s => { s with pins := update s.pins bn (s.pins bn - 1) }

def blkFill (bn : Nat) (b : Mem) : PinM Unit := do
  onVol (Natfs.blkFill bn b)
  ask (.fill bn)

def blkPread (cx : Cx) (bn : Nat) : PinM Mem := do
  let b ← blkRead cx bn
  blkPut bn
  pure b

def blkPwrite (cx : Cx) (bn : Nat) (b : Mem) : PinM Unit := do
  blkGet cx bn
  blkFill bn b
  blkPut bn

/- The allocation map -/

def natSyncBam (cx : Cx) : PinM Unit := do
  let s ← getVol
  if s.fs.bamDirty then
    onVol (modify fun s => { s with fs := { s.fs with bamDirty := false } })
    blkPwrite cx s.fs.bamCurr s.fs.bamBuf
  else pure ()

def natSwitchBam (cx : Cx) (blk : Nat) : PinM Unit := do
  let s ← getVol
  if blk = s.fs.bamCurr then pure () else
    let _ ← attempt (natSyncBam cx)
    match ← attempt (blkPread cx blk) with
    | .error e =>
      onVol (modify fun s => { s with fs := { s.fs with bamCurr := 0 } })
      fail e
    | .ok b => onVol (modify fun s => { s with fs := { s.fs with bamBuf := b, bamCurr := blk } })

def natWriteBam (cx : Cx) (blk : Nat) (bused : Bool) : PinM Unit := do
  let s ← getVol
  natSwitchBam cx (s.fs.geo.bamBlock + blk / 512 / 8)
  onVol (modify fun s => { s with fs := { s.fs with
    bamBuf := setBit s.fs.bamBuf (8 * (blk / 8 % 512) + blk % 8) bused, bamDirty := true } })

def natBallocFrom (cx : Cx) (i : Nat) : Nat → PinM Nat
  | 0 => fail .ENOSPC
  | n + 1 => do
    let s ← getVol
    natSwitchBam cx (s.fs.geo.bamBlock + i)
    let s ← getVol
    match freeWord s.fs.bamBuf with
    | none => natBallocFrom cx (i + 1) n
    | some w =>
      let bamw := getLE s.fs.bamBuf (4 * w) 4
      let bn := lowOnes 32 bamw
      onVol (modify fun s => { s with fs := { s.fs with
        bamBuf := setLE s.fs.bamBuf (4 * w) 4 (bamw ||| 2 ^ bn), bamDirty := true } })
      pure ((bn + 32 * w + i * 512 * 8) % 2 ^ 32)

def natBalloc (cx : Cx) : PinM Nat := do
  let s ← getVol
  let i := s.fs.geo.dataBlock / 512 / 8
  natBallocFrom cx i (s.fs.geo.bamSize - i)

def natBfree (cx : Cx) (blk : Nat) : PinM Unit := do
  onVol (modify fun s => { s with fs := { s.fs with freeBlock := min s.fs.freeBlock blk } })
  natWriteBam cx blk false

/- The block map -/

def newBlock (cx : Cx) : PinM Nat := do
  let bn ← natBalloc cx
  blkGet cx bn
  blkFill bn zero
  blkPut bn
  pure bn

def natBmapDir (cx : Cx) (i log : Nat) (alloc : Bool) : PinM Nat := do
  if 114 ≤ log then fail .EFBIG else
    let s ← getVol
    if alloc && (s.fso i).bmap log == 0 then
      let bn ← newBlock cx
      onVol (modifyFso i fun f => { f with
        bmap := update f.bmap log bn, blocks := (f.blocks + 1) % 2 ^ 32, dirty := true })
      pure bn
    else pure ((s.fso i).bmap log)

def natBmapWalk (cx : Cx) (i log : Nat) (alloc : Bool) : Nat → Nat → PinM Nat
  | 0, bn => pure bn
  | indl + 1, bn =>
    if bn = 0 then pure 0 else do
      let b ← blkRead cx bn
      let next := imap b (digit indl log)
      if next ≠ 0 then
        blkPut bn
        natBmapWalk cx i log alloc indl next
      else if alloc then do
        let nb ← onError (newBlock cx) (blkPut bn)
        onVol (modify fun s => s.setDev bn (setLE (s.dev bn) (4 * digit indl log) 4 nb))
        ask (.fill bn)
        onVol (modifyFso i fun f => { f with blocks := (f.blocks + 1) % 2 ^ 32, dirty := true })
        blkPut bn
        natBmapWalk cx i log alloc indl nb
      else
        blkPut bn
        pure 0

def natBmap (cx : Cx) (i log : Nat) (alloc : Bool) : PinM Unit := do
  let s ← getVol
  let f := s.fso i
  if f.bmapValid && f.bmapLog == log && (!alloc || f.bmapPhys != 0) then pure ()
  else if log < f.ndirblks then
    let bn ← natBmapDir cx i log alloc
    onVol (setBmapCache i log bn)
  else
    let bn ← natBmapDir cx i ((f.ndirblks + log >>> (7 * f.nindirlev)) % 2 ^ 32) alloc
    let bn ← natBmapWalk cx i log alloc f.nindirlev bn
    onVol (setBmapCache i log bn)

def truncEntries (cx : Cx) (bn : Nat) (sub : Option (Nat → PinM (Option Errno))) :
    List Nat → Option Errno → PinM (Option Errno)
  | [], err => pure err
  | d :: ds, err => do
    let s ← getVol
    let next := imap (s.dev bn) d
    if next = 0 then truncEntries cx bn sub ds err else do
      let err ← match sub with
        | none => pure err
        | some below => do
          match ← attempt (below next) with
          | .ok e => pure (firstErr err e)
          | .error e => pure (firstErr err (some e))
      let err1 ← attempt (natBfree cx next)
      truncEntries cx bn sub ds (firstErr err (errOf err1))

def natTruncIndir (cx : Cx) : Nat → Nat → PinM (Option Errno)
  | 0, bn => do
    let _ ← blkRead cx bn
    let err ← truncEntries cx bn none (range 128) none
    blkPut bn
    pure err
  | indl + 1, bn => do
    let _ ← blkRead cx bn
    let err ← truncEntries cx bn (some (natTruncIndir cx indl)) (range 128) none
    blkPut bn
    pure err

def truncSlot (cx : Cx) (i indl k : Nat) : PinM Unit := do
  let s ← getVol
  let bn := (s.fso i).bmap k
  if bn = 0 then pure () else do
    if (s.fso i).ndirblks ≤ k then do
      let _ ← attempt (natTruncIndir cx (indl - 1) bn)
      pure ()
    else pure ()
    let _ ← attempt (natBfree cx bn)
    onVol (modifyFso i fun f => { f with bmap := update f.bmap k 0 })

def natTrunc (cx : Cx) (i : Nat) : PinM Unit := do
  let s ← getVol
  let indl := (s.fso i).nindirlev
  if indl < 1 ∨ 8 < indl then fail .EINVAL else
    forEach (range 114) (truncSlot cx i indl)
    onVol (modifyFso i fun f => { f with bmapValid := false, dirty := true, blocks := 1, size := 0 })

def natSyncfso (cx : Cx) (i : Nat) : PinM Unit := do
  let s ← getVol
  if (s.fso i).dirty then
    blkGet cx i
    blkFill i (headerOf s.fs.geo (s.fso i))
    onVol (modifyFso i fun f => { f with dirty := false })
    blkPut i
  else pure ()

def natPutfso (cx : Cx) (i : Nat) : PinM Unit := do
  let s ← getVol
  if (s.fso i).nlink = 0 then
    let _ ← attempt (natTrunc cx i)
    let _ ← attempt (natBfree cx i)
    onVol (modify fun s => { s with files := s.files.erase i })
  else natSyncfso cx i

def fsGetfso (cx : Cx) (i : Nat) : PinM Unit := do
  let s ← getVol
  if (s.fso i).refcnt ≠ 0 then onVol (modifyFso i fun f => { f with refcnt := f.refcnt + 1 })
  else
    onVol (newSlot cx)
    let hd ← blkRead cx i
    onVol (modify fun s => s.setFso i (loadFso s.fs.geo hd))
    blkPut i

def fsPutfso (cx : Cx) (i : Nat) : PinM Unit := do
  let s ← getVol
  if (s.fso i).refcnt = 0 then crash
  else
    if (s.fso i).refcnt = 1 then
      let _ ← attempt (natPutfso cx i)
      pure ()
    else pure ()
    onVol (modifyFso i fun f => { f with refcnt := f.refcnt - 1 })

def fsChkPerm (cx : Cx) (i mode : Nat) : PinM Unit := onVol (Natfs.fsChkPerm cx i mode)

def readDirBlock (cx : Cx) (d log : Nat) : PinM (Nat × Mem) := do
  natBmap cx d log false
  let s ← getVol
  let b ← blkRead cx (s.fso d).bmapPhys
  pure ((s.fso d).bmapPhys, b)

def findEntryFrom (cx : Cx) (d : Nat) (name : Name) : List Nat → PinM DirentPtr
  | [] => fail .ENOENT
  | log :: logs => do
    let (phys, b) ← readDirBlock cx d log
    match scanBlock b name with
    | some k => pure (phys, k)
    | none => do
      blkPut phys
      findEntryFrom cx d name logs

def findEntry (cx : Cx) (d : Nat) (name : Name) : PinM DirentPtr := do
  let s ← getVol
  if !sIsdir (s.fso d).mode then fail .ENOTDIR
  else
    fsChkPerm cx d xOk
    findEntryFrom cx d name (range ((s.fso d).size / 512))

def newEntryFrom (cx : Cx) (d : Nat) (name : Name) : List Nat → DirentPtr → PinM DirentPtr
  | [], free => pure free
  | log :: logs, free => do
    let (phys, b) ← readDirBlock cx d log
    match scanBlock b name with
    | some _ => do
      blkPut phys
      fail .EEXIST
    | none => do
      blkPut phys
      newEntryFrom cx d name logs (scanFree phys b free)

def growDir (cx : Cx) (d : Nat) : PinM DirentPtr := do
  let s ← getVol
  if 0x100000 < (s.fso d).size + 512 then fail .EFBIG
  else
    natBmap cx d ((s.fso d).size / 512) true
    let s ← getVol
    let blk := (s.fso d).bmapPhys
    blkGet cx blk
    blkFill blk zero
    onVol (modifyFso d fun f => { f with size := f.size + 512, dirty := true })
    pure (blk, 0)

def fillEntry (cx : Cx) (d : Nat) (name : Name) (firstBlock : Nat) (p : DirentPtr) : PinM Unit := do
  onVol (Natfs.fillEntry cx d name firstBlock p)
  ask (.fill p.1)
  blkPut p.1

def storeEntry (cx : Cx) (d : Nat) (name : Name) (firstBlock : Nat) (free : DirentPtr) : PinM Unit :=
  if free.1 = 0 then growDir cx d >>= fillEntry cx d name firstBlock
  else blkRead cx free.1 >>= fun _ => fillEntry cx d name firstBlock free

def newEntry (cx : Cx) (d : Nat) (name : Name) (firstBlock : Nat) : PinM Unit := do
  let s ← getVol
  if !sIsdir (s.fso d).mode then fail .ENOTDIR
  else if name = [] then fail .EEXIST
  else
    fsChkPerm cx d (xOk ||| wOk)
    if 27 < name.length then fail .ENAMETOOLONG
    else
      let free ← newEntryFrom cx d name (range ((s.fso d).size / 512)) (0, 0)
      storeEntry cx d name firstBlock free

def isEmptyFrom (cx : Cx) (d : Nat) : List Nat → PinM Unit
  | [] => pure ()
  | log :: logs => do
    let (phys, b) ← readDirBlock cx d log
    if (range 16).any fun k => deFirstBlock b k != 0 then
      blkPut phys
      fail .ENOTEMPTY
    else
      blkPut phys
      isEmptyFrom cx d logs

def isEmpty (cx : Cx) (d : Nat) : PinM Unit := do
  let s ← getVol
  if !sIsdir (s.fso d).mode then fail .ENOTDIR
  else isEmptyFrom cx d (range ((s.fso d).size / 512))

def clearEntry (p : DirentPtr) : PinM Unit := do
  onVol (Natfs.clearEntry p)
  ask (.fill p.1)

def enter (cx : Cx) (dir : Nat) (name : Name) : PinM Nat := do
  let dptr ← attempt (findEntry cx dir name)
  fsPutfso cx dir
  match dptr with
  | .error e => fail e
  | .ok p => do
    let s ← getVol
    onError (fsGetfso cx (deFirstBlock (s.dev p.1) p.2)) (blkPut p.1)
    blkPut p.1
    pure (deFirstBlock (s.dev p.1) p.2)

def natLookupDirFrom (cx : Cx) (dir : Nat) : List Name → PinM (Option Nat)
  | [] => pure (some dir)
  | name :: names =>
    if 27 < name.length then do
      fsPutfso cx dir
      pure none
    else do
      let next ← enter cx dir name
      natLookupDirFrom cx next names

def natLookupDir (cx : Cx) (pathname : CStr) : PinM (Option Nat) := do
  let s ← getVol
  fsGetfso cx s.fs.geo.rootBlock
  natLookupDirFrom cx s.fs.geo.rootBlock pathname.dirs

def lookupDir (cx : Cx) (pathname : CStr) : PinM Nat := do
  match ← natLookupDir cx pathname with
  | some dir => pure dir
  | none => crash

def natLookup (cx : Cx) (pathname : CStr) : PinM Nat := do
  let dir ← lookupDir cx pathname
  if pathname.base = [] then pure dir else enter cx dir pathname.base

def natChdir (cx : Cx) (name : CStr) : PinM Unit := do
  let dir ← natLookup cx name
  let s ← getVol
  if !sIsdir (s.fso dir).mode then
    fsPutfso cx dir
    fail .ENOTDIR
  else
    let err ← attempt (fsChkPerm cx dir xOk)
    fsPutfso cx dir
    match err with
    | .error e => fail e
    | .ok () => pure ()

def natCreat (cx : Cx) (name : CStr) (mode rdev : Nat) : PinM Nat := do
  let dir ← lookupDir cx name
  onError (fsChkPerm cx dir wOk) (fsPutfso cx dir)
  let nr ← onError (natBalloc cx) (fsPutfso cx dir)
  onError (blkGet cx nr) (do
    let _ ← attempt (natBfree cx nr)
    fsPutfso cx dir)
  let now ← onVol (clockTime cx)
  onVol (modify fun s =>
    { s.setDev nr (newHeader cx s.fs.geo mode rdev now) with files := nr :: s.files })
  ask (.fill nr)
  blkPut nr
  let err ← attempt (newEntry cx dir name.base nr)
  fsPutfso cx dir
  match err with
  | .error e => do
    let _ ← attempt (natBfree cx nr)
    onVol (modify fun s => { s with files := s.files.erase nr })
    fail e
  | .ok () => do
    fsGetfso cx nr
    pure nr

def natReaddir (cx : Cx) (d : Nat) (index : Int) : PinM (Option (Nat × Name)) := do
  if index < 0 then fail .EINVAL
  else
    fsChkPerm cx d rOk
    if index = 0 then pure (some (d, [46]))
    else if index = 1 then pure (some (d, [46, 46]))
    else
      let i := (index - 2).toNat
      let s ← getVol
      if (s.fso d).size / 32 ≤ i then fail .ENOENT
      else
        match ← attempt (readDirBlock cx d (i / 16)) with
        | .error _ => pure none
        | .ok (phys, b) => do
          blkPut phys
          pure (some (deFirstBlock b (i % 16), cstr b (32 * (i % 16)) 32))

def natLink (cx : Cx) (i : Nat) (name : CStr) : PinM Unit := do
  let s ← getVol
  if sIsdir (s.fso i).mode then fail .EISDIR
  else
    let dir ← lookupDir cx name
    let err ← attempt (newEntry cx dir name.base i)
    fsPutfso cx dir
    match err with
    | .error e => fail e
    | .ok () => do
      let now ← onVol (clockTime cx)
      onVol (modifyFso i fun f => { f with ctime := now, nlink := (f.nlink + 1) % 2 ^ 32, dirty := true })

def natUnlink (cx : Cx) (name : CStr) : PinM Unit := do
  let dir ← lookupDir cx name
  onError (fsChkPerm cx dir (xOk ||| wOk)) (fsPutfso cx dir)
  let p ← onError (findEntry cx dir name.base) (fsPutfso cx dir)
  let s ← getVol
  let f := deFirstBlock (s.dev p.1) p.2
  onError (fsGetfso cx f) (do
    blkPut p.1
    fsPutfso cx dir)
  let s ← getVol
  if sIsdir (s.fso f).mode then
    blkPut p.1
    fsPutfso cx dir
    fsPutfso cx f
    fail .EISDIR
  else
    clearEntry p
    blkPut p.1
    onVol (dropLink f)
    onVol (touch cx dir)
    fsPutfso cx dir
    fsPutfso cx f

def renameOver (cx : Cx) (ndir : Nat) (name : Name) (p : DirentPtr) : PinM Unit := do
  let np ← findEntry cx ndir name
  let s ← getVol
  let f := deFirstBlock (s.dev np.1) np.2
  onError (fsGetfso cx f) (blkPut np.1)
  let s ← getVol
  if sIsdir (s.fso f).mode then
    onError (isEmpty cx f) (do
      blkPut np.1
      fsPutfso cx f)
  else pure ()
  onVol (dropLink f)
  fsPutfso cx f
  onVol (modify fun s => s.setDev np.1 (blit (clearDirent (s.dev np.1) np.2) (32 * np.2) (name ++ [0])))
  onVol (modify fun s => s.setDev np.1
    (setLE (s.dev np.1) (32 * np.2 + 28) 4 (deFirstBlock (s.dev p.1) p.2)))
  ask (.fill np.1)
  blkPut np.1

def renameOut (cx : Cx) (odir ndir : Nat) (p : DirentPtr) : PinM Unit := do
  clearEntry p
  let now ← onVol (clockTime cx)
  onVol (modifyFso odir fun f => { f with mtime := now, dirty := true })
  onVol (modifyFso ndir fun f => { f with mtime := now, dirty := true })

def renameEntry (cx : Cx) (odir ndir : Nat) (name : Name) (p : DirentPtr) : PinM Unit := do
  let s ← getVol
  match ← attempt (newEntry cx ndir name (deFirstBlock (s.dev p.1) p.2)) with
  | .error .EEXIST => do
    renameOver cx ndir name p
    renameOut cx odir ndir p
  | .error e => do
    renameOut cx odir ndir p
    fail e
  | .ok () => renameOut cx odir ndir p

def renameFind (cx : Cx) (oldname newname : CStr) : PinM (Nat × Nat × DirentPtr) := do
  if oldname = newname then fail .EINVAL
  else if oldname.1 ++ [47] <+: newname.1 then fail .EINVAL
  else
    let odir ← lookupDir cx oldname
    onError (fsChkPerm cx odir (xOk ||| wOk)) (fsPutfso cx odir)
    let ndir ← onError (lookupDir cx newname) (fsPutfso cx odir)
    let clean : PinM Unit := do
      fsPutfso cx odir
      fsPutfso cx ndir
    onError (fsChkPerm cx ndir wOk) clean
    let p ← onError (findEntry cx odir oldname.base) clean
    pure (odir, ndir, p)

def natRename (cx : Cx) (oldname newname : CStr) : PinM Unit := do
  let (odir, ndir, p) ← renameFind cx oldname newname
  let clean : PinM Unit := do
    blkPut p.1
    fsPutfso cx odir
    fsPutfso cx ndir
  onError (renameEntry cx odir ndir newname.base p) clean
  clean

def natMkdir (cx : Cx) (name : CStr) (mode : Nat) : PinM Unit := do
  let dir ← natCreat cx name (0o30000 ||| (mode &&& 0o7777)) 0
  fsPutfso cx dir

def natRmdir (cx : Cx) (name : CStr) : PinM Unit := do
  let parent ← lookupDir cx name
  onError (fsChkPerm cx parent (xOk ||| wOk)) (fsPutfso cx parent)
  let dir ← onError (natLookup cx name) (fsPutfso cx parent)
  let clean : PinM Unit := do
    fsPutfso cx parent
    fsPutfso cx dir
  onError (isEmpty cx dir) clean
  let p ← onError (findEntry cx parent name.base) clean
  onVol (touch cx parent)
  clearEntry p
  blkPut p.1
  onVol (dropLink dir)
  clean

end Natfs.Pins
