import Newsys.Lib.Bytes
import Newsys.Lib.Chain
import Newsys.Lib.Cmd
import Newsys.Kern.Errno
import Newsys.Kern.Machine

/- The buffer cache (kern/block.c). Buffers and devices are numbers; a buffer that has never been
   used has device 0, which stands for the null pointer. -/
namespace Block
open Bytes Cmds Chains Kern Cmd Function

/- Lists of buffers (lib/list.c) -/

def listPre (h : Head Nat) (ln : Links Nat) (e : Nat) : Head Nat × Links Nat :=
  match h.first with
  | none => (⟨some e, some e⟩, setItem ln e Item.null)
  | some f =>
    let ln₁ := setItem ln e ⟨some f, (ln f).prev⟩
    match (ln f).prev with
    | some p => (h, setPrev (setNext ln₁ p (some e)) f (some e))
    | none => (⟨some e, h.last⟩, setPrev ln₁ f (some e))

def listApp (h : Head Nat) (ln : Links Nat) (e : Nat) : Head Nat × Links Nat :=
  match h.last with
  | none => (⟨some e, some e⟩, setItem ln e Item.null)
  | some f =>
    let ln₁ := setItem ln e ⟨(ln f).next, some f⟩
    match (ln f).next with
    | some n => (h, setNext (setPrev ln₁ n (some e)) f (some e))
    | none => (⟨h.first, some e⟩, setNext ln₁ f (some e))

def listRm (h : Head Nat) (ln : Links Nat) (e : Nat) : Head Nat × Links Nat := unlink h ln e

theorem listPre_eq (k : Linked h ln l) (e : Nat) : listPre h ln e = pushFront h ln e := by
  rw [listPre, pushFront]
  cases first : h.first with
  | none => rfl
  | some f =>
    obtain ⟨b, rfl⟩ := k.eq_cons first
    have front : (ln f).prev = none := by rw [k.item [] f b rfl]; rfl
    simp only [front]

theorem listApp_eq (k : Linked h ln l) (e : Nat) : listApp h ln e = pushBack h ln e := by
  rw [listApp, pushBack]
  cases last : h.last with
  | none => rfl
  | some f =>
    have member := last
    rw [k.last] at member
    obtain ⟨a, rfl⟩ := List.getLast?_eq_some_iff.mp member
    have back : (ln f).next = none := by rw [k.item a f [] rfl]; rfl
    simp only [back]

/- The contents of a block -/

abbrev Blk := Fin 512 → Byte

def poke (m : Blk) (off : Nat) (buf : List Byte) : Blk := fun k =>
  if off ≤ k ∧ k < off + buf.length then buf.getD (k - off) 0 else m k

def peek (m : Blk) (off len : Nat) : List Byte :=
  (List.range len).map fun k => if h : off + k < 512 then m ⟨off + k, h⟩ else 0

theorem poke_whole (m m' : Blk) (inside : off + buf.length ≤ 512)
    (whole : buf.length = 512) : poke m off buf = poke m' off buf := by
  funext k
  rw [poke, poke, if_pos (by omega), if_pos (by omega)]

structure Buf where
  refcnt : Nat
  valid : Bool
  dirty : Bool
  dev : Nat
  nr : Nat
  data : Blk

def Buf.unused : Buf := ⟨0, false, false, 0, 0, fun _ => 0⟩

def Buf.active (b : Buf) : Prop := b.refcnt ≠ 0 ∨ b.valid = true

instance (b : Buf) : Decidable b.active := inferInstanceAs (Decidable (_ ∨ _))

abbrev Disks := Nat → Nat → Blk

structure Cache where
  bufs : Nat → Buf
  count : Nat
  lists : Nat → Head Nat
  listItem : Links Nat
  lru : Head Nat
  lruItem : Links Nat
  users : Nat → Nat
  disk : Disks
  tick : Nat

/-- The requests that a device or the allocator refuses, by the time they are made. -/
structure Io where
  read : Nat → Option Errno
  write : Nat → Option Errno
  other : Nat → Option Errno

abbrev BlkM := Cmd Errno Cache

def setBuf (b : Nat) (f : Buf → Buf) (c : Cache) : Cache := { c with bufs := update c.bufs b (f (c.bufs b)) }

def setDisk (d : Disks) (dev nr : Nat) (m : Blk) : Disks :=
  update d dev (update (d dev) nr m)

def lruRm (b : Nat) (c : Cache) : Cache :=
  { c with lru := (listRm c.lru c.lruItem b).1, lruItem := (listRm c.lru c.lruItem b).2 }

def lruApp (b : Nat) (c : Cache) : Cache :=
  { c with lru := (listApp c.lru c.lruItem b).1, lruItem := (listApp c.lru c.lruItem b).2 }

def lruPre (b : Nat) (c : Cache) : Cache :=
  { c with lru := (listPre c.lru c.lruItem b).1, lruItem := (listPre c.lru c.lruItem b).2 }

def chainRm (i b : Nat) (c : Cache) : Cache :=
  { c with lists := update c.lists i (listRm (c.lists i) c.listItem b).1
           listItem := (listRm (c.lists i) c.listItem b).2 }

def chainPre (i b : Nat) (c : Cache) : Cache :=
  { c with lists := update c.lists i (listPre (c.lists i) c.listItem b).1
           listItem := (listPre (c.lists i) c.listItem b).2 }

def chainApp (i b : Nat) (c : Cache) : Cache :=
  { c with lists := update c.lists i (listApp (c.lists i) c.listItem b).1
           listItem := (listApp (c.lists i) c.listItem b).2 }

def ask (oracle : Nat → Option Errno) : BlkM Unit := fun c =>
  match oracle c.tick with
  | some e => (.err e, { c with tick := c.tick + 1 })
  | none => (.ok (), { c with tick := c.tick + 1 })

def blkWrite (io : Io) (b : Nat) : BlkM Unit := do
  let c ← get
  if !(c.bufs b).valid then crash
  else if !(c.bufs b).dirty then pure ()
  else
    modify (setBuf b fun x => { x with dirty := false })
    ask io.write
    modify fun c => { c with disk := setDisk c.disk (c.bufs b).dev (c.bufs b).nr (c.bufs b).data }

/-- The loop of `blk_get` over a chain, with the count that detects a loop. -/
def blkScan (c : Cache) (dev nr : Nat) : Nat → Option Nat → Option (Option Nat)
  | _, none => some none
  | 0, some _ => none
  | n + 1, some b =>
    if (c.bufs b).active ∧ (c.bufs b).nr = nr ∧ (c.bufs b).dev = dev then some (some b)
    else blkScan c dev nr n (c.listItem b).next

def blkHold (b : Nat) : BlkM Nat := do
  let c ← get
  if (c.bufs b).refcnt = 0 then modify (lruRm b) else pure ()
  modify (setBuf b fun x => { x with refcnt := x.refcnt + 1 })
  pure b

def blkRecycle (io : Io) (b dev nr : Nat) : BlkM Nat := do
  let c ← get
  modify (chainRm ((c.bufs b).nr % 64) b)
  modify (lruRm b)
  if (c.bufs b).dirty then
    let _ ← attempt (blkWrite io b)
    pure ()
  else pure ()
  modify (setBuf b fun x => { x with refcnt := 1, dev := dev, nr := nr, valid := false })
  modify (chainPre (nr % 64) b)
  pure b

def blkGet (io : Io) (dev nr : Nat) : BlkM Nat := do
  let c ← get
  match blkScan c dev nr c.count (c.lists (nr % 64)).first with
  | none => crash
  | some (some b) => blkHold b
  | some none =>
    match c.lru.first with
    | none => fail .ENOMEM
    | some b => blkRecycle io b dev nr

def blkPut (b : Nat) : BlkM Unit := do
  let c ← get
  if (c.bufs b).refcnt = 0 then crash
  else
    modify (setBuf b fun x => { x with refcnt := x.refcnt - 1 })
    if (c.bufs b).refcnt = 1 then modify (lruApp b) else pure ()

def blkLoad (io : Io) (b : Nat) : BlkM Unit := do
  ask io.read
  modify fun c => setBuf b (fun x => { x with data := c.disk x.dev x.nr, valid := true }) c

def blkRead (io : Io) (dev nr : Nat) : BlkM Nat := do
  let b ← blkGet io dev nr
  let c ← get
  if (c.bufs b).valid then pure b
  else do
    onError (blkLoad io b) (blkPut b)
    pure b

/-- The holder of a buffer fills it: `memcpy(b->data, …); b->dirty = 1; b->valid = 1`. -/
def blkFill (b : Nat) (data : Blk) : BlkM Unit :=
  modify (setBuf b fun x => { x with data := data, dirty := true, valid := true })

def blkPread (io : Io) (dev nr off len : Nat) : BlkM (List Byte) := do
  let b ← blkRead io dev nr
  let c ← get
  let buf := peek (c.bufs b).data off len
  blkPut b
  pure buf

def blkPwrite (io : Io) (dev nr off : Nat) (buf : List Byte) : BlkM Unit := do
  let b ← if buf.length ≠ 512 then blkRead io dev nr else blkGet io dev nr
  let c ← get
  blkFill b (poke (c.bufs b).data off buf)
  blkPut b

abbrev syncWrite : Nat := 1
abbrev syncInvalidate : Nat := 2

def blkSync (io : Io) (flags b : Nat) : BlkM Unit := do
  let c ← get
  if flags &&& syncWrite ≠ 0 ∧ (c.bufs b).dirty then
    let _ ← attempt (blkWrite io b)
    pure ()
  else pure ()
  let c ← get
  if flags &&& syncInvalidate ≠ 0 ∧ !(c.bufs b).dirty then
    modify (setBuf b fun x => { x with valid := false })
  else pure ()

/-- The loop over the unreferenced buffers. It has no end when the list is a ring; no more rounds
    than there are buffers are made in one that ends. -/
def syncFrom (io : Io) (pick : Buf → Bool) (flags : Nat) : Nat → Option Nat → BlkM Unit
  | _, none => pure ()
  | 0, some _ => crash
  | n + 1, some b => do
    let c ← get
    if pick (c.bufs b) then blkSync io flags b else pure ()
    let c ← get
    syncFrom io pick flags n (c.lruItem b).next

def blkSyncdev (io : Io) (dev flags : Nat) : BlkM Unit := do
  let c ← get
  syncFrom io (fun b => b.dev = dev) flags c.count c.lru.first

def blkSyncall (io : Io) (flags : Nat) : BlkM Unit := do
  let c ← get
  syncFrom io (fun _ => true) flags c.count c.lru.first

def blkOpen (io : Io) (dev : Nat) : BlkM Unit := do
  let c ← get
  if c.users dev = 0 then ask io.other else pure ()
  modify fun c => { c with users := update c.users dev (c.users dev + 1) }

def blkClose (io : Io) (dev : Nat) : BlkM Unit := do
  let c ← get
  if c.users dev = 0 then crash
  else
    if c.users dev = 1 then do
      blkSyncdev io dev (syncWrite ||| syncInvalidate)
      ask io.other
    else pure ()
    modify fun c => { c with users := update c.users dev (c.users dev - 1) }

/-- The buffers from `lo` on are cleared and put in front of the unreferenced ones. -/
def addBufs (lo n : Nat) (c : Cache) : Cache :=
  let fresh (k : Nat) := lo ≤ k ∧ k < lo + n
  (List.range' lo n).foldl (fun c b => lruPre b c)
    { c with bufs := fun k => if fresh k then Buf.unused else c.bufs k
             listItem := fun k => if fresh k then Item.null else c.listItem k
             lruItem := fun k => if fresh k then Item.null else c.lruItem k }

def pointerSize : Machine → Nat
  | .i386 => 4
  | .amd64 => 8

/-- `sizeof(struct block)` -/
def blockSize : Machine → Nat
  | .i386 => 568
  | .amd64 => 608

/-- `sizeof(struct mhead)`, which stands in front of what `kmalloc` returns -/
def mheadSize : Machine → Nat
  | .i386 => 32
  | .amd64 => 40

/-- The bytes that the caller of `kmalloc` gets (kern/lib/malloc.c): whole pages. The size is passed as an `unsigned`. -/
def kmallocRoom (m : Machine) (size : Nat) : Nat :=
  (size % 2 ^ 32 + mheadSize m + 4095) % m.word / 4096 * 4096 - mheadSize m

/-- A `count` below 0 is refused like any other that is too small. What lies behind the memory of the array or of the
    buffers is overwritten. -/
def blkAdd (m : Machine) (io : Io) (count : Nat) : BlkM Unit := do
  let c ← get
  if count < c.count then fail .EINVAL
  else if count = c.count then pure ()
  else
    let array := pointerSize m * count
    let bufs := blockSize m * (count - c.count)
    ask io.other -- krealloc
    ask io.other -- kmalloc
    if kmallocRoom m array < array ∨ kmallocRoom m bufs < bufs then crash
    else modify fun c => { addBufs c.count (count - c.count) c with count := count }

/-- No size that is computed for so many bytes wraps around. -/
def Roomy (m : Machine) (size : Nat) : Prop :=
  match m with
  | .i386 => size + mheadSize .i386 + 4095 < 2 ^ 32
  | .amd64 => size < 2 ^ 32

theorem room_iff (m : Machine) (size : Nat) : size ≤ kmallocRoom m size ↔ Roomy m size := by
  cases m <;> simp only [kmallocRoom, Roomy, mheadSize, Machine.word] <;> omega

def blkInit (n : Nat) (disk : Disks) : Cache :=
  (List.range n).foldl (fun c b => lruApp b (chainApp 0 b c))
    ⟨fun _ => Buf.unused, n, fun _ => Head.null, fun _ => Item.null, Head.null, fun _ => Item.null, fun _ => 0,
      disk, 0⟩

def blkNblk : Nat := 1024

end Block
