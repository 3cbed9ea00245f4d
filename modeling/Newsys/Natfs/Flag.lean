import Newsys.Kern.Writes
import Newsys.Natfs.Mount

/- The mark of a clean volume (kern/fs/nat/mount.c, kern/fs/mount.c): `dirty` in the superblock is set on the device
   when a volume is mounted and cleared when it is unmounted. The buffer cache decides when the other blocks
   go to the device, and a crash may come after each of its calls of `dev->write`. -/
namespace Flag
open Bytes Cmds Cmd Kern Block.Writes List Bool
open Block hiding blkWrite blkGet blkRead blkPread blkPwrite blkSync blkSyncdev blkSyncall blkClose syncFrom
open Natfs (sbDirty sbMagic natMagic)

/- The contents of a buffer -/

def memOf (m : Blk) : Mem := fun k => if h : k < 512 then m ⟨k, h⟩ else 0

def blkOf (m : Mem) : Blk := fun k => m k

def setSbDirty (m : Blk) (v : Nat) : Blk := blkOf (setLE (memOf m) 32 4 v)

theorem sbDirty_set (m : Blk) (v : Nat) : sbDirty (memOf (setSbDirty m v)) = v % 2 ^ 32 := by
  have bytes : ∀ j, j < 4 → memOf (setSbDirty m v) (32 + j) = setLE (memOf m) 32 4 v (32 + j) := by
    intro j lt
    rw [memOf, dif_pos (by omega)]
    rfl
  have word : getLE (memOf (setSbDirty m v)) 32 4 = getLE (setLE (memOf m) 32 4 v) 32 4 := by
    simp only [getLE]
    rw [bytes 0 (by omega), bytes 1 (by omega), bytes 2 (by omega), bytes 3 (by omega)]
  rw [sbDirty, word, getLE_setLE_same]
  rfl

/- The driver -/

def writeFlag (io : Io) (sbb v : Nat) : LogM Unit := do
  onCache (modify (setBuf sbb fun x => { x with data := setSbDirty x.data v, dirty := true }))
  let _ ← attempt (blkWrite io sbb)
  pure ()

def natMount (io : Io) (dev : Nat) (readOnly : Bool) : LogM Unit := do
  let sbb ← blkRead io dev 1
  let c ← getCache
  if sbMagic (memOf (c.bufs sbb).data) ≠ natMagic then
    onCache (blkPut sbb)
    fail .EINVAL
  else
    if readOnly then pure () else writeFlag io sbb 1
    onCache (blkPut sbb)

/-- `nat_sync_bam`, where `bam` is the map block in memory if it is dirty. -/
def natSyncBam (io : Io) (dev : Nat) : Option (Nat × Blk) → LogM Unit
  | none => pure ()
  | some (blk, buf) => blkPwrite io dev blk 0 (ofFn buf)

def natUmount (io : Io) (dev : Nat) (readOnly : Bool) (bam : Option (Nat × Blk)) : LogM Unit :=
  if readOnly then pure ()
  else do
    let _ ← attempt (natSyncBam io dev bam)
    match ← attempt (blkRead io dev 1) with
    | .error _ => pure ()
    | .ok sbb => do
      writeFlag io sbb 0
      onCache (blkPut sbb)

def fsMount (io : Io) (dev : Nat) (readOnly removable : Bool) : LogM Unit := do
  onCache (blkOpen io dev)
  if removable then pure ()
  else onError (natMount io dev readOnly) (do let _ ← attempt (blkClose io dev); pure ())

/-- `fs_activate` of a removable file system that is not active. -/
def fsActivate (io : Io) (dev : Nat) (readOnly : Bool) : LogM Unit :=
  onError (natMount io dev readOnly) (blkSyncdev io dev (syncWrite ||| syncInvalidate))

def fsUmount (io : Io) (dev : Nat) (readOnly active : Bool) (bam : Option (Nat × Blk)) : LogM Unit := do
  if active then natUmount io dev readOnly bam else pure ()
  blkClose io dev

def fsDumount (io : Io) (dev : Nat) (readOnly : Bool) (bam : Option (Nat × Blk)) : LogM Unit := do
  natUmount io dev readOnly bam
  blkSyncdev io dev (syncWrite ||| syncInvalidate)

/-- The cache, the references of the others to its buffers, the dirty map block in memory, and the slot of
    the file system, which is mounted for writing. -/
structure State where
  logged : Logged
  held : List Handle
  bam : Option (Nat × Blk)
  inUse : Bool
  removable : Bool
  active : Bool

/-- What happens: requests to the cache, by which the operations of this file system and all else work, a change
    of the map block in memory, mounting and unmounting. -/
inductive Act where
  | call (req : Req)
  | pend (bam : Option (Nat × Blk))
  | mount (removable : Bool)
  | activate
  | umount
  | dumount

/-- A request uses what its caller holds; the rest is called when the slot is as the code asks. -/
def Act.Allowed (s : State) : Act → Prop
  | call req => req.Valid ⟨s.logged.cache, s.held, s.logged.cache.disk⟩
  | pend _ => s.active = true
  | mount _ => s.inUse = false
  | activate => s.inUse = true ∧ s.removable = true ∧ s.active = false
  | umount => s.inUse = true
  | dumount => s.inUse = true ∧ s.removable = true ∧ s.active = true

def succeeded {α : Type} : Res Errno α → Bool
  | .ok _ => true
  | _ => false

def State.next (dev : Nat) (io : Io) (s : State) : Act → State
  | .call req =>
    let out := runReq io req s.logged
    { s with logged := out.2, held := req.held s.held out.1 }
  | .pend bam => { s with bam := bam }
  | .mount removable =>
    let out := fsMount io dev false removable s.logged
    let ok := succeeded out.1
    { s with logged := out.2, bam := none, inUse := ok, removable := removable, active := ok && !removable }
  | .activate =>
    let out := fsActivate io dev false s.logged
    { s with logged := out.2, bam := none, active := succeeded out.1 }
  | .umount =>
    { s with logged := (fsUmount io dev false s.active s.bam s.logged).2, inUse := false, active := false }
  | .dumount => { s with logged := (fsDumount io dev false s.bam s.logged).2, active := false }

def start (n : Nat) (disk : Disks) : State := ⟨⟨blkInit n disk, []⟩, [], none, false, false, false⟩

inductive Run (dev : Nat) (fits : State → Io → Act → Prop) (n : Nat) (disk : Disks) : State → Prop where
  | start : Run dev fits n disk (start n disk)
  | step {s : State} (io : Io) (act : Act) : Run dev fits n disk s → act.Allowed s → fits s io act →
      Run dev fits n disk (s.next dev io act)

/- What the mark says -/

def Flushed (dev : Nat) (c : Cache) : Prop :=
  ∀ b, b < c.count → (c.bufs b).valid = true → (c.bufs b).dev = dev → (c.bufs b).nr ≠ 1 →
    c.disk dev (c.bufs b).nr = (c.bufs b).data

def Honest (dev : Nat) (c : Cache) : Prop := sbDirty (memOf (c.disk dev 1)) = 0 → Flushed dev c

/- What holds of the device on the way -/

/-- Every block of the device is as it was stored. -/
def Level (dev : Nat) (store disk : Disks) : Prop := ∀ nr, disk dev nr = store dev nr

def Marked (dev : Nat) (store disk : Disks) : Prop :=
  sbDirty (memOf (store dev 1)) ≠ 0 ∧ sbDirty (memOf (disk dev 1)) ≠ 0

/-- A property of the device that makes the mark true and that writing blocks as they are stored keeps. -/
structure Safe (dev : Nat) (P : Disks → Disks → Prop) : Prop where
  toward : ∀ {store before after}, P store before → Toward store before after → P store after
  honest : ∀ {c store}, Stored c store → P store c.disk → Honest dev c

theorem safe_level (dev : Nat) : Safe dev (Level dev) := by
  refine ⟨?_, ?_⟩
  · intro store before after level toward nr
    rcases toward dev nr with same | done
    · rw [same]
      exact level nr
    · exact done
  · intro c store stored level _ b lt valid here _
    rw [level, stored.cached b lt valid, here]

theorem safe_marked (dev : Nat) : Safe dev (Marked dev) := by
  refine ⟨?_, ?_⟩
  · rintro store before after ⟨stored, marked⟩ toward
    refine ⟨stored, ?_⟩
    rcases toward dev 1 with same | done
    · rw [same]
      exact marked
    · rw [done]
      exact stored
  · intro c store _ marked clean
    exact absurd clean marked.2

/-- The cache while these references are out; the mark has been true so far, and `P` holds now. -/
structure Kept (P : Disks → Disks → Prop) (dev : Nat) (held : List Handle) (store : Disks) (s : Logged) : Prop where
  inv : Inv s.cache held store
  log : ∀ mo ∈ s.log, Honest dev mo.cache
  now : P store s.cache.disk

section Steps
variable {io : Io} {P : Disks → Disks → Prop} {dev : Nat} {held held' : List Handle} {store : Disks} {s t : Logged}
  {nr : Nat} {α : Type}

theorem Kept.calm (k : Kept P dev held store s) (safe : Safe dev P) (calm : Calm store s t)
    (inv : Inv t.cache held' store) : Kept P dev held' store t := by
  refine ⟨inv, ?_, safe.toward k.now calm.disk⟩
  intro mo mem
  rcases calm.log mo mem with old | ⟨stored, toward⟩
  · exact k.log mo old
  · exact safe.honest stored (safe.toward k.now toward)

theorem wp_cleanup {β : Type} {e : Errno} {m : BlkM Unit} {f : α → BlkM β} {Q : Res Errno β → Cache → Prop} {c : Cache}
    (failed : ∀ r c, (∀ b, r ≠ .ok b) → Q r c) : wp m (after (fun _ => (fail e : BlkM α)) (after f Q)) c := by
  rw [wp]
  rcases m c with ⟨_ | _ | _, d⟩
  · exact failed _ _ (by rintro _ ⟨⟩)
  · exact failed _ _ (by rintro _ ⟨⟩)
  · exact failed _ _ (by rintro _ ⟨⟩)

theorem read_valid (c : Cache) : wp (Block.blkRead io dev nr) (fun r c => ∀ b, r = .ok b → (c.bufs b).valid = true) c := by
  have none : ∀ (r : Res Errno Nat) (c : Cache), (∀ b, r ≠ .ok b) → ∀ b, r = .ok b → (c.bufs b).valid = true :=
    fun r c not b eq => absurd eq (not b)
  rw [Block.blkRead, wp_bind]
  rcases run : Block.blkGet io dev nr c with ⟨b | e | _, d⟩ <;> rw [wp, run]
  · simp only [after_ok, wp_bind, wp_get]
    cases valid : (d.bufs b).valid with
    | true =>
      rintro _ ⟨⟩
      exact valid
    | false =>
      simp only [false_eq_true, if_false, wp_bind, wp_onError, blkLoad]
      rw [wp, ask]
      split
      · exact wp_cleanup none
      · simp only [after_ok, wp_modify, recovered_ok, wp_pure]
        rintro _ ⟨⟩
        simp only [setBuf, Function.update_self]
  · exact none _ _ (by rintro _ ⟨⟩)
  · exact none _ _ (by rintro _ ⟨⟩)

theorem Kept.wp_read (k : Kept P dev held store s) (safe : Safe dev P) (writes : io.Writes)
    (done : ∀ b t, Kept P dev (⟨b, dev, nr⟩ :: held) store t → (t.cache.bufs b).valid = true →
      (t.cache.bufs b).data = store dev nr → Q (.ok b) t)
    (failed : ∀ e t, Kept P dev held store t → Q (.err e) t) : wp (blkRead io dev nr) Q s := by
  have rule : wp (Block.blkRead io dev nr) (either
      (fun b c => Inv c (⟨b, dev, nr⟩ :: held) store ∧ (c.bufs b).data = store dev nr) fun _ c => Inv c held store)
      s.cache :=
    k.inv.wp_read writes (fun _ _ _ data inv => ⟨inv, data⟩) (fun _ => k.inv) fun _ _ _ inv => inv
  have same : Mirrors Logged.cache (blkRead io dev nr) (Block.blkRead io dev nr) := mirrors_read dev nr
  have kept := same.wp (wp_and rule (read_valid s.cache))
  refine wp_mono (wp_and (calm_read writes k.inv) kept) ?_
  rintro (b | e | _) t ⟨calm, out, valid⟩
  · exact done b t (k.calm safe calm out.1) (valid b rfl) out.2
  · exact failed e t (k.calm safe calm out)
  · exact out.elim

variable {Q : Res Errno Unit → Logged → Prop}

theorem Kept.wp_put (k : Kept P dev held store s) (safe : Safe dev P) (mem : h ∈ held)
    (post : ∀ t, Kept P dev (held.erase h) store t → Q (.ok ()) t) : wp (onCache (blkPut h.buf)) Q s := by
  have rule := k.inv.wp_put (h := h) mem (Q := fun r c => r = .ok () ∧ Inv c (held.erase h) store)
    fun _ _ inv => ⟨rfl, inv⟩
  have quiet : wp (onCache (blkPut h.buf)) (fun _ t => Calm store s t) s := wp_still (still_onCache (keeps_disk_put _ _))
  refine wp_mono (wp_and quiet ((mirrors_onCache _).wp rule)) ?_
  rintro r t ⟨calm, rfl, inv⟩
  exact post t (k.calm safe calm inv)

theorem Kept.wp_same (k : Kept P dev held store s) (safe : Safe dev P)
    (same : Mirrors Logged.cache m m') (quiet : wp m (fun _ t => Calm store s t) s)
    (rule : wp m' (fun _ c => Inv c held store) s.cache) : wp m (fun _ t => Kept P dev held store t) s := by
  refine wp_mono (wp_and quiet (same.wp rule)) ?_
  rintro r t ⟨calm, inv⟩
  exact k.calm safe calm inv

theorem wp_writeFlag (writes : io.Writes) (I : Inv s.cache (⟨sbb, dev, 1⟩ :: held) store)
    (valid : (s.cache.bufs sbb).valid = true) (data : (s.cache.bufs sbb).data = store dev 1)
    (post : ∀ c, Inv c (⟨sbb, dev, 1⟩ :: held) (setDisk store dev 1 (setSbDirty (store dev 1) v)) →
      c.disk = setDisk s.cache.disk dev 1 (setSbDirty (store dev 1) v) →
      Q (.ok ()) ⟨c, ⟨dev, 1, c⟩ :: s.log⟩) : wp (writeFlag io sbb v) Q s := by
  have mem : (⟨sbb, dev, 1⟩ : Handle) ∈ ⟨sbb, dev, 1⟩ :: held := mem_cons_self ..
  have same : setBuf sbb (fun x => { x with data := setSbDirty x.data v, dirty := true }) s.cache =
      setBuf sbb (fun x => { x with data := setSbDirty (store dev 1) v, dirty := true, valid := true }) s.cache := by
    simp only [setBuf, data, valid]
  have filled := I.fill mem (setSbDirty (store dev 1) v)
  have self : (setBuf sbb (fun x => { x with data := setSbDirty (store dev 1) v, dirty := true, valid := true })
      s.cache).bufs sbb = { s.cache.bufs sbb with data := setSbDirty (store dev 1) v, dirty := true, valid := true } :=
    Function.update_self ..
  simp only [writeFlag, wp_bind, wp_onCache, wp_modify, after_ok, wp_attempt, same]
  generalize fill : setBuf sbb (fun x => { x with data := setSbDirty (store dev 1) v, dirty := true, valid := true })
    s.cache = d at filled self ⊢
  have disk : d.disk = s.cache.disk := by rw [← fill]; rfl
  have lt : sbb < d.count := (filled.keys _ mem).1
  have devB : (d.bufs sbb).dev = dev := (filled.keys _ mem).2.1
  have nrB : (d.bufs sbb).nr = 1 := (filled.keys _ mem).2.2
  have dataB : (d.bufs sbb).data = setSbDirty (store dev 1) v := by rw [self]
  have still : (d.bufs sbb).valid = true := by rw [self]
  apply wp_write (s := { s with cache := d }) writes still
  · intro _
    have out := post (written d sbb) (filled.writeBack lt still _) (by simp only [written, devB, nrB, disk, dataB])
    simp only [devB, nrB, caught_ok, after_ok, wp_pure]
    exact out
  · intro clean
    rw [self] at clean
    cases clean

section
variable (k : Kept (Level dev) dev (⟨sbb, dev, 1⟩ :: held) store s)
include k

theorem Kept.wp_mark (writes : io.Writes)
    (valid : (s.cache.bufs sbb).valid = true) (data : (s.cache.bufs sbb).data = store dev 1)
    (post : ∀ store' t, Kept (Marked dev) dev (⟨sbb, dev, 1⟩ :: held) store' t → Q (.ok ()) t) :
    wp (writeFlag io sbb 1) Q s := by
  apply wp_writeFlag writes k.inv valid data
  intro c inv disk
  have stored : sbDirty (memOf (setDisk store dev 1 (setSbDirty (store dev 1) 1) dev 1)) ≠ 0 := by
    rw [Inv.setDisk_same, sbDirty_set]
    decide
  have now : sbDirty (memOf (c.disk dev 1)) ≠ 0 := by
    rw [disk, Inv.setDisk_same, sbDirty_set]
    decide
  refine post _ _ ⟨inv, ?_, stored, now⟩
  intro mo mem
  rcases mem_cons.mp mem with rfl | old
  · exact fun clean => absurd clean now
  · exact k.log mo old

theorem Kept.wp_clear (writes : io.Writes)
    (valid : (s.cache.bufs sbb).valid = true) (data : (s.cache.bufs sbb).data = store dev 1)
    (post : ∀ store' t, Kept (Level dev) dev (⟨sbb, dev, 1⟩ :: held) store' t → Q (.ok ()) t) :
    wp (writeFlag io sbb 0) Q s := by
  apply wp_writeFlag writes k.inv valid data
  intro c inv disk
  have level : Level dev (setDisk store dev 1 (setSbDirty (store dev 1) 0)) c.disk := by
    intro nr
    rw [disk]
    by_cases one : nr = 1
    · rw [one, Inv.setDisk_same, Inv.setDisk_same]
    · rw [Inv.setDisk_ne _ _ fun h => one h.2, Inv.setDisk_ne _ _ fun h => one h.2, k.now nr]
  refine post _ _ ⟨inv, ?_, level⟩
  intro mo mem
  rcases mem_cons.mp mem with rfl | old
  · exact (safe_level dev).honest (stored_of_inv inv) level
  · exact k.log mo old

end

theorem wp_natMount (k : Kept (Level dev) dev held store s) (writes : io.Writes)
    (done : ∀ store' t, Kept (Marked dev) dev held store' t → Q (.ok ()) t)
    (failed : ∀ e t, Kept (Level dev) dev held store t → Q (.err e) t) : wp (natMount io dev false) Q s := by
  rw [natMount, wp_bind]
  apply k.wp_read (safe_level dev) writes
  · intro b t k' valid data
    have mem : (⟨b, dev, 1⟩ : Handle) ∈ ⟨b, dev, 1⟩ :: held := mem_cons_self ..
    simp only [after_ok, wp_bind, wp_getCache]
    split
    · rw [wp_bind]
      apply k'.wp_put (safe_level dev) (h := ⟨b, dev, 1⟩) mem
      intro u k''
      rw [erase_cons_head] at k''
      exact failed _ u k''
    · simp only [false_eq_true, if_false, wp_bind]
      apply k'.wp_mark writes valid data
      intro store' u k''
      rw [after_ok]
      apply k''.wp_put (safe_marked dev) (h := ⟨b, dev, 1⟩) mem
      intro w k₃
      rw [erase_cons_head] at k₃
      exact done store' w k₃
  · exact failed

theorem wp_natUmount (k : Kept (Level dev) dev held store s) (writes : io.Writes)
    (post : ∀ store' t, Kept (Level dev) dev held store' t → Q (.ok ()) t) : wp (natUmount io dev false none) Q s := by
  simp only [natUmount, false_eq_true, if_false, natSyncBam, wp_bind, wp_attempt, wp_pure, caught_ok, after_ok]
  apply k.wp_read (safe_level dev) writes
  · intro b t k' valid data
    simp only [caught_ok, after_ok, wp_bind]
    apply k'.wp_clear writes valid data
    intro store' u k''
    rw [after_ok]
    apply k''.wp_put (safe_level dev) (h := ⟨b, dev, 1⟩) (mem_cons_self ..)
    intro w k₃
    rw [erase_cons_head] at k₃
    exact post store' w k₃
  · exact fun e t k' => post store t k'

section
variable (k : Kept P dev held store s)
include k

theorem Kept.wp_syncdev (safe : Safe dev P) (writes : io.Writes) (flag : Nat) :
    wp (blkSyncdev io dev flag) (fun _ t => Kept P dev held store t) s := by
  have same : Mirrors Logged.cache (blkSyncdev io dev flag) (Block.blkSyncdev io dev flag) :=
    mirrors_bind mirrors_getCache fun c => mirrors_syncFrom _ _ _ _
  refine k.wp_same safe same (calm_syncLru writes k.inv _ _) ?_
  exact k.inv.wp_syncLru (Q := fun _ c => Inv c held store) writes _ _ fun _ inv => inv

theorem Kept.wp_close (safe : Safe dev P) (writes : io.Writes) :
    wp (blkClose io dev) (fun _ t => Kept P dev held store t) s := by
  refine k.wp_same safe (mirrors_close dev) (calm_close writes k.inv) ?_
  by_cases used : s.cache.users dev = 0
  · simp only [Block.blkClose, wp_bind, wp_get, after_ok, if_pos used, wp_crash]
    exact k.inv
  · exact k.inv.wp_close writes used fun _ _ _ inv => inv

theorem Kept.wp_open (safe : Safe dev P) :
    wp (onCache (blkOpen io dev)) (fun _ t => Kept P dev held store t) s := by
  refine k.wp_same safe (mirrors_onCache _) (wp_still (still_onCache (keeps_disk_open _ _))) ?_
  simp only [blkOpen, wp_bind, wp_get, after_ok]
  split
  · rw [wp_bind]
    apply k.inv.wp_ask
    · exact fun n inv => inv.clock _ n
    · exact fun e n inv => inv
  · exact k.inv.clock _ _

end

end Steps

def StoresAt (dev nr : Nat) : Req → Prop
  | .fill h _ => h.dev = dev ∧ h.nr = nr
  | .pwrite dev' nr' _ _ => dev' = dev ∧ nr' = nr
  | _ => False

def Synced (dev : Nat) (s : State) : Prop :=
  s.bam = none ∧ ∀ b, b < s.logged.cache.count → (s.logged.cache.bufs b).dirty = true → (s.logged.cache.bufs b).dev ≠ dev

/-- No write to a device fails; the device belongs to the file system, which writes its superblock only to mark
    it; and when it is unmounted everything else has been written. -/
def Fits (dev : Nat) (s : State) (io : Io) (act : Act) : Prop :=
  io.Writes ∧ match act with
    | .call req => (s.active = true → ¬ StoresAt dev 1 req) ∧ (s.active = false → ∀ nr, ¬ StoresAt dev nr req)
    | .umount | .dumount => s.active = true → Synced dev s
    | _ => True

structure Settled (dev : Nat) (s : State) : Prop where
  used : s.active = true → s.inUse = true
  active : s.active = true → ∃ store, Kept (Marked dev) dev s.held store s.logged
  idle : s.active = false → ∃ store, Kept (Level dev) dev s.held store s.logged

section Runs
variable {io : Io} {P : Disks → Disks → Prop} {dev : Nat} {held : List Handle} {store : Disks} {s : State} {t : Logged}

theorem settled_of_kept (same : s.active = a) (used : a = true → s.inUse = true)
    (kept : ∃ store, Kept (if a then Marked dev else Level dev) dev s.held store s.logged) : Settled dev s := by
  refine ⟨fun on => used (same.symm.trans on), fun on => ?_, fun off => ?_⟩
  · rw [same] at on
    rw [on] at kept
    exact kept
  · rw [same] at off
    rw [off] at kept
    exact kept

theorem store_of_not (req : Req) (r : Res Errno Answer) (away : ¬ StoresAt dev nr req) :
    req.store store r dev nr = store dev nr := by
  cases req <;> cases r <;> try rfl
  · exact Inv.setDisk_ne _ _ fun h => away ⟨h.1.symm, h.2.symm⟩
  · exact Inv.setDisk_ne _ _ fun h => away ⟨h.1.symm, h.2.symm⟩

theorem Kept.call (k : Kept P dev held store t) (safe : Safe dev P) (writes : io.Writes)
    (valid : req.Valid ⟨t.cache, held, disk⟩)
    (keeps : ∀ r after, P store after → P (req.store store r) after) :
    wp (runReq io req) (fun r u => Kept P dev (req.held held r) (req.store store r) u) t := by
  have valid' : req.Valid ⟨t.cache, held, store⟩ := by
    cases req <;> exact valid
  have same : Mirrors Logged.cache (runReq io req) (req.run io) := mirrors_runReq req
  have rule := same.wp (Req.rule (w := ⟨t.cache, held, store⟩) writes k.inv req valid')
  refine wp_mono (wp_and (calm_runReq writes k.inv req) rule) ?_
  rintro r u ⟨calm, _, inv⟩
  have log : ∀ mo ∈ u.log, Honest dev mo.cache := by
    intro mo mem
    rcases calm.log mo mem with old | ⟨stored, toward⟩
    · exact k.log mo old
    · exact safe.honest stored (safe.toward k.now toward)
  exact ⟨inv, log, keeps r _ (safe.toward k.now calm.disk)⟩

theorem settled_call (settled : Settled dev s) (allowed : (Act.call req).Allowed s)
    (fits : Fits dev s io (.call req)) : Settled dev (s.next dev io (.call req)) := by
  obtain ⟨writes, inside, outside⟩ := fits
  refine ⟨settled.used, ?_, ?_⟩
  · intro active
    obtain ⟨store, k⟩ := settled.active active
    refine ⟨_, k.call (safe_marked dev) writes allowed fun r after marked => ?_⟩
    rw [Marked, store_of_not req r (inside active)]
    exact marked
  · intro idle
    obtain ⟨store, k⟩ := settled.idle idle
    refine ⟨_, k.call (safe_level dev) writes allowed fun r after level nr => ?_⟩
    rw [store_of_not req r (outside idle nr)]
    exact level nr

section
variable (k : Kept (Level dev) dev held store t)
include k

section
variable (writes : io.Writes)
include writes

theorem wp_fsMount (removable : Bool) :
    wp (fsMount io dev false removable) (fun r u => ∃ store,
      Kept (if succeeded r && !removable then Marked dev else Level dev) dev held store u) t := by
  rw [fsMount, wp_bind]
  refine wp_mono (k.wp_open (safe_level dev)) ?_
  rintro (_ | e | _) u k'
  · rw [after_ok]
    cases removable with
    | true => exact ⟨store, k'⟩
    | false =>
      simp only [false_eq_true, if_false, wp_onError]
      apply wp_natMount k' writes
      · exact fun store' w k'' => ⟨store', k''⟩
      · intro e w k''
        simp only [recovered_err, wp_bind, wp_attempt]
        refine wp_mono (k''.wp_close (safe_level dev) writes) ?_
        rintro (_ | _ | _) v k₃ <;> exact ⟨store, k₃⟩
  · exact ⟨store, k'⟩
  · exact ⟨store, k'⟩

theorem wp_fsUmount
    (clean : active = true → bam = none) :
    wp (fsUmount io dev false active bam) (fun _ u => ∃ store, Kept (Level dev) dev held store u) t := by
  have close : ∀ {store u}, Kept (Level dev) dev held store u →
      wp (blkClose io dev) (fun _ w => ∃ store, Kept (Level dev) dev held store w) u := fun k' =>
    wp_mono (k'.wp_close (safe_level dev) writes) fun _ _ k'' => ⟨_, k''⟩
  rw [fsUmount]
  cases active with
  | true =>
    rw [clean rfl, if_pos rfl, wp_bind]
    apply wp_natUmount k writes
    exact fun store' u k' => close k'
  | false =>
    simp only [false_eq_true, if_false]
    exact close k

theorem wp_fsDumount
    (clean : bam = none) :
    wp (fsDumount io dev false bam) (fun _ u => ∃ store, Kept (Level dev) dev held store u) t := by
  rw [fsDumount, clean, wp_bind]
  apply wp_natUmount k writes
  intro store' u k'
  rw [after_ok]
  exact wp_mono (k'.wp_syncdev (safe_level dev) writes _) fun _ _ k'' => ⟨store', k''⟩

theorem wp_fsActivate :
    wp (fsActivate io dev false) (fun r u => ∃ store,
      Kept (if succeeded r then Marked dev else Level dev) dev held store u) t := by
  rw [fsActivate, wp_onError]
  apply wp_natMount k writes
  · exact fun store' u k' => ⟨store', k'⟩
  · intro e u k'
    rw [recovered_err]
    refine wp_mono (k'.wp_syncdev (safe_level dev) writes _) ?_
    rintro (_ | _ | _) v k'' <;> exact ⟨store, k''⟩

end

end

theorem Kept.synced (k : Kept (Marked dev) dev s.held store s.logged) (synced : Synced dev s) :
    Kept (Level dev) dev s.held store s.logged := by
  refine ⟨k.inv, k.log, fun nr => ?_⟩
  rcases k.inv.backed dev nr with same | ⟨b, lt, dirty, here, _⟩
  · exact same
  · exact absurd here (synced.2 b lt dirty)

theorem Settled.level (settled : Settled dev s) (ready : s.active = true → Synced dev s) :
    ∃ store, Kept (Level dev) dev s.held store s.logged := by
  cases active : s.active with
  | true =>
    obtain ⟨store, k⟩ := settled.active active
    exact ⟨store, k.synced (ready active)⟩
  | false => exact settled.idle active

theorem settled_next (settled : Settled dev s) (allowed : act.Allowed s) (fits : Fits dev s io act) :
    Settled dev (s.next dev io act) := by
  have writes := fits.1
  cases act with
  | call req => exact settled_call settled allowed fits
  | pend bam => exact ⟨settled.used, settled.active, settled.idle⟩
  | mount removable =>
    have idle : s.active = false := by
      cases active : s.active with
      | true =>
        have used := settled.used active
        rw [show s.inUse = false from allowed] at used
        cases used
      | false => rfl
    obtain ⟨store, k⟩ := settled.idle idle
    refine settled_of_kept rfl ?_ (wp_fsMount k writes removable)
    intro active
    exact (and_eq_true_iff.mp active).1
  | activate =>
    obtain ⟨store, k⟩ := settled.idle allowed.2.2
    exact settled_of_kept rfl (fun _ => allowed.1) (wp_fsActivate k writes)
  | umount =>
    obtain ⟨store, k⟩ := settled.level fits.2
    refine settled_of_kept (a := false) rfl nofun ?_
    exact wp_fsUmount k writes fun active => (fits.2 active).1
  | dumount =>
    obtain ⟨store, k⟩ := settled.level fits.2
    refine settled_of_kept (a := false) rfl nofun ?_
    exact wp_fsDumount k writes (fits.2 allowed.2.2).1

theorem Settled.honest (settled : Settled dev s) :
    (∀ mo ∈ s.logged.log, Honest dev mo.cache) ∧ Honest dev s.logged.cache := by
  cases active : s.active with
  | true =>
    obtain ⟨store, k⟩ := settled.active active
    exact ⟨k.log, (safe_marked dev).honest (stored_of_inv k.inv) k.now⟩
  | false =>
    obtain ⟨store, k⟩ := settled.idle active
    exact ⟨k.log, (safe_level dev).honest (stored_of_inv k.inv) k.now⟩

theorem settled_start (dev n : Nat) (disk : Disks) : Settled dev (start n disk) := by
  refine ⟨nofun, nofun, fun _ => ⟨disk, Inv.init n disk, nofun, ?_⟩⟩
  intro nr
  exact congrFun (congrFun (blkInit_fields n disk).2.2 dev) nr

end Runs

/-- After each write to a device, and between the calls, a volume that is marked clean is so, in a run that goes as
    the condition says. -/
theorem mark_honest {dev n : Nat} {disk : Disks} {s : State} (run : Run dev (Fits dev) n disk s) :
    (∀ mo ∈ s.logged.log, Honest dev mo.cache) ∧ Honest dev s.logged.cache := by
  have settled : Settled dev s := by
    induction run with
    | start => exact settled_start dev n disk
    | step io act _ allowed fits ih => exact settled_next ih allowed fits
  exact settled.honest

def sampleDisk : Disks := fun _ nr => if nr = 1 then blkOf (blit zero 0 natMagic) else fun _ => 0

def changed : State :=
  ((start 3 sampleDisk).next 1 goodIo (.mount false)).next 1 goodIo (.call (.pwrite 1 5 0 ones))

def synced : State := changed.next 1 goodIo (.call (.syncall syncWrite))

theorem run_changed (mount : fits (start 3 sampleDisk) goodIo (.mount false))
    (write : fits ((start 3 sampleDisk).next 1 goodIo (.mount false)) goodIo (.call (.pwrite 1 5 0 ones))) :
    Run 1 fits 3 sampleDisk changed := by
  have mounted : Run 1 fits 3 sampleDisk ((start 3 sampleDisk).next 1 goodIo (.mount false)) :=
    .step goodIo (.mount false) .start rfl mount
  exact .step goodIo (.call (.pwrite 1 5 0 ones)) mounted (by rw [Act.Allowed, Req.Valid, ones_length]) write

theorem goodIo_writes : goodIo.Writes := fun _ => rfl

theorem active_mounted : ((start 3 sampleDisk).next 1 goodIo (.mount false)).active = true := by decide +kernel

/-- The block is synchronised before the volume is unmounted. -/
theorem mark_honest_synced : (∀ mo ∈ (synced.next 1 goodIo .umount).logged.log, Honest 1 mo.cache) ∧
    Honest 1 (synced.next 1 goodIo .umount).logged.cache := by
  have run : Run 1 (Fits 1) 3 sampleDisk changed := by
    refine run_changed ⟨goodIo_writes, trivial⟩ ⟨goodIo_writes, ?_, ?_⟩
    · rintro _ ⟨_, here⟩
      cases here
    · intro idle
      rw [active_mounted] at idle
      cases idle
  have sync : Run 1 (Fits 1) 3 sampleDisk synced :=
    .step goodIo (.call (.syncall syncWrite)) run trivial ⟨goodIo_writes, fun _ => id, fun _ _ => id⟩
  have ready : Synced 1 synced := ⟨by decide +kernel, by decide +kernel⟩
  have used : synced.inUse = true := by decide +kernel
  exact mark_honest (.step goodIo .umount sync used ⟨goodIo_writes, fun _ => ready⟩)

def unsynced : State := changed.next 1 goodIo .umount

theorem unsynced_log : 1 < unsynced.logged.log.length := by decide +kernel

/-- The superblock goes to the device, marked clean, before the block does. -/
theorem mark_not_honest : Run 1 (fun _ io _ => io = goodIo) 3 sampleDisk unsynced ∧
    ∃ mo ∈ unsynced.logged.log, ¬ Honest 1 mo.cache := by
  have used : changed.inUse = true := by decide +kernel
  refine ⟨.step goodIo .umount (run_changed rfl rfl) used rfl, ?_⟩
  refine ⟨_, getElem_mem unsynced_log, fun honest => ?_⟩
  have flushed := honest (by decide +kernel) 1 (by decide +kernel) (by decide +kernel) (by decide +kernel)
    (by decide +kernel)
  have differ := congrFun flushed 0
  exact absurd differ (by decide +kernel)

end Flag
