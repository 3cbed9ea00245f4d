import Newsys.Kern.Buffers

/- The calls of `dev->write` that the buffer cache makes (kern/block.c), in their order. The functions are those of
   the cache; each call of the device is noted with the state that it leaves. -/
namespace Block.Writes
open Bytes Cmds Cmd Chains Kern Function

structure Moment where
  dev : Nat
  nr : Nat
  cache : Cache

structure Logged where
  cache : Cache
  log : List Moment

abbrev LogM := Cmd Errno Logged

def onCache {α : Type} (m : BlkM α) : LogM α := fun s => ((m s.cache).1, { s with cache := (m s.cache).2 })

def getCache : LogM Cache := onCache get

def note (dev nr : Nat) : LogM Unit := modify fun s => { s with log := ⟨dev, nr, s.cache⟩ :: s.log }

def devWrite (io : Io) (b : Nat) : BlkM Unit := do
  ask io.write
  modify fun c => { c with disk := setDisk c.disk (c.bufs b).dev (c.bufs b).nr (c.bufs b).data }

def blkWrite (io : Io) (b : Nat) : LogM Unit := do
  let c ← getCache
  if !(c.bufs b).valid then crash
  else if !(c.bufs b).dirty then pure ()
  else
    onCache (modify (setBuf b fun x => { x with dirty := false }))
    let err ← attempt (onCache (devWrite io b))
    note (c.bufs b).dev (c.bufs b).nr
    match err with
    | .error e => fail e
    | .ok () => pure ()

def blkRecycle (io : Io) (b dev nr : Nat) : LogM Nat := do
  let c ← getCache
  onCache (modify (chainRm ((c.bufs b).nr % 64) b))
  onCache (modify (lruRm b))
  if (c.bufs b).dirty then
    let _ ← attempt (blkWrite io b)
    pure ()
  else pure ()
  onCache (modify (setBuf b fun x => { x with refcnt := 1, dev := dev, nr := nr, valid := false }))
  onCache (modify (chainPre (nr % 64) b))
  pure b

def blkGet (io : Io) (dev nr : Nat) : LogM Nat := do
  let c ← getCache
  match blkScan c dev nr c.count (c.lists (nr % 64)).first with
  | none => crash
  | some (some b) => onCache (blkHold b)
  | some none =>
    match c.lru.first with
    | none => fail .ENOMEM
    | some b => blkRecycle io b dev nr

def blkRead (io : Io) (dev nr : Nat) : LogM Nat := do
  let b ← blkGet io dev nr
  let c ← getCache
  if (c.bufs b).valid then pure b
  else do
    onError (onCache (blkLoad io b)) (onCache (blkPut b))
    pure b

def blkPread (io : Io) (dev nr off len : Nat) : LogM (List Byte) := do
  let b ← blkRead io dev nr
  let c ← getCache
  let buf := peek (c.bufs b).data off len
  onCache (blkPut b)
  pure buf

def blkPwrite (io : Io) (dev nr off : Nat) (buf : List Byte) : LogM Unit := do
  let b ← if buf.length ≠ 512 then blkRead io dev nr else blkGet io dev nr
  let c ← getCache
  onCache (blkFill b (poke (c.bufs b).data off buf))
  onCache (blkPut b)

def blkSync (io : Io) (flags b : Nat) : LogM Unit := do
  let c ← getCache
  if flags &&& syncWrite ≠ 0 ∧ (c.bufs b).dirty then
    let _ ← attempt (blkWrite io b)
    pure ()
  else pure ()
  let c ← getCache
  if flags &&& syncInvalidate ≠ 0 ∧ !(c.bufs b).dirty then
    onCache (modify (setBuf b fun x => { x with valid := false }))
  else pure ()

def syncFrom (io : Io) (pick : Buf → Bool) (flags : Nat) : Nat → Option Nat → LogM Unit
  | _, none => pure ()
  | 0, some _ => crash
  | n + 1, some b => do
    let c ← getCache
    if pick (c.bufs b) then blkSync io flags b else pure ()
    let c ← getCache
    syncFrom io pick flags n (c.lruItem b).next

def blkSyncdev (io : Io) (dev flags : Nat) : LogM Unit := do
  let c ← getCache
  syncFrom io (fun b => b.dev = dev) flags c.count c.lru.first

def blkSyncall (io : Io) (flags : Nat) : LogM Unit := do
  let c ← getCache
  syncFrom io (fun _ => true) flags c.count c.lru.first

def blkClose (io : Io) (dev : Nat) : LogM Unit := do
  let c ← getCache
  if c.users dev = 0 then crash
  else
    if c.users dev = 1 then do
      blkSyncdev io dev (syncWrite ||| syncInvalidate)
      onCache (ask io.other)
    else pure ()
    onCache (modify fun c => { c with users := update c.users dev (c.users dev - 1) })

def runReq (io : Io) : Req → LogM Answer
  | .read dev nr => do
    let b ← blkRead io dev nr
    let c ← getCache
    pure (.buffer b (c.bufs b).data)
  | .get dev nr => do
    let b ← blkGet io dev nr
    let c ← getCache
    pure (.buffer b (c.bufs b).data)
  | .fill h data => do
    onCache (blkFill h.buf data)
    pure .done
  | .put h => do
    onCache (blkPut h.buf)
    pure .done
  | .pread dev nr off len => do
    let buf ← blkPread io dev nr off len
    pure (.bytes buf)
  | .pwrite dev nr off buf => do
    blkPwrite io dev nr off buf
    pure .done
  | .add m count => do
    onCache (blkAdd m io count)
    pure .done
  | .syncdev dev flags => do
    blkSyncdev io dev flags
    pure .done
  | .syncall flags => do
    blkSyncall io flags
    pure .done
  | .open dev => do
    onCache (blkOpen io dev)
    pure .done
  | .close dev => do
    blkClose io dev
    pure .done

/- The cache is the same -/

section Mirror
variable {io : Io} {α : Type}

theorem mirrors_onCache (m : BlkM α) : Mirrors Logged.cache (onCache m) m := fun _ => ⟨rfl, rfl⟩

theorem mirrors_getCache : Mirrors Logged.cache getCache get := mirrors_onCache _

theorem mirrors_write (b : Nat) : Mirrors Logged.cache (blkWrite io b) (Block.blkWrite io b) := by
  refine mirrors_bind mirrors_getCache fun c => mirrors_ite mirrors_crash (mirrors_ite (mirrors_pure _) ?_)
  refine mirrors_bind (mirrors_onCache _) fun _ => ?_
  intro s
  show (Cmd.bind _ _ s).1 = (devWrite io b s.cache).1 ∧ (Cmd.bind _ _ s).2.cache = (devWrite io b s.cache).2
  simp only [Cmd.bind, attempt, onCache]
  rcases devWrite io b s.cache with ⟨_ | _ | _, d⟩ <;> exact ⟨rfl, rfl⟩

theorem mirrors_recycle (b dev nr : Nat) :
    Mirrors Logged.cache (blkRecycle io b dev nr) (Block.blkRecycle io b dev nr) := by
  have rest : Mirrors Logged.cache (do
      onCache (modify (setBuf b fun x => { x with refcnt := 1, dev := dev, nr := nr, valid := false }))
      onCache (modify (chainPre (nr % 64) b))
      pure b) (do
      modify (setBuf b fun x => { x with refcnt := 1, dev := dev, nr := nr, valid := false })
      modify (chainPre (nr % 64) b)
      pure b) :=
    mirrors_bind (mirrors_onCache _) fun _ => mirrors_bind (mirrors_onCache _) fun _ => mirrors_pure b
  refine mirrors_bind mirrors_getCache fun c => mirrors_bind (mirrors_onCache _) fun _ => ?_
  refine mirrors_bind (mirrors_onCache _) fun _ => mirrors_ite ?_ ?_
  · exact mirrors_bind (mirrors_attempt (mirrors_write b)) fun _ => rest
  · exact rest

theorem mirrors_get (dev nr : Nat) : Mirrors Logged.cache (blkGet io dev nr) (Block.blkGet io dev nr) := by
  refine mirrors_bind mirrors_getCache fun c => ?_
  cases blkScan c dev nr c.count (c.lists (nr % 64)).first with
  | none => exact mirrors_crash
  | some found =>
    cases found with
    | some b => exact mirrors_onCache _
    | none =>
      cases c.lru.first with
      | none => exact mirrors_fail _
      | some b => exact mirrors_recycle b dev nr

theorem mirrors_read (dev nr : Nat) : Mirrors Logged.cache (blkRead io dev nr) (Block.blkRead io dev nr) := by
  refine mirrors_bind (mirrors_get dev nr) fun b => mirrors_bind mirrors_getCache fun c => ?_
  refine mirrors_ite (mirrors_pure b) ?_
  exact mirrors_bind (mirrors_onError (mirrors_onCache _) (mirrors_onCache _)) fun _ => mirrors_pure b

theorem mirrors_sync (flags b : Nat) : Mirrors Logged.cache (blkSync io flags b) (Block.blkSync io flags b) := by
  have rest : Mirrors Logged.cache (do
      let c ← getCache
      if flags &&& syncInvalidate ≠ 0 ∧ !(c.bufs b).dirty then
        onCache (modify (setBuf b fun x => { x with valid := false }))
      else pure ()) (do
      let c ← get
      if flags &&& syncInvalidate ≠ 0 ∧ !(c.bufs b).dirty then
        modify (setBuf b fun x => { x with valid := false })
      else pure ()) :=
    mirrors_bind mirrors_getCache fun c => mirrors_ite (mirrors_onCache _) (mirrors_pure _)
  refine mirrors_bind mirrors_getCache fun c => mirrors_ite ?_ ?_
  · exact mirrors_bind (mirrors_attempt (mirrors_write b)) fun _ => rest
  · exact rest

theorem mirrors_syncFrom (pick : Buf → Bool) (flags : Nat) : ∀ (n : Nat) (p : Option Nat),
    Mirrors Logged.cache (syncFrom io pick flags n p) (Block.syncFrom io pick flags n p) := by
  intro n
  induction n with
  | zero =>
    rintro (_ | b)
    · exact mirrors_pure _
    · exact mirrors_crash
  | succ n ih =>
    rintro (_ | b)
    · exact mirrors_pure _
    · have rest : Mirrors Logged.cache (do
          let c ← getCache
          syncFrom io pick flags n (c.lruItem b).next) (do
          let c ← get
          Block.syncFrom io pick flags n (c.lruItem b).next) :=
        mirrors_bind mirrors_getCache fun c => ih _
      refine mirrors_bind mirrors_getCache fun c => mirrors_ite ?_ ?_
      · exact mirrors_bind (mirrors_sync flags b) fun _ => rest
      · exact rest

theorem mirrors_close (dev : Nat) : Mirrors Logged.cache (blkClose io dev) (Block.blkClose io dev) := by
  refine mirrors_bind mirrors_getCache fun c => mirrors_ite mirrors_crash (mirrors_ite ?_ (mirrors_onCache _))
  refine mirrors_bind (mirrors_bind mirrors_getCache fun c => mirrors_syncFrom _ _ _ _) fun _ => ?_
  exact mirrors_bind (mirrors_onCache _) fun _ => mirrors_onCache _

theorem mirrors_runReq (req : Req) : Mirrors Logged.cache (runReq io req) (req.run io) := by
  have seen : ∀ b : Nat, Mirrors Logged.cache (do
      let c ← getCache
      pure (Answer.buffer b (c.bufs b).data)) (do
      let c ← get
      pure (Answer.buffer b (c.bufs b).data)) := fun b =>
    mirrors_bind mirrors_getCache fun c => mirrors_pure _
  have plain : ∀ m : BlkM Unit, Mirrors Logged.cache (do onCache m; pure Answer.done) (do m; pure Answer.done) := fun m =>
    mirrors_bind (mirrors_onCache m) fun _ => mirrors_pure _
  cases req with
  | read dev nr => exact mirrors_bind (mirrors_read dev nr) seen
  | get dev nr => exact mirrors_bind (mirrors_get dev nr) seen
  | fill h data => exact plain _
  | put h => exact plain _
  | pread dev nr off len =>
    refine mirrors_bind (mirrors_bind (mirrors_read dev nr) fun b => ?_) fun _ => mirrors_pure _
    exact mirrors_bind mirrors_getCache fun c => mirrors_bind (mirrors_onCache _) fun _ => mirrors_pure _
  | pwrite dev nr off buf =>
    have rest : ∀ b : Nat, Mirrors Logged.cache (do
        let c ← getCache
        onCache (blkFill b (poke (c.bufs b).data off buf))
        onCache (blkPut b)) (do
        let c ← get
        blkFill b (poke (c.bufs b).data off buf)
        blkPut b) := fun b =>
      mirrors_bind mirrors_getCache fun c => mirrors_bind (mirrors_onCache _) fun _ => mirrors_onCache _
    refine mirrors_bind (mirrors_ite ?_ ?_) fun _ => mirrors_pure _
    · exact mirrors_bind (mirrors_read dev nr) rest
    · exact mirrors_bind (mirrors_get dev nr) rest
  | add m count => exact plain _
  | syncdev dev flags =>
    exact mirrors_bind (mirrors_bind mirrors_getCache fun c => mirrors_syncFrom _ _ _ _) fun _ => mirrors_pure _
  | syncall flags =>
    exact mirrors_bind (mirrors_bind mirrors_getCache fun c => mirrors_syncFrom _ _ _ _) fun _ => mirrors_pure _
  | «open» dev => exact plain _
  | close dev => exact mirrors_bind (mirrors_close dev) fun _ => mirrors_pure _

end Mirror

/- What is on the devices after each call -/

structure Stored (c : Cache) (store : Disks) : Prop where
  cached : ∀ b, b < c.count → (c.bufs b).valid = true → (c.bufs b).data = store (c.bufs b).dev (c.bufs b).nr
  backed : Backed c store

theorem stored_of_inv (I : Inv c held store) : Stored c store :=
  ⟨I.cached, I.backed⟩

def Toward (store before after : Disks) : Prop :=
  ∀ dev nr, after dev nr = before dev nr ∨ after dev nr = store dev nr

theorem Toward.refl (store d : Disks) : Toward store d d := fun _ _ => .inl rfl

theorem Toward.trans (first : Toward store d e) (second : Toward store e f) : Toward store d f := by
  intro dev nr
  rcases second dev nr with same | done
  · rw [same]
    exact first dev nr
  · exact .inr done

/-- From `s` to `t` blocks have gone to the devices as they are stored, one after the other. -/
structure Calm (store : Disks) (s t : Logged) : Prop where
  log : ∀ mo ∈ t.log, mo ∈ s.log ∨ (Stored mo.cache store ∧ Toward store s.cache.disk mo.cache.disk)
  disk : Toward store s.cache.disk t.cache.disk

structure Still (log : List Moment) (disk : Disks) (s : Logged) : Prop where
  log : s.log = log
  disk : s.cache.disk = disk

section Calm
variable {io : Io} {store : Disks} {held : List Handle} {s t u : Logged} {b dev nr : Nat} {α β : Type}

theorem Calm.refl (store : Disks) (s : Logged) : Calm store s s := ⟨fun _ mem => .inl mem, Toward.refl store _⟩

theorem Calm.trans (first : Calm store s t) (second : Calm store t u) : Calm store s u := by
  refine ⟨?_, first.disk.trans second.disk⟩
  intro mo mem
  rcases second.log mo mem with old | ⟨stored, toward⟩
  · exact first.log mo old
  · exact .inr ⟨stored, first.disk.trans toward⟩

theorem Calm.still (still : Still s.log s.cache.disk t) : Calm store s t := by
  refine ⟨?_, ?_⟩
  · intro mo mem
    rw [still.log] at mem
    exact .inl mem
  · rw [still.disk]
    exact Toward.refl store _

theorem Stored.write (S : Stored c store) (lt : b < c.count) (valid : (c.bufs b).valid = true)
    (bufs : c'.bufs = update c.bufs b { c.bufs b with dirty := false }) (count : c'.count = c.count)
    (disk : c'.disk = setDisk c.disk (c.bufs b).dev (c.bufs b).nr (c.bufs b).data) :
    Stored c' store ∧ Toward store c.disk c'.disk := by
  have data := S.cached b lt valid
  have self : c'.bufs b = { c.bufs b with dirty := false } := by rw [bufs, update_self]
  have other : ∀ x, x ≠ b → c'.bufs x = c.bufs x := fun x ne => by rw [bufs, update_of_ne ne]
  have key : ∀ dev nr, dev = (c.bufs b).dev ∧ nr = (c.bufs b).nr → c'.disk dev nr = store dev nr := by
    rintro dev nr ⟨rfl, rfl⟩
    rw [disk, Inv.setDisk_same, data]
  have away : ∀ dev nr, ¬ (dev = (c.bufs b).dev ∧ nr = (c.bufs b).nr) → c'.disk dev nr = c.disk dev nr := by
    intro dev nr ne
    rw [disk, Inv.setDisk_ne _ _ ne]
  refine ⟨⟨?_, ?_⟩, ?_⟩
  · intro x inside
    rw [count] at inside
    by_cases eq : x = b
    · rw [eq, self]
      exact fun _ => data
    · rw [other x eq]
      exact S.cached x inside
  · intro dev nr
    by_cases here : dev = (c.bufs b).dev ∧ nr = (c.bufs b).nr
    · exact .inl (key dev nr here)
    · rw [away dev nr here, count]
      refine (S.backed dev nr).imp_right ?_
      rintro ⟨x, inside, mark, devX, nrX, dataX⟩
      have ne : x ≠ b := by
        rintro rfl
        exact here ⟨devX.symm, nrX.symm⟩
      refine ⟨x, inside, ?_⟩
      rw [other x ne]
      exact ⟨mark, devX, nrX, dataX⟩
  · intro dev nr
    by_cases here : dev = (c.bufs b).dev ∧ nr = (c.bufs b).nr
    · exact .inr (key dev nr here)
    · exact .inl (away dev nr here)

@[simp] theorem wp_onCache (m : BlkM α) (Q : Res Errno α → Logged → Prop) : wp (onCache m) Q s =
    wp m (fun r c => Q r { s with cache := c }) s.cache := rfl

@[simp] theorem wp_getCache (Q : Res Errno Cache → Logged → Prop) : wp getCache Q s = Q (.ok s.cache) s := rfl

def written (c : Cache) (b : Nat) : Cache :=
  { setBuf b (fun x => { x with dirty := false }) c with
    disk := setDisk c.disk (c.bufs b).dev (c.bufs b).nr (c.bufs b).data
    tick := c.tick + 1 }

theorem wp_write (writes : io.Writes) (valid : (s.cache.bufs b).valid = true)
    (post : (s.cache.bufs b).dirty = true → Q (.ok ())
      ⟨written s.cache b, ⟨(s.cache.bufs b).dev, (s.cache.bufs b).nr, written s.cache b⟩ :: s.log⟩)
    (skip : (s.cache.bufs b).dirty = false → Q (.ok ()) s) : wp (blkWrite io b) Q s := by
  simp only [blkWrite, wp_bind, wp_getCache, after_ok, valid, Bool.not_true, Bool.false_eq_true, if_false]
  cases mark : (s.cache.bufs b).dirty with
  | false => exact skip mark
  | true =>
    have key : (setBuf b (fun x => { x with dirty := false }) s.cache).bufs b = { s.cache.bufs b with dirty := false } :=
      update_self ..
    simp only [Bool.not_true, Bool.false_eq_true, if_false, wp_bind, wp_onCache, wp_modify, after_ok, wp_attempt, devWrite]
    rw [wp, ask, writes]
    simp only [after_ok, wp_modify, caught_ok, note, wp_bind, key]
    exact post mark

theorem calm_write (writes : io.Writes) (S : Stored s.cache store) (lt : b < s.cache.count)
    (valid : (s.cache.bufs b).valid = true) : wp (blkWrite io b) (fun r t => r = .ok () ∧ Calm store s t) s := by
  apply wp_write writes valid
  · intro _
    have out : Stored (written s.cache b) store ∧ Toward store s.cache.disk (written s.cache b).disk :=
      S.write lt valid rfl rfl rfl
    obtain ⟨stored, toward⟩ := out
    refine ⟨rfl, ?_, toward⟩
    intro mo mem
    rcases List.mem_cons.mp mem with rfl | old
    · exact .inr ⟨stored, toward⟩
    · exact .inl old
  · exact fun _ => ⟨rfl, .refl ..⟩

section
variable (disk : Disks)
include disk

theorem keeps_disk_put (b : Nat) : Stable (fun c => c.disk = disk) (blkPut b) := by
  unfold blkPut
  refine stable_bind stable_get fun c => ?_
  split
  · exact stable_crash
  · refine stable_bind (stable_modify fun _ same => same) fun _ => ?_
    split
    · exact stable_modify fun _ same => same
    · exact stable_pure _

theorem keeps_disk_hold (b : Nat) : Stable (fun c => c.disk = disk) (blkHold b) := by
  unfold blkHold
  refine stable_bind stable_get fun c => ?_
  split
  · refine stable_bind (stable_modify fun _ same => same) fun _ => ?_
    exact stable_bind (stable_modify fun _ same => same) fun _ => stable_pure _
  · exact stable_bind (stable_modify fun _ same => same) fun _ => stable_pure _

theorem keeps_disk_ask (oracle : Nat → Option Errno) :
    Stable (fun c => c.disk = disk) (ask oracle) := by
  intro c same
  unfold ask
  split <;> exact same

theorem keeps_disk_load (b : Nat) : Stable (fun c => c.disk = disk) (blkLoad io b) :=
  stable_bind (keeps_disk_ask disk _) fun _ => stable_modify fun _ same => same

theorem keeps_disk_open (dev : Nat) : Stable (fun c => c.disk = disk) (blkOpen io dev) := by
  unfold blkOpen
  refine stable_bind stable_get fun c => ?_
  split
  · exact stable_bind (keeps_disk_ask disk _) fun _ => stable_modify fun _ same => same
  · exact stable_modify fun _ same => same

theorem keeps_disk_add (m : Machine) (count : Nat) :
    Stable (fun c => c.disk = disk) (blkAdd m io count) := by
  unfold blkAdd
  refine stable_bind stable_get fun c => ?_
  split
  · exact stable_fail _
  · split
    · exact stable_pure _
    · refine stable_bind (keeps_disk_ask disk _) fun _ => stable_bind (keeps_disk_ask disk _) fun _ => ?_
      split
      · exact stable_crash
      · exact stable_modify fun c' same => (Inv.addBufs_fields _ c').2.trans same

end

theorem still_onCache (keeps : Stable (fun c => c.disk = disk) m) :
    Stable (Still log disk) (onCache m) := fun s still => ⟨still.log, keeps s.cache still.disk⟩

theorem wp_still (all : Stable (Still s.log s.cache.disk) m) : wp m (fun _ t => Calm store s t) s :=
  .still (all s ⟨rfl, rfl⟩)

theorem Calm.rest (calm : Calm store s t) (all : Stable (Still t.log t.cache.disk) m) :
    wp m (fun _ u => Calm store s u) t :=
  calm.trans (wp_still all)

section
variable (writes : io.Writes)
include writes

theorem calm_recycle (S : Stored s.cache store) (lt : b < s.cache.count)
    (valid : (s.cache.bufs b).dirty = true → (s.cache.bufs b).valid = true) :
    wp (blkRecycle io b dev nr) (fun _ t => Calm store s t) s := by
  have rest : ∀ t : Logged, Calm store s t → wp (do
      onCache (modify (setBuf b fun x => { x with refcnt := 1, dev := dev, nr := nr, valid := false }))
      onCache (modify (chainPre (nr % 64) b))
      pure b) (fun _ u => Calm store s u) t := by
    intro t calm
    refine calm.rest (stable_bind (still_onCache (stable_modify fun _ same => same)) fun _ => ?_)
    exact stable_bind (still_onCache (stable_modify fun _ same => same)) fun _ => stable_pure _
  simp only [blkRecycle, wp_bind, wp_getCache, after_ok, wp_onCache, wp_modify]
  -- the buffer leaves the lists before it is written
  have out : Calm store s { s with cache := lruRm b (chainRm ((s.cache.bufs b).nr % 64) b s.cache) } := .still ⟨rfl, rfl⟩
  have stored : Stored (lruRm b (chainRm ((s.cache.bufs b).nr % 64) b s.cache)) store := ⟨S.cached, S.backed⟩
  cases mark : (s.cache.bufs b).dirty with
  | false =>
    simp only [Bool.false_eq_true, if_false]
    have done := rest _ out
    simp only [wp_bind, wp_onCache, wp_modify, after_ok] at done
    exact done
  | true =>
    simp only [if_true, wp_bind, wp_attempt]
    refine wp_mono (calm_write (s := { s with cache := _ }) writes stored lt (valid mark)) ?_
    rintro r t ⟨rfl, calm⟩
    have done := rest t (out.trans calm)
    simp only [wp_bind, wp_onCache, wp_modify, after_ok] at done
    exact done

theorem calm_get (I : Inv s.cache held store) :
    wp (blkGet io dev nr) (fun _ t => Calm store s t) s := by
  obtain ⟨chains, lru, T⟩ := I.tables
  simp only [blkGet, wp_bind, wp_getCache, after_ok]
  cases blkScan s.cache dev nr s.cache.count (s.cache.lists (nr % 64)).first with
  | none => exact .refl ..
  | some found =>
    cases found with
    | some b => exact wp_still (still_onCache (keeps_disk_hold _ b))
    | none =>
      cases first : s.cache.lru.first with
      | none => exact .refl ..
      | some b =>
        have lt := ((T.lruMem b).mp (T.lruLinked.first_mem first)).1
        exact calm_recycle writes (stored_of_inv I) lt (T.dirty b lt)

theorem calm_read (I : Inv s.cache held store) :
    wp (blkRead io dev nr) (fun _ t => Calm store s t) s := by
  rw [blkRead, wp_bind]
  refine wp_mono (calm_get writes I) ?_
  rintro (b | e | _) t calm
  · refine calm.rest (stable_bind (still_onCache stable_get) fun c => ?_)
    split
    · exact stable_pure _
    · refine stable_bind (stable_onError ?_ ?_) fun _ => stable_pure _
      · exact still_onCache (keeps_disk_load _ b)
      · exact still_onCache (keeps_disk_put _ b)
  · exact calm
  · exact calm

theorem calm_sync (I : Inv s.cache held store) (lt : b < s.cache.count) (flags : Nat) :
    wp (blkSync io flags b) (fun _ t => Calm store s t) s := by
  have rest : ∀ t : Logged, Calm store s t → wp (do
      let c ← getCache
      if flags &&& syncInvalidate ≠ 0 ∧ !(c.bufs b).dirty then
        onCache (modify (setBuf b fun x => { x with valid := false }))
      else pure ()) (fun _ u => Calm store s u) t := by
    intro t calm
    refine calm.rest (stable_bind (still_onCache stable_get) fun c => ?_)
    split
    · exact still_onCache (stable_modify fun _ same => same)
    · exact stable_pure _
  obtain ⟨_, _, T⟩ := I.tables
  simp only [blkSync, wp_bind, wp_getCache, after_ok]
  split
  · rename_i asked
    simp only [wp_bind, wp_attempt]
    refine wp_mono (calm_write writes (stored_of_inv I) lt (T.dirty b lt asked.2)) ?_
    rintro r t ⟨rfl, calm⟩
    have done := rest t calm
    simp only [wp_bind, wp_getCache, after_ok] at done
    exact done
  · have done := rest s (.refl ..)
    simp only [wp_bind, wp_getCache, after_ok] at done
    exact done

theorem calm_syncFrom (pick : Buf → Bool) (flags : Nat)
    (k : Linked h ln l) (rest : List Nat) : ∀ (seen : List Nat) (n : Nat) (s : Logged), l = seen ++ rest →
      (∀ b ∈ rest, b < s.cache.count) → s.cache.lruItem = ln → Inv s.cache held store →
      wp (syncFrom io pick flags n rest.head?) (fun _ t => Calm store s t) s := by
  induction rest with
  | nil =>
    intro seen n s _ _ _ _
    cases n <;> exact .refl ..
  | cons b rest ih =>
    intro seen n s split inside links I
    cases n with
    | zero => exact .refl ..
    | succ n =>
      have next := k.next split
      have tail : ∀ t : Logged, Calm store s t → Inv t.cache held store → t.cache.lruItem = s.cache.lruItem →
          t.cache.count = s.cache.count → wp (do
          let c ← getCache
          syncFrom io pick flags n (c.lruItem b).next) (fun _ u => Calm store s u) t := by
        intro t calm I' links' count
        simp only [wp_bind, wp_getCache, after_ok, links', links, next]
        have later := ih (seen ++ [b]) n t (by rw [split]; simp)
          (by rw [count]; exact fun x mem => inside x (List.mem_cons_of_mem _ mem)) (links'.trans links) I'
        exact wp_mono later fun _ _ more => calm.trans more
      simp only [List.head?_cons, syncFrom, wp_bind, wp_getCache, after_ok]
      split
      · have lt := inside b (List.mem_cons_self ..)
        have same : Mirrors Logged.cache (blkSync io flags b) (Block.blkSync io flags b) := mirrors_sync flags b
        have kept := same.wp (I.wp_sync (Q := fun r c => r = .ok () ∧ Inv c held store ∧
          c.lruItem = s.cache.lruItem ∧ c.count = s.cache.count) writes lt flags
          fun c inv links' count => ⟨rfl, inv, links', count⟩)
        rw [wp_bind]
        refine wp_mono (wp_and (calm_sync writes I lt flags) kept) ?_
        rintro r t ⟨calm, rfl, I', links', count⟩
        have done := tail t calm I' links' count
        simp only [wp_bind, wp_getCache, after_ok] at done
        exact done
      · have done := tail s (.refl ..) I rfl rfl
        simp only [wp_bind, wp_getCache, after_ok] at done
        exact done

theorem calm_syncLru (I : Inv s.cache held store) (pick : Buf → Bool) (flags : Nat) :
    wp (syncFrom io pick flags s.cache.count s.cache.lru.first) (fun _ t => Calm store s t) s := by
  obtain ⟨chains, lru, T⟩ := I.tables
  rw [T.lruLinked.first]
  exact calm_syncFrom writes pick flags T.lruLinked lru [] s.cache.count s rfl
    (fun b mem => ((T.lruMem b).mp mem).1) rfl I

end

theorem Calm.bind (first : wp m (fun _ t => Calm store s t) s)
    (next : ∀ (t : Logged) a, Stable (Still t.log t.cache.disk) (f a)) :
    wp (m >>= f) (fun _ t => Calm store s t) s := by
  rw [wp_bind]
  refine wp_mono first ?_
  rintro (a | e | _) t calm
  · exact calm.rest (next t a)
  · exact calm
  · exact calm

theorem calm_close (writes : io.Writes) (I : Inv s.cache held store) :
    wp (blkClose io dev) (fun _ t => Calm store s t) s := by
  have last : ∀ t : Logged, Stable (Still t.log t.cache.disk)
      (onCache (modify fun c => { c with users := update c.users dev (c.users dev - 1) })) := fun t =>
    still_onCache (stable_modify fun _ same => same)
  simp only [blkClose, wp_bind, wp_getCache, after_ok]
  split
  · exact .refl ..
  · split
    · rw [blkSyncdev]
      refine Calm.bind (calm_syncLru writes I _ _) fun t _ => ?_
      exact stable_bind (still_onCache (keeps_disk_ask _ _)) fun _ => last t
    · exact wp_still (last s)

theorem calm_runReq (writes : io.Writes) (I : Inv s.cache held store) (req : Req) :
    wp (runReq io req) (fun _ t => Calm store s t) s := by
  have answer : ∀ (t : Logged) (b : Nat), Stable (Still t.log t.cache.disk) (do
      let c ← getCache
      pure (Answer.buffer b (c.bufs b).data) : LogM Answer) := fun t b =>
    stable_bind (still_onCache stable_get) fun _ => stable_pure _
  have plain : ∀ {m : BlkM Unit}, (∀ disk, Stable (fun c => c.disk = disk) m) →
      wp (do onCache m; pure Answer.done : LogM Answer) (fun _ t => Calm store s t) s := fun keeps =>
    wp_still (stable_bind (still_onCache (keeps _)) fun _ => stable_pure _)
  cases req with
  | read dev nr => exact Calm.bind (calm_read writes I) answer
  | get dev nr => exact Calm.bind (calm_get writes I) answer
  | fill h data => exact plain fun _ => stable_modify fun _ same => same
  | put h => exact plain fun _ => keeps_disk_put _ _
  | pread dev nr off len =>
    refine Calm.bind (Calm.bind (calm_read writes I) fun t b => ?_) fun _ _ => stable_pure _
    refine stable_bind (still_onCache stable_get) fun _ => ?_
    exact stable_bind (still_onCache (keeps_disk_put _ _)) fun _ => stable_pure _
  | pwrite dev nr off buf =>
    refine Calm.bind ?_ fun _ _ => stable_pure _
    have rest : ∀ (t : Logged) (b : Nat), Stable (Still t.log t.cache.disk) (do
        let c ← getCache
        onCache (blkFill b (poke (c.bufs b).data off buf))
        onCache (blkPut b)) := by
      intro t b
      refine stable_bind (still_onCache stable_get) fun _ => ?_
      exact stable_bind (still_onCache (stable_modify fun _ same => same)) fun _ =>
        still_onCache (keeps_disk_put _ _)
    rw [blkPwrite]
    split
    · exact Calm.bind (calm_read writes I) rest
    · exact Calm.bind (calm_get writes I) rest
  | add m count => exact plain fun _ => keeps_disk_add _ _ _
  | syncdev dev flags => exact Calm.bind (calm_syncLru writes I _ flags) fun _ _ => stable_pure _
  | syncall flags => exact Calm.bind (calm_syncLru writes I _ flags) fun _ _ => stable_pure _
  | «open» dev => exact plain fun _ => keeps_disk_open _ _
  | close dev => exact Calm.bind (calm_close writes I) fun _ _ => stable_pure _

end Calm

end Block.Writes
