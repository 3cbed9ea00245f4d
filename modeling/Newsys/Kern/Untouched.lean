import Newsys.Kern.Writes

/- A device at which no caller of the buffer cache stores anything: its buffers stay clean, and its `write` is never
   called (kern/block.c). -/
namespace Block.Untouched
open Bytes Cmds Cmd Kern Writes Buffers

def runOp (io : Io) : Op → LogM Answer
  | .call req => runReq io req
  | .edit h data valid dirty => do
    onCache (modify (setBuf h.buf fun x => { x with data := data, valid := valid, dirty := dirty }))
    pure .done
  | .write h => do
    Writes.blkWrite io h.buf
    pure .done

def StoresIn (dev : Nat) : Op → Prop
  | .call (.fill h _) => h.dev = dev
  | .call (.pwrite dev' _ _ _) => dev' = dev
  | .edit h _ _ dirty => dirty = true ∧ h.dev = dev
  | _ => False

def CleanBufs (dev : Nat) (c : Cache) : Prop := ∀ b, (c.bufs b).dirty = true → (c.bufs b).dev ≠ dev

/-- No buffer of the device is dirty, and the device has not been written. -/
structure Clean (dev : Nat) (s : Logged) : Prop where
  bufs : CleanBufs dev s.cache
  log : ∀ mo ∈ s.log, mo.dev ≠ dev

section Functions
variable {io : Io} {dev b : Nat} {s : Logged} {held : List Handle} {α : Type}

theorem mirrors_runOp (op : Op) : Mirrors Logged.cache (runOp io op) (op.run io) := by
  cases op with
  | call req => exact mirrors_runReq req
  | edit h data valid dirty => exact mirrors_bind (mirrors_onCache _) fun _ => mirrors_pure _
  | write h => exact mirrors_bind (mirrors_write _) fun _ => mirrors_pure _

theorem clean_onCache (all : Stable (CleanBufs dev) m) : Stable (Clean dev) (onCache m) :=
  fun s clean => ⟨all s.cache clean.bufs, clean.log⟩

theorem clean_setBuf (clean : CleanBufs dev c)
    (here : (f (c.bufs b)).dirty = true → (f (c.bufs b)).dev ≠ dev) : CleanBufs dev (setBuf b f c) := by
  intro x
  by_cases eq : x = b
  · simp only [setBuf, eq, Function.update_self]
    exact here
  · simp only [setBuf, Function.update_of_ne eq]
    exact clean x

theorem clean_modify (dirty : ∀ x, (f x).dirty = x.dirty) (same : ∀ x, (f x).dev = x.dev) :
    Stable (CleanBufs dev) (modify (setBuf b f) : BlkM Unit) := by
  refine stable_modify fun c clean => clean_setBuf clean ?_
  rw [dirty, same]
  exact clean b

theorem clean_ask (oracle : Nat → Option Errno) : Stable (CleanBufs dev) (ask oracle) := by
  intro c clean
  unfold ask
  split <;> exact clean

theorem clean_hold (b : Nat) : Stable (CleanBufs dev) (blkHold b) := by
  unfold blkHold
  refine stable_bind stable_get fun c => ?_
  have rest : Stable (CleanBufs dev) (do
      modify (setBuf b fun x => { x with refcnt := x.refcnt + 1 })
      pure b : BlkM Nat) := stable_bind (clean_modify (fun _ => rfl) fun _ => rfl) fun _ => stable_pure b
  split
  · exact stable_bind (stable_modify fun _ clean => clean) fun _ => rest
  · exact rest

theorem clean_put (b : Nat) : Stable (CleanBufs dev) (blkPut b) := by
  unfold blkPut
  refine stable_bind stable_get fun c => ?_
  split
  · exact stable_crash
  · refine stable_bind (clean_modify (fun _ => rfl) fun _ => rfl) fun _ => ?_
    split
    · exact stable_modify fun _ clean => clean
    · exact stable_pure _

theorem clean_load (b : Nat) : Stable (CleanBufs dev) (blkLoad io b) := by
  refine stable_bind (clean_ask _) fun _ => stable_modify fun c clean => clean_setBuf clean ?_
  exact clean b

theorem clean_open (dev' : Nat) : Stable (CleanBufs dev) (blkOpen io dev') := by
  unfold blkOpen
  refine stable_bind stable_get fun c => ?_
  split
  · exact stable_bind (clean_ask _) fun _ => stable_modify fun _ clean => clean
  · exact stable_modify fun _ clean => clean

theorem clean_add (m : Machine) (count : Nat) : Stable (CleanBufs dev) (blkAdd m io count) := by
  unfold blkAdd
  refine stable_bind stable_get fun c => ?_
  split
  · exact stable_fail _
  · split
    · exact stable_pure _
    · refine stable_bind (clean_ask _) fun _ => stable_bind (clean_ask _) fun _ => ?_
      split
      · exact stable_crash
      refine stable_modify fun c' clean b => ?_
      simp only [(Inv.addBufs_fields _ c').1]
      split
      · exact fun mark => by cases mark
      · exact clean b

theorem wp_write (clean : Clean dev s) : wp (Writes.blkWrite io b)
    (fun r t => Clean dev t ∧ (r ≠ .crash → (t.cache.bufs b).dirty = false)) s := by
  simp only [Writes.blkWrite, wp_bind, wp_getCache, after_ok]
  split
  · exact ⟨clean, fun returns => absurd rfl returns⟩
  split
  · rename_i mark
    refine ⟨clean, fun _ => ?_⟩
    show (s.cache.bufs b).dirty = false
    simpa using mark
  rename_i mark
  have other : (s.cache.bufs b).dev ≠ dev := clean.bufs b (by simpa using mark)
  have left : ∀ (disk : Disks) (tick : Nat) (log : List Moment), (∀ mo ∈ log, mo.dev ≠ dev) →
      let c := setBuf b (fun x => { x with dirty := false }) s.cache
      Clean dev ⟨{ c with disk := disk, tick := tick }, log⟩ ∧ (c.bufs b).dirty = false := by
    intro disk tick log fine
    refine ⟨⟨?_, fine⟩, ?_⟩
    · exact clean_setBuf (f := fun x => { x with dirty := false }) clean.bufs fun h => by cases h
    · simp only [setBuf, Function.update_self]
  have noted : ∀ c : Cache, ∀ mo ∈ (⟨(s.cache.bufs b).dev, (s.cache.bufs b).nr, c⟩ : Moment) :: s.log, mo.dev ≠ dev := by
    intro c mo mem
    rcases List.mem_cons.mp mem with rfl | old
    · exact other
    · exact clean.log mo old
  simp only [wp_bind, wp_onCache, wp_modify, after_ok, wp_attempt, devWrite]
  apply Buffers.wp_ask
  · simp only [after_ok, wp_modify, caught_ok, note, wp_bind]
    obtain ⟨done, off⟩ := left _ _ _ (noted _)
    exact ⟨done, fun _ => off⟩
  · intro e
    simp only [after_err, caught_err, note, wp_bind, wp_modify, after_ok]
    obtain ⟨done, off⟩ := left _ _ _ (noted _)
    exact ⟨done, fun _ => off⟩

theorem clean_write (b : Nat) : Stable (Clean dev) (Writes.blkWrite io b) := fun _ clean => (wp_write clean).1

theorem clean_recycle (b dev' nr : Nat) : Stable (Clean dev) (Writes.blkRecycle io b dev' nr) := by
  intro s clean
  have rest : ∀ t : Logged, Clean dev t → (t.cache.bufs b).dirty = false → wp (do
      onCache (modify (setBuf b fun x => { x with refcnt := 1, dev := dev', nr := nr, valid := false }))
      onCache (modify (chainPre (nr % 64) b))
      pure b) (fun _ u => Clean dev u) t := by
    intro t clean mark
    refine ⟨?_, clean.log⟩
    refine clean_setBuf (f := fun x => { x with refcnt := 1, dev := dev', nr := nr, valid := false }) clean.bufs ?_
    simp only [mark]
    exact fun h => by cases h
  have start : Clean dev { s with cache := lruRm b (chainRm ((s.cache.bufs b).nr % 64) b s.cache) } :=
    ⟨clean.bufs, clean.log⟩
  show wp (Writes.blkRecycle io b dev' nr) (fun _ t => Clean dev t) s
  simp only [Writes.blkRecycle, wp_bind, wp_getCache, after_ok, wp_onCache, wp_modify] at rest ⊢
  cases mark : (s.cache.bufs b).dirty with
  | false =>
    simp only [Bool.false_eq_true, if_false]
    exact rest _ start mark
  | true =>
    simp only [if_true, wp_bind, wp_attempt]
    refine wp_mono (wp_write start) ?_
    rintro (_ | e | _) t ⟨clean', off⟩
    · exact rest t clean' (off fun h => by cases h)
    · exact rest t clean' (off fun h => by cases h)
    · exact clean'

theorem clean_get (dev' nr : Nat) : Stable (Clean dev) (Writes.blkGet io dev' nr) := by
  refine stable_bind (clean_onCache stable_get) fun c => ?_
  cases blkScan c dev' nr c.count (c.lists (nr % 64)).first with
  | none => exact stable_crash
  | some found =>
    cases found with
    | some b => exact clean_onCache (clean_hold b)
    | none =>
      cases c.lru.first with
      | none => exact stable_fail _
      | some b => exact clean_recycle b dev' nr

theorem clean_read (dev' nr : Nat) : Stable (Clean dev) (Writes.blkRead io dev' nr) := by
  refine stable_bind (clean_get dev' nr) fun b => stable_bind (clean_onCache stable_get) fun c => ?_
  split
  · exact stable_pure b
  · refine stable_bind (stable_onError ?_ ?_) fun _ => stable_pure b
    · exact clean_onCache (clean_load b)
    · exact clean_onCache (clean_put b)

theorem clean_sync (flags b : Nat) : Stable (Clean dev) (Writes.blkSync io flags b) := by
  have rest : Stable (Clean dev) (do
      let c ← getCache
      if flags &&& syncInvalidate ≠ 0 ∧ !(c.bufs b).dirty then
        onCache (modify (setBuf b fun x => { x with valid := false }))
      else pure ()) := by
    refine stable_bind (clean_onCache stable_get) fun c => ?_
    split
    · exact clean_onCache (clean_modify (fun _ => rfl) fun _ => rfl)
    · exact stable_pure _
  refine stable_bind (clean_onCache stable_get) fun c => ?_
  split
  · exact stable_bind (stable_attempt (clean_write b)) fun _ => rest
  · exact rest

theorem clean_syncFrom (pick : Buf → Bool) (flags : Nat) : ∀ (n : Nat) (p : Option Nat),
    Stable (Clean dev) (Writes.syncFrom io pick flags n p) := by
  intro n
  induction n with
  | zero =>
    rintro (_ | b)
    · exact stable_pure _
    · exact stable_crash
  | succ n ih =>
    rintro (_ | b)
    · exact stable_pure _
    · have rest : Stable (Clean dev) (do
          let c ← getCache
          Writes.syncFrom io pick flags n (c.lruItem b).next) :=
        stable_bind (clean_onCache stable_get) fun c => ih _
      refine stable_bind (clean_onCache stable_get) fun c => ?_
      split
      · exact stable_bind (clean_sync flags b) fun _ => rest
      · exact rest

theorem clean_close (dev' : Nat) : Stable (Clean dev) (Writes.blkClose io dev') := by
  have last : Stable (Clean dev)
      (onCache (modify fun c => { c with users := Function.update c.users dev' (c.users dev' - 1) })) :=
    clean_onCache (stable_modify fun _ clean => clean)
  refine stable_bind (clean_onCache stable_get) fun c => ?_
  split
  · exact stable_crash
  · split
    · refine stable_bind (stable_bind (clean_onCache stable_get) fun c => clean_syncFrom _ _ _ _) fun _ => ?_
      exact stable_bind (clean_onCache (clean_ask _)) fun _ => last
    · exact last

section
variable (R : Rep s.cache held)
include R

theorem wp_got (dev nr : Nat) : wp (Writes.blkGet io dev nr)
    (fun r t => ∀ b, r = .ok b → (t.cache.bufs b).dev = dev) s := by
  refine (mirrors_get dev nr).wp (Q := fun r c => ∀ b, r = .ok b → (c.bufs b).dev = dev) ?_
  apply Buffers.wp_get R
  · rintro b c R' _ ⟨⟩
    exact (R'.keys _ (List.mem_cons_self ..)).2.1
  · intro _ b h
    cases h

theorem wp_had (dev nr : Nat) : wp (Writes.blkRead io dev nr)
    (fun r t => ∀ b, r = .ok b → (t.cache.bufs b).dev = dev) s := by
  refine (mirrors_read dev nr).wp (Q := fun r c => ∀ b, r = .ok b → (c.bufs b).dev = dev) ?_
  apply Buffers.wp_read R
  · rintro b c R' _ ⟨⟩
    exact (R'.keys _ (List.mem_cons_self ..)).2.1
  · intro e c _ b h
    cases h

theorem clean_pwrite (clean : Clean dev s) (other : dev' ≠ dev) (nr off : Nat)
    (buf : List Byte) : Clean dev (Writes.blkPwrite io dev' nr off buf s).2 := by
  have rest : ∀ t b, Clean dev t → (t.cache.bufs b).dev = dev' → wp (do
      let c ← getCache
      onCache (blkFill b (poke (c.bufs b).data off buf))
      onCache (blkPut b)) (fun _ u => Clean dev u) t := by
    intro t b clean key
    simp only [wp_bind, wp_getCache, after_ok, wp_onCache, blkFill, wp_modify]
    refine ⟨clean_put b _ ?_, clean.log⟩
    refine clean_setBuf clean.bufs fun _ => ?_
    simp only [key]
    exact other
  have got : ∀ m : LogM Nat, Stable (Clean dev) m →
      wp m (fun r t => ∀ b, r = .ok b → (t.cache.bufs b).dev = dev') s → wp (m >>= fun b => do
        let c ← getCache
        onCache (blkFill b (poke (c.bufs b).data off buf))
        onCache (blkPut b)) (fun _ u => Clean dev u) s := by
    intro m all key
    rw [wp_bind]
    refine wp_mono (wp_and (Q := fun _ t => Clean dev t) (all s clean) key) ?_
    rintro (b | e | _) t ⟨clean', key'⟩
    · exact rest t b clean' (key' b rfl)
    · exact clean'
    · exact clean'
  show wp (Writes.blkPwrite io dev' nr off buf) (fun _ t => Clean dev t) s
  rw [Writes.blkPwrite]
  split
  · exact got _ (clean_read dev' nr) (wp_had R dev' nr)
  · exact got _ (clean_get dev' nr) (wp_got R dev' nr)

theorem clean_runOp (clean : Clean dev s) (allowed : op.Allowed ⟨s.cache, held⟩)
    (elsewhere : ¬ StoresIn dev op) : Clean dev (runOp io op s).2 := by
  have answer : ∀ b : Nat, Stable (Clean dev) (do
      let c ← getCache
      pure (Answer.buffer b (c.bufs b).data) : LogM Answer) := fun b =>
    stable_bind (clean_onCache stable_get) fun _ => stable_pure _
  have plain : ∀ {m : BlkM Unit}, Stable (CleanBufs dev) m →
      Stable (Clean dev) (do onCache m; pure Answer.done : LogM Answer) := fun all =>
    stable_bind (clean_onCache all) fun _ => stable_pure _
  have done : ∀ {β : Type} {m : LogM β} (f : β → Answer), Clean dev (m s).2 →
      Clean dev ((m >>= fun x => pure (f x)) s).2 := by
    intro β m f after
    show wp (m >>= fun x => pure (f x)) (fun _ t => Clean dev t) s
    rw [wp_bind]
    refine wp_mono (Q := fun _ t => Clean dev t) after ?_
    rintro (_ | _ | _) t clean' <;> exact clean'
  cases op with
  | call req =>
    cases req with
    | read dev' nr => exact stable_bind (clean_read dev' nr) answer s clean
    | get dev' nr => exact stable_bind (clean_get dev' nr) answer s clean
    | fill h data =>
      have key : (s.cache.bufs h.buf).dev ≠ dev := by
        rw [(R.keys h allowed).2.1]
        exact elsewhere
      exact ⟨clean_setBuf (f := fun x => { x with data := data, dirty := true, valid := true }) clean.bufs fun _ => key,
        clean.log⟩
    | put h => exact plain (clean_put h.buf) s clean
    | pread dev' nr off len =>
      refine stable_bind (stable_bind (clean_read dev' nr) fun b => ?_) (fun _ => stable_pure _) s clean
      refine stable_bind (clean_onCache stable_get) fun _ => ?_
      exact stable_bind (clean_onCache (clean_put b)) fun _ => stable_pure _
    | pwrite dev' nr off buf => exact done _ (clean_pwrite R clean elsewhere nr off buf)
    | add m count => exact plain (clean_add m count) s clean
    | syncdev dev' flags =>
      exact stable_bind (stable_bind (clean_onCache stable_get) fun c => clean_syncFrom _ _ _ _)
        (fun _ => stable_pure _) s clean
    | syncall flags =>
      exact stable_bind (stable_bind (clean_onCache stable_get) fun c => clean_syncFrom _ _ _ _)
        (fun _ => stable_pure _) s clean
    | «open» dev' => exact plain (clean_open dev') s clean
    | close dev' => exact stable_bind (clean_close dev') (fun _ => stable_pure _) s clean
  | edit h data valid dirty =>
    have key : dirty = true → (s.cache.bufs h.buf).dev ≠ dev := by
      rw [(R.keys h allowed.1).2.1]
      exact fun mark same => elsewhere ⟨mark, same⟩
    exact ⟨clean_setBuf (f := fun x => { x with data := data, valid := valid, dirty := dirty }) clean.bufs key, clean.log⟩
  | write h => exact stable_bind (clean_write h.buf) (fun _ => stable_pure _) s clean

end

end Functions

/-- The cache with the calls of the devices so far, and the references that are out. -/
structure World where
  logged : Logged
  held : List Handle

def World.next (w : World) (io : Io) (op : Op) : World :=
  let out := runOp io op w.logged
  ⟨out.2, op.held w.held out.1⟩

/-- Any calls of the cache one after the other, on devices that do as they like, each of which is one of `P`. -/
inductive Run (P : Op → Prop) (w : World) : World → Prop where
  | refl : Run P w w
  | step {v : World} (io : Io) (op : Op) : Run P w v → op.Allowed ⟨v.logged.cache, v.held⟩ → P op → Run P w (v.next io op)

theorem Run.clean (run : Run P w v) (R : Rep w.logged.cache w.held)
    (elsewhere : ∀ op, P op → ¬ StoresIn dev op) (clean : Clean dev w.logged) :
    Rep v.logged.cache v.held ∧ Clean dev v.logged := by
  induction run with
  | refl => exact ⟨R, clean⟩
  | step io op _ allowed mine ih =>
    obtain ⟨R', clean'⟩ := ih
    refine ⟨?_, clean_runOp R' clean' allowed (elsewhere op mine)⟩
    have same : Mirrors Logged.cache (runOp io op) (op.run io) := mirrors_runOp op
    have rule := same.wp (op.rule R' io allowed)
    exact rule.2

theorem clean_init (dev n : Nat) (disk : Disks) : Clean dev ⟨blkInit n disk, []⟩ := by
  refine ⟨fun b mark => ?_, fun mo mem => by cases mem⟩
  rw [(blkInit_fields n disk).1] at mark
  cases mark

end Block.Untouched
