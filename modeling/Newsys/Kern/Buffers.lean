import Newsys.Kern.Cache

/- The lists of the buffer cache on devices that may refuse any request (kern/block.c, lib/list.c):
   each block has at most one buffer, each buffer that stands for a block can be found, and the
   calls run into none of their panics. -/
namespace Block.Buffers
open Bytes Cmds Cmd Chains Kern Function List

section Rules
variable {io : Io} {c : Cache} {held : List Handle} {b dev nr : Nat}

theorem clock (R : Rep c held) (users : Nat → Nat) (disk : Disks) (tick : Nat) :
    Rep { c with users := users, disk := disk, tick := tick } held :=
  R.rebuffer rfl rfl rfl rfl rfl (fun _ => ⟨rfl, rfl, rfl⟩) (fun _ _ => .inr) R.dirty

theorem flags (R : Rep c held) (x : Buf)
    (keys : x.refcnt = (c.bufs b).refcnt ∧ x.dev = (c.bufs b).dev ∧ x.nr = (c.bufs b).nr)
    (active : x.valid = true → (c.bufs b).active) (dirty : x.dirty = true → x.valid = true) :
    Rep { c with bufs := update c.bufs b x } held := by
  refine R.rebuffer rfl rfl rfl rfl rfl ?_ ?_ ?_
  · intro y
    by_cases eq : y = b
    · simp only [eq, update_self]
      exact keys
    · have value : update c.bufs b x y = c.bufs y := update_of_ne eq ..
      exact ⟨congrArg Buf.refcnt value, congrArg Buf.dev value, congrArg Buf.nr value⟩
  · intro y _
    by_cases eq : y = b
    · simp only [eq, update_self]
      exact active
    · simp only [update_of_ne eq]
      exact .inr
  · intro y lt
    by_cases eq : y = b
    · simp only [eq, update_self]
      exact dirty
    · simp only [update_of_ne eq]
      exact R.dirty y lt

variable {Q : Res Errno Unit → Cache → Prop}

theorem wp_ask (ok : Q (.ok ()) { c with tick := c.tick + 1 })
    (failed : ∀ e, Q (.err e) { c with tick := c.tick + 1 }) : wp (ask oracle) Q c := by
  rw [wp, ask]
  split
  · exact failed _
  · exact ok

theorem wp_write (valid : (c.bufs b).valid = true) (post : ∀ r disk tick, r ≠ .crash → Q r { c with
      bufs := update c.bufs b { c.bufs b with dirty := false }, disk := disk, tick := tick }) :
    wp (blkWrite io b) Q c := by
  simp only [blkWrite, wp_bind, wp_get, after_ok, valid, Bool.not_true, Bool.false_eq_true, if_false]
  cases mark : (c.bufs b).dirty with
  | false =>
    have same : update c.bufs b { c.bufs b with dirty := false } = c.bufs := by
      rw [← mark, update_eq_self]
    have out := post (.ok ()) c.disk c.tick (fun h => by cases h)
    rw [same] at out
    exact out
  | true =>
    simp only [Bool.not_true, Bool.false_eq_true, if_false, wp_bind, wp_modify, after_ok]
    apply wp_ask
    · exact post (.ok ()) _ _ (fun h => by cases h)
    · exact fun e => post (.err e) _ _ (fun h => by cases h)

section
variable (R : Rep c held)
include R

theorem wp_hold (lt : b < c.count) (here : (c.bufs b).isFor dev nr)
    {Q : Res Errno Nat → Cache → Prop}
    (post : ∀ c', Rep c' (⟨b, dev, nr⟩ :: held) → Q (.ok b) c') : wp (blkHold b) Q c := by
  have out := R.hold lt here
  simp only [blkHold, wp_bind, wp_get, after_ok]
  split at out <;> rename_i ref
  · simp only [if_pos ref, wp_bind, wp_modify, after_ok, wp_pure]
    exact post _ out
  · simp only [if_neg ref, wp_bind, wp_modify, after_ok, wp_pure]
    exact post _ out

theorem wp_recycle {chains : Nat → List Nat} {lru : List Nat} (T : Tables c chains lru)
    (mem : b ∈ lru) (absent : ∀ x, x < c.count → ¬ (c.bufs x).isFor dev nr) {Q : Res Errno Nat → Cache → Prop}
    (post : ∀ c', Rep c' (⟨b, dev, nr⟩ :: held) → Q (.ok b) c') : wp (blkRecycle io b dev nr) Q c := by
  simp only [blkRecycle, wp_bind, wp_get, wp_modify, after_ok]
  cases mark : (c.bufs b).dirty with
  | true =>
    have valid := R.dirty b ((T.lruMem b).mp mem).1 mark
    simp only [if_true, wp_bind, wp_attempt]
    apply wp_write (c := lruRm b (chainRm ((c.bufs b).nr % 64) b c)) valid
    intro r disk tick returns
    have out : ∀ d : Cache, d = { lruRm b (chainRm ((c.bufs b).nr % 64) b c) with
        bufs := update c.bufs b { c.bufs b with dirty := false }, disk := disk, tick := tick } →
        wp (do
          modify (setBuf b fun x => { x with refcnt := 1, dev := dev, nr := nr, valid := false })
          modify (chainPre (nr % 64) b)
          pure b) Q d := by
      intro d eq
      subst eq
      simp only [wp_bind, wp_modify, after_ok, wp_pure]
      apply post
      refine R.recycle T (c.bufs b).data mem absent rfl ?_ rfl rfl rfl rfl
      simp only [setBuf, chainPre, update_self, update_idem]
    cases r with
    | ok _ => exact out _ rfl
    | err _ => exact out _ rfl
    | crash => exact absurd rfl returns
  | false =>
    simp only [Bool.false_eq_true, if_false, wp_pure, after_ok, wp_bind, wp_modify]
    apply post
    refine R.recycle T (c.bufs b).data mem absent rfl ?_ rfl rfl rfl rfl
    simp only [setBuf, chainPre, lruRm, chainRm, mark]

theorem wp_get {Q : Res Errno Nat → Cache → Prop}
    (done : ∀ b c', Rep c' (⟨b, dev, nr⟩ :: held) → Q (.ok b) c')
    (full : (∀ b, b < c.count → (c.bufs b).refcnt ≠ 0) → Q (.err .ENOMEM) c) :
    wp (blkGet io dev nr) Q c := by
  obtain ⟨chains, lru, T⟩ := R.tables
  simp only [blkGet, wp_bind, Cmd.wp_get, after_ok]
  rcases T.scan dev nr with ⟨b, scan, lt, here⟩ | ⟨scan, absent⟩
  · rw [scan]
    exact wp_hold R lt here fun c' R' => done b c' R'
  · rw [scan]
    cases first : c.lru.first with
    | none =>
      refine full fun b lt idle => ?_
      have mem := (T.lruMem b).mpr ⟨lt, idle⟩
      rw [T.lruLinked.eq_nil first] at mem
      cases mem
    | some b => exact wp_recycle R T (T.lruLinked.first_mem first) absent fun c' R' => done b c' R'

theorem wp_put (mem : h ∈ held)
    (post : ∀ c', Rep c' (held.erase h) → Q (.ok ()) c') : wp (blkPut h.buf) Q c := by
  have dropped := R.drop mem
  simp only [blkPut, wp_bind, Cmd.wp_get, after_ok, if_neg (R.held_refcnt mem), wp_modify]
  by_cases last : (c.bufs h.buf).refcnt = 1
  · rw [if_pos last] at dropped
    simp only [if_pos last]
    exact post _ dropped
  · rw [if_neg last] at dropped
    simp only [if_neg last]
    exact post _ dropped

theorem edit (mem : h ∈ held) (data : Blk) (valid dirty : Bool)
    (marks : dirty = true → valid = true) : Rep (setBuf h.buf (fun x => { x with data := data, valid := valid, dirty := dirty }) c) held :=
  flags R _ ⟨rfl, rfl, rfl⟩ (fun _ => .inl (R.held_refcnt mem)) marks

theorem wp_read {Q : Res Errno Nat → Cache → Prop}
    (done : ∀ b c', Rep c' (⟨b, dev, nr⟩ :: held) → Q (.ok b) c')
    (failed : ∀ e c', Rep c' held → Q (.err e) c') : wp (blkRead io dev nr) Q c := by
  rw [blkRead, wp_bind]
  apply wp_get R
  · intro b c' R'
    have mem : (⟨b, dev, nr⟩ : Handle) ∈ ⟨b, dev, nr⟩ :: held := mem_cons_self ..
    simp only [after_ok, wp_bind, Cmd.wp_get]
    cases valid : (c'.bufs b).valid with
    | true => exact done b c' R'
    | false =>
      simp only [Bool.false_eq_true, if_false, wp_bind, wp_onError, blkLoad]
      have later := clock R' c'.users c'.disk (c'.tick + 1)
      apply wp_ask
      · simp only [after_ok, wp_modify, recovered_ok, wp_pure]
        refine done b _ (flags later _ ⟨rfl, rfl, rfl⟩ (fun _ => .inl (R'.held_refcnt mem)) fun _ => rfl)
      · intro e
        rw [after_err, recovered_err]
        apply wp_put (h := ⟨b, dev, nr⟩) later mem
        intro d R''
        rw [erase_cons_head] at R''
        exact failed e d R''
  · exact fun _ => failed _ c R

theorem wp_pread {Q : Res Errno (List Byte) → Cache → Prop}
    (post : ∀ r c', r ≠ .crash → Rep c' held → Q r c') : wp (blkPread io dev nr off len) Q c := by
  rw [blkPread, wp_bind]
  apply wp_read R
  · intro b c' R'
    simp only [after_ok, wp_bind, Cmd.wp_get]
    apply wp_put (h := ⟨b, dev, nr⟩) R' (mem_cons_self ..)
    intro d R''
    rw [erase_cons_head] at R''
    exact post _ d (fun h => by cases h) R''
  · exact fun e c' R' => post _ c' (fun h => by cases h) R'

theorem wp_pwrite
    (post : ∀ r c', r ≠ .crash → Rep c' held → Q r c') : wp (blkPwrite io dev nr off buf) Q c := by
  have rest : ∀ b c', Rep c' (⟨b, dev, nr⟩ :: held) → wp (do
      let c ← get
      blkFill b (poke (c.bufs b).data off buf)
      blkPut b) Q c' := by
    intro b c' R'
    have mem : (⟨b, dev, nr⟩ : Handle) ∈ ⟨b, dev, nr⟩ :: held := mem_cons_self ..
    simp only [wp_bind, wp_get, after_ok, blkFill, wp_modify]
    apply wp_put (h := ⟨b, dev, nr⟩) (edit R' mem (poke (c'.bufs b).data off buf) true true id) mem
    intro d R''
    rw [erase_cons_head] at R''
    exact post _ d (fun h => by cases h) R''
  rw [blkPwrite]
  split
  · rw [wp_bind]
    exact wp_read R rest fun e c' R' => post _ c' (fun h => by cases h) R'
  · rw [wp_bind]
    exact wp_get R rest fun _ => post _ c (fun h => by cases h) R

theorem wp_sync (lt : b < c.count) (flag : Nat)
    (post : ∀ c', Rep c' held → c'.lruItem = c.lruItem → c'.count = c.count → Q (.ok ()) c') :
    wp (blkSync io flag b) Q c := by
  have rest : ∀ c', Rep c' held → c'.lruItem = c.lruItem → c'.count = c.count → wp (do
      let c ← Cmd.get
      if flag &&& syncInvalidate ≠ 0 ∧ !(c.bufs b).dirty then
        Cmd.modify (setBuf b fun x => { x with valid := false })
      else pure ()) Q c' := by
    intro c' R' links count
    simp only [wp_bind, Cmd.wp_get, after_ok]
    split
    · rename_i asked
      have clean : (c'.bufs b).dirty = false := by simpa using asked.2
      refine post _ (flags R' _ ⟨rfl, rfl, rfl⟩ (fun h => by cases h) ?_) links count
      intro mark
      rw [clean] at mark
      cases mark
    · exact post c' R' links count
  simp only [blkSync, wp_bind, Cmd.wp_get, after_ok]
  split
  · rename_i asked
    have valid := R.dirty b lt asked.2
    simp only [wp_bind, wp_attempt]
    apply wp_write valid
    intro r disk tick returns
    have written : Rep { c with
        bufs := update c.bufs b { c.bufs b with dirty := false }, disk := disk, tick := tick } held :=
      clock (flags R { c.bufs b with dirty := false } ⟨rfl, rfl, rfl⟩ .inr fun h => by cases h) c.users disk tick
    cases r with
    | ok _ => exact rest _ written rfl rfl
    | err _ => exact rest _ written rfl rfl
    | crash => exact absurd rfl returns
  · exact rest c R rfl rfl

end

theorem wp_syncLru (R : Rep c held) (pick : Buf → Bool) (flag : Nat)
    (post : ∀ c', Rep c' held → Q (.ok ()) c') : wp (syncFrom io pick flag c.count c.lru.first) Q c :=
  Block.wp_syncLru Rep.tables pick flag (fun R lt post => wp_sync R lt flag post) R post

theorem wp_close (R : Rep c held) (used : c.users dev ≠ 0)
    (post : ∀ r c', r ≠ .crash → Rep c' held → Q r c') : wp (blkClose io dev) Q c := by
  simp only [blkClose, wp_bind, Cmd.wp_get, after_ok, if_neg used]
  split
  · simp only [wp_bind, blkSyncdev, Cmd.wp_get, after_ok]
    apply wp_syncLru R
    intro c' R'
    simp only [after_ok, wp_bind]
    apply wp_ask
    · exact post _ _ (fun h => by cases h) (clock R' _ c'.disk _)
    · exact fun e => post _ _ (fun h => by cases h) (clock R' c'.users c'.disk _)
  · exact post _ _ (fun h => by cases h) (clock R _ c.disk c.tick)

theorem wp_add (R : Rep c held) (m : Machine) (count : Nat)
    (post : ∀ r c', (r = .crash → ¬ (Req.add m count).Fits c) → Rep c' held → Q r c') :
    wp (blkAdd m io count) Q c := by
  simp only [blkAdd, wp_bind, Cmd.wp_get, after_ok]
  split
  · exact post _ c (fun h => by cases h) R
  · rename_i few
    split
    · exact post _ c (fun h => by cases h) R
    · rename_i more
      simp only [wp_bind]
      apply wp_ask
      · simp only [after_ok, wp_bind]
        apply wp_ask
        · simp only [after_ok]
          split
          · rename_i tight
            refine post _ _ (fun _ fits => ?_) (clock R c.users c.disk _)
            obtain ⟨array, bufs⟩ := fits (by omega)
            have le := (room_iff ..).mpr array
            have le' := (room_iff ..).mpr bufs
            omega
          · have grown := (clock R c.users c.disk (c.tick + 1 + 1)).add (count - c.count)
            have total : c.count + (count - c.count) = count := by omega
            refine post _ _ (fun h => by cases h) ?_
            rw [total] at grown
            exact grown
        · exact fun e => post _ _ (fun h => by cases h) (clock R c.users c.disk _)
      · exact fun e => post _ _ (fun h => by cases h) (clock R c.users c.disk _)

theorem wp_open (R : Rep c held) (post : ∀ r c', r ≠ .crash → Rep c' held → Q r c') : wp (blkOpen io dev) Q c := by
  simp only [blkOpen, wp_bind, Cmd.wp_get, after_ok]
  split
  · rw [wp_bind]
    apply wp_ask
    · exact post _ _ (fun h => by cases h) (clock R _ c.disk _)
    · exact fun e => post _ _ (fun h => by cases h) (clock R c.users c.disk _)
  · exact post _ _ (fun h => by cases h) (clock R _ c.disk c.tick)

end Rules

/- Calls in any order -/

/-- A call of the cache, or something else that the holder of a buffer does with it. -/
inductive Op where
  | call (req : Req)
  | edit (h : Handle) (data : Blk) (valid dirty : Bool)
  | write (h : Handle)

structure State where
  cache : Cache
  held : List Handle

namespace Op

def run (io : Io) : Op → BlkM Answer
  | call req => req.run io
  | edit h data valid dirty => do
    modify (setBuf h.buf fun x => { x with data := data, valid := valid, dirty := dirty })
    pure .done
  | write h => do
    blkWrite io h.buf
    pure .done

/-- Callers put and change only buffers they hold, mark only valid ones as dirty, write only valid
    ones, and close only devices that are open. -/
def Allowed (s : State) : Op → Prop
  | call (.fill h _) | call (.put h) => h ∈ s.held
  | call (.close dev) => s.cache.users dev ≠ 0
  | call _ => True
  | edit h _ valid dirty => h ∈ s.held ∧ (dirty = true → valid = true)
  | write h => h ∈ s.held ∧ (s.cache.bufs h.buf).valid = true

/-- What the machine's numbers hold: the sizes that `blk_add` computes, and the counts of references and of users,
    which are `int`s. -/
def Fits (s : State) : Op → Prop
  | call (.add m count) => (Req.add m count).Fits s.cache
  | call (.read dev nr) | call (.get dev nr) | call (.pread dev nr _ _) | call (.pwrite dev nr _ _) =>
    ∀ b, b < s.cache.count → (s.cache.bufs b).isFor dev nr → (s.cache.bufs b).refcnt + 1 < 2 ^ 31
  | call (.open dev) => s.cache.users dev + 1 < 2 ^ 31
  | _ => True

def held (held : List Handle) : Op → Res Errno Answer → List Handle
  | call req, r => req.held held r
  | _, _ => held

theorem rule (R : Rep s.cache s.held) (io : Io) (op : Op) (allowed : op.Allowed s) :
    wp (op.run io) (fun r c => (r = .crash → ¬ op.Fits s) ∧ Rep c (op.held s.held r)) s.cache := by
  -- the calls that neither take a buffer nor give one back
  have keep : ∀ {α : Type} (a : α → Answer) (req : Req) (r : Res Errno α) (c : Cache),
      (∀ held r, req.held held r = held) → (r = .crash → ¬ (call req).Fits s) → Rep c s.held →
      after (fun x => (pure (a x) : BlkM Answer))
        (fun r c => (r = .crash → ¬ (call req).Fits s) ∧ Rep c (req.held s.held r)) r c := by
    intro α a req r c none outgrown R'
    cases r with
    | ok x =>
      refine ⟨fun h => (by cases h), ?_⟩
      rw [none]
      exact R'
    | err e =>
      refine ⟨fun h => (by cases h), ?_⟩
      rw [none]
      exact R'
    | crash =>
      refine ⟨fun _ => outgrown rfl, ?_⟩
      rw [none]
      exact R'
  cases op with
  | call req =>
    cases req with
    | read dev nr =>
      simp only [run, Req.run, wp_bind]
      apply wp_read R
      · exact fun b c' R' => ⟨fun h => (by cases h), R'⟩
      · exact fun e c' R' => ⟨fun h => (by cases h), R'⟩
    | get dev nr =>
      simp only [run, Req.run, wp_bind]
      apply wp_get R
      · exact fun b c' R' => ⟨fun h => (by cases h), R'⟩
      · exact fun _ => ⟨fun h => (by cases h), R⟩
    | fill h data => exact ⟨fun h => (by cases h), Buffers.edit R allowed data true true id⟩
    | put h =>
      simp only [run, Req.run, wp_bind]
      exact wp_put R allowed fun c' R' => ⟨fun h => (by cases h), R'⟩
    | pread dev nr off len =>
      simp only [run, Req.run, wp_bind]
      exact wp_pread R fun r c' returns => keep _ (.pread dev nr off len) r c' (fun _ _ => rfl) (absurd · returns)
    | pwrite dev nr off buf =>
      simp only [run, Req.run, wp_bind]
      exact wp_pwrite R fun r c' returns => keep _ (.pwrite dev nr off buf) r c' (fun _ _ => rfl) (absurd · returns)
    | add m count =>
      simp only [run, Req.run, wp_bind]
      exact wp_add R m count fun r c' => keep _ (.add m count) r c' fun _ _ => rfl
    | syncdev dev flag =>
      simp only [run, Req.run, wp_bind, blkSyncdev, Cmd.wp_get, after_ok]
      exact wp_syncLru R _ flag fun c' R' => ⟨fun h => (by cases h), R'⟩
    | syncall flag =>
      simp only [run, Req.run, wp_bind, blkSyncall, Cmd.wp_get, after_ok]
      exact wp_syncLru R _ flag fun c' R' => ⟨fun h => (by cases h), R'⟩
    | «open» dev =>
      simp only [run, Req.run, wp_bind]
      exact wp_open R fun r c' returns => keep _ (.open dev) r c' (fun _ _ => rfl) (absurd · returns)
    | close dev =>
      simp only [run, Req.run, wp_bind]
      exact wp_close R allowed fun r c' returns => keep _ (.close dev) r c' (fun _ _ => rfl) (absurd · returns)
  | edit h data valid dirty => exact ⟨fun h => (by cases h), Buffers.edit R allowed.1 data valid dirty allowed.2⟩
  | write h =>
    simp only [run, wp_bind]
    apply wp_write allowed.2
    intro r disk tick returns
    have R' : Rep { s.cache with
        bufs := update s.cache.bufs h.buf { s.cache.bufs h.buf with dirty := false }
        disk := disk, tick := tick } s.held :=
      clock (flags R { s.cache.bufs h.buf with dirty := false } ⟨rfl, rfl, rfl⟩ .inr fun h => by cases h)
        s.cache.users disk tick
    cases r with
    | ok _ => exact ⟨fun h => (by cases h), R'⟩
    | err e => exact ⟨fun h => (by cases h), R'⟩
    | crash => exact absurd rfl returns

end Op

def State.next (s : State) (io : Io) (op : Op) : State :=
  let out := op.run io s.cache
  ⟨out.2, op.held s.held out.1⟩

inductive Reached (cond : State → Op → Prop) : State → Prop where
  | init (n : Nat) (disk : Disks) : Reached cond ⟨blkInit n disk, []⟩
  | step {s : State} (io : Io) (op : Op) : Reached cond s → op.Allowed s → cond s op → Reached cond (s.next io op)

theorem Reached.rep {cond : State → Op → Prop} (reached : Reached cond s) : Rep s.cache s.held := by
  induction reached with
  | init n disk => exact (Inv.init n disk).rep
  | step io op _ allowed _ ih => exact (op.rule ih io allowed).2

/-- A reference that is new is the first one to its buffer, or one more to a buffer for the same block. -/
theorem taken_small (R : Rep c held) (R' : Rep c' (⟨b, dev, nr⟩ :: held))
    (small : ∀ x, held.countP (fun h => h.buf = x) < 2 ^ 31)
    (room : ∀ x, x < c.count → (c.bufs x).isFor dev nr → (c.bufs x).refcnt + 1 < 2 ^ 31) (x : Nat) :
    (⟨b, dev, nr⟩ :: held).countP (fun h => h.buf = x) < 2 ^ 31 := by
  rw [countP_cons]
  by_cases eq : b = x
  · subst eq
    simp only [decide_true, if_true]
    by_cases first : held.countP (fun h => h.buf = b) = 0
    · omega
    · obtain ⟨h, mem, here⟩ := countP_pos_iff.mp (Nat.pos_of_ne_zero first)
      have here : h.buf = b := by simpa using here
      obtain ⟨lt, devs, nrs⟩ := R.keys h mem
      obtain ⟨_, devs', nrs'⟩ := R'.keys _ (mem_cons_self ..)
      obtain ⟨_, old, old'⟩ := R'.keys h (mem_cons_of_mem _ mem)
      rw [here] at lt devs nrs old old'
      have held := R.held_refcnt mem
      rw [here] at held
      have more := room b lt ⟨.inl held, nrs.trans (old'.symm.trans nrs'), devs.trans (old.symm.trans devs')⟩
      rwa [R.refs b lt] at more
  · simpa [eq] using small x

theorem Reached.small (reached : Reached (fun s op => op.Fits s) s) :
    ∀ x, s.held.countP (fun h => h.buf = x) < 2 ^ 31 := by
  induction reached with
  | init n disk => exact fun x => Nat.two_pow_pos 31
  | step io op before allowed fits ih =>
    rename_i s
    have R := before.rep
    have R' := (op.rule R io allowed).2
    show ∀ x, (op.held s.held (op.run io s.cache).1).countP (fun h => h.buf = x) < 2 ^ 31
    cases op with
    | edit h data valid dirty => exact ih
    | write h => exact ih
    | call req =>
      have same : ∀ held, held = s.held → ∀ x, held.countP (fun h : Handle => h.buf = x) < 2 ^ 31 := by
        rintro _ rfl
        exact ih
      revert R'
      generalize (Op.run io (.call req) s.cache).2 = c'
      generalize (Op.run io (.call req) s.cache).1 = r
      cases req with
      | read dev nr | get dev nr =>
        intro R'
        rcases r with (_ | ⟨b, data⟩ | _) | e | _
        case ok.buffer => exact taken_small R R' ih fits
        all_goals exact ih
      | put h =>
        intro R' x
        rcases r with a | e | _
        · exact Nat.lt_of_le_of_lt ((erase_sublist ..).countP_le) (ih x)
        · exact ih x
        · exact ih x
      | _ => exact fun _ => ih

/-- The order in which the lists and the buffers of the cache stand. -/
structure Sound (c : Cache) : Prop where
  lru : ∃ l, Linked c.lru c.lruItem l ∧ l.Nodup ∧ ∀ b, b ∈ l ↔ b < c.count ∧ (c.bufs b).refcnt = 0
  chains : ∃ chains, Family c.lists c.listItem chains ∧
    ∀ b, b < c.count → (c.bufs b).active → b ∈ chains ((c.bufs b).nr % 64)
  unique : ∀ a b, a < c.count → b < c.count → (c.bufs a).active → (c.bufs b).active →
    (c.bufs a).dev = (c.bufs b).dev → (c.bufs a).nr = (c.bufs b).nr → a = b
  dirty : ∀ b, b < c.count → (c.bufs b).dirty = true → (c.bufs b).valid = true
  ends : c.lru.last = none → c.lru.first = none

theorem sound_of_rep (R : Rep c held) : Sound c := by
  obtain ⟨chains, lru, T⟩ := R.tables
  refine ⟨⟨lru, T.lruLinked, T.lruNodup, T.lruMem⟩, ⟨chains, T.family, fun b lt active => T.chained lt active⟩,
    T.unique, T.dirty, ?_⟩
  intro none
  rw [T.lruLinked.last, getLast?_eq_none_iff] at none
  rw [T.lruLinked.first, none]
  rfl

/-- As long as the sizes and the counts fit, the lists are in order in every reachable state, no call panics, and
    `blk_get` fails only when all buffers are referenced. -/
theorem cache_sound {s : State} (reached : Reached (fun s op => op.Fits s) s) : Sound s.cache ∧
    (∀ b, b < s.cache.count → (s.cache.bufs b).refcnt < 2 ^ 31) ∧
    (∀ (io : Io) (op : Op), op.Allowed s → op.Fits s → (op.run io s.cache).1 ≠ .crash) ∧
    ∀ (io : Io) (dev nr : Nat) (e : Errno), (blkGet io dev nr s.cache).1 = .err e →
      e = .ENOMEM ∧ ∀ b, b < s.cache.count → (s.cache.bufs b).refcnt ≠ 0 := by
  have rep := reached.rep
  refine ⟨sound_of_rep rep, ?_, fun io op allowed fits crash => (op.rule rep io allowed).1 crash fits, ?_⟩
  · intro b lt
    rw [rep.refs b lt]
    exact reached.small b
  · intro io dev nr
    have result : wp (blkGet io dev nr) (fun r _ => ∀ e, r = .err e →
        e = .ENOMEM ∧ ∀ b, b < s.cache.count → (s.cache.bufs b).refcnt ≠ 0) s.cache := by
      apply wp_get rep
      · intro b c' _ e eq
        cases eq
      · intro full e eq
        cases eq
        exact ⟨rfl, full⟩
    exact result

def deafIo : Io := ⟨fun _ => some Errno.EIO, fun _ => none, fun _ => none⟩

def refused (n : Nat) : State := State.next ⟨blkInit n fun _ _ _ => 0, []⟩ deafIo (.call (.pread 1 7 0 512))

def asked (n : Nat) : State := (refused n).next goodIo (.call (.read 1 7))

theorem refcnt_few (R : Rep c []) (b : Nat) (lt : b < c.count) : (c.bufs b).refcnt + 1 < 2 ^ 31 := by
  rw [R.refs b lt, countP_nil]
  decide

/-- A block is asked for that the device refuses, and then again. -/
theorem cache_sound_asked : Reached (fun s op => op.Fits s) (asked blkNblk) ∧ Sound (asked blkNblk).cache := by
  generalize blkNblk = n
  have start : Reached (fun s op => op.Fits s) (refused n) :=
    .step deafIo (.call (.pread 1 7 0 512)) (.init n _) trivial fun b lt _ =>
      refcnt_few (Inv.init n fun _ _ _ => 0).rep b lt
  have reached : Reached (fun s op => op.Fits s) (asked n) :=
    .step goodIo (.call (.read 1 7)) start trivial fun b lt _ => refcnt_few start.rep b lt
  exact ⟨reached, (cache_sound reached).1⟩

/-- So many buffers are asked for that their size wraps around. -/
theorem cache_not_sound : ¬ ∀ (s : State), Reached (fun _ _ => True) s → Sound s.cache ∧
    (∀ (io : Io) (op : Op), op.Allowed s → (op.run io s.cache).1 ≠ .crash) ∧
    ∀ (io : Io) (dev nr : Nat) (e : Errno), (blkGet io dev nr s.cache).1 = .err e →
      e = .ENOMEM ∧ ∀ b, b < s.cache.count → (s.cache.bufs b).refcnt ≠ 0 := by
  intro all
  exact (all _ (.init blkNblk fun _ _ _ => 0)).2.1 goodIo (.call (.add .i386 0x40000401)) trivial
    (add_outgrown (blkInit_fields ..).2.1)

end Block.Buffers
