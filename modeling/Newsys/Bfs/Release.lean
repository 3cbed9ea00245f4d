import Newsys.Bfs.Driver

/- The buffers that the boot file system holds (kern/fs/bfs/bfs.c): whatever the devices answer, a call gives
   back each reference that it has taken, up to the last one of `bfs_statfs`. -/
namespace Bfs
open Bytes Cmds Cmd Kern Objects Block

variable {io : Io} {held : List Handle} {total n i fs dev f : Nat} {s : State} {α : Type}

@[simp] theorem wp_onCache : wp (onCache m) Q s = wp m (fun r c => Q r (setCache c s)) s.own.cache := rfl

@[simp] theorem setCache_cache (c : Cache) : (setCache c s).own.cache = c := rfl

variable {b : Nat}

@[simp] theorem wp_blkData : wp (blkData b) Q s = Q (.ok (s.own.cache.bufs b).data) s := rfl

/- The number of buffers -/

theorem stable_ite {p : Prop} [Decidable p] (yes : Stable I m)
    (no : Stable I m') : Stable I (if p then m else m') := by
  split
  · exact yes
  · exact no

theorem sized_ask (oracle : Nat → Option Errno) : Stable (fun c : Cache => c.count = total) (ask oracle) := by
  intro c same
  unfold ask
  split <;> exact same

theorem sized_write (b : Nat) : Stable (fun c => c.count = total) (blkWrite io b) := by
  unfold blkWrite
  refine stable_bind stable_get fun c => ?_
  refine stable_ite stable_crash (stable_ite (stable_pure _) ?_)
  refine stable_bind (stable_modify fun _ same => same) fun _ => ?_
  exact stable_bind (sized_ask _) fun _ => stable_modify fun _ same => same

theorem sized_put (b : Nat) : Stable (fun c => c.count = total) (blkPut b) := by
  unfold blkPut
  refine stable_bind stable_get fun c => ?_
  refine stable_ite stable_crash ?_
  refine stable_bind (stable_modify fun _ same => same) fun _ => ?_
  split
  · exact stable_modify fun _ same => same
  · exact stable_pure _

theorem sized_get (dev nr : Nat) : Stable (fun c => c.count = total) (blkGet io dev nr) := by
  unfold blkGet
  refine stable_bind stable_get fun c => ?_
  cases blkScan c dev nr c.count (c.lists (nr % 64)).first with
  | none => exact stable_crash
  | some found =>
    cases found with
    | some b =>
      unfold blkHold
      refine stable_bind stable_get fun c => ?_
      have held : Stable (fun c : Cache => c.count = total) (do
          modify (setBuf b fun x => { x with refcnt := x.refcnt + 1 })
          pure b : BlkM Nat) := stable_bind (stable_modify fun _ same => same) fun _ => stable_pure _
      split
      · exact stable_bind (stable_modify fun _ same => same) fun _ => held
      · exact held
    | none =>
      cases c.lru.first with
      | none => exact stable_fail _
      | some b =>
        have taken : Stable (fun c : Cache => c.count = total) (do
            modify (setBuf b fun x => { x with refcnt := 1, dev := dev, nr := nr, valid := false })
            modify (chainPre (nr % 64) b)
            pure b : BlkM Nat) := by
          refine stable_bind (stable_modify fun _ same => same) fun _ => ?_
          exact stable_bind (stable_modify fun _ same => same) fun _ => stable_pure _
        unfold blkRecycle
        refine stable_bind stable_get fun c => ?_
        refine stable_bind (stable_modify fun _ same => same) fun _ => ?_
        refine stable_bind (stable_modify fun _ same => same) fun _ => ?_
        split
        · exact stable_bind (stable_attempt (sized_write b)) fun _ => taken
        · exact taken

theorem sized_read (dev nr : Nat) : Stable (fun c => c.count = total) (blkRead io dev nr) := by
  unfold blkRead
  refine stable_bind (sized_get dev nr) fun b => stable_bind stable_get fun c => ?_
  refine stable_ite (stable_pure _) ?_
  refine stable_bind (stable_onError ?_ (sized_put b)) fun _ => stable_pure _
  exact stable_bind (sized_ask _) fun _ => stable_modify fun _ same => same

theorem sized_pread (dev nr off len : Nat) : Stable (fun c => c.count = total) (blkPread io dev nr off len) := by
  unfold blkPread
  refine stable_bind (sized_read dev nr) fun b => stable_bind stable_get fun c => ?_
  exact stable_bind (sized_put b) fun _ => stable_pure _

/-- The buffers of the cache while these references are out. -/
structure Kept (held : List Handle) (total : Nat) (s : State) : Prop where
  rep : Rep s.own.cache held
  size : s.own.cache.count = total

theorem wp_header (kept : Kept held total s)
    (done : ∀ b c, blkRead io dev i s.own.cache = (.ok b, c) →
      Kept (⟨b, dev, i⟩ :: held) total (setCache c s) → Q (.ok b) (setCache c s))
    (failed : ∀ e c, blkRead io dev i s.own.cache = (.err e, c) → Kept held total (setCache c s) →
      Q (.err e) (setCache c s)) : wp (onCache (blkRead io dev i)) Q s := by
  rw [wp_onCache]
  apply wp_run
  have sized : wp (blkRead io dev i) (fun _ c => c.count = total) s.own.cache := sized_read dev i _ kept.size
  have rule : wp (blkRead io dev i) (either (fun b c => Rep c (⟨b, dev, i⟩ :: held)) fun _ c => Rep c held)
      s.own.cache := Buffers.wp_read kept.rep (fun _ _ rep => rep) (fun _ _ rep => rep)
  refine wp_mono (wp_and sized rule) ?_
  rintro (b | e | _) c ⟨size, rep⟩ run
  · exact done b c run ⟨rep, size⟩
  · exact failed e c run ⟨rep, size⟩
  · exact rep.elim

theorem wp_release (kept : Kept (⟨b, dev, i⟩ :: held) total s)
    (post : ∀ c, blkPut b s.own.cache = (.ok (), c) → Kept held total (setCache c s) →
      Q (.ok ()) (setCache c s)) : wp (onCache (blkPut b)) Q s := by
  rw [wp_onCache]
  apply wp_run
  have sized : wp (blkPut b) (fun _ c => c.count = total) s.own.cache := sized_put b _ kept.size
  have rule := Buffers.wp_put (h := ⟨b, dev, i⟩) kept.rep (List.mem_cons_self ..)
    (Q := fun r c => r = .ok () ∧ Rep c held) (by
      intro c rep
      rw [List.erase_cons_head] at rep
      exact ⟨rfl, rep⟩)
  refine wp_mono (wp_and sized rule) ?_
  rintro r c ⟨size, rfl, rep⟩ run
  exact post c run ⟨rep, size⟩

section
variable (kept : Kept held total s)
include kept

theorem kept_pread (off len : Nat) :
    wp (onCache (blkPread io dev i off len)) (fun r t => r ≠ .crash ∧ Kept held total t) s := by
  rw [wp_onCache]
  have sized : wp (blkPread io dev i off len) (fun _ c => c.count = total) s.own.cache :=
    sized_pread dev i off len _ kept.size
  have rule : wp (blkPread io dev i off len) (fun r c => r ≠ .crash ∧ Rep c held) s.own.cache :=
    Buffers.wp_pread kept.rep fun _ _ returns rep => ⟨returns, rep⟩
  refine wp_mono (wp_and sized rule) ?_
  rintro r c ⟨size, returns, rep⟩
  exact ⟨returns, rep, size⟩

theorem Kept.setFso : Kept held total (setFso o g s) :=
  ⟨kept.rep, kept.size⟩

theorem kept_getfso :
    wp (bfsGetfso io f) (fun r t => r ≠ .crash ∧ Kept held total t) s := by
  simp only [bfsGetfso, wp_bind, wp_get, after_ok]
  apply wp_header kept
  · intro b c _ taken
    simp only [after_ok, wp_bind, wp_blkData, wp_modify]
    refine wp_release taken.setFso ?_
    intro c' _ given
    exact ⟨fun no => (by cases no), given⟩
  · intro e c _ given
    exact ⟨fun no => (by cases no), given⟩

theorem kept_fsGetfso :
    wp (fsGetfso (bfsGetfso io) Attr.zero fs i mem) (fun r t => r ≠ .crash ∧ Kept held total t) s := by
  apply wp_fsGetfso
  · intro o _
    exact ⟨fun no => (by cases no), kept.setFso⟩
  · intro e _
    exact ⟨fun no => (by cases no), kept⟩
  · intro o _ _ _
    refine wp_mono (kept_getfso (s := claim s o fs i Attr.zero) ⟨kept.rep, kept.size⟩) ?_
    rintro (_ | e | _) t ⟨returns, given⟩
    · exact ⟨fun no => (by cases no), given⟩
    · exact ⟨fun no => (by cases no), given.setFso⟩
    · exact absurd rfl returns

end

theorem kept_lookupFrom {mem : Option Errno} {past : Mem} {name : Vfs.CString} (n : Nat) :
    ∀ {s : State} {i : Nat}, Kept held total s →
      wp (lookupFrom io mem past fs name n i) (fun r t => r ≠ .crash ∧ Kept held total t) s := by
  induction n with
  | zero => exact fun kept => ⟨fun no => (by cases no), kept⟩
  | succ n ih =>
    intro s i kept
    simp only [lookupFrom, wp_bind, wp_get, after_ok]
    apply wp_header kept
    · intro b c _ taken
      simp only [after_ok, wp_bind, wp_blkData]
      split
      · simp only [wp_bind]
        apply wp_release taken
        intro c' _ given
        simp only [after_ok, wp_bind]
        refine wp_mono (kept_fsGetfso given) ?_
        rintro (_ | e | _) t ⟨returns, given⟩
        · exact ⟨fun no => (by cases no), given⟩
        · exact ⟨fun no => (by cases no), given⟩
        · exact absurd rfl returns
      · simp only [wp_bind]
        apply wp_release taken
        intro c' _ given
        simp only [after_ok]
        split
        · exact ⟨fun no => (by cases no), given⟩
        · exact ih given
    · intro e c _ given
      exact ⟨fun no => (by cases no), given⟩

theorem kept_readdir (kept : Kept held total s) :
    wp (bfsReaddir io f index) (fun _ t => Kept held total t) s := by
  simp only [bfsReaddir, wp_bind, wp_get, after_ok]
  split
  · exact kept
  split
  · exact kept
  · simp only [wp_bind]
    refine wp_mono (kept_pread kept _ _) ?_
    rintro (bd | e | _) t ⟨-, given⟩
    · simp only [after_ok]
      split
      · exact given
      · exact given
    · exact given
    · exact given

theorem kept_readFrom (offset count : Nat) (kept : Kept held total s) :
    wp (readFrom io dev i offset count) (fun r t => r ≠ .crash ∧ Kept held total t) s := by
  induction offset, count using readFrom.induct generalizing s with
  | case1 offset =>
    unfold readFrom
    exact ⟨fun no => (by cases no), kept⟩
  | case2 offset count some l =>
    rename_i ih
    unfold readFrom
    simp only [if_neg some, wp_bind]
    refine wp_mono (kept_pread kept _ _) ?_
    rintro (buf | e | _) t ⟨returns, given⟩
    · simp only [after_ok, wp_bind]
      refine wp_mono (ih given) ?_
      rintro (rest | e | _) u ⟨returns, given⟩
      · exact ⟨fun no => (by cases no), given⟩
      · exact ⟨fun no => (by cases no), given⟩
      · exact absurd rfl returns
    · exact ⟨fun no => (by cases no), given⟩
    · exact absurd rfl returns

theorem kept_read (kept : Kept held total s) :
    wp (bfsRead io f offset count) (fun _ t => Kept held total t) s := by
  simp only [bfsRead, wp_bind, wp_get, after_ok]
  split
  · exact kept
  · exact wp_mono (kept_readFrom _ _ kept) fun _ _ post => post.2

inductive Ends (io : Io) (dev : Nat) : Nat → Cache → Nat → Prop where
  | last {n : Nat} {c c' : Cache} {i b : Nat} (read : blkRead io dev i c = (.ok b, c'))
      (none : headNext (c'.bufs b).data = 0) : Ends io dev (n + 1) c i
  | next {n : Nat} {c c' c'' : Cache} {i b : Nat} (read : blkRead io dev i c = (.ok b, c'))
      (some : headNext (c'.bufs b).data ≠ 0) (put : blkPut b c' = (.ok (), c''))
      (ends : Ends io dev n c'' (headNext (c'.bufs b).data)) : Ends io dev (n + 1) c i

theorem Ends.read_ok (read : blkRead io dev i c = (.ok b, c')) :
    Ends io dev (n + 1) c i ↔ headNext (c'.bufs b).data = 0 ∨ headNext (c'.bufs b).data ≠ 0 ∧
      ∃ c'', blkPut b c' = (.ok (), c'') ∧ Ends io dev n c'' (headNext (c'.bufs b).data) := by
  constructor
  · intro ends
    cases ends with
    | last read' none =>
      rw [read] at read'
      cases read'
      exact .inl none
    | next read' some put ends =>
      rw [read] at read'
      cases read'
      exact .inr ⟨some, _, put, ends⟩
  · rintro (none | ⟨some, c'', put, ends⟩)
    · exact .last read none
    · exact .next read some put ends

theorem Ends.read_err (read : blkRead io dev i c = (.err e, c')) : ¬ Ends io dev n c i := by
  intro ends
  cases ends with
  | last read' _ =>
    rw [read] at read'
    cases read'
  | next read' _ _ _ =>
    rw [read] at read'
    cases read'

/-- The references after a walk of `bfs_statfs` over the headers: one is left where it has ended. -/
def Left (io : Io) (dev : Nat) (held : List Handle) (total n : Nat) (c : Cache) (i : Nat) (t : State) : Prop :=
  Ends io dev n c i ∧ (∃ h, Kept (h :: held) total t) ∨ ¬ Ends io dev n c i ∧ Kept held total t

theorem left_statfsFrom (n : Nat) : ∀ {s : State} {i : Nat}, Kept held total s →
    wp (statfsFrom io fs n i) (fun _ t => Left io (s.own.fs fs).dev held total n s.own.cache i t) s := by
  induction n with
  | zero =>
    intro s i kept
    refine .inr ⟨?_, kept⟩
    intro ends
    cases ends
  | succ n ih =>
    intro s i kept
    simp only [statfsFrom, wp_bind, wp_get, after_ok]
    apply wp_header kept
    · intro b c read taken
      simp only [after_ok, wp_bind, wp_blkData, setCache_cache]
      split
      · rename_i none
        exact .inl ⟨.last read none, _, taken⟩
      · rename_i some
        simp only [wp_bind]
        apply wp_release taken
        intro c' put given
        rw [after_ok]
        refine wp_mono (ih given) ?_
        have same : Ends io (s.own.fs fs).dev (n + 1) s.own.cache i ↔
            Ends io (s.own.fs fs).dev n c' (headNext (c.bufs b).data) := by
          rw [Ends.read_ok read]
          constructor
          · rintro (none | ⟨-, c'', put', ends⟩)
            · exact absurd none some
            · rw [show blkPut b c = (.ok (), c') from put] at put'
              cases put'
              exact ends
          · exact fun ends => .inr ⟨some, c', put, ends⟩
        intro r t left
        unfold Left at *
        rw [same]
        exact left
    · intro e c read given
      exact .inr ⟨Ends.read_err read, given⟩

/- What a call leaves behind -/

/-- The calls of the driver, each with what it is told from outside. -/
inductive Call where
  | mount (fs now : Nat)
  | lookup (mem : Option Errno) (past : Mem) (fs : Nat) (name : Vfs.CString) (rounds : Nat)
  | getfso (f : Nat)
  | readdir (dir : Nat) (index : Int)
  | read (f offset count : Nat)
  | statfs (fs rounds : Nat)

def Call.run (io : Io) (call : Call) (s : State) : State :=
  match call with
  | mount fs now => (bfsMount fs now s).2
  | lookup mem past fs name rounds => (bfsLookup io mem past fs name rounds s).2
  | getfso f => (bfsGetfso io f s).2
  | readdir dir index => (bfsReaddir io dir index s).2
  | read f offset count => (bfsRead io f offset count s).2
  | statfs fs rounds => (bfsStatfs io fs rounds s).2

/-- `bfs_statfs` comes to the last header. -/
def Call.Leaks (io : Io) (s : State) : Call → Prop
  | statfs fs rounds => Ends io (s.own.fs fs).dev rounds s.own.cache firstBlk
  | _ => False

def Released (s t : State) : Prop := t.own.cache.count = s.own.cache.count ∧
  ∀ b, b < s.own.cache.count → (t.own.cache.bufs b).refcnt = (s.own.cache.bufs b).refcnt

variable {t : State}

theorem Kept.released (kept : Kept held total s) (kept' : Kept held total t) : Released s t := by
  refine ⟨kept'.size.trans kept.size.symm, fun b inside => ?_⟩
  have inside' : b < t.own.cache.count := by
    rw [kept'.size, ← kept.size]
    exact inside
  rw [kept.rep.refs b inside, kept'.rep.refs b inside']

theorem Kept.not_released (kept : Kept held total s) (kept' : Kept (h :: held) total t) :
    ¬ Released s t := by
  rintro ⟨count, same⟩
  have inside' := (kept'.rep.keys h (List.mem_cons_self ..)).1
  have inside : h.buf < s.own.cache.count := by
    rw [← count]
    exact inside'
  have counts := same h.buf inside
  rw [kept.rep.refs _ inside, kept'.rep.refs _ inside', List.countP_cons_of_pos (by simp)] at counts
  omega

theorem Call.kept (call : Call) (kept : Kept held total s) (quiet : ¬ call.Leaks io s) :
    Kept held total (call.run io s) := by
  cases call with
  | mount fs now => exact ⟨kept.rep, kept.size⟩
  | lookup mem past fs name rounds =>
    have rule : wp (lookupFrom io mem past fs name rounds firstBlk) (fun r t => r ≠ .crash ∧ Kept held total t) s :=
      kept_lookupFrom rounds kept
    exact rule.2
  | getfso f =>
    have rule : wp (bfsGetfso io f) (fun r t => r ≠ .crash ∧ Kept held total t) s := kept_getfso kept
    exact rule.2
  | readdir dir index => exact kept_readdir kept
  | read f offset count => exact kept_read kept
  | statfs fs rounds =>
    have left : wp (statfsFrom io fs rounds firstBlk)
        (fun _ t => Left io (s.own.fs fs).dev held total rounds s.own.cache firstBlk t) s := left_statfsFrom rounds kept
    rcases left with ⟨ends, _⟩ | ⟨_, given⟩
    · exact absurd ends quiet
    · exact given

theorem Call.released_iff (call : Call) (kept : Kept held total s) :
    Released s (call.run io s) ↔ ¬ call.Leaks io s := by
  constructor
  · intro released leaks
    cases call with
    | statfs fs rounds =>
      have left : wp (statfsFrom io fs rounds firstBlk)
          (fun _ t => Left io (s.own.fs fs).dev held total rounds s.own.cache firstBlk t) s := left_statfsFrom rounds kept
      rcases left with ⟨_, h, more⟩ | ⟨endless, _⟩
      · exact kept.not_released more released
      · exact endless leaks
    | _ => exact leaks
  · exact fun quiet => kept.released (call.kept kept quiet)

/-- Runs of calls on devices that do as they like, none of which leaks. -/
inductive Quiet (s : State) : State → Prop where
  | start : Quiet s s
  | call {t : State} (quiet : Quiet s t) (io : Io) (call : Call) (none : ¬ call.Leaks io t) : Quiet s (call.run io t)

theorem Quiet.kept (quiet : Quiet s t) (kept : Kept held total s) : Kept held total t := by
  induction quiet with
  | start => exact kept
  | call _ io call none ih => exact call.kept ih none

/-- However many calls there have been, the counts are those that the first one has found, until a call of
    `bfs_statfs` comes to the end of the chain. -/
theorem buffers_released {t : State} (reached : Buffers.Reached (fun _ _ => True) ⟨s.own.cache, held⟩) (quiet : Quiet s t) :
    Released s t ∧ ∀ (io : Io) (call : Call), Released t (call.run io t) ↔ ¬ call.Leaks io t := by
  have kept : Kept held s.own.cache.count s := ⟨reached.rep, rfl⟩
  have later := quiet.kept kept
  exact ⟨kept.released later, fun io call => call.released_iff later⟩

/-- The driver with a new cache, on devices that are all zeros. -/
def booted (n : Nat) : State :=
  ⟨fun _ => ⟨0, 0, 0, Attr.zero⟩, 0, blkInit n fun _ _ _ => 0, fun _ => ⟨1, 0, false⟩⟩

theorem booted_reached (n : Nat) : Buffers.Reached (fun _ _ => True) ⟨(booted n).own.cache, []⟩ := .init n _

theorem booted_read (some : 0 < n) : ∃ b, (blkRead goodIo 1 firstBlk (booted n).own.cache).1 = .ok b ∧
    ((blkRead goodIo 1 firstBlk (booted n).own.cache).2.bufs b).data = fun _ => 0 := by
  have read : wp (blkRead goodIo 1 firstBlk) (fun r c => ∃ b, r = .ok b ∧ (c.bufs b).data = fun _ => 0)
      (booted n).own.cache := by
    have total : (blkInit n fun _ _ _ => 0).count = n := by
      obtain ⟨lists, item, head, links, shape, -⟩ := blkInit_shape n fun _ _ _ => 0
      rw [shape]
    apply Inv.wp_read (fun _ => rfl) (Inv.init n fun _ _ _ => 0)
    · exact fun b c _ data _ => ⟨b, rfl, data⟩
    · intro few
      rw [total] at few
      exact absurd few (Nat.not_le.mpr some)
    · rintro e c ⟨n, no⟩ _
      cases no
  exact read

theorem booted_ends (some : 0 < n) : Ends goodIo 1 1 (booted n).own.cache firstBlk := by
  obtain ⟨b, ok, data⟩ := booted_read some
  refine .last (b := b) (Prod.ext ok rfl) ?_
  rw [data]
  rfl

/-- A file is mounted for, looked up in the first header, and its attributes are read. -/
theorem buffers_released_lookup :
    let name : Vfs.CString := ⟨[97, 98], by decide⟩
    let looked := Call.run goodIo (.lookup none zero 0 name 1) (Call.run goodIo (.mount 0 7) (booted blkNblk))
    (∃ b, (blkRead goodIo 1 firstBlk (booted blkNblk).own.cache).1 = .ok b) ∧
      Released (booted blkNblk) (Call.run goodIo (.getfso 0) looked) := by
  intro name looked
  have released := buffers_released (booted_reached blkNblk) (.call (.call (.call .start goodIo (.mount 0 7) not_false)
    goodIo (.lookup none zero 0 name 1) not_false) goodIo (.getfso 0) not_false)
  obtain ⟨b, ok, _⟩ := booted_read (by decide : 0 < blkNblk)
  exact ⟨⟨b, ok⟩, released.1⟩

theorem statfs_leaks (some : 0 < n) : ¬ Released (booted n) (Call.run goodIo (.statfs 0 1) (booted n)) := by
  have kept : Kept [] (booted n).own.cache.count (booted n) := ⟨(booted_reached n).rep, rfl⟩
  rw [Call.released_iff _ kept]
  exact not_not_intro (booted_ends some)

/-- `bfs_statfs` keeps its last buffer. -/
theorem buffers_not_released : ¬ ∀ (io : Io) (s : State) (held : List Handle) (call : Call),
    Buffers.Reached (fun _ _ => True) ⟨s.own.cache, held⟩ → Released s (call.run io s) :=
  fun all => statfs_leaks (by decide) (all goodIo (booted blkNblk) [] (.statfs 0 1) (booted_reached blkNblk))

end Bfs
