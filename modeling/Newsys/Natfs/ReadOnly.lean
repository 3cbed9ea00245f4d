import Newsys.Kern.Untouched
import Newsys.Natfs.Session

/- A volume mounted for reading asks nothing of the buffer cache that would change its device, as long as each object
   that a path can lead to has a link. -/
namespace Natfs.Pins.ReadOnly
open Bytes Cmds Cmd List

/- What the paths lead to on the device -/

def header (geo : Geo) (image : Image) (i : Nat) : Fso := loadFso geo (image i)

def dirBlock (geo : Geo) (image : Image) (d log : Nat) : Mem := image (fileBlock image (header geo image d) log)

/-- The first entry of directory `d` with the name is one of object `i`. -/
def Finds (geo : Geo) (image : Image) (d : Nat) (name : Name) (i : Nat) : Prop :=
  sIsdir (header geo image d).mode = true ∧ ∃ log k, log < (header geo image d).size / 512 ∧
    (∀ l, l < log → scanBlock (dirBlock geo image d l) name = none) ∧
    scanBlock (dirBlock geo image d log) name = some k ∧ i = deFirstBlock (dirBlock geo image d log) k

inductive Within (geo : Geo) (image : Image) : Nat → Prop where
  | root : Within geo image geo.rootBlock
  | entry {d i : Nat} {name : Name} : Within geo image d → name.length ≤ 27 → 47 ∉ name →
      Finds geo image d name i → Within geo image i

def Reachable (geo : Geo) (image : Image) (i : Nat) : Prop :=
  Within geo image i ∨ ∃ d name, Within geo image d ∧ name ≠ [] ∧ 47 ∉ name ∧ Finds geo image d name i

/-- The geometry of the volume after it has been mounted for reading. -/
def mountGeo (image : Image) (noAtime insecure : Bool) : Geo :=
  geoOf (image 1) (freshVol image true noAtime insecure).fs.geo

/-- Every object that a path can lead to has a link. -/
def Linked (geo : Geo) (image : Image) : Prop := ∀ i, Reachable geo image i → hdNlink (image i) ≠ 0

theorem splitPath_noSlash (p : List Byte) : (∀ n ∈ (splitPath p).1, 47 ∉ n) ∧ 47 ∉ (splitPath p).2 := by
  induction p with
  | nil => exact ⟨fun n mem => (by cases mem), fun mem => by cases mem⟩
  | cons c p ih =>
    obtain ⟨dirs, base⟩ := ih
    simp only [splitPath]
    split
    · refine ⟨fun n mem => ?_, base⟩
      rcases mem_cons.mp mem with rfl | mem
      · exact fun h => by cases h
      · exact dirs n mem
    · rename_i plain
      have add : ∀ {n : Name}, 47 ∉ n → 47 ∉ c :: n := by
        intro n clean mem
        rcases mem_cons.mp mem with eq | mem
        · exact plain eq.symm
        · exact clean mem
      cases split : (splitPath p).1 with
      | nil => exact ⟨fun n mem => (by cases mem), add base⟩
      | cons d ds =>
        rw [split] at dirs
        refine ⟨fun n mem => ?_, base⟩
        rcases mem_cons.mp mem with rfl | mem
        · exact add (dirs d (mem_cons_self ..))
        · exact dirs n (mem_cons_of_mem _ mem)

/- The state of the volume -/

structure AsSaved (f g : Fso) : Prop where
  mode : f.mode = g.mode
  nlink : f.nlink = g.nlink
  size : f.size = g.size
  bmap : f.bmap = g.bmap
  ndirblks : f.ndirblks = g.ndirblks
  nindirlev : f.nindirlev = g.nindirlev

/-- A slot of the table: it has not been used yet, or it holds an object as it is on the device. -/
structure Slot (geo : Geo) (image : Image) (i : Nat) (f : Fso) : Prop where
  clean : f.dirty = false
  cache : f.bmapValid = true → f.bmapPhys = fileBlock image f f.bmapLog ∧
    bmapSlot f.ndirblks f.nindirlev f.bmapLog < 114
  kept : f.refcnt = 0 ∧ f.size = 0 ∨ Reachable geo image i ∧ AsSaved f (header geo image i)

structure SealedVol (geo : Geo) (image : Image) (v : Vol) : Prop where
  dev : v.dev = image
  mounted : v.fs.geo = geo
  bam : v.fs.bamDirty = false
  slots : ∀ i, Slot geo image i (v.fso i)

/-- The request leaves the contents of the buffers alone. -/
def Looks : Ask → Prop
  | .get _ | .read _ | .put _ => True
  | .fill _ | .write _ => False

def Looking (s : Pinned) : Prop := ∀ a ∈ s.asked, Looks a

structure Sealed (geo : Geo) (image : Image) (s : Pinned) : Prop where
  vol : SealedVol geo image s.vol
  asked : Looking s

section Volume
variable {geo : Geo} {image : Image} {v : Vol} {i : Nat} {f : Fso}

theorem AsSaved.refl (f : Fso) : AsSaved f f := ⟨rfl, rfl, rfl, rfl, rfl, rfl⟩

theorem AsSaved.fileBlock (same : AsSaved f g) (image : Image) (log : Nat) :
    fileBlock image f log = fileBlock image g log := by
  simp only [Natfs.fileBlock, same.ndirblks, same.nindirlev, same.bmap]

section
variable (held : SealedVol geo image v)
include held

theorem SealedVol.setFso (slot : Slot geo image i f) :
    SealedVol geo image (v.setFso i f) := by
  refine ⟨held.dev, held.mounted, held.bam, fun j => ?_⟩
  by_cases eq : j = i
  · simp only [Vol.setFso, eq, update_same]
    exact slot
  · simp only [Vol.setFso, update_ne _ _ _ eq]
    exact held.slots j

theorem SealedVol.tick (n : Nat) : SealedVol geo image { v with tick := n } :=
  ⟨held.dev, held.mounted, held.bam, held.slots⟩

theorem SealedVol.looked
    (inside : bmapSlot (v.fso i).ndirblks (v.fso i).nindirlev log < 114)
    (looked : Looked v w i log (fileBlock v.dev (v.fso i) log)) : SealedVol geo image w := by
  obtain ⟨clean, _, kept⟩ := held.slots i
  refine ⟨looked.dev.trans held.dev, by rw [looked.fs, held.mounted], by rw [looked.fs, held.bam], fun j => ?_⟩
  by_cases eq : j = i
  · rw [eq, looked.self]
    refine ⟨clean, fun _ => ⟨?_, inside⟩, ?_⟩
    · rw [← held.dev]
      rfl
    · rcases kept with idle | ⟨reach, same⟩
      · exact .inl idle
      · exact .inr ⟨reach, same.mode, same.nlink, same.size, same.bmap, same.ndirblks, same.nindirlev⟩
  · rw [looked.other j eq]
    exact held.slots j

theorem SealedVol.cacheOk (i : Nat) : CacheOk v i := by
  intro valid
  rw [held.dev]
  exact (held.slots i).cache valid

end

end Volume

section Requests
variable {geo : Geo} {image : Image} {cx : Cx} {α : Type} {P : α → Prop} {bn i : Nat}

theorem sealed_ask (looks : Looks a) : Stable (Sealed geo image) (ask a) := by
  refine stable_modify fun s held => ⟨held.vol, fun b mem => ?_⟩
  rcases mem_cons.mp mem with rfl | mem
  · exact looks
  · exact held.asked b mem

theorem yields_onVol (all : Yields (SealedVol geo image) P m) :
    Yields (Sealed geo image) P (onVol m) := by
  intro s held
  obtain ⟨vol, known⟩ := all s.vol held.vol
  exact ⟨⟨vol, held.asked⟩, known⟩

theorem sealed_onVol (all : Stable (SealedVol geo image) m) :
    Stable (Sealed geo image) (onVol m) := fun s held => ⟨all s.vol held.vol, held.asked⟩

theorem yields_getVol : Yields (Sealed geo image) (SealedVol geo image) getVol := yields_onVol yields_get

theorem sealed_modify (step : ∀ v, SealedVol geo image v → SealedVol geo image (g v)) :
    Stable (Sealed geo image) (onVol (modify g)) := sealed_onVol (stable_modify step)

theorem sealed_pins (g : Pinned → Nat → Nat) :
    Stable (Sealed geo image) (modify fun s => { s with pins := g s } : PinM Unit) :=
  stable_modify fun _ held => ⟨held.vol, held.asked⟩

theorem request (bn : Nat) : Stable (SealedVol geo image) (Natfs.blkGet cx bn) := by
  intro v held
  rw [Natfs.blkGet]
  split <;> exact held.tick _

theorem sealed_slot : Stable (SealedVol geo image) (newSlot cx) := by
  intro v held
  rw [newSlot]
  split <;> exact held.tick _

theorem yields_read (bn : Nat) : Yields (SealedVol geo image) (fun b => b = image bn) (Natfs.blkRead cx bn) := by
  refine yields_bind (yields_of_stable (request bn)) fun _ _ => ?_
  refine yields_bind yields_get fun v held => yields_pure ?_
  rw [held.dev]

theorem yields_blkRead (bn : Nat) : Yields (Sealed geo image) (fun b => b = image bn) (blkRead cx bn) := by
  refine yields_bind (yields_of_stable (sealed_ask trivial)) fun _ _ => ?_
  refine yields_bind (yields_onVol (yields_read bn)) fun b known => ?_
  exact yields_bind (yields_of_stable (sealed_pins _)) fun _ _ => yields_pure known

theorem sealed_blkRead (bn : Nat) : Stable (Sealed geo image) (blkRead cx bn) := (yields_blkRead bn).stable

theorem sealed_blkPut (bn : Nat) : Stable (Sealed geo image) (blkPut bn) := by
  refine stable_bind (sealed_ask trivial) fun _ => stable_bind stable_get fun s => ?_
  split
  · exact stable_crash
  · exact sealed_pins _

theorem sealed_blkPread (bn : Nat) : Stable (Sealed geo image) (blkPread cx bn) :=
  stable_bind (sealed_blkRead bn) fun _ => stable_bind (sealed_blkPut bn) fun _ => stable_pure _

section
variable (closed : geo.readOnly = true)
include closed

theorem yields_fsChkPerm (i mode : Nat) :
    Yields (Sealed geo image) (fun _ => mode &&& wOk = 0) (fsChkPerm cx i mode) := by
  refine yields_onVol (yields_bind yields_get fun v held => ?_)
  cases verdict : permError cx v.fs.geo (v.fso i) mode with
  | some e => exact yields_fail e
  | none =>
    refine yields_pure ?_
    by_contra asks
    rw [held.mounted, permError] at verdict
    simp only [closed, and_true] at verdict
    rw [if_pos asks] at verdict
    cases verdict

theorem sealed_fsChkPerm (i mode : Nat) :
    Stable (Sealed geo image) (fsChkPerm cx i mode) := (yields_fsChkPerm closed i mode).stable

theorem refuses_write (i : Nat) (asks : mode &&& wOk ≠ 0) {P : Unit → Prop} :
    Yields (Sealed geo image) P (fsChkPerm cx i mode) :=
  (yields_fsChkPerm closed i mode).mono fun _ none => absurd none asks

end

/- The allocation map -/

theorem sealed_natSyncBam : Stable (Sealed geo image) (natSyncBam cx) := by
  refine (yields_bind (R := fun _ => True) yields_getVol fun v held => ?_).stable
  rw [held.bam]
  exact yields_pure trivial

theorem sealed_natSwitchBam (blk : Nat) : Stable (Sealed geo image) (natSwitchBam cx blk) := by
  refine stable_bind yields_getVol.stable fun v => ?_
  split
  · exact stable_pure _
  refine stable_bind (stable_attempt sealed_natSyncBam) fun _ => ?_
  refine stable_bind (stable_attempt (sealed_blkPread blk)) ?_
  rintro (e | b)
  · refine stable_bind (sealed_modify fun w held => ?_) fun _ => stable_fail e
    exact ⟨held.dev, held.mounted, held.bam, held.slots⟩
  · exact sealed_modify fun w held => ⟨held.dev, held.mounted, held.bam, held.slots⟩

theorem sealed_natStatfsFrom (n : Nat) : ∀ i free, Stable (Sealed geo image) (natStatfsFrom cx i n free) := by
  induction n with
  | zero => exact fun i free => stable_pure _
  | succ n ih =>
    intro i free
    refine stable_bind yields_getVol.stable fun v => ?_
    refine stable_bind (sealed_natSwitchBam _) fun _ => ?_
    exact stable_bind yields_getVol.stable fun w => ih _ _

end Requests

/- The block map -/

section BlockMap
variable {geo : Geo} {image : Image} {cx : Cx} {α : Type} {bn i log d : Nat}

theorem blkRead_run (s : Pinned) : blkRead cx bn s = match Natfs.blkRead cx bn s.vol with
    | (.ok b, v) => (.ok b, ⟨v, update s.pins bn (s.pins bn + 1), .read bn :: s.asked⟩)
    | (.err e, v) => (.err e, ⟨v, s.pins, .read bn :: s.asked⟩)
    | (.crash, v) => (.crash, ⟨v, s.pins, .read bn :: s.asked⟩) := by
  show Cmd.bind (onVol (Natfs.blkRead cx bn)) _ (⟨s.vol, s.pins, .read bn :: s.asked⟩ : Pinned) = _
  simp only [Cmd.bind, onVol]
  rcases Natfs.blkRead cx bn s.vol with ⟨_ | _ | _, v⟩ <;> rfl

theorem mirrors_read {k : Mem → PinM α} {k' : Mem → NatM α}
    (next : ∀ b s, s.pins bn ≠ 0 → (k b s).1 = (k' b s.vol).1 ∧ (k b s).2.vol = (k' b s.vol).2) :
    Mirrors Pinned.vol (blkRead cx bn >>= k) (Natfs.blkRead cx bn >>= k') := by
  intro s
  show (Cmd.bind (blkRead cx bn) k s).1 = (Cmd.bind (Natfs.blkRead cx bn) k' s.vol).1 ∧
    (Cmd.bind (blkRead cx bn) k s).2.vol = (Cmd.bind (Natfs.blkRead cx bn) k' s.vol).2
  simp only [Cmd.bind, blkRead_run]
  rcases Natfs.blkRead cx bn s.vol with ⟨b | e | _, v⟩
  · refine next b ⟨v, _, _⟩ ?_
    show update s.pins bn (s.pins bn + 1) bn ≠ 0
    rw [update_same]
    omega
  · exact ⟨rfl, rfl⟩
  · exact ⟨rfl, rfl⟩

theorem mirrors_put (rest : Mirrors Pinned.vol m m') (held : s.pins bn ≠ 0) :
    ((blkPut bn >>= fun _ => m) s).1 = (m' s.vol).1 ∧ ((blkPut bn >>= fun _ => m) s).2.vol = (m' s.vol).2 := by
  have put : blkPut bn s = (.ok (), ⟨s.vol, update s.pins bn (s.pins bn - 1), .put bn :: s.asked⟩) := by
    show (if s.pins bn = 0 then Cmd.crash else _ : PinM Unit) ⟨s.vol, s.pins, .put bn :: s.asked⟩ = _
    rw [if_neg held]
    rfl
  show (Cmd.bind (blkPut bn) (fun _ => m) s).1 = (m' s.vol).1 ∧ (Cmd.bind (blkPut bn) (fun _ => m) s).2.vol = (m' s.vol).2
  simp only [Cmd.bind, put]
  exact rest ⟨s.vol, _, _⟩

theorem mirrors_onVol (m : NatM α) : Mirrors Pinned.vol (onVol m) m := fun _ => ⟨rfl, rfl⟩

theorem mirrors_natBmapWalk (indl : Nat) : ∀ bn, Mirrors Pinned.vol (natBmapWalk cx i log false indl bn)
    (Natfs.natBmapWalk cx i log false indl bn) := by
  induction indl with
  | zero => exact fun bn => mirrors_pure bn
  | succ indl ih =>
    intro bn
    refine mirrors_ite (mirrors_pure 0) (mirrors_read fun b s held => ?_)
    simp only [Bool.false_eq_true, if_false]
    split
    · exact mirrors_put (ih _) held
    · exact mirrors_put (mirrors_pure 0) held

theorem mirrors_natBmapDir (log : Nat) :
    Mirrors Pinned.vol (natBmapDir cx i log false) (Natfs.natBmapDir cx i log false) := by
  refine mirrors_ite (mirrors_fail _) (mirrors_bind (mirrors_onVol _) fun v => ?_)
  simp only [Bool.false_and, Bool.false_eq_true, if_false]
  exact mirrors_pure _

theorem mirrors_natBmap : Mirrors Pinned.vol (natBmap cx i log false) (Natfs.natBmap cx i log false) := by
  refine mirrors_bind (mirrors_onVol _) fun v => mirrors_ite (mirrors_pure _) (mirrors_ite ?_ ?_)
  · exact mirrors_bind (mirrors_natBmapDir _) fun _ => mirrors_onVol _
  · refine mirrors_bind (mirrors_natBmapDir _) fun _ => ?_
    exact mirrors_bind (mirrors_natBmapWalk _ _) fun _ => mirrors_onVol _

theorem looking_ask (looks : Looks a) : Stable Looking (ask a) := by
  refine stable_modify fun s before b mem => ?_
  rcases mem_cons.mp mem with rfl | mem
  · exact looks
  · exact before b mem

theorem looking_onVol (m : NatM α) : Stable Looking (onVol m) := fun _ before => before

theorem looking_pins (g : Pinned → Nat → Nat) :
    Stable Looking (modify fun s => { s with pins := g s } : PinM Unit) :=
  stable_modify fun _ before => before

theorem looking_blkRead (bn : Nat) : Stable Looking (blkRead cx bn) := by
  refine stable_bind (looking_ask trivial) fun _ => stable_bind (looking_onVol _) fun b => ?_
  exact stable_bind (looking_pins _) fun _ => stable_pure b

theorem looking_blkPut (bn : Nat) : Stable Looking (blkPut bn) := by
  refine stable_bind (looking_ask trivial) fun _ => stable_bind stable_get fun s => ?_
  split
  · exact stable_crash
  · exact looking_pins _

theorem looking_natBmapWalk (indl : Nat) : ∀ bn, Stable Looking (natBmapWalk cx i log false indl bn) := by
  induction indl with
  | zero => exact fun bn => stable_pure bn
  | succ indl ih =>
    intro bn
    rw [natBmapWalk]
    split
    · exact stable_pure 0
    refine stable_bind (looking_blkRead bn) fun b => ?_
    simp only [Bool.false_eq_true, if_false]
    split
    · exact stable_bind (looking_blkPut bn) fun _ => ih _
    · exact stable_bind (looking_blkPut bn) fun _ => stable_pure 0

theorem looking_natBmapDir (log : Nat) : Stable Looking (natBmapDir cx i log false) := by
  rw [natBmapDir]
  split
  · exact stable_fail _
  · simp only [Bool.false_and, Bool.false_eq_true, if_false]
    exact stable_bind (looking_onVol _) fun v => stable_pure _

theorem looking_natBmap : Stable Looking (natBmap cx i log false) := by
  refine stable_bind (looking_onVol _) fun v => ?_
  dsimp only
  split
  · exact stable_pure _
  split
  · exact stable_bind (looking_natBmapDir _) fun _ => looking_onVol _
  · refine stable_bind (looking_natBmapDir _) fun _ => ?_
    exact stable_bind (looking_natBmapWalk _ _) fun _ => looking_onVol _

theorem wp_natBmap (held : Sealed geo image s)
    (done : ∀ t, Sealed geo image t → Looked s.vol t.vol i log (fileBlock image (s.vol.fso i) log) → Q (.ok ()) t)
    (failed : ∀ e t, Sealed geo image t → t.vol.fso = s.vol.fso → Q (.err e) t) :
    wp (natBmap cx i log false) Q s := by
  have asked : Looking (natBmap cx i log false s).2 := looking_natBmap s held.asked
  have same : Mirrors Pinned.vol (natBmap cx i log false) (Natfs.natBmap cx i log false) := mirrors_natBmap
  have rule := same.wp (wp_natBmap_lookup (held.vol.cacheOk i)
    (Q := fun r v => SealedVol geo image v ∧ match r with
      | .ok () => Looked s.vol v i log (fileBlock image (s.vol.fso i) log)
      | .err _ => v.fso = s.vol.fso
      | .crash => False)
    (fun inside v looked => ⟨held.vol.looked inside looked, by rw [held.vol.dev] at looked; exact looked⟩)
    (fun _ => ⟨held.vol, rfl⟩) fun e t _ => ⟨held.vol.tick t, rfl⟩)
  rw [wp] at rule ⊢
  obtain ⟨vol, outcome⟩ := rule
  rcases run : natBmap cx i log false s with ⟨_ | e | _, t⟩ <;> rw [run] at vol outcome asked
  · exact done t ⟨vol, asked⟩ outcome
  · exact failed e t ⟨vol, asked⟩ outcome
  · exact outcome.elim

theorem sealed_natBmap : Stable (Sealed geo image) (natBmap cx i log false) := fun _ held =>
  wp_natBmap (Q := fun _ t => Sealed geo image t) held (fun _ held' _ => held') fun _ _ held' _ => held'

theorem sealed_readDirBlock (d log : Nat) : Stable (Sealed geo image) (readDirBlock cx d log) := by
  refine stable_bind sealed_natBmap fun _ => stable_bind yields_getVol.stable fun v => ?_
  exact stable_bind (sealed_blkRead _) fun b => stable_pure _

structure Loaded (geo : Geo) (image : Image) (d : Nat) (s : Pinned) : Prop where
  held : Sealed geo image s
  same : AsSaved (s.vol.fso d) (header geo image d)

theorem blkRead_fso (s : Pinned) : (blkRead cx bn s).2.vol.fso = s.vol.fso := by
  rw [blkRead_run]
  have request : (Natfs.blkRead cx bn s.vol).2.fso = s.vol.fso := by
    show (Cmd.bind (Natfs.blkGet cx bn) _ s.vol).2.fso = s.vol.fso
    simp only [Cmd.bind, Natfs.blkGet]
    cases cx.io s.vol.tick <;> rfl
  rcases run : Natfs.blkRead cx bn s.vol with ⟨_ | _ | _, v⟩ <;> rw [run] at request <;> exact request

theorem Loaded.blkRead (bn : Nat) : Yields (Loaded geo image d) (fun b => b = image bn) (blkRead cx bn) := by
  intro s loaded
  have read : Yields (Sealed geo image) (fun b => b = image bn) (Pins.blkRead cx bn) := yields_blkRead bn
  obtain ⟨held, known⟩ := read s loaded.held
  refine ⟨⟨held, ?_⟩, known⟩
  rw [blkRead_fso]
  exact loaded.same

theorem Loaded.blkPut (bn : Nat) : Stable (Loaded geo image d) (blkPut bn) := by
  intro s loaded
  refine ⟨sealed_blkPut bn s loaded.held, ?_⟩
  have same : (Pins.blkPut bn s).2.vol = s.vol := by
    show ((if s.pins bn = 0 then crash else _ : PinM Unit) ⟨s.vol, s.pins, .put bn :: s.asked⟩).2.vol = _
    split <;> rfl
  rw [same]
  exact loaded.same

theorem yields_readDirBlock (d log : Nat) : Yields (Loaded geo image d)
    (fun p => p.1 = fileBlock image (header geo image d) log ∧ p.2 = dirBlock geo image d log)
    (readDirBlock cx d log) := by
  intro s loaded
  show wp (readDirBlock cx d log) (fun r t => Loaded geo image d t ∧ ∀ p, r = .ok p →
    p.1 = fileBlock image (header geo image d) log ∧ p.2 = dirBlock geo image d log) s
  rw [readDirBlock, wp_bind]
  apply wp_natBmap loaded.held
  · intro t held looked
    have phys : (t.vol.fso d).bmapPhys = fileBlock image (header geo image d) log := by
      rw [looked.self, ← loaded.same.fileBlock]
    have same : AsSaved (t.vol.fso d) (header geo image d) := by
      rw [looked.self]
      exact ⟨loaded.same.mode, loaded.same.nlink, loaded.same.size, loaded.same.bmap, loaded.same.ndirblks,
        loaded.same.nindirlev⟩
    simp only [after_ok, wp_bind, wp_getVol, phys]
    refine wp_mono ((Loaded.blkRead _).wp ⟨held, same⟩) ?_
    rintro (b | e | _) u ⟨loaded', known⟩
    · refine ⟨loaded', ?_⟩
      rintro _ ⟨⟩
      exact ⟨rfl, known b rfl⟩
    · exact ⟨loaded', fun _ h => by cases h⟩
    · exact ⟨loaded', fun _ h => by cases h⟩
  · intro e t held same
    refine ⟨⟨held, ?_⟩, fun _ h => by cases h⟩
    rw [same]
    exact loaded.same

theorem yields_findEntryFrom (dir : sIsdir (header geo image d).mode = true) (name : Name) (n : Nat) : ∀ log,
    log + n = (header geo image d).size / 512 → (∀ l, l < log → scanBlock (dirBlock geo image d l) name = none) →
    Yields (Loaded geo image d) (fun p => Finds geo image d name (deFirstBlock (image p.1) p.2))
      (findEntryFrom cx d name (range' log n)) := by
  induction n with
  | zero => exact fun log _ _ => yields_fail _
  | succ n ih =>
    intro log total none
    refine yields_bind (yields_readDirBlock d log) ?_
    rintro ⟨phys, b⟩ ⟨at', block⟩
    dsimp only at at' block ⊢
    cases scan : scanBlock b name with
    | some k =>
      refine yields_pure ⟨dir, log, k, by omega, none, ?_, ?_⟩
      · rw [← block]
        exact scan
      · rw [at', dirBlock]
    | none =>
      refine yields_bind (yields_of_stable (Loaded.blkPut phys)) fun _ _ => ih (log + 1) (by omega) ?_
      intro l lt
      rcases Nat.lt_succ_iff_lt_or_eq.mp lt with lt | rfl
      · exact none l lt
      · rw [← block]
        exact scan

theorem yields_findEntry (d : Nat) (name : Name) : Yields (Sealed geo image)
    (fun p => Finds geo image d name (deFirstBlock (image p.1) p.2)) (findEntry cx d name) := by
  intro s held
  show wp (findEntry cx d name) (fun r t => Sealed geo image t ∧ ∀ p, r = .ok p →
    Finds geo image d name (deFirstBlock (image p.1) p.2)) s
  rw [findEntry, wp_bind, wp_getVol, after_ok]
  split
  · exact ⟨held, fun _ h => by cases h⟩
  rename_i dir
  rw [wp_bind, wp_fsChkPerm]
  split
  · exact ⟨held, fun _ h => by cases h⟩
  rw [after_ok, range_eq_range']
  rcases (held.vol.slots d).kept with ⟨_, size⟩ | ⟨_, same⟩
  · rw [size]
    exact ⟨held, fun _ h => by cases h⟩
  · rw [same.mode] at dir
    rw [same.size]
    have search : Yields (Loaded geo image d) (fun p => Finds geo image d name (deFirstBlock (image p.1) p.2))
        (findEntryFrom cx d name (range' 0 ((header geo image d).size / 512))) :=
      yields_findEntryFrom (by simpa using dir) name _ 0 (Nat.zero_add _) fun l lt => absurd lt (Nat.not_lt_zero l)
    obtain ⟨loaded, found⟩ := search s ⟨held, same⟩
    exact ⟨loaded.held, found⟩

end BlockMap

/- Objects and paths -/

section Paths
variable {geo : Geo} {image : Image} {cx : Cx} {i d : Nat}

theorem slot_loaded (reach : Reachable geo image i) : Slot geo image i (loadFso geo (image i)) := by
  refine ⟨rfl, ?_, .inr ⟨reach, .refl _⟩⟩
  intro valid
  cases valid

theorem Slot.refcnt (slot : Slot geo image i f) (used : f.refcnt ≠ 0) (n : Nat) :
    Slot geo image i { f with refcnt := n } := by
  refine ⟨slot.clean, slot.cache, ?_⟩
  rcases slot.kept with ⟨idle, _⟩ | ⟨reach, same⟩
  · exact absurd idle used
  · exact .inr ⟨reach, same.mode, same.nlink, same.size, same.bmap, same.ndirblks, same.nindirlev⟩

theorem sealed_fsGetfso (reach : Reachable geo image i) : Stable (Sealed geo image) (fsGetfso cx i) := by
  have load : Stable (Sealed geo image) (do
      onVol (newSlot cx)
      let hd ← blkRead cx i
      onVol (modify fun s => s.setFso i (loadFso s.fs.geo hd))
      blkPut i) := by
    refine stable_bind (sealed_onVol sealed_slot) fun _ => ?_
    refine (yields_bind (R := fun _ => True) (yields_blkRead i) fun hd known => ?_).stable
    refine yields_of_stable (stable_bind (sealed_modify fun v held => held.setFso ?_) fun _ => sealed_blkPut i)
    rw [known, held.mounted]
    exact slot_loaded reach
  intro s held
  show wp (fsGetfso cx i) (fun _ t => Sealed geo image t) s
  rw [fsGetfso, wp_bind, wp_getVol, after_ok]
  split
  · rename_i used
    exact ⟨held.vol.setFso ((held.vol.slots i).refcnt used _), held.asked⟩
  · exact load s held

section
variable (linked : Linked geo image)
include linked

theorem sealed_fsPutfso (i : Nat) : Stable (Sealed geo image) (fsPutfso cx i) := by
  intro s held
  show wp (fsPutfso cx i) (fun _ t => Sealed geo image t) s
  rw [fsPutfso, wp_bind, wp_getVol, after_ok]
  split
  · exact held
  rename_i used
  have dropped : Sealed geo image { s with vol := s.vol.setFso i { s.vol.fso i with refcnt := (s.vol.fso i).refcnt - 1 } } :=
    ⟨held.vol.setFso ((held.vol.slots i).refcnt used _), held.asked⟩
  split
  · have quiet : natPutfso cx i s = (.ok (), s) := by
      obtain ⟨clean, _, kept⟩ := held.vol.slots i
      have has : (s.vol.fso i).nlink ≠ 0 := by
        rcases kept with ⟨idle, _⟩ | ⟨reach, same⟩
        · exact absurd idle used
        · rw [same.nlink]
          exact linked i reach
      show (if (s.vol.fso i).nlink = 0 then _ else natSyncfso cx i : PinM Unit) s = _
      rw [if_neg has]
      show (if (s.vol.fso i).dirty = true then _ else pure () : PinM Unit) s = _
      rw [clean]
      rfl
    rw [wp_bind, wp_attempt, wp, quiet]
    exact dropped
  · exact dropped

theorem yields_enter
    (reach : ∀ i, Finds geo image d name i → Reachable geo image i) :
    Yields (Sealed geo image) (fun i => Finds geo image d name i) (enter cx d name) := by
  refine yields_bind (yields_attempt (yields_findEntry d name)) fun found known => ?_
  refine yields_bind (yields_of_stable (sealed_fsPutfso linked d)) fun _ _ => ?_
  cases found with
  | error e => exact yields_fail e
  | ok p =>
    refine yields_bind yields_getVol fun v held => ?_
    have finds : Finds geo image d name (deFirstBlock (v.dev p.1) p.2) := by
      rw [held.dev]
      exact known p rfl
    have get : Stable (Sealed geo image) (fsGetfso cx (deFirstBlock (v.dev p.1) p.2)) :=
      sealed_fsGetfso (reach _ finds)
    refine yields_bind (yields_onError (yields_of_stable get) (sealed_blkPut p.1)) fun _ _ => ?_
    exact yields_bind (yields_of_stable (sealed_blkPut p.1)) fun _ _ => yields_pure finds

theorem yields_natLookupDirFrom (names : List Name) : ∀ {d : Nat},
    (∀ n ∈ names, 47 ∉ n) → Within geo image d →
    Yields (Sealed geo image) (fun r => ∀ x, r = some x → Within geo image x) (natLookupDirFrom cx d names) := by
  induction names with
  | nil =>
    rintro d _ within
    refine yields_pure ?_
    rintro _ ⟨⟩
    exact within
  | cons n names ih =>
    intro d plain within
    have clean := plain n (mem_cons_self ..)
    rw [natLookupDirFrom]
    split
    · exact yields_bind (yields_of_stable (sealed_fsPutfso linked d)) fun _ _ =>
        yields_pure fun _ h => by cases h
    · rename_i short
      have next : ∀ i, Finds geo image d n i → Within geo image i := fun i finds =>
        .entry within (by omega) clean finds
      refine yields_bind (yields_enter linked fun i finds => .inl (next i finds)) fun i finds => ?_
      exact ih (fun m mem => plain m (mem_cons_of_mem _ mem)) (next i finds)

theorem yields_lookupDir (path : CStr) :
    Yields (Sealed geo image) (Within geo image) (lookupDir cx path) := by
  have walk : Yields (Sealed geo image) (fun r => ∀ x, r = some x → Within geo image x) (natLookupDir cx path) := by
    refine yields_bind yields_getVol fun v held => ?_
    rw [held.mounted]
    refine yields_bind (yields_of_stable (sealed_fsGetfso (.inl .root))) fun _ _ => ?_
    exact yields_natLookupDirFrom linked path.dirs (splitPath_noSlash path.1).1 .root
  refine yields_bind walk ?_
  rintro (_ | d) known
  · exact yields_crash
  · exact yields_pure (known d rfl)

theorem sealed_lookupDir (path : CStr) :
    Stable (Sealed geo image) (lookupDir cx path) := (yields_lookupDir linked path).stable

theorem sealed_natLookup (path : CStr) :
    Stable (Sealed geo image) (natLookup cx path) := by
  refine (yields_bind (R := fun _ => True) (yields_lookupDir linked path) fun d within => ?_).stable
  split
  · exact yields_pure trivial
  · rename_i named
    refine (yields_enter linked fun i finds => ?_).mono fun _ _ => trivial
    exact .inr ⟨d, path.base, within, named, (splitPath_noSlash path.1).2, finds⟩

end

end Paths

section Operations
variable {geo : Geo} {image : Image} {cx : Cx} {i d : Nat} {α : Type} {P : α → Prop}

section
variable (closed : geo.readOnly = true)
include closed

theorem refused {f : Unit → PinM α} {i mode : Nat} (asks : mode &&& wOk ≠ 0) :
    Yields (Sealed geo image) P (fsChkPerm cx i mode >>= f) :=
  yields_bind (refuses_write closed i asks (P := fun _ => False)) fun _ h => h.elim

theorem refused_clean {f : Unit → PinM α} {c : PinM Unit} {i mode : Nat}
    (asks : mode &&& wOk ≠ 0) (clean : Stable (Sealed geo image) c) :
    Yields (Sealed geo image) P (onError (fsChkPerm cx i mode) c >>= f) :=
  yields_bind (yields_onError (refuses_write closed i asks (P := fun _ => False)) clean) fun _ h => h.elim

theorem refuses_newEntry (d : Nat) (name : Name) (i : Nat) :
    Yields (Sealed geo image) (fun _ => False) (newEntry cx d name i) := by
  refine yields_bind yields_getVol fun v _ => ?_
  split
  · exact yields_fail _
  split
  · exact yields_fail _
  exact refused closed (by decide)

theorem sealed_natChdir (linked : Linked geo image) (path : CStr) :
    Stable (Sealed geo image) (natChdir cx path) := by
  refine stable_bind (sealed_natLookup linked path) fun d => stable_bind yields_getVol.stable fun v => ?_
  split
  · exact stable_bind (sealed_fsPutfso linked d) fun _ => stable_fail _
  refine stable_bind (stable_attempt (sealed_fsChkPerm closed d _)) fun err => ?_
  refine stable_bind (sealed_fsPutfso linked d) fun _ => ?_
  rcases err with e | _
  · exact stable_fail e
  · exact stable_pure _

theorem refuses_natCreat (linked : Linked geo image) (path : CStr) (mode rdev : Nat) :
    Yields (Sealed geo image) (fun _ => False) (natCreat cx path mode rdev) :=
  yields_bind (yields_of_stable (sealed_lookupDir linked path)) fun d _ =>
    refused_clean closed (by decide) (sealed_fsPutfso linked d)

theorem sealed_natReaddir (d : Nat) (index : Int) :
    Stable (Sealed geo image) (natReaddir cx d index) := by
  rw [natReaddir]
  split
  · exact stable_fail _
  refine stable_bind (sealed_fsChkPerm closed d _) fun _ => ?_
  split
  · exact stable_pure _
  split
  · exact stable_pure _
  refine stable_bind yields_getVol.stable fun v => ?_
  split
  · exact stable_fail _
  refine stable_bind (stable_attempt (sealed_readDirBlock d _)) ?_
  rintro (e | ⟨phys, b⟩)
  · exact stable_pure _
  · exact stable_bind (sealed_blkPut phys) fun _ => stable_pure _

section
variable (linked : Linked geo image)
include linked

theorem sealed_natLink (i : Nat) (path : CStr) :
    Stable (Sealed geo image) (natLink cx i path) := by
  refine stable_bind yields_getVol.stable fun v => ?_
  split
  · exact stable_fail _
  refine stable_bind (sealed_lookupDir linked path) fun d => ?_
  refine (yields_bind (R := fun _ => True) (yields_attempt (refuses_newEntry closed d _ i))
    fun err refusal => ?_).stable
  refine yields_bind (yields_of_stable (sealed_fsPutfso linked d)) fun _ _ => ?_
  rcases err with e | _
  · exact yields_fail e
  · exact (refusal () rfl).elim

theorem sealed_natUnlink (path : CStr) :
    Stable (Sealed geo image) (natUnlink cx path) :=
  (yields_bind (yields_of_stable (sealed_lookupDir linked path)) fun d _ =>
    refused_clean (P := fun _ => True) closed (by decide) (sealed_fsPutfso linked d)).stable

theorem sealed_natRename (old new : CStr) :
    Stable (Sealed geo image) (natRename cx old new) := by
  have find : Yields (Sealed geo image) (fun _ => False) (renameFind cx old new) := by
    rw [renameFind]
    split
    · exact yields_fail _
    split
    · exact yields_fail _
    exact yields_bind (yields_of_stable (sealed_lookupDir linked old)) fun d _ =>
      refused_clean closed (by decide) (sealed_fsPutfso linked d)
  exact (yields_bind (R := fun _ => True) find fun _ h => h.elim).stable

theorem sealed_natRmdir (path : CStr) :
    Stable (Sealed geo image) (natRmdir cx path) :=
  (yields_bind (yields_of_stable (sealed_lookupDir linked path)) fun d _ =>
    refused_clean (P := fun _ => True) closed (by decide) (sealed_fsPutfso linked d)).stable

end

end

theorem sealed_natReadFrom (i : Nat) (fuel : Nat) : ∀ off count,
    Stable (Sealed geo image) (natReadFrom cx i fuel off count) := by
  induction fuel with
  | zero => exact fun off count => stable_pure _
  | succ fuel ih =>
    intro off count
    rw [natReadFrom]
    split
    · exact stable_pure _
    refine stable_bind sealed_natBmap fun _ => stable_bind yields_getVol.stable fun v => ?_
    have rest : ∀ chunk : List Byte, Stable (Sealed geo image) (do
        let rest ← natReadFrom cx i fuel ((off + chunkLen off count) % 2 ^ 64) (count - chunkLen off count)
        pure (chunk ++ rest)) := fun chunk => stable_bind (ih _ _) fun _ => stable_pure _
    dsimp only
    split
    · exact rest _
    · refine stable_bind (sealed_blkRead _) fun b => ?_
      exact stable_bind (sealed_blkPut _) fun _ => rest _

section
variable (closed : geo.readOnly = true)
include closed

theorem sealed_natRead (i offset count : Nat) :
    Stable (Sealed geo image) (natRead cx i offset count) := by
  refine stable_bind (sealed_fsChkPerm closed i _) fun _ => ?_
  refine (yields_bind (R := fun _ => True) yields_getVol fun v held => ?_).stable
  dsimp only
  split
  · exact yields_fail _
  split
  · exact yields_fail _
  split
  · exact yields_pure trivial
  rw [held.mounted, closed]
  exact yields_of_stable (sealed_natReadFrom i _ _ _)

theorem sealed_openPerm (i mode : Nat) :
    Stable (Sealed geo image) (onVol (openPerm cx i mode)) := by
  unfold openPerm
  split
  · exact sealed_fsChkPerm closed i _
  split
  · exact sealed_fsChkPerm closed i _
  split
  · exact sealed_fsChkPerm closed i _
  split
  · exact sealed_onVol (stable_pure _)
  · exact sealed_onVol (stable_fail _)

theorem sealed_sysOpen (linked : Linked geo image) (path : CStr) (mode : Nat) :
    Stable (Sealed geo image) (sysOpen cx path mode) := by
  refine stable_bind (sealed_natLookup linked path) fun i => ?_
  have put : Stable (Sealed geo image) (fsPutfso cx i) := sealed_fsPutfso linked i
  have slots : Stable (Sealed geo image) (do
      onError (onVol (newSlot cx)) (fsPutfso cx i)
      onError (onVol (newSlot cx)) (fsPutfso cx i)) :=
    stable_bind (stable_onError (sealed_onVol sealed_slot) put) fun _ =>
      stable_onError (sealed_onVol sealed_slot) put
  refine stable_bind (stable_onError (sealed_openPerm closed i mode) put) fun _ => ?_
  split
  · exact (refused_clean (P := fun _ => True) closed (by decide) put).stable
  · exact slots

theorem sealed_sysMknod (linked : Linked geo image) (path : CStr) (mode rdev : Nat) :
    Stable (Sealed geo image) (sysMknod cx path mode rdev) := by
  rw [sysMknod]
  split
  · exact stable_fail _
  · exact stable_bind (refuses_natCreat closed linked path mode rdev).stable fun i => sealed_fsPutfso linked i

theorem sealed_sysLink (linked : Linked geo image) (old new : CStr) :
    Stable (Sealed geo image) (sysLink cx old new) := by
  refine stable_bind (sealed_natLookup linked old) fun i => stable_bind yields_getVol.stable fun v => ?_
  have put : Stable (Sealed geo image) (fsPutfso cx i) := sealed_fsPutfso linked i
  split
  · exact stable_bind put fun _ => stable_fail _
  · exact stable_bind (stable_onError (sealed_natLink closed linked i new) put) fun _ => put

theorem sealed_sysFchmod (i mode : Nat) :
    Stable (Sealed geo image) (onVol (sysFchmod cx i mode)) := by
  refine sealed_onVol (yields_bind (R := fun _ => True) yields_get fun v held => ?_).stable
  split
  · exact yields_fail _
  · rw [held.mounted, closed]
    exact yields_fail _

theorem sealed_sysFchown (i uid gid : Nat) :
    Stable (Sealed geo image) (onVol (sysFchown cx i uid gid)) := by
  refine sealed_onVol (yields_bind (R := fun _ => True) yields_get fun v held => ?_).stable
  split
  · exact yields_fail _
  · rw [held.mounted, closed]
    exact yields_fail _

theorem sealed_natMount (same : geoOf (image 1) geo = geo) :
    Stable (Sealed geo image) (natMount cx) := by
  refine (yields_bind (R := fun _ => True) (yields_blkRead 1) fun sb known => ?_).stable
  split
  · exact yields_bind (yields_of_stable (sealed_blkPut 1)) fun _ _ => yields_fail _
  refine yields_bind (yields_of_stable (sealed_modify fun v held => ?_)) fun _ _ => ?_
  · refine ⟨held.dev, ?_, rfl, held.slots⟩
    rw [known, held.mounted]
    exact same
  refine yields_bind yields_getVol fun v held => ?_
  rw [held.mounted, closed]
  exact yields_of_stable (sealed_blkPut 1)

theorem sealed_natUmount : Stable (Sealed geo image) (natUmount cx) := by
  refine (yields_bind (R := fun _ => True) yields_getVol fun v held => ?_).stable
  rw [held.mounted, closed]
  exact yields_pure trivial

theorem sealed_fsSync (slots : List Nat) :
    Stable (Sealed geo image) (fsSync cx slots) := by
  refine (yields_bind (R := fun _ => True) yields_getVol fun v held => ?_).stable
  rw [held.mounted, closed]
  exact yields_pure trivial

theorem sealed_run (same : geoOf (image 1) geo = geo) (linked : Linked geo image)
    (call : SysCall) : Stable (Sealed geo image) (call.run cx) := by
  have quiet : ∀ {β : Type} {m : PinM β}, Stable (Sealed geo image) m →
      Stable (Sealed geo image) (do let _ ← m; pure () : PinM Unit) := fun all =>
    stable_bind all fun _ => stable_pure ()
  cases call with
  | mount => exact sealed_natMount closed same
  | umount => exact sealed_natUmount closed
  | «open» path mode => exact sealed_sysOpen closed linked path mode
  | close i => exact sealed_fsPutfso linked i
  | read i offset count =>
    exact stable_bind (sealed_fsChkPerm closed i _) fun _ => quiet (sealed_natRead closed i offset count)
  | write i offset data => exact (refused (P := fun _ => True) closed (by decide)).stable
  | mknod path mode rdev => exact sealed_sysMknod closed linked path mode rdev
  | mkdir path mode =>
    exact stable_bind (refuses_natCreat closed linked path _ _).stable fun i => sealed_fsPutfso linked i
  | link old new => exact sealed_sysLink closed linked old new
  | unlink path => exact sealed_natUnlink closed linked path
  | rename old new => exact sealed_natRename closed linked old new
  | rmdir path => exact sealed_natRmdir closed linked path
  | chdir path => exact sealed_natChdir closed linked path
  | fchmod i mode => exact sealed_sysFchmod closed i mode
  | fchown i uid gid => exact sealed_sysFchown closed i uid gid
  | readdir i index => exact quiet (sealed_natReaddir closed i index)
  | statfs =>
    refine quiet (stable_bind yields_getVol.stable fun v => ?_)
    exact stable_bind (sealed_natStatfsFrom _ _ _) fun _ => stable_pure _
  | sync slots => exact sealed_fsSync closed slots

end

end Operations

section Sessions
variable {image : Image} {noAtime insecure : Bool} {s : Pinned}

theorem slot_unused (geo : Geo) (i : Nat) : Slot geo image i Fso.unused :=
  ⟨rfl, fun valid => (by cases valid), .inl ⟨rfl, rfl⟩⟩

theorem sealed_mounted (ran : natMount cx (fresh image noAtime insecure) = (.ok (), s)) :
    Sealed (mountGeo image noAtime insecure) image s := by
  have start : Sealed (freshVol image true noAtime insecure).fs.geo image (fresh image noAtime insecure) :=
    ⟨⟨rfl, rfl, rfl, fun i => slot_unused _ i⟩, fun a mem => by cases mem⟩
  have rule : wp (natMount cx) (fun r t => r = .ok () → Sealed (mountGeo image noAtime insecure) image t)
      (fresh image noAtime insecure) := by
    rw [natMount, wp_bind]
    have none : wp (blkRead cx 1) (fun _ t => t.vol.fso = fun _ => Fso.unused) (fresh image noAtime insecure) :=
      blkRead_fso _
    refine wp_mono (wp_and none ((yields_blkRead 1).wp start)) ?_
    rintro (sb | e | _) t ⟨unused, held, known⟩
    · rw [after_ok]
      split
      · rw [wp_bind, wp]
        rcases blkPut 1 t with ⟨_ | _ | _, u⟩ <;> exact fun h => by cases h
      rw [wp_bind, wp_onVol_modify, after_ok, known sb rfl, held.vol.mounted]
      have mounted : Sealed (mountGeo image noAtime insecure) image { t with vol := { t.vol with fs :=
          { geo := mountGeo image noAtime insecure, freeBlock := sbDataBlock (image 1), bamBuf := t.vol.fs.bamBuf
            bamCurr := 0, bamDirty := false } } } := by
        refine ⟨⟨held.vol.dev, rfl, rfl, fun i => ?_⟩, held.asked⟩
        rw [unused]
        exact slot_unused _ i
      exact fun _ => sealed_blkPut 1 _ mounted
    · exact fun h => by cases h
    · exact fun h => by cases h
  rw [wp, ran] at rule
  exact rule rfl

theorem sealed_session (session : Session image noAtime insecure s)
    (linked : Linked (mountGeo image noAtime insecure) image) : Sealed (mountGeo image noAtime insecure) image s := by
  induction session with
  | mounted ran => exact sealed_mounted ran
  | call cx call _ _ ih => exact sealed_run rfl rfl linked call _ ih

end Sessions

def Makes (dev : Nat) : Ask → Block.Buffers.Op → Prop
  | .get bn, .call (.get d nr) => d = dev ∧ nr = bn
  | .read bn, .call (.read d nr) => d = dev ∧ nr = bn
  | .put bn, .call (.put h) => h.dev = dev ∧ h.nr = bn
  | .fill bn, .call (.fill h _) => h.dev = dev ∧ h.nr = bn
  | .write bn, .write h => h.dev = dev ∧ h.nr = bn
  | _, _ => False

/-- Nobody but the file system stores anything at its device. -/
def Serves (dev : Nat) (asked : List Ask) (op : Block.Buffers.Op) : Prop :=
  Block.Untouched.StoresIn dev op → ∃ a ∈ asked, Makes dev a op

theorem not_stores_of_looks (looks : Looks a) (makes : Makes dev a op) :
    ¬ Block.Untouched.StoresIn dev op := by
  cases a with
  | get bn | read bn | put bn =>
    rcases op with req | _ | _
    · cases req <;> first | exact makes.elim | exact id
    · exact makes.elim
    · exact makes.elim
  | fill bn | write bn => exact looks.elim

/-- While a volume is mounted for reading, no call asks for a change of a buffer, no buffer of its device is dirty and
    the device is not written, whatever other requests the cache serves in between: as long as every object that a path
    can lead to has a link. -/
theorem read_only_unwritten {image : Image} {noAtime insecure : Bool} {s : Pinned}
    (linked : Linked (mountGeo image noAtime insecure) image) (session : Session image noAtime insecure s) :
    (∀ a ∈ s.asked, Looks a) ∧ ∀ (dev : Nat) (w v : Block.Untouched.World), Block.Rep w.logged.cache w.held →
      Block.Untouched.Clean dev w.logged → Block.Untouched.Run (Serves dev s.asked) w v →
      Block.Untouched.Clean dev v.logged := by
  have held := sealed_session session linked
  refine ⟨held.asked, fun dev w v rep clean run => ?_⟩
  refine (run.clean rep ?_ clean).2
  intro op serves stores
  obtain ⟨a, mem, makes⟩ := serves stores
  exact not_stores_of_looks (held.asked a mem) makes stores

/- Two volumes -/

section Samples
open Block Block.Untouched

theorem noNul_empty : (0 : Byte) ∉ [] := not_mem_nil

def emptyPath : CStr := ⟨[], noNul_empty⟩

theorem emptyPath_straight (s : Pinned) : ¬ Pins.Strays rootCx emptyPath s :=
  Short.not_strays (fun _ mem => by cases mem) s

def mountedOn (image : Image) : Pinned := (natMount rootCx (fresh image false false)).2
def opened (image : Image) : Pinned := (SysCall.run rootCx (.open emptyPath 0) (mountedOn image)).2
def closed (image : Image) (root : Nat) : Pinned := (SysCall.run rootCx (.close root) (opened image)).2
def counted (image : Image) (root : Nat) : Pinned := (SysCall.run rootCx .statfs (closed image root)).2

theorem counted_session (image : Image) (root : Nat)
    (ran : (natMount rootCx (fresh image false false)).1 = .ok ()) : Session image false false (counted image root) := by
  have mounted : Session image false false (mountedOn image) := .mounted (Prod.ext ran rfl)
  have first : Session image false false (opened image) := .call rootCx _ mounted (emptyPath_straight _)
  exact .call rootCx .statfs (.call rootCx (.close root) first id) id

def quietIo : Io := ⟨fun _ => none, fun _ => none, fun _ => none⟩
def newCache : Untouched.World := ⟨⟨blkInit 4 fun _ _ _ => 0, []⟩, []⟩
def fetched : Untouched.World := newCache.next quietIo (.call (.read 0 2))
def filled : Untouched.World := fetched.next quietIo (.call (.fill ⟨0, 0, 2⟩ fun _ => 1))
def synced : Untouched.World := (filled.next quietIo (.call (.put ⟨0, 0, 2⟩))).next quietIo (.call (.syncall syncWrite))

theorem linked_new : Linked (mountGeo (Mkfs.mkfs .i386 .device 5000 2 fun _ => zero) false false) (Mkfs.mkfs .i386 .device 5000 2 fun _ => zero) := by
  have root : (mountGeo (Mkfs.mkfs .i386 .device 5000 2 fun _ => zero) false false).rootBlock = 4 := by decide +kernel
  have size : hdSize (Mkfs.mkfs .i386 .device 5000 2 (fun _ => zero) 4) = 0 := by decide +kernel
  have count : hdNlink (Mkfs.mkfs .i386 .device 5000 2 (fun _ => zero) 4) ≠ 0 := by decide +kernel
  generalize Mkfs.mkfs .i386 .device 5000 2 (fun _ => zero) = image at root size count
  generalize mountGeo image false false = geo at root
  have empty : ∀ {name i}, ¬ Finds geo image 4 name i := by
    rintro name i ⟨_, log, _, inside, _⟩
    rw [header, show (loadFso geo (image 4)).size = 0 from size] at inside
    exact Nat.not_lt_zero log inside
  have only : ∀ {i}, Within geo image i → i = 4 := by
    intro i within
    induction within with
    | root => exact root
    | entry _ _ _ finds ih =>
      rw [ih] at finds
      exact (empty finds).elim
  rintro i (within | ⟨d, name, within, _, _, finds⟩)
  · rw [only within]
    exact count
  · rw [only within] at finds
    exact (empty finds).elim

theorem read_only_unwritten_new : Clean 0 fetched.logged ∧
    ∀ a ∈ (counted (Mkfs.mkfs .i386 .device 5000 2 fun _ => zero) 4).asked, Looks a := by
  have session := counted_session (Mkfs.mkfs .i386 .device 5000 2 fun _ => zero) 4 (by decide +kernel)
  have rule := read_only_unwritten linked_new session
  refine ⟨rule.2 0 newCache fetched (Inv.init 4 _).rep (clean_init 0 4 _) ?_, rule.1⟩
  exact .step quietIo (.call (.read 0 2)) .refl trivial fun stores => stores.elim

def lostRoot : Image := update (Mkfs.mkfs .i386 .device 5000 2 fun _ => zero) 4 (setLE Mkfs.rootHeader 40 4 0)

/-- Its root directory is freed when it is closed, and the map is written when another block of it is needed. -/
theorem read_only_written_lost : sbMagic (lostRoot 1) = natMagic ∧ Session lostRoot false false (counted lostRoot 4) ∧
    Ask.fill 2 ∈ (counted lostRoot 4).asked ∧
    Rep newCache.logged.cache newCache.held ∧ Clean 0 newCache.logged ∧
    Run (Serves 0 (counted lostRoot 4).asked) newCache filled ∧ ¬ Clean 0 filled.logged ∧
    Run (Serves 0 (counted lostRoot 4).asked) newCache synced ∧ ∃ mo ∈ synced.logged.log, mo.dev = 0 := by
  have asked : Ask.fill 2 ∈ (counted lostRoot 4).asked := by decide +kernel
  have session := counted_session lostRoot 4 (by decide +kernel)
  have fetch : Run (Serves 0 (counted lostRoot 4).asked) newCache fetched :=
    .step quietIo (.call (.read 0 2)) .refl trivial fun stores => stores.elim
  have fill : Run (Serves 0 (counted lostRoot 4).asked) newCache filled := by
    refine .step quietIo (.call (.fill ⟨0, 0, 2⟩ fun _ => 1)) fetch ?_ fun _ => ⟨_, asked, rfl, rfl⟩
    show (⟨0, 0, 2⟩ : Handle) ∈ fetched.held
    decide +kernel
  have sync : Run (Serves 0 (counted lostRoot 4).asked) newCache synced := by
    refine .step quietIo (.call (.syncall syncWrite)) (.step quietIo (.call (.put ⟨0, 0, 2⟩)) fill ?_ ?_) trivial
      fun stores => stores.elim
    · show (⟨0, 0, 2⟩ : Handle) ∈ filled.held
      decide +kernel
    · exact fun stores => stores.elim
  have dirty : (filled.logged.cache.bufs 0).dirty = true ∧ (filled.logged.cache.bufs 0).dev = 0 := by decide +kernel
  have log : (synced.logged.log.map Writes.Moment.dev).contains 0 = true := by decide +kernel
  refine ⟨by decide +kernel, session, asked, (Inv.init 4 _).rep, clean_init 0 4 _, fill,
    fun clean => clean.bufs 0 dirty.1 dirty.2, sync, ?_⟩
  obtain ⟨mo, mem, here⟩ := mem_map.mp (contains_iff_mem.mp log)
  exact ⟨mo, mem, here⟩

end Samples
end Natfs.Pins.ReadOnly
