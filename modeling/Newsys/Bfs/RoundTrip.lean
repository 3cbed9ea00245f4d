import Newsys.Bfs.Layout
import Newsys.Bfs.Release

/- A tree that the tool has written (cross/mkbfs.c) as the driver reads it (kern/fs/bfs/bfs.c), on a device
   that answers all requests. -/
namespace Mkbfs
open Bytes Cmds Cmd Kern Objects Block Bfs List

variable {io : Io} {store : Disks} {dev fs f i n : Nat} {held : List Handle} {s : State} {mem : Option Errno}

/-- The driver's state for one file system: its blocks are those of the store, the cache has a free buffer, and
    open objects show what their headers say. -/
structure Mounted (store : Disks) (dev fs : Nat) (held : List Handle) (s : State) : Prop where
  inv : Inv s.own.cache held store
  room : held.length < s.own.cache.count
  here : (s.own.fs fs).dev = dev
  shown : ∀ o, (s.fso o).refcnt ≠ 0 → (s.fso o).fs = fs →
    (s.fso o).data.size = headSize (store dev (s.fso o).index) ∧ (s.fso o).data.mode = headMode (store dev (s.fso o).index)

structure Shows (fs blk : Nat) (r : Rec) (t : State) (f : Nat) : Prop where
  used : (t.fso f).refcnt ≠ 0
  fs : (t.fso f).fs = fs
  index : (t.fso f).index = blk
  size : (t.fso f).data.size = r.data.length
  mode : (t.fso f).data.mode = r.mode

section Rules
variable (reliable : io.Reliable)
include reliable

omit reliable in
theorem Mounted.setCache (m : Mounted store dev fs held s) (count : c.count = s.own.cache.count)
    (inv : Inv c held store) : Mounted store dev fs held (Bfs.setCache c s) :=
  ⟨inv, by rw [setCache_cache, count]; exact m.room, m.here, m.shown⟩

omit reliable in
theorem Mounted.share (m : Mounted store dev fs held s) (used : (s.fso o).refcnt ≠ 0) :
    Mounted store dev fs held (setFso o (fun x => { x with refcnt := x.refcnt + 1 }) s) := by
  refine ⟨m.inv, m.room, m.here, ?_⟩
  intro o' used' same
  by_cases eq : o' = o
  · rw [eq, setFso_same] at same ⊢
    exact m.shown o used same
  · rw [setFso_ne _ eq] at used' same ⊢
    exact m.shown o' used' same

variable {blk next : Nat} {r : Rec}

def placed : Nat → List Rec → List (Nat × Rec)
  | _, [] => []
  | blk, r :: rs => (blk, r) :: placed (blk + r.blocks) rs

def Found (fs : Nat) (name : List Byte) (places : List (Nat × Rec)) (r : Res Errno (Option Nat)) (t : State) : Prop :=
  (∃ p ∈ places, p.2.path = name ∧ ∃ f, r = .ok (some f) ∧ Shows fs p.1 p.2 t f) ∨
    ((∀ p ∈ places, p.2.path ≠ name) ∧ r = .err .ENOENT)

end Rules

mutual

theorem names_recs (node : Node) {dpath : List Byte} (wf : node.Wf) :
    ∀ r ∈ node.recs dpath, ∀ names, r.content = .dir names → names.Nodup ∧ ∀ n ∈ names, (0 : Byte) ∉ n := by
  cases node with
  | reg mode data =>
    unfold Node.recs
    intro r mem names dir
    rw [mem_singleton.mp mem] at dir
    cases dir
  | dir mode items =>
    unfold Node.Wf at wf
    unfold Node.recs
    intro r mem names dir
    rcases mem_append.mp mem with inside | self
    · exact (names_entries items wf.2).2 r inside names dir
    · rw [mem_singleton.mp self] at dir
      cases dir
      exact ⟨wf.1, (@names_entries items dpath wf.2).1⟩

theorem names_entries (items : Items) {dpath : List Byte} (wf : items.Wf) : (∀ n ∈ items.names, (0 : Byte) ∉ n) ∧
    ∀ r ∈ items.recs dpath, ∀ names, r.content = .dir names → names.Nodup ∧ ∀ n ∈ names, (0 : Byte) ∉ n := by
  cases items with
  | nil =>
    unfold Items.recs Items.names
    exact ⟨fun n mem => absurd mem not_mem_nil, fun r mem => absurd mem not_mem_nil⟩
  | dots parent rest =>
    unfold Items.Wf at wf
    unfold Items.recs Items.names
    obtain ⟨noNul, dirs⟩ := @names_entries rest dpath wf
    refine ⟨?_, dirs⟩
    intro n mem
    rcases mem_cons.mp mem with rfl | later
    · cases parent <;> decide
    · exact noNul n later
  | sub name node rest =>
    unfold Items.Wf at wf
    unfold Items.recs Items.names
    obtain ⟨noNul, dirs⟩ := @names_entries rest dpath wf.2
    constructor
    · intro n mem
      rcases mem_cons.mp mem with rfl | later
      · exact name.property.2.1
      · exact noNul n later
    · intro r mem
      rcases mem_append.mp mem with here | there
      · exact names_recs node wf.1 r here
      · exact dirs r there

end

def Narrow (rs : List Rec) : Prop :=
  ∀ r ∈ rs, ∀ names, r.content = .dir names → ∀ n ∈ names, n.length ≤ bfsNameMax

variable {mode offset : Nat} {items : Items}

def Opened (fs : Nat) (rs : List Rec) (r : Rec) (t : State) (f : Nat) : Prop :=
  ∃ blk, (blk, r) ∈ placed firstBlk rs ∧ Shows fs blk r t f

structure ReadBack (store : Disks) (dev : Nat) (rs : List Rec) : Prop where
  lookup : ∀ (io : Io) (mem : Option Errno) (past : Mem) (fs : Nat) (held : List Handle) (s : State)
    (name : Vfs.CString) (rounds : Nat), io.Reliable → Mounted store dev fs held s → ¬ Full s mem →
    rs.length ≤ rounds → wp (bfsLookup io mem past fs name rounds) (fun a t => Mounted store dev fs held t ∧
      (∀ r ∈ rs, r.path = name.val → ∃ f, a = .ok (some f) ∧ Opened fs rs r t f) ∧
      ((∀ r ∈ rs, r.path ≠ name.val) → a = .err .ENOENT)) s
  read : ∀ (io : Io) (fs : Nat) (held : List Handle) (s : State) (r : Rec) (f offset count : Nat), io.Reliable →
    Mounted store dev fs held s → Opened fs rs r s f → wp (bfsRead io f offset count) (fun a t =>
      Mounted store dev fs held t ∧ t.fso = s.fso ∧ a = .ok ((r.data.drop offset).take count)) s
  readdir : ∀ (io : Io) (fs : Nat) (held : List Handle) (s : State) (path : List Byte) (mode : Nat)
    (names : List (List Byte)) (f k : Nat), io.Reliable → Mounted store dev fs held s →
    Opened fs rs ⟨path, mode, .dir names⟩ s f → k ≤ names.length → names.Nodup ∧
      wp (bfsReaddir io f k) (fun a t => Mounted store dev fs held t ∧ t.fso = s.fso ∧
        a = if lt : k < names.length then .ok names[k] else .err .ENOENT) s

/-- Every image that the tool finishes has been cut short nowhere, and is read back; nothing has been written
    past the end of a buffer. -/
structure RoundTrips (offset : Nat) (template : List Byte) (mode : Nat) (items : Items) : Prop where
  run : ∀ o : Out, wp (mkbfs offset template mode items) (fun r o' => match r with
    | .ok _ => Narrow (treeRecs mode items) ∧ ∀ store dev, store dev = view offset o'.dev →
        ReadBack store dev (treeRecs mode items)
    | .err _ => True
    | .crash => False) o

/-- No name is too long for the field of an entry, no path for its buffers, and the image ends below 4 GB. -/
def Fits (offset : Nat) (template : List Byte) (mode : Nat) (items : Items) : Prop :=
  items.Roomy template [] ∧ Narrow (treeRecs mode items) ∧ Small offset items

end Mkbfs
