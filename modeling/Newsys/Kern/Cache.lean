import Mathlib.Data.List.Perm.Subperm
import Newsys.Kern.Block

/- What the buffer cache stores: the blocks of all devices, as they were last written. -/
namespace Block
open Bytes Cmds Cmd Chains Kern Function List

/- The tables of the cache -/

/-- The chains hold the buffers by their block numbers, the list of unreferenced buffers is complete,
    and no block has two buffers. A buffer that has never been used is in no chain. -/
structure Tables (c : Cache) (chains : Nat → List Nat) (lru : List Nat) : Prop where
  family : Family c.lists c.listItem chains
  homed : ∀ i, ∀ b ∈ chains i, b < c.count ∧ (c.bufs b).nr % 64 = i
  loose : ∀ b, b < c.count → (∀ i, b ∉ chains i) → c.listItem b = Item.null ∧ ¬ (c.bufs b).active
  lruLinked : Linked c.lru c.lruItem lru
  lruNodup : lru.Nodup
  lruMem : ∀ b, b ∈ lru ↔ b < c.count ∧ (c.bufs b).refcnt = 0
  dirty : ∀ b, b < c.count → (c.bufs b).dirty = true → (c.bufs b).valid = true
  unique : ∀ a b, a < c.count → b < c.count → (c.bufs a).active → (c.bufs b).active →
    (c.bufs a).dev = (c.bufs b).dev → (c.bufs a).nr = (c.bufs b).nr → a = b

section Scan
variable {c : Cache} {chains : Nat → List Nat} {lru : List Nat} {dev nr : Nat}

def Buf.isFor (x : Buf) (dev nr : Nat) : Prop := x.active ∧ x.nr = nr ∧ x.dev = dev

instance (x : Buf) (dev nr : Nat) : Decidable (x.isFor dev nr) := inferInstanceAs (Decidable (_ ∧ _))

theorem blkScan_eq (k : Linked h c.listItem l) (rest : List Nat) :
    ∀ (seen : List Nat) (n : Nat), l = seen ++ rest → rest.length ≤ n →
      blkScan c dev nr n rest.head? = some (rest.find? fun b => (c.bufs b).isFor dev nr) := by
  induction rest with
  | nil =>
    intro seen n _ _
    cases n <;> rfl
  | cons b rest ih =>
    intro seen n split room
    cases n with
    | zero => exact absurd room (by simp)
    | succ n =>
      have next := k.next split
      have tail := ih (seen ++ [b]) n (by rw [split]; simp) (by simpa using room)
      by_cases here : (c.bufs b).isFor dev nr
      · have : (c.bufs b).active ∧ (c.bufs b).nr = nr ∧ (c.bufs b).dev = dev := here
        simp [blkScan, here, if_pos this]
      · have : ¬ ((c.bufs b).active ∧ (c.bufs b).nr = nr ∧ (c.bufs b).dev = dev) := here
        simp only [head?_cons, blkScan, if_neg this, next, tail]
        rw [find?_cons_of_neg (by simpa using here)]

theorem length_le_of_nodup {l : List Nat} {n : Nat} (nodup : l.Nodup) (lt : ∀ b ∈ l, b < n) : l.length ≤ n := by
  have sub : l ⊆ range n := fun b mem => mem_range.mpr (lt b mem)
  have := (subperm_of_subset nodup sub).length_le
  rwa [length_range] at this

namespace Tables

theorem chained (T : Tables c chains lru) (lt : b < c.count) (active : (c.bufs b).active) :
    b ∈ chains ((c.bufs b).nr % 64) := by
  apply Classical.byContradiction
  intro out
  have none : ∀ i, b ∉ chains i := by
    intro i mem
    rw [← (T.homed i b mem).2] at mem
    exact out mem
  exact (T.loose b lt none).2 active

theorem scan (T : Tables c chains lru) (dev nr : Nat) :
    (∃ b, blkScan c dev nr c.count (c.lists (nr % 64)).first = some (some b) ∧ b < c.count ∧
      (c.bufs b).isFor dev nr) ∨
    (blkScan c dev nr c.count (c.lists (nr % 64)).first = some none ∧
      ∀ b, b < c.count → ¬ (c.bufs b).isFor dev nr) := by
  have linked := T.family.linked (nr % 64)
  have short := length_le_of_nodup (T.family.nodup (nr % 64)) fun b mem => (T.homed _ b mem).1
  have eq := @blkScan_eq c dev nr _ _ linked (chains (nr % 64)) [] c.count rfl short
  rw [linked.first, eq]
  cases found : (chains (nr % 64)).find? fun b => (c.bufs b).isFor dev nr with
  | some b =>
    have here := find?_some found
    exact .inl ⟨b, rfl, (T.homed _ b (mem_of_find?_eq_some found)).1, by simpa using here⟩
  | none =>
    refine .inr ⟨rfl, ?_⟩
    intro b lt here
    have mem := T.chained lt here.1
    rw [here.2.1] at mem
    exact absurd here (by simpa using find?_eq_none.mp found b mem)

end Tables

end Scan

section Steps
variable {c c' : Cache} {chains : Nat → List Nat} {lru : List Nat} {b : Nat}

namespace Tables

theorem rebuffer (T : Tables c chains lru) (lists : c'.lists = c.lists) (item : c'.listItem = c.listItem)
    (head : c'.lru = c.lru) (links : c'.lruItem = c.lruItem) (count : c'.count = c.count)
    (refcnt : ∀ x, x < c.count → (c'.bufs x).refcnt = (c.bufs x).refcnt)
    (keys : ∀ x, x < c.count → (c'.bufs x).dev = (c.bufs x).dev ∧ (c'.bufs x).nr = (c.bufs x).nr)
    (active : ∀ x, x < c.count → (c'.bufs x).valid = true → (c.bufs x).active)
    (dirty : ∀ x, x < c.count → (c'.bufs x).dirty = true → (c'.bufs x).valid = true) : Tables c' chains lru := by
  have alive : ∀ x, x < c.count → (c'.bufs x).active → (c.bufs x).active := by
    intro x lt act
    rcases act with ref | valid
    · exact .inl (by rwa [refcnt x lt] at ref)
    · exact active x lt valid
  refine ⟨by rw [lists, item]; exact T.family, ?_, ?_, by rw [head, links]; exact T.lruLinked, T.lruNodup, ?_, ?_, ?_⟩
  · intro i x mem
    obtain ⟨lt, home⟩ := T.homed i x mem
    rw [count, (keys x lt).2]
    exact ⟨lt, home⟩
  · intro x lt out
    rw [count] at lt
    rw [item]
    exact ⟨(T.loose x lt out).1, fun act => (T.loose x lt out).2 (alive x lt act)⟩
  · intro x
    rw [T.lruMem, count]
    constructor <;> rintro ⟨lt, ref⟩ <;> refine ⟨lt, ?_⟩
    · rwa [refcnt x lt]
    · rwa [refcnt x lt] at ref
  · rw [count]
    exact dirty
  · intro x y lt lt' act act' dev nr
    rw [count] at lt lt'
    rw [(keys x lt).1, (keys y lt').1] at dev
    rw [(keys x lt).2, (keys y lt').2] at nr
    exact T.unique x y lt lt' (alive x lt act) (alive y lt' act') dev nr

theorem recount (T : Tables c chains lru) (lt : b < c.count)
    (active : (c.bufs b).active) (lists : c'.lists = c.lists) (item : c'.listItem = c.listItem)
    (count : c'.count = c.count) (bufs : c'.bufs = update c.bufs b { c.bufs b with refcnt := n })
    (linked : Linked c'.lru c'.lruItem lru') (nodup : lru'.Nodup)
    (mem : ∀ x, x ∈ lru' ↔ if x = b then n = 0 else x ∈ lru) : Tables c' chains lru' := by
  have self : c'.bufs b = { c.bufs b with refcnt := n } := by rw [bufs, update_self]
  have other : ∀ x, x ≠ b → c'.bufs x = c.bufs x := fun x ne => by rw [bufs, update_of_ne ne]
  have alive : ∀ x, (c'.bufs x).active → (c.bufs x).active := by
    intro x act
    by_cases eq : x = b
    · rw [eq]
      exact active
    · rwa [other x eq] at act
  have keys : ∀ x, (c'.bufs x).dev = (c.bufs x).dev ∧ (c'.bufs x).nr = (c.bufs x).nr := by
    intro x
    by_cases eq : x = b
    · rw [eq, self]
      exact ⟨rfl, rfl⟩
    · rw [other x eq]
      exact ⟨rfl, rfl⟩
  refine ⟨by rw [lists, item]; exact T.family, ?_, ?_, linked, nodup, ?_, ?_, ?_⟩
  · intro i x here
    rw [count, (keys x).2]
    exact T.homed i x here
  · intro x inside out
    rw [count] at inside
    rw [item]
    exact ⟨(T.loose x inside out).1, fun act => (T.loose x inside out).2 (alive x act)⟩
  · intro x
    rw [mem, count]
    by_cases eq : x = b
    · rw [eq, if_pos rfl, self]
      simp [lt]
    · rw [if_neg eq, other x eq]
      exact T.lruMem x
  · intro x inside
    rw [count] at inside
    by_cases eq : x = b
    · rw [eq, self]
      exact T.dirty b lt
    · rw [other x eq]
      exact T.dirty x inside
  · intro x y inside inside' act act' dev nr
    rw [count] at inside inside'
    rw [(keys x).1, (keys y).1] at dev
    rw [(keys x).2, (keys y).2] at nr
    exact T.unique x y inside inside' (alive x act) (alive y act') dev nr

theorem hold (T : Tables c chains lru) (lt : b < c.count) (active : (c.bufs b).active) :
    Tables (setBuf b (fun x => { x with refcnt := x.refcnt + 1 })
      (if (c.bufs b).refcnt = 0 then lruRm b c else c)) chains (lru.erase b) := by
  have mem : ∀ x, x ∈ lru.erase b ↔ if x = b then (c.bufs b).refcnt + 1 = 0 else x ∈ lru := by
    intro x
    rw [T.lruNodup.mem_erase_iff]
    split <;> simp [*]
  by_cases ref : (c.bufs b).refcnt = 0
  · rw [if_pos ref]
    exact T.recount lt active rfl rfl rfl rfl
      (linked_erase T.lruLinked T.lruNodup ((T.lruMem b).mpr ⟨lt, ref⟩)) (T.lruNodup.erase b) mem
  · rw [if_neg ref]
    refine T.recount lt active rfl rfl rfl rfl ?_ (T.lruNodup.erase b) mem
    rw [erase_of_not_mem fun mem => ref ((T.lruMem b).mp mem).2]
    exact T.lruLinked

theorem drop (T : Tables c chains lru) (lt : b < c.count) (ref : (c.bufs b).refcnt ≠ 0) :
    Tables (if (c.bufs b).refcnt = 1 then lruApp b (setBuf b (fun x => { x with refcnt := x.refcnt - 1 }) c)
      else setBuf b (fun x => { x with refcnt := x.refcnt - 1 }) c) chains
      (if (c.bufs b).refcnt = 1 then lru ++ [b] else lru) := by
  have out : b ∉ lru := fun mem => ref ((T.lruMem b).mp mem).2
  split
  · rename_i last
    have grown := linked_pushBack T.lruLinked T.lruNodup out
    rw [← listApp_eq T.lruLinked] at grown
    refine T.recount lt (.inl ref) rfl rfl rfl rfl grown (T.lruNodup.append (nodup_singleton b) ?_) ?_
    · intro x mem mem'
      rw [mem_singleton.mp mem'] at mem
      exact out mem
    · intro x
      rw [mem_append, mem_singleton, last]
      split <;> simp [*]
  · rename_i more
    refine T.recount lt (.inl ref) rfl rfl rfl rfl T.lruLinked T.lruNodup ?_
    intro x
    split
    · rename_i here
      rw [here]
      exact ⟨fun mem => absurd mem out, fun zero => by omega⟩
    · exact Iff.rfl

theorem unchain (T : Tables c chains lru) (lt : b < c.count) :
    Family (chainRm ((c.bufs b).nr % 64) b c).lists (chainRm ((c.bufs b).nr % 64) b c).listItem
      (fun i => (chains i).erase b) ∧
    ∀ x, (∀ i, x ∉ chains i) → (chainRm ((c.bufs b).nr % 64) b c).listItem x = c.listItem x := by
  by_cases mem : b ∈ chains ((c.bufs b).nr % 64)
  · have lists : (fun i => (chains i).erase b) = update chains ((c.bufs b).nr % 64)
        ((chains ((c.bufs b).nr % 64)).erase b) := by
      funext i
      by_cases eq : i = (c.bufs b).nr % 64
      · rw [eq, update_self]
      · rw [update_of_ne eq, erase_of_not_mem]
        exact fun mem' => eq (T.homed i b mem').2.symm
    rw [lists]
    exact ⟨T.family.unlink mem, fun x out => unlink_frame (T.family.linked _) mem (out _)⟩
  · have none : ∀ i, b ∉ chains i := by
      intro i mem'
      rw [← (T.homed i b mem').2] at mem'
      exact mem mem'
    have absent := unlink_absent (T.family.linked ((c.bufs b).nr % 64)) (T.loose b lt none).1 mem
    have lists : (fun i => (chains i).erase b) = chains := by
      funext i
      exact erase_of_not_mem (none i)
    have same : chainRm ((c.bufs b).nr % 64) b c = c := by
      simp only [chainRm, listRm, absent, update_eq_self]
    rw [same, lists]
    exact ⟨T.family, fun _ _ => rfl⟩

theorem recycle (T : Tables c chains lru) (mem : b ∈ lru)
    (absent : ∀ x, x < c.count → ¬ (c.bufs x).isFor dev nr) (count : c'.count = c.count)
    (bufs : c'.bufs = update c.bufs b ⟨1, false, false, dev, nr, data⟩)
    (lists : c'.lists = (chainPre (nr % 64) b (chainRm ((c.bufs b).nr % 64) b c)).lists)
    (item : c'.listItem = (chainPre (nr % 64) b (chainRm ((c.bufs b).nr % 64) b c)).listItem)
    (head : c'.lru = (lruRm b c).lru) (links : c'.lruItem = (lruRm b c).lruItem) :
    ∃ chains', Tables c' chains' (lru.erase b) := by
  have lt := ((T.lruMem b).mp mem).1
  obtain ⟨family, frame⟩ := T.unchain lt
  have gone : ∀ i, b ∉ (chains i).erase b := fun i => (T.family.nodup i).not_mem_erase
  have grown := family.pushFront (nr % 64) gone
  have front := listPre_eq (family.linked (nr % 64)) b
  have self : c'.bufs b = ⟨1, false, false, dev, nr, data⟩ := by rw [bufs, update_self]
  have other : ∀ x, x ≠ b → c'.bufs x = c.bufs x := fun x ne => by rw [bufs, update_of_ne ne]
  have chain : ∀ i x, x ∈ update (fun i => (chains i).erase b) (nr % 64)
      (b :: (chains (nr % 64)).erase b) i ↔ (x = b ∧ i = nr % 64) ∨ (x ≠ b ∧ x ∈ chains i) := by
    intro i x
    by_cases eq : i = nr % 64
    · rw [eq, update_self, mem_cons, (T.family.nodup _).mem_erase_iff]
      simp
    · rw [update_of_ne eq, (T.family.nodup _).mem_erase_iff]
      simp [eq]
  refine ⟨update (fun i => (chains i).erase b) (nr % 64) (b :: (chains (nr % 64)).erase b), ?_, ?_, ?_, ?_,
    T.lruNodup.erase b, ?_, ?_, ?_⟩
  · rw [lists, item]
    simp only [chainPre, front]
    exact grown
  · intro i x here
    rw [count]
    rcases (chain i x).mp here with ⟨rfl, rfl⟩ | ⟨ne, old⟩
    · rw [self]
      exact ⟨lt, rfl⟩
    · rw [other x ne]
      exact T.homed i x old
  · intro x inside out
    rw [count] at inside
    have ne : x ≠ b := fun eq => out (nr % 64) ((chain _ _).mpr (.inl ⟨eq, rfl⟩))
    have old : ∀ i, x ∉ chains i := fun i here => out i ((chain i x).mpr (.inr ⟨ne, here⟩))
    rw [other x ne, item]
    refine ⟨?_, (T.loose x inside old).2⟩
    simp only [chainPre, front]
    rw [pushFront_frame (family.linked (nr % 64)) ne fun here => old _ (mem_of_mem_erase here), frame x old]
    exact (T.loose x inside old).1
  · rw [head, links]
    exact linked_erase T.lruLinked T.lruNodup mem
  · intro x
    rw [T.lruNodup.mem_erase_iff, T.lruMem, count]
    by_cases eq : x = b
    · simp [eq, self]
    · simp [eq, other x eq]
  · intro x inside
    rw [count] at inside
    by_cases eq : x = b
    · simp [eq, self]
    · rw [other x eq]
      exact T.dirty x inside
  · intro x y inside inside' act act' devs nrs
    rw [count] at inside inside'
    by_cases eq : x = b <;> by_cases eq' : y = b
    · exact eq.trans eq'.symm
    · rw [eq, self, other y eq'] at devs nrs
      rw [other y eq'] at act'
      exact absurd ⟨act', nrs.symm, devs.symm⟩ (absent y inside')
    · rw [eq', self, other x eq] at devs nrs
      rw [other x eq] at act
      exact absurd ⟨act, nrs, devs⟩ (absent x inside)
    · rw [other x eq] at act devs nrs
      rw [other y eq'] at act' devs nrs
      exact T.unique x y inside inside' act act' devs nrs

end Tables

end Steps

/- The blocks that the cache stores -/

/-- A reference that a caller holds: the buffer it was given for the block it asked for. -/
structure Handle where
  buf : Nat
  dev : Nat
  nr : Nat
  deriving DecidableEq

/-- The lists and the buffers while the references `held` are out, whatever the buffers hold. -/
structure Rep (c : Cache) (held : List Handle) : Prop where
  tables : ∃ chains lru, Tables c chains lru
  refs : ∀ b, b < c.count → (c.bufs b).refcnt = held.countP fun h => h.buf = b
  keys : ∀ h ∈ held, h.buf < c.count ∧ (c.bufs h.buf).dev = h.dev ∧ (c.bufs h.buf).nr = h.nr

theorem setBuf_drop (b x : Nat) (c : Cache) : (setBuf b (fun x => { x with refcnt := x.refcnt - 1 }) c).bufs x =
    { c.bufs x with refcnt := (c.bufs x).refcnt - if x = b then 1 else 0 } := by
  by_cases eq : x = b
  · rw [eq, if_pos rfl]
    simp only [setBuf, update_self]
  · rw [if_neg eq]
    simp only [setBuf, update_of_ne eq]
    rfl

section Representation
variable {c c' : Cache} {held : List Handle} {b dev nr : Nat}

namespace Rep

section
variable (R : Rep c held)
include R

theorem held_refcnt (mem : h ∈ held) : (c.bufs h.buf).refcnt ≠ 0 := by
  rw [R.refs h.buf (R.keys h mem).1]
  exact Nat.pos_iff_ne_zero.mp (countP_pos_iff.mpr ⟨h, mem, by simp⟩)

theorem dirty (x : Nat) (lt : x < c.count) : (c.bufs x).dirty = true → (c.bufs x).valid = true := by
  obtain ⟨_, _, T⟩ := R.tables
  exact T.dirty x lt

theorem rebuffer (lists : c'.lists = c.lists) (item : c'.listItem = c.listItem)
    (head : c'.lru = c.lru) (links : c'.lruItem = c.lruItem) (count : c'.count = c.count)
    (keys : ∀ x, (c'.bufs x).refcnt = (c.bufs x).refcnt ∧ (c'.bufs x).dev = (c.bufs x).dev ∧
      (c'.bufs x).nr = (c.bufs x).nr)
    (active : ∀ x, x < c.count → (c'.bufs x).valid = true → (c.bufs x).active)
    (dirty : ∀ x, x < c.count → (c'.bufs x).dirty = true → (c'.bufs x).valid = true) : Rep c' held := by
  obtain ⟨chains, lru, T⟩ := R.tables
  refine ⟨⟨chains, lru, T.rebuffer lists item head links count (fun x _ => (keys x).1) (fun x _ => (keys x).2)
    active dirty⟩, ?_, ?_⟩
  · intro x inside
    rw [count] at inside
    rw [(keys x).1]
    exact R.refs x inside
  · intro h mem
    rw [count, (keys h.buf).2.1, (keys h.buf).2.2]
    exact R.keys h mem

theorem hold (lt : b < c.count) (here : (c.bufs b).isFor dev nr) :
    Rep (setBuf b (fun x => { x with refcnt := x.refcnt + 1 })
      (if (c.bufs b).refcnt = 0 then lruRm b c else c)) (⟨b, dev, nr⟩ :: held) := by
  obtain ⟨chains, lru, T⟩ := R.tables
  have tables := T.hold lt here.1
  generalize eq : (if (c.bufs b).refcnt = 0 then lruRm b c else c) = d at tables
  have same : d.bufs = c.bufs ∧ d.count = c.count := by
    rw [← eq]
    split <;> exact ⟨rfl, rfl⟩
  obtain ⟨bufs, count⟩ := same
  have self : (setBuf b (fun x => { x with refcnt := x.refcnt + 1 }) d).bufs b =
      { c.bufs b with refcnt := (c.bufs b).refcnt + 1 } := by
    simp only [setBuf, bufs, update_self]
  have other : ∀ x, x ≠ b → (setBuf b (fun x => { x with refcnt := x.refcnt + 1 }) d).bufs x = c.bufs x := by
    intro x ne
    simp only [setBuf, bufs, update_of_ne ne]
  refine ⟨⟨chains, _, tables⟩, ?_, ?_⟩
  · intro x inside
    have inside' : x < c.count := by
      rw [← count]
      exact inside
    rw [countP_cons, ← R.refs x inside']
    by_cases eq : x = b
    · rw [eq, self]
      simp
    · rw [other x eq]
      simp [Ne.symm eq]
  · intro h mem
    show h.buf < d.count ∧ _
    rw [count]
    rcases mem_cons.mp mem with rfl | mem
    · rw [self]
      exact ⟨lt, here.2.2, here.2.1⟩
    · by_cases eq : h.buf = b
      · have key := R.keys h mem
        rw [eq] at key ⊢
        rw [self]
        exact key
      · rw [other h.buf eq]
        exact R.keys h mem

theorem drop (mem : h ∈ held) :
    Rep (if (c.bufs h.buf).refcnt = 1 then lruApp h.buf (setBuf h.buf (fun x => { x with refcnt := x.refcnt - 1 }) c)
      else setBuf h.buf (fun x => { x with refcnt := x.refcnt - 1 }) c) (held.erase h) := by
  obtain ⟨chains, lru, T⟩ := R.tables
  have tables := T.drop (R.keys h mem).1 (R.held_refcnt mem)
  generalize eq : (if (c.bufs h.buf).refcnt = 1 then
    lruApp h.buf (setBuf h.buf (fun x => { x with refcnt := x.refcnt - 1 }) c)
    else setBuf h.buf (fun x => { x with refcnt := x.refcnt - 1 }) c) = d at tables
  have same : d.bufs = (setBuf h.buf (fun x => { x with refcnt := x.refcnt - 1 }) c).bufs ∧ d.count = c.count := by
    rw [← eq]
    split <;> exact ⟨rfl, rfl⟩
  obtain ⟨bufs, count⟩ := same
  have at' : ∀ x, d.bufs x = { c.bufs x with refcnt := (c.bufs x).refcnt - if x = h.buf then 1 else 0 } := by
    intro x
    rw [bufs, setBuf_drop]
  refine ⟨⟨chains, _, tables⟩, ?_, ?_⟩
  · intro x inside
    rw [at', R.refs x (by rw [← count]; exact inside), (perm_cons_erase mem).countP_eq, countP_cons]
    by_cases eq : x = h.buf
    · simp [eq]
    · simp [eq, Ne.symm eq]
  · intro g mem'
    rw [at', count]
    exact R.keys g (mem_of_mem_erase mem')

theorem recycle {chains} (T : Tables c chains lru) (data : Blk)
    (mem : b ∈ lru) (absent : ∀ x, x < c.count → ¬ (c.bufs x).isFor dev nr) (count : c'.count = c.count)
    (bufs : c'.bufs = update c.bufs b ⟨1, false, false, dev, nr, data⟩)
    (lists : c'.lists = (chainPre (nr % 64) b (chainRm ((c.bufs b).nr % 64) b c)).lists)
    (item : c'.listItem = (chainPre (nr % 64) b (chainRm ((c.bufs b).nr % 64) b c)).listItem)
    (head : c'.lru = (lruRm b c).lru) (links : c'.lruItem = (lruRm b c).lruItem) :
    Rep c' (⟨b, dev, nr⟩ :: held) := by
  obtain ⟨lt, idle⟩ := (T.lruMem b).mp mem
  have self : c'.bufs b = ⟨1, false, false, dev, nr, data⟩ := by rw [bufs, update_self]
  have other : ∀ x, x ≠ b → c'.bufs x = c.bufs x := fun x ne => by rw [bufs, update_of_ne ne]
  have free : ∀ h ∈ held, h.buf ≠ b := by
    rintro h mem' rfl
    exact R.held_refcnt mem' idle
  obtain ⟨chains', T'⟩ := T.recycle mem absent count bufs lists item head links
  refine ⟨⟨chains', _, T'⟩, ?_, ?_⟩
  · intro x inside
    rw [count] at inside
    rw [countP_cons]
    by_cases eq : x = b
    · have none : held.countP (fun h => h.buf = b) = 0 := countP_eq_zero.mpr fun h mem' => by simpa using free h mem'
      rw [eq, self, none]
      simp
    · rw [other x eq, R.refs x inside]
      simp [Ne.symm eq]
  · intro h mem'
    rw [count]
    rcases mem_cons.mp mem' with rfl | mem'
    · rw [self]
      exact ⟨lt, rfl, rfl⟩
    · rw [other _ (free h mem')]
      exact R.keys h mem'

end

theorem lruPre_fold (l : List Nat) : ∀ {c : Cache} {lru : List Nat}, Linked c.lru c.lruItem lru → lru.Nodup →
    l.Nodup → (∀ b ∈ l, b ∉ lru) → ∃ head links, l.foldl (fun c b => lruPre b c) c = { c with lru := head, lruItem := links } ∧
      Linked head links (l.reverse ++ lru) ∧ (l.reverse ++ lru).Nodup := by
  induction l with
  | nil => exact fun linked nodup _ _ => ⟨_, _, rfl, linked, nodup⟩
  | cons b l ih =>
    intro c lru linked nodup nodup' new
    obtain ⟨out, nodup''⟩ := nodup_cons.mp nodup'
    have fresh := new b (mem_cons_self ..)
    have grown := linked_pushFront linked nodup fresh
    rw [← listPre_eq linked] at grown
    obtain ⟨head, links, eq, linked', all⟩ := ih (c := lruPre b c) grown (nodup_cons.mpr ⟨fresh, nodup⟩) nodup'' (by
      intro x mem mem'
      rcases mem_cons.mp mem' with rfl | mem'
      · exact out mem
      · exact new x (mem_cons_of_mem _ mem) mem')
    refine ⟨head, links, by rw [foldl_cons, eq]; rfl, ?_, ?_⟩
    · rw [reverse_cons, append_assoc, singleton_append]
      exact linked'
    · rw [reverse_cons, append_assoc, singleton_append]
      exact all

theorem add (R : Rep c held) (n : Nat) : Rep { addBufs c.count n c with count := c.count + n } held := by
  obtain ⟨chains, lru, T⟩ := R.tables
  have old : ∀ {x}, x < c.count → ¬ (c.count ≤ x ∧ x < c.count + n) := fun lt => by omega
  have oldLru : ∀ x ∈ lru, x < c.count := fun x mem => ((T.lruMem x).mp mem).1
  have linked : Linked c.lru (fun k => if c.count ≤ k ∧ k < c.count + n then Item.null else c.lruItem k) lru :=
    T.lruLinked.congr fun x mem => if_neg (old (oldLru x mem))
  obtain ⟨head, links, eq, linked', nodup⟩ := lruPre_fold (range' c.count n)
    (c := { c with bufs := fun k => if c.count ≤ k ∧ k < c.count + n then Buf.unused else c.bufs k
                   listItem := fun k => if c.count ≤ k ∧ k < c.count + n then Item.null else c.listItem k
                   lruItem := fun k => if c.count ≤ k ∧ k < c.count + n then Item.null else c.lruItem k })
    linked T.lruNodup nodup_range' (by
      intro b mem mem'
      have := (mem_range'_1.mp mem).1
      have := oldLru b mem'
      omega)
  have bufs : ∀ x, x < c.count → (if c.count ≤ x ∧ x < c.count + n then Buf.unused else c.bufs x) = c.bufs x :=
    fun x lt => if_neg (old lt)
  have fresh : ∀ x, x < c.count + n → ¬ x < c.count →
      (if c.count ≤ x ∧ x < c.count + n then Buf.unused else c.bufs x) = Buf.unused :=
    fun x lt ge => if_pos ⟨Nat.le_of_not_lt ge, lt⟩
  have still : ¬ Buf.unused.active := by decide
  rw [addBufs, eq]
  refine ⟨⟨chains, _, ⟨?_, ?_, ?_, linked', nodup, ?_, ?_, ?_⟩⟩, ?_, ?_⟩
  · refine ⟨fun i => (T.family.linked i).congr ?_, T.family.nodup, T.family.apart⟩
    exact fun x mem => if_neg (old (T.homed i x mem).1)
  · intro i x mem
    obtain ⟨lt, home⟩ := T.homed i x mem
    refine ⟨Nat.lt_add_right n lt, ?_⟩
    show (if _ then _ else _ : Buf).nr % 64 = i
    rw [bufs x lt]
    exact home
  · intro x inside out
    by_cases lt : x < c.count
    · show (if _ then _ else _) = Item.null ∧ ¬ (if _ then _ else _ : Buf).active
      rw [if_neg (old lt), bufs x lt]
      exact T.loose x lt out
    · show (if _ then _ else _) = Item.null ∧ ¬ (if _ then _ else _ : Buf).active
      rw [if_pos ⟨Nat.le_of_not_lt lt, inside⟩, fresh x inside lt]
      exact ⟨rfl, still⟩
  · intro x
    show _ ↔ x < c.count + n ∧ (if _ then _ else _ : Buf).refcnt = 0
    rw [mem_append, mem_reverse, mem_range'_1, T.lruMem]
    by_cases lt : x < c.count
    · rw [bufs x lt]
      constructor
      · rintro (new | ⟨_, ref⟩)
        · omega
        · exact ⟨by omega, ref⟩
      · exact fun ⟨_, ref⟩ => .inr ⟨lt, ref⟩
    · constructor
      · rintro (new | ⟨lt', _⟩)
        · rw [fresh x new.2 lt]
          exact ⟨new.2, rfl⟩
        · exact absurd lt' lt
      · exact fun ⟨lt', _⟩ => .inl ⟨Nat.le_of_not_lt lt, lt'⟩
  · intro x inside
    show (if _ then _ else _ : Buf).dirty = true → (if _ then _ else _ : Buf).valid = true
    by_cases lt : x < c.count
    · rw [bufs x lt]
      exact T.dirty x lt
    · rw [fresh x inside lt]
      exact fun h => by cases h
  · intro x y inside inside'
    show (if _ then _ else _ : Buf).active → (if _ then _ else _ : Buf).active → (if _ then _ else _ : Buf).dev =
      (if _ then _ else _ : Buf).dev → (if _ then _ else _ : Buf).nr = (if _ then _ else _ : Buf).nr → x = y
    by_cases lt : x < c.count
    · by_cases lt' : y < c.count
      · rw [bufs x lt, bufs y lt']
        exact T.unique x y lt lt'
      · rw [fresh y inside' lt']
        exact fun _ act => absurd act still
    · rw [fresh x inside lt]
      exact fun act => absurd act still
  · intro x inside
    show (if _ then _ else _ : Buf).refcnt = _
    by_cases lt : x < c.count
    · rw [bufs x lt]
      exact R.refs x lt
    · have none : held.countP (fun h => h.buf = x) = 0 := by
        refine countP_eq_zero.mpr fun h mem => ?_
        have := (R.keys h mem).1
        simp only [decide_eq_true_eq]
        omega
      rw [fresh x inside lt, none]
      rfl
  · intro h mem
    obtain ⟨lt, key⟩ := R.keys h mem
    refine ⟨Nat.lt_add_right n lt, ?_⟩
    show (if _ then _ else _ : Buf).dev = h.dev ∧ (if _ then _ else _ : Buf).nr = h.nr
    rw [bufs h.buf lt]
    exact key

end Rep

end Representation

/-- Every block that the device does not have as it was last stored is in a buffer that is marked dirty. -/
def Backed (c : Cache) (store : Disks) : Prop :=
  ∀ dev nr, c.disk dev nr = store dev nr ∨
    ∃ b, b < c.count ∧ (c.bufs b).dirty = true ∧ (c.bufs b).dev = dev ∧ (c.bufs b).nr = nr ∧
      (c.bufs b).data = store dev nr

/-- The state of the cache while the references `held` are out and `store` is what was stored. -/
structure Inv (c : Cache) (held : List Handle) (store : Disks) : Prop where
  tables : ∃ chains lru, Tables c chains lru
  cached : ∀ b, b < c.count → (c.bufs b).valid = true → (c.bufs b).data = store (c.bufs b).dev (c.bufs b).nr
  backed : Backed c store
  refs : ∀ b, b < c.count → (c.bufs b).refcnt = held.countP fun h => h.buf = b
  keys : ∀ h ∈ held, h.buf < c.count ∧ (c.bufs h.buf).dev = h.dev ∧ (c.bufs h.buf).nr = h.nr

section Rules
variable {io : Io} {c : Cache} {held : List Handle} {store : Disks} {b dev nr : Nat}

/-- The loop over the free buffers keeps what `blk_sync` keeps. -/
theorem wp_syncLru {P : Cache → Prop} (tables : ∀ {c}, P c → ∃ chains lru, Tables c chains lru) (pick : Buf → Bool)
    (flags : Nat) {Q : Res Errno Unit → Cache → Prop}
    (round : ∀ {b c} {Q : Res Errno Unit → Cache → Prop}, P c → b < c.count →
      (∀ c', P c' → c'.lruItem = c.lruItem → c'.count = c.count → Q (.ok ()) c') → wp (blkSync io flags b) Q c)
    (start : P c) (post : ∀ c', P c' → Q (.ok ()) c') : wp (syncFrom io pick flags c.count c.lru.first) Q c := by
  obtain ⟨chains, lru, T⟩ := tables start
  have loop : ∀ (rest seen : List Nat) (n : Nat) (d : Cache), lru = seen ++ rest → rest.length ≤ n →
      (∀ b ∈ rest, b < d.count) → d.lruItem = c.lruItem → P d → wp (syncFrom io pick flags n rest.head?) Q d := by
    intro rest
    induction rest with
    | nil =>
      intro seen n d _ _ _ _ here
      cases n <;> exact post d here
    | cons b rest ih =>
      intro seen n d split room inside links here
      cases n with
      | zero => exact absurd room (by simp)
      | succ n =>
        have next := T.lruLinked.next split
        have tail : ∀ d', P d' → d'.lruItem = d.lruItem → d'.count = d.count → wp (do
            let c ← get
            syncFrom io pick flags n (c.lruItem b).next) Q d' := by
          intro d' here' links' count
          simp only [wp_bind, wp_get, after_ok, links', links, next]
          refine ih (seen ++ [b]) n d' (by rw [split]; simp) (by simpa using room) ?_ (links'.trans links) here'
          rw [count]
          exact fun x mem => inside x (mem_cons_of_mem _ mem)
        simp only [head?_cons, syncFrom, wp_bind, wp_get, after_ok]
        split
        · rw [wp_bind]
          exact round here (inside b (mem_cons_self ..)) tail
        · exact tail d here rfl rfl
  have inside : ∀ b ∈ lru, b < c.count := fun b mem => ((T.lruMem b).mp mem).1
  rw [T.lruLinked.first]
  exact loop lru [] c.count c rfl (length_le_of_nodup T.lruNodup inside) inside rfl start

namespace Inv

theorem rep (I : Inv c held store) : Rep c held := ⟨I.tables, I.refs, I.keys⟩

theorem held_refcnt (I : Inv c held store) (mem : h ∈ held) : (c.bufs h.buf).refcnt ≠ 0 :=
  I.rep.held_refcnt mem

theorem clock (I : Inv c held store) (users : Nat → Nat) (tick : Nat) :
    Inv { c with users := users, tick := tick } held store := by
  obtain ⟨chains, lru, T⟩ := I.tables
  exact ⟨⟨chains, lru, ⟨T.family, T.homed, T.loose, T.lruLinked, T.lruNodup, T.lruMem, T.dirty, T.unique⟩⟩,
    I.cached, I.backed, I.refs, I.keys⟩

variable {Q : Res Errno Unit → Cache → Prop}

theorem wp_ask (I : Inv c held store) (ok : ∀ n, Inv { c with tick := n } held store → Q (.ok ()) { c with tick := n })
    (failed : ∀ e n, Inv { c with tick := n } held store → Q (.err e) { c with tick := n }) :
    wp (ask oracle) Q c := by
  rw [wp, ask]
  split
  · exact failed _ _ (I.clock ..)
  · exact ok _ (I.clock ..)

theorem touch (I : Inv c held store) (lt : b < c.count)
    (lists : c'.lists = c.lists) (item : c'.listItem = c.listItem) (head : c'.lru = c.lru)
    (links : c'.lruItem = c.lruItem) (count : c'.count = c.count) (bufs : c'.bufs = update c.bufs b x)
    (refcnt : x.refcnt = (c.bufs b).refcnt) (dev : x.dev = (c.bufs b).dev) (nr : x.nr = (c.bufs b).nr)
    (active : x.valid = true → (c.bufs b).active) (own : (c.bufs b).active ∨ store' = store)
    (dirty : x.dirty = true → x.valid = true) (data : x.valid = true → x.data = store' x.dev x.nr)
    (backed : c'.disk x.dev x.nr = store' x.dev x.nr ∨ (x.dirty = true ∧ x.data = store' x.dev x.nr))
    (frame : ∀ dev' nr', ¬ (dev' = x.dev ∧ nr' = x.nr) →
      store' dev' nr' = store dev' nr' ∧ c'.disk dev' nr' = c.disk dev' nr') : Inv c' held store' := by
  obtain ⟨chains, lru, T⟩ := I.tables
  have self : c'.bufs b = x := by rw [bufs, update_self]
  have other : ∀ y, y ≠ b → c'.bufs y = c.bufs y := fun y ne => by rw [bufs, update_of_ne ne]
  have keys : ∀ y, (c'.bufs y).refcnt = (c.bufs y).refcnt ∧ (c'.bufs y).dev = (c.bufs y).dev ∧
      (c'.bufs y).nr = (c.bufs y).nr := by
    intro y
    by_cases same : y = b
    · rw [same, self]
      exact ⟨refcnt, dev, nr⟩
    · rw [other y same]
      exact ⟨rfl, rfl, rfl⟩
  have rep : Rep c' held := by
    refine I.rep.rebuffer lists item head links count keys ?_ ?_
    · intro y _ valid
      by_cases same : y = b
      · rw [same, self] at valid
        rw [same]
        exact active valid
      · rw [other y same] at valid
        exact .inr valid
    · intro y inside
      by_cases same : y = b
      · rw [same, self]
        exact dirty
      · rw [other y same]
        exact T.dirty y inside
  refine ⟨rep.tables, ?_, ?_, rep.refs, rep.keys⟩
  · intro y inside valid
    rw [count] at inside
    by_cases same : y = b
    · rw [same, self] at valid ⊢
      exact data valid
    · rw [other y same] at valid ⊢
      rw [I.cached y inside valid]
      rcases own with act | eq
      · rw [(frame _ _ _).1]
        rintro ⟨sameDev, sameNr⟩
        exact same (T.unique y b inside lt (.inr valid) act (sameDev.trans dev) (sameNr.trans nr))
      · rw [eq]
  · intro dev' nr'
    by_cases key : dev' = x.dev ∧ nr' = x.nr
    · rw [key.1, key.2]
      refine backed.imp_right fun ⟨mark, eq⟩ => ⟨b, by rw [count]; exact lt, ?_⟩
      rw [self]
      exact ⟨mark, rfl, rfl, eq⟩
    · rw [(frame _ _ key).1, (frame _ _ key).2, count]
      refine (I.backed dev' nr').imp_right ?_
      rintro ⟨y, inside, mark, devY, nrY, dataY⟩
      have ne : y ≠ b := by
        rintro rfl
        exact key ⟨devY.symm.trans dev.symm, nrY.symm.trans nr.symm⟩
      refine ⟨y, inside, ?_⟩
      rw [other y ne]
      exact ⟨mark, devY, nrY, dataY⟩

theorem setDisk_same (d : Disks) (dev nr : Nat) (m : Blk) : setDisk d dev nr m dev nr = m := by
  simp only [setDisk, update_self]

theorem setDisk_ne (d : Disks) (m : Blk) (ne : ¬ (dev' = dev ∧ nr' = nr)) :
    setDisk d dev nr m dev' nr' = d dev' nr' := by
  by_cases same : dev' = dev
  · rw [same, setDisk, update_self, update_of_ne fun eq => ne ⟨same, eq⟩]
  · rw [setDisk, update_of_ne same]

section
variable (I : Inv c held store)
include I

theorem clean (lt : b < c.count) (active : (c.bufs b).active)
    (notDirty : (c.bufs b).dirty = false) :
    c.disk (c.bufs b).dev (c.bufs b).nr = store (c.bufs b).dev (c.bufs b).nr := by
  obtain ⟨chains, lru, T⟩ := I.tables
  refine (I.backed _ _).resolve_right ?_
  rintro ⟨y, inside, mark, dev, nr, _⟩
  have same := T.unique y b inside lt (.inr (T.dirty y inside mark)) active dev nr
  rw [same, notDirty] at mark
  cases mark

theorem fill (mem : h ∈ held) (data : Blk) :
    Inv (setBuf h.buf (fun x => { x with data := data, dirty := true, valid := true }) c) held
      (setDisk store h.dev h.nr data) := by
  obtain ⟨lt, dev, nr⟩ := I.keys h mem
  have active : (c.bufs h.buf).active := .inl (I.held_refcnt mem)
  have here : setDisk store h.dev h.nr data (c.bufs h.buf).dev (c.bufs h.buf).nr = data := by
    rw [dev, nr, setDisk_same]
  refine I.touch lt rfl rfl rfl rfl rfl rfl rfl rfl rfl (fun _ => active) (.inl active) (fun _ => rfl)
    (fun _ => here.symm) (.inr ⟨rfl, here.symm⟩) ?_
  intro dev' nr' ne
  exact ⟨setDisk_ne _ _ (by rw [← dev, ← nr]; exact ne), rfl⟩

theorem load (lt : b < c.count) (ref : (c.bufs b).refcnt ≠ 0)
    (invalid : (c.bufs b).valid = false) :
    Inv (setBuf b (fun x => { x with data := c.disk x.dev x.nr, valid := true }) c) held store := by
  have notDirty : (c.bufs b).dirty = false := by
    obtain ⟨_, _, T⟩ := I.tables
    cases mark : (c.bufs b).dirty with
    | false => rfl
    | true => rw [T.dirty b lt mark] at invalid; cases invalid
  have clean := I.clean lt (.inl ref) notDirty
  exact I.touch lt rfl rfl rfl rfl rfl rfl rfl rfl rfl (fun _ => .inl ref) (.inr rfl) (fun _ => rfl) (fun _ => clean)
    (.inl clean) fun _ _ _ => ⟨rfl, rfl⟩

theorem invalidate (lt : b < c.count) (notDirty : (c.bufs b).dirty = false) :
    Inv (setBuf b (fun x => { x with valid := false }) c) held store := by
  by_cases active : (c.bufs b).active
  · exact I.touch lt rfl rfl rfl rfl rfl rfl rfl rfl rfl (fun h => by cases h) (.inr rfl)
      (fun mark => by rw [notDirty] at mark; cases mark) (fun h => by cases h)
      (.inl (I.clean lt active notDirty)) fun _ _ _ => ⟨rfl, rfl⟩
  · have invalid : (c.bufs b).valid = false := by
      cases valid : (c.bufs b).valid with
      | false => rfl
      | true => exact absurd (.inr valid) active
    have same : setBuf b (fun x => { x with valid := false }) c = c := by
      simp only [setBuf, ← invalid, update_eq_self]
    rw [same]
    exact I

theorem writeBack (lt : b < c.count) (valid : (c.bufs b).valid = true) (tick : Nat) :
    Inv { setBuf b (fun x => { x with dirty := false }) c with
      disk := setDisk c.disk (c.bufs b).dev (c.bufs b).nr (c.bufs b).data, tick := tick } held store := by
  have data := I.cached b lt valid
  refine I.touch lt rfl rfl rfl rfl rfl rfl rfl rfl rfl (fun _ => .inr valid) (.inr rfl) (fun h => by cases h)
    (fun _ => data) (.inl ?_) fun dev' nr' ne => ⟨rfl, setDisk_ne _ _ ne⟩
  rw [← data]
  exact setDisk_same ..

theorem wp_hold (lt : b < c.count) (here : (c.bufs b).isFor dev nr)
    {Q : Res Errno Nat → Cache → Prop}
    (post : ∀ c', Inv c' (⟨b, dev, nr⟩ :: held) store → Q (.ok b) c') : wp (blkHold b) Q c := by
  have rep := I.rep.hold lt here
  have out : Inv (setBuf b (fun x => { x with refcnt := x.refcnt + 1 })
      (if (c.bufs b).refcnt = 0 then lruRm b c else c)) (⟨b, dev, nr⟩ :: held) store := by
    generalize eq : (if (c.bufs b).refcnt = 0 then lruRm b c else c) = d at rep
    have same : d.bufs = c.bufs ∧ d.count = c.count ∧ d.disk = c.disk := by
      rw [← eq]
      split <;> exact ⟨rfl, rfl, rfl⟩
    obtain ⟨bufs, count, disk⟩ := same
    have at' : ∀ x, (setBuf b (fun x => { x with refcnt := x.refcnt + 1 }) d).bufs x =
        { c.bufs x with refcnt := (c.bufs x).refcnt + if x = b then 1 else 0 } := by
      intro x
      by_cases eq : x = b
      · rw [eq, if_pos rfl]
        simp only [setBuf, bufs, update_self]
      · rw [if_neg eq]
        simp only [setBuf, bufs, update_of_ne eq]
        rfl
    refine ⟨rep.tables, ?_, ?_, rep.refs, rep.keys⟩
    · intro x inside
      rw [at']
      exact I.cached x (by rw [← count]; exact inside)
    · intro dev' nr'
      show d.disk _ _ = _ ∨ ∃ x, x < d.count ∧ _
      rw [disk, count]
      refine (I.backed dev' nr').imp_right ?_
      rintro ⟨x, inside, rest⟩
      refine ⟨x, inside, ?_⟩
      rw [at']
      exact rest
  simp only [blkHold, wp_bind, wp_get, after_ok]
  split at out <;> rename_i ref
  · simp only [if_pos ref, wp_bind, wp_modify, after_ok, wp_pure]
    exact post _ out
  · simp only [if_neg ref, wp_bind, wp_modify, after_ok, wp_pure]
    exact post _ out

end

def recycled (c : Cache) (b dev nr : Nat) : Cache :=
  { chainPre (nr % 64) b (lruRm b (chainRm ((c.bufs b).nr % 64) b c)) with
    bufs := update c.bufs b ⟨1, false, false, dev, nr, (c.bufs b).data⟩
    disk := if (c.bufs b).dirty then setDisk c.disk (c.bufs b).dev (c.bufs b).nr (c.bufs b).data else c.disk
    tick := if (c.bufs b).dirty then c.tick + 1 else c.tick }

theorem wp_write (writes : ∀ n, io.write n = none) (valid : (c.bufs b).valid = true)
    (post : (c.bufs b).dirty = true → Q (.ok ()) { setBuf b (fun x => { x with dirty := false }) c with
      disk := setDisk c.disk (c.bufs b).dev (c.bufs b).nr (c.bufs b).data, tick := c.tick + 1 })
    (skip : (c.bufs b).dirty = false → Q (.ok ()) c) : wp (blkWrite io b) Q c := by
  simp only [blkWrite, wp_bind, wp_get, after_ok, valid, Bool.not_true, Bool.false_eq_true, if_false]
  cases mark : (c.bufs b).dirty with
  | false => exact skip mark
  | true =>
    have key : (setBuf b (fun x => { x with dirty := false }) c).bufs b = { c.bufs b with dirty := false } :=
      update_self ..
    have out := post mark
    simp only [Bool.not_true, Bool.false_eq_true, if_false, wp_bind, wp_modify, after_ok]
    rw [wp, ask, writes]
    show Q (.ok ()) { setBuf b (fun x => { x with dirty := false }) c with
      disk := setDisk c.disk _ _ _, tick := _ }
    rw [key]
    exact out

theorem blkRecycle_eq (writes : ∀ n, io.write n = none)
    (valid : (c.bufs b).dirty = true → (c.bufs b).valid = true) :
    blkRecycle io b dev nr c = (.ok b, recycled c b dev nr) := by
  have result : wp (blkRecycle io b dev nr) (fun r d => r = .ok b ∧ d = recycled c b dev nr) c := by
    simp only [blkRecycle, wp_bind, wp_get, wp_modify, after_ok]
    cases mark : (c.bufs b).dirty with
    | true =>
      simp only [if_true, wp_bind, wp_attempt]
      apply wp_write (c := lruRm b (chainRm ((c.bufs b).nr % 64) b c)) writes (valid mark)
      · intro _
        simp only [caught_ok, after_ok, wp_bind, wp_modify, wp_pure, recycled, mark, if_true,
          setBuf, chainPre, lruRm, chainRm, update_self, update_idem]
        exact ⟨trivial, trivial⟩
      · exact fun clean => absurd (mark.symm.trans clean) (by simp)
    | false =>
      simp only [Bool.false_eq_true, if_false, wp_bind, wp_modify, after_ok, wp_pure, recycled, mark,
        setBuf, chainPre, lruRm, chainRm, true_and]
  exact Prod.ext result.1 result.2

theorem recycle {chains} (I : Inv c held store) (T : Tables c chains lru)
    (mem : b ∈ lru) (absent : ∀ x, x < c.count → ¬ (c.bufs x).isFor dev nr) :
    Inv (recycled c b dev nr) (⟨b, dev, nr⟩ :: held) store := by
  have lt := ((T.lruMem b).mp mem).1
  have self : (recycled c b dev nr).bufs b = ⟨1, false, false, dev, nr, (c.bufs b).data⟩ := update_self ..
  have other : ∀ x, x ≠ b → (recycled c b dev nr).bufs x = c.bufs x := fun x ne => update_of_ne ne ..
  -- the block that was in the buffer has been written
  have written : ∀ dev' nr', (recycled c b dev nr).disk dev' nr' =
      if (c.bufs b).dirty = true ∧ dev' = (c.bufs b).dev ∧ nr' = (c.bufs b).nr then (c.bufs b).data
      else c.disk dev' nr' := by
    intro dev' nr'
    show (if (c.bufs b).dirty then setDisk _ _ _ _ else c.disk) dev' nr' = _
    by_cases mark : (c.bufs b).dirty = true
    · by_cases key : dev' = (c.bufs b).dev ∧ nr' = (c.bufs b).nr
      · rw [if_pos mark, if_pos ⟨mark, key⟩, key.1, key.2, setDisk_same]
      · rw [if_pos mark, if_neg fun h => key h.2, setDisk_ne _ _ key]
    · rw [if_neg mark, if_neg fun h => mark h.1]
  have rep : Rep (recycled c b dev nr) (⟨b, dev, nr⟩ :: held) :=
    I.rep.recycle T _ mem absent rfl rfl rfl rfl rfl rfl
  refine ⟨rep.tables, ?_, ?_, rep.refs, rep.keys⟩
  · intro x inside
    by_cases eq : x = b
    · rw [eq, self]
      exact fun h => by cases h
    · rw [other x eq]
      exact I.cached x inside
  · intro dev' nr'
    rw [written]
    split
    · rename_i key
      rw [key.2.1, key.2.2]
      exact .inl (I.cached b lt (T.dirty b lt key.1))
    · rename_i key
      refine (I.backed dev' nr').imp_right ?_
      rintro ⟨x, inside, mark, devX, nrX, dataX⟩
      have ne : x ≠ b := by
        rintro rfl
        exact key ⟨mark, devX.symm, nrX.symm⟩
      refine ⟨x, inside, ?_⟩
      rw [other x ne]
      exact ⟨mark, devX, nrX, dataX⟩

theorem idle {chains} (I : Inv c held store) (T : Tables c chains lru)
    (few : held.length < c.count) : lru ≠ [] := by
  rintro rfl
  have sub : range c.count ⊆ held.map Handle.buf := by
    intro b mem
    have lt := mem_range.mp mem
    have ref : (c.bufs b).refcnt ≠ 0 := fun ref => by cases (T.lruMem b).mpr ⟨lt, ref⟩
    rw [I.refs b lt] at ref
    obtain ⟨h, mem', eq⟩ := countP_pos_iff.mp (Nat.pos_iff_ne_zero.mpr ref)
    exact mem_map.mpr ⟨h, mem', by simpa using eq⟩
  have length := (subperm_of_subset nodup_range sub).length_le
  rw [length_range, length_map] at length
  omega

theorem wp_get (writes : ∀ n, io.write n = none) (I : Inv c held store) {Q : Res Errno Nat → Cache → Prop}
    (done : ∀ b c', c'.count = c.count → Inv c' (⟨b, dev, nr⟩ :: held) store → Q (.ok b) c')
    (full : c.count ≤ held.length → Q (.err .ENOMEM) c) : wp (blkGet io dev nr) Q c := by
  obtain ⟨chains, lru, T⟩ := I.tables
  simp only [blkGet, wp_bind, Cmd.wp_get, after_ok]
  rcases T.scan dev nr with ⟨b, scan, lt, here⟩ | ⟨scan, absent⟩
  · rw [scan]
    have same : wp (blkHold b) (fun _ c' => c'.count = c.count) c := by
      simp only [blkHold, wp_bind, Cmd.wp_get, after_ok]
      split <;> rfl
    refine wp_mono (wp_and same (I.wp_hold (Q := fun r c' => r = .ok b ∧ Inv c' (⟨b, dev, nr⟩ :: held) store)
      lt here fun c' inv => ⟨rfl, inv⟩)) ?_
    rintro r c' ⟨count, rfl, inv⟩
    exact done b c' count inv
  · rw [scan]
    cases first : c.lru.first with
    | none =>
      refine full (Nat.le_of_not_lt fun few => I.idle T few (T.lruLinked.eq_nil first))
    | some b =>
      have mem := T.lruLinked.first_mem first
      show wp (blkRecycle io b dev nr) Q c
      rw [wp, blkRecycle_eq writes (T.dirty b ((T.lruMem b).mp mem).1)]
      exact done b _ rfl (I.recycle T mem absent)

theorem wp_put (I : Inv c held store) (mem : h ∈ held)
    (post : ∀ c', c'.count = c.count → Inv c' (held.erase h) store → Q (.ok ()) c') : wp (blkPut h.buf) Q c := by
  have ref := I.held_refcnt mem
  have dropped := I.rep.drop mem
  have out : ∀ d : Cache, Rep d (held.erase h) → d.count = c.count → d.disk = c.disk →
      d.bufs = (setBuf h.buf (fun x => { x with refcnt := x.refcnt - 1 }) c).bufs →
      Inv d (held.erase h) store := by
    intro d rep count disk bufs
    have at' : ∀ x, d.bufs x = { c.bufs x with refcnt := (c.bufs x).refcnt - if x = h.buf then 1 else 0 } := by
      intro x
      rw [bufs, setBuf_drop]
    refine ⟨rep.tables, ?_, ?_, rep.refs, rep.keys⟩
    · intro x inside
      rw [at']
      exact I.cached x (by rw [← count]; exact inside)
    · intro dev' nr'
      rw [disk, count]
      refine (I.backed dev' nr').imp_right ?_
      rintro ⟨x, inside, rest⟩
      refine ⟨x, inside, ?_⟩
      rw [at']
      exact rest
  simp only [blkPut, wp_bind, Cmd.wp_get, after_ok, if_neg ref, wp_modify]
  by_cases last : (c.bufs h.buf).refcnt = 1
  · rw [if_pos last] at dropped
    simp only [if_pos last]
    exact post _ rfl (out _ dropped rfl rfl rfl)
  · rw [if_neg last] at dropped
    simp only [if_neg last]
    exact post _ rfl (out _ dropped rfl rfl rfl)

section
variable (writes : ∀ n, io.write n = none)
include writes

theorem wp_read (I : Inv c held store) {Q : Res Errno Nat → Cache → Prop}
    (done : ∀ b c', c'.count = c.count → (c'.bufs b).data = store dev nr →
      Inv c' (⟨b, dev, nr⟩ :: held) store → Q (.ok b) c')
    (full : c.count ≤ held.length → Q (.err .ENOMEM) c)
    (failed : ∀ e c', (∃ n, io.read n = some e) → Inv c' held store → Q (.err e) c') :
    wp (blkRead io dev nr) Q c := by
  rw [blkRead, wp_bind]
  apply I.wp_get writes
  · intro b c' count I'
    have mem : (⟨b, dev, nr⟩ : Handle) ∈ ⟨b, dev, nr⟩ :: held := mem_cons_self ..
    obtain ⟨lt, devB, nrB⟩ := I'.keys _ mem
    have ref := I'.held_refcnt mem
    simp only [after_ok, wp_bind, Cmd.wp_get]
    cases valid : (c'.bufs b).valid with
    | true =>
      have data := I'.cached b lt valid
      rw [devB, nrB] at data
      exact done b c' count data I'
    | false =>
      simp only [Bool.false_eq_true, if_false, wp_bind, wp_onError, blkLoad]
      rw [wp, ask]
      split
      · rename_i e err
        have later := I'.clock c'.users (c'.tick + 1)
        rw [after_err, recovered_err]
        apply wp_put (h := ⟨b, dev, nr⟩) later mem
        intro d _ I''
        rw [erase_cons_head] at I''
        exact failed e d ⟨_, err⟩ I''
      · have later := (I'.clock c'.users (c'.tick + 1)).load lt ref valid
        have self : (setBuf b (fun x => { x with data := c'.disk x.dev x.nr, valid := true })
            { c' with tick := c'.tick + 1 }).bufs b =
            { c'.bufs b with data := c'.disk (c'.bufs b).dev (c'.bufs b).nr, valid := true } := update_self ..
        simp only [after_ok, wp_modify, recovered_ok, wp_pure]
        refine done b _ count ?_ later
        have data := later.cached b lt (by rw [self])
        rw [self] at data ⊢
        rw [data, devB, nrB]
  · exact full

theorem wp_pread (I : Inv c held store) {off len : Nat}
    {Q : Res Errno (List Byte) → Cache → Prop}
    (done : ∀ c', Inv c' held store → Q (.ok (peek (store dev nr) off len)) c')
    (full : c.count ≤ held.length → Q (.err .ENOMEM) c)
    (failed : ∀ e c', (∃ n, io.read n = some e) → Inv c' held store → Q (.err e) c') :
    wp (blkPread io dev nr off len) Q c := by
  rw [blkPread, wp_bind]
  apply I.wp_read writes
  · intro b c' _ data I'
    simp only [after_ok, wp_bind, Cmd.wp_get, data]
    apply wp_put (h := ⟨b, dev, nr⟩) I' (mem_cons_self ..)
    intro d _ I''
    rw [erase_cons_head] at I''
    exact done d I''
  · exact full
  · exact failed

theorem wp_pwrite (I : Inv c held store)
    (inside : off + buf.length ≤ 512)
    (done : ∀ c', Inv c' held (setDisk store dev nr (poke (store dev nr) off buf)) → Q (.ok ()) c')
    (full : c.count ≤ held.length → Q (.err .ENOMEM) c)
    (failed : ∀ e c', (∃ n, io.read n = some e) → Inv c' held store → Q (.err e) c') :
    wp (blkPwrite io dev nr off buf) Q c := by
  have rest : ∀ b c', poke (c'.bufs b).data off buf = poke (store dev nr) off buf →
      Inv c' (⟨b, dev, nr⟩ :: held) store → wp (do
        let c ← Cmd.get
        blkFill b (poke (c.bufs b).data off buf)
        blkPut b) Q c' := by
    intro b c' data I'
    have mem : (⟨b, dev, nr⟩ : Handle) ∈ ⟨b, dev, nr⟩ :: held := mem_cons_self ..
    simp only [wp_bind, Cmd.wp_get, after_ok, blkFill, wp_modify, data]
    apply wp_put (h := ⟨b, dev, nr⟩) (I'.fill mem _) mem
    intro d _ I''
    rw [erase_cons_head] at I''
    exact done d I''
  rw [blkPwrite]
  split
  · rw [wp_bind]
    apply I.wp_read writes
    · exact fun b c' _ data I' => rest b c' (by rw [data]) I'
    · exact full
    · exact failed
  · rename_i whole
    rw [wp_bind]
    apply I.wp_get writes
    · exact fun b c' _ I' => rest b c' (poke_whole _ _ inside (by simpa using whole)) I'
    · exact full

theorem wp_sync (I : Inv c held store) (lt : b < c.count) (flags : Nat)
    (post : ∀ c', Inv c' held store → c'.lruItem = c.lruItem → c'.count = c.count → Q (.ok ()) c') :
    wp (blkSync io flags b) Q c := by
  have rest : ∀ c', Inv c' held store → c'.lruItem = c.lruItem → c'.count = c.count → wp (do
      let c ← Cmd.get
      if flags &&& syncInvalidate ≠ 0 ∧ !(c.bufs b).dirty then
        Cmd.modify (setBuf b fun x => { x with valid := false })
      else pure ()) Q c' := by
    intro c' I' links count
    simp only [wp_bind, Cmd.wp_get, after_ok]
    split
    · rename_i asked
      refine post _ (I'.invalidate (by rw [count]; exact lt) ?_) links count
      simpa using asked.2
    · exact post c' I' links count
  simp only [blkSync, wp_bind, Cmd.wp_get, after_ok]
  split
  · rename_i asked
    obtain ⟨_, _, T⟩ := I.tables
    have valid := T.dirty b lt asked.2
    simp only [wp_bind, wp_attempt]
    apply wp_write writes valid
    · exact fun _ => rest _ (I.writeBack lt valid _) rfl rfl
    · exact fun _ => rest _ I rfl rfl
  · exact rest c I rfl rfl

theorem wp_syncLru (I : Inv c held store) (pick : Buf → Bool) (flags : Nat)
    (post : ∀ c', Inv c' held store → Q (.ok ()) c') : wp (syncFrom io pick flags c.count c.lru.first) Q c :=
  Block.wp_syncLru Inv.tables pick flags (fun I lt post => I.wp_sync writes lt flags post) I post

theorem wp_close (I : Inv c held store) (used : c.users dev ≠ 0)
    (post : ∀ r c', r ≠ .crash → Inv c' held store → Q r c') : wp (blkClose io dev) Q c := by
  have last : ∀ c', Inv c' held store → Q (.ok ()) { c' with users := update c'.users dev (c'.users dev - 1) } :=
    fun c' I' => post _ _ (by simp) (I'.clock _ c'.tick)
  simp only [blkClose, wp_bind, Cmd.wp_get, after_ok, if_neg used]
  split
  · simp only [wp_bind, blkSyncdev, Cmd.wp_get, after_ok]
    apply I.wp_syncLru writes
    intro c' I'
    simp only [after_ok, wp_bind]
    apply I'.wp_ask
    · exact fun n I'' => last _ I''
    · exact fun e n I'' => post _ _ (by simp) I''
  · exact last c I

end

theorem addBufs_fields (n : Nat) (c : Cache) : (addBufs c.count n c).bufs = (fun k =>
    if c.count ≤ k ∧ k < c.count + n then Buf.unused else c.bufs k) ∧ (addBufs c.count n c).disk = c.disk := by
  have fold : ∀ (l : List Nat) (d : Cache), (l.foldl (fun c b => lruPre b c) d).bufs = d.bufs ∧
      (l.foldl (fun c b => lruPre b c) d).disk = d.disk := by
    intro l
    induction l with
    | nil => exact fun d => ⟨rfl, rfl⟩
    | cons b l ih => exact fun d => ih (lruPre b d)
  exact fold _ _

theorem add (I : Inv c held store) (n : Nat) :
    Inv { addBufs c.count n c with count := c.count + n } held store := by
  have rep := I.rep.add n
  obtain ⟨bufs', disk⟩ := addBufs_fields n c
  have bufs : ∀ x, x < c.count → (addBufs c.count n c).bufs x = c.bufs x := by
    intro x lt
    rw [bufs']
    exact if_neg (by omega)
  have fresh : ∀ x, x < c.count + n → ¬ x < c.count → (addBufs c.count n c).bufs x = Buf.unused := by
    intro x lt ge
    rw [bufs']
    exact if_pos ⟨Nat.le_of_not_lt ge, lt⟩
  refine ⟨rep.tables, ?_, ?_, rep.refs, rep.keys⟩
  · intro x inside
    show ((addBufs c.count n c).bufs x).valid = true → ((addBufs c.count n c).bufs x).data =
      store ((addBufs c.count n c).bufs x).dev ((addBufs c.count n c).bufs x).nr
    by_cases lt : x < c.count
    · rw [bufs x lt]
      exact I.cached x lt
    · rw [fresh x inside lt]
      exact fun h => by cases h
  · intro dev nr
    show (addBufs c.count n c).disk dev nr = _ ∨ _
    rw [disk]
    refine (I.backed dev nr).imp_right ?_
    rintro ⟨x, lt, rest⟩
    refine ⟨x, Nat.lt_add_right n lt, ?_⟩
    show ((addBufs c.count n c).bufs x).dirty = true ∧ ((addBufs c.count n c).bufs x).dev = dev ∧
      ((addBufs c.count n c).bufs x).nr = nr ∧ ((addBufs c.count n c).bufs x).data = store dev nr
    rw [bufs x lt]
    exact rest

end Inv

theorem blkInit_shape (n : Nat) (disk : Disks) : ∃ lists item head links,
    blkInit n disk = ⟨fun _ => Buf.unused, n, lists, item, head, links, fun _ => 0, disk, 0⟩ ∧
      Family lists item (update (fun _ => []) 0 (range n)) ∧ Linked head links (range n) := by
  have fold : ∀ m, ∃ lists item head links, (range m).foldl (fun c b => lruApp b (chainApp 0 b c))
      ⟨fun _ => Buf.unused, n, fun _ => Head.null, fun _ => Item.null, Head.null, fun _ => Item.null, fun _ => 0,
        disk, 0⟩ = ⟨fun _ => Buf.unused, n, lists, item, head, links, fun _ => 0, disk, 0⟩ ∧
      Family lists item (update (fun _ => []) 0 (range m)) ∧ Linked head links (range m) := by
    intro m
    induction m with
    | zero =>
      refine ⟨_, _, _, _, rfl, ?_, linked_nil _⟩
      rw [range_zero, update_eq_self_iff.mpr rfl]
      refine ⟨fun _ => linked_nil _, fun _ => nodup_nil, ?_⟩
      intro i j x mem
      cases mem
    | succ m ih =>
      obtain ⟨lists, item, head, links, eq, family, linked⟩ := ih
      have new : ∀ j, m ∉ update (fun _ => []) 0 (range m) j := by
        intro j mem
        by_cases zero : j = 0
        · rw [zero, update_self] at mem
          exact absurd (mem_range.mp mem) (lt_irrefl m)
        · rw [update_of_ne zero] at mem
          cases mem
      have grown := family.pushBack 0 new
      have chain := family.linked 0
      rw [update_self] at chain grown
      have grown' := linked_pushBack linked nodup_range (e := m) fun mem =>
        absurd (mem_range.mp mem) (lt_irrefl m)
      rw [← listApp_eq chain, update_idem, ← range_succ] at grown
      rw [← listApp_eq linked, ← range_succ] at grown'
      refine ⟨_, _, _, _, ?_, grown, grown'⟩
      rw [range_succ, foldl_append, eq]
      rfl
  exact fold n

theorem Inv.init (n : Nat) (disk : Disks) : Inv (blkInit n disk) [] disk := by
  obtain ⟨lists, item, head, links, eq, family, linked⟩ := blkInit_shape n disk
  have still : ¬ Buf.unused.active := by decide
  have chained : ∀ i x, x ∈ update (fun _ => []) 0 (range n) i → x < n ∧ i = 0 := by
    intro i x mem
    by_cases zero : i = 0
    · rw [zero, update_self] at mem
      exact ⟨mem_range.mp mem, zero⟩
    · rw [update_of_ne zero] at mem
      cases mem
  rw [eq]
  refine ⟨⟨_, _, ⟨family, ?_, ?_, linked, nodup_range, ?_, fun _ _ h => (by cases h), ?_⟩⟩,
    fun _ _ h => (by cases h), fun _ _ => .inl rfl, fun _ _ => rfl, fun _ h => by cases h⟩
  · intro i x mem
    exact ⟨(chained i x mem).1, (chained i x mem).2.symm⟩
  · intro x lt out
    refine absurd ?_ (out 0)
    rw [update_self]
    exact mem_range.mpr lt
  · intro x
    rw [mem_range]
    exact ⟨fun lt => ⟨lt, rfl⟩, fun h => h.1⟩
  · exact fun _ _ _ _ act => absurd act still

end Rules

/-- A call of the cache, or what the holder of a buffer does with it. -/
inductive Req where
  | read (dev nr : Nat)
  | get (dev nr : Nat)
  | fill (h : Handle) (data : Blk)
  | put (h : Handle)
  | pread (dev nr off len : Nat)
  | pwrite (dev nr off : Nat) (buf : List Byte)
  | add (m : Machine) (count : Nat)
  | syncdev (dev flags : Nat)
  | syncall (flags : Nat)
  | «open» (dev : Nat)
  | close (dev : Nat)

/-- What the caller sees: a buffer with its contents, or the bytes it asked for. -/
inductive Answer where
  | done
  | buffer (b : Nat) (data : Blk)
  | bytes (buf : List Byte)

/-- The cache, the references that are out, and what was last stored for each block. -/
structure World where
  cache : Cache
  held : List Handle
  store : Disks

namespace Req

def run (io : Io) : Req → BlkM Answer
  | read dev nr => do
    let b ← blkRead io dev nr
    let c ← Cmd.get
    pure (.buffer b (c.bufs b).data)
  | get dev nr => do
    let b ← blkGet io dev nr
    let c ← Cmd.get
    pure (.buffer b (c.bufs b).data)
  | fill h data => do
    blkFill h.buf data
    pure .done
  | put h => do
    blkPut h.buf
    pure .done
  | pread dev nr off len => do
    let buf ← blkPread io dev nr off len
    pure (.bytes buf)
  | pwrite dev nr off buf => do
    blkPwrite io dev nr off buf
    pure .done
  | add m count => do
    blkAdd m io count
    pure .done
  | syncdev dev flags => do
    blkSyncdev io dev flags
    pure .done
  | syncall flags => do
    blkSyncall io flags
    pure .done
  | .open dev => do
    blkOpen io dev
    pure .done
  | close dev => do
    blkClose io dev
    pure .done

/-- Callers use the references they hold, bytes inside a block, and devices that are open. -/
def Valid (w : World) : Req → Prop
  | fill h _ | put h => h ∈ w.held
  | pread _ _ off len => off + len ≤ 512
  | pwrite _ _ off buf => off + buf.length ≤ 512
  | close dev => w.cache.users dev ≠ 0
  | _ => True

/-- What `blk_add` asks of `kmalloc` can be represented. -/
def Fits (c : Cache) : Req → Prop
  | add m count => c.count < count → Roomy m (pointerSize m * count) ∧ Roomy m (blockSize m * (count - c.count))
  | _ => True

def Takes : Req → Prop
  | read .. | get .. | pread .. | pwrite .. => True
  | _ => False

def held (held : List Handle) : Req → Res Errno Answer → List Handle
  | read dev nr, .ok (.buffer b _) | get dev nr, .ok (.buffer b _) => ⟨b, dev, nr⟩ :: held
  | put h, .ok _ => held.erase h
  | _, _ => held

/-- What is stored after a request: only a write that succeeds and the holder of a buffer store. -/
def store (store : Disks) : Req → Res Errno Answer → Disks
  | fill h data, .ok _ => setDisk store h.dev h.nr data
  | pwrite dev nr off buf, .ok _ => setDisk store dev nr (poke (store dev nr) off buf)
  | _, _ => store

end Req

def World.next (w : World) (io : Io) (req : Req) : World :=
  let out := req.run io w.cache
  ⟨out.2, req.held w.held out.1, req.store w.store out.1⟩

inductive Step (cond : Io → World → Req → Prop) (w w' : World) : Prop where
  | request (io : Io) (req : Req) (cond : cond io w req) (valid : req.Valid w) (eq : w' = w.next io req)

inductive Reached (cond : Io → World → Req → Prop) : World → Prop where
  | init (disk : Disks) : Reached cond ⟨blkInit blkNblk disk, [], disk⟩
  | step {w w' : World} : Reached cond w → Step cond w w' → Reached cond w'

def Io.Writes (io : Io) : Prop := ∀ n, io.write n = none

def Io.Reliable (io : Io) : Prop := io.Writes ∧ ∀ n, io.read n = none

/-- What the caller of a request is told: the buffer or the bytes of a block are those last stored for
    it. An extension of the cache may be refused. -/
def Sees (w : World) : Req → Res Errno Answer → Prop
  | .read dev nr, r => ∃ b, r = .ok (.buffer b (w.store dev nr))
  | .get _ _, r => ∃ b data, r = .ok (.buffer b data)
  | .pread dev nr off len, r => r = .ok (.bytes (peek (w.store dev nr) off len))
  | .add .., r | .open _, r | .close _, r => r ≠ .crash
  | _, r => r = .ok .done

def Refused (io : Io) (w : World) (req : Req) (r : Res Errno Answer) : Prop :=
  req.Takes ∧ ((w.cache.count ≤ w.held.length ∧ r = .err .ENOMEM) ∨ ∃ e n, io.read n = some e ∧ r = .err e)

section Runs
variable {io : Io} {w : World}

theorem Req.rule (writes : io.Writes) (I : Inv w.cache w.held w.store) (req : Req) (valid : req.Valid w) :
    wp (req.run io) (fun r c => (Sees w req r ∨ Refused io w req r ∨ ¬ req.Fits w.cache) ∧
      Inv c (req.held w.held r) (req.store w.store r)) w.cache := by
  cases req with
  | read dev nr =>
    simp only [run, wp_bind]
    apply I.wp_read writes
    · intro b c' _ data I'
      simp only [after_ok, wp_bind, Cmd.wp_get, wp_pure, data]
      exact ⟨.inl ⟨b, rfl⟩, I'⟩
    · exact fun full => ⟨.inr (.inl ⟨trivial, .inl ⟨full, rfl⟩⟩), I⟩
    · exact fun e c' ⟨n, err⟩ I' => ⟨.inr (.inl ⟨trivial, .inr ⟨e, n, err, rfl⟩⟩), I'⟩
  | get dev nr =>
    simp only [run, wp_bind]
    apply I.wp_get writes
    · intro b c' _ I'
      exact ⟨.inl ⟨b, _, rfl⟩, I'⟩
    · exact fun full => ⟨.inr (.inl ⟨trivial, .inl ⟨full, rfl⟩⟩), I⟩
  | fill h data => exact ⟨.inl rfl, I.fill valid data⟩
  | put h =>
    simp only [run, wp_bind]
    exact I.wp_put valid fun c' _ I' => ⟨.inl rfl, I'⟩
  | pread dev nr off len =>
    simp only [run, wp_bind]
    apply I.wp_pread writes
    · exact fun c' I' => ⟨.inl rfl, I'⟩
    · exact fun full => ⟨.inr (.inl ⟨trivial, .inl ⟨full, rfl⟩⟩), I⟩
    · exact fun e c' ⟨n, err⟩ I' => ⟨.inr (.inl ⟨trivial, .inr ⟨e, n, err, rfl⟩⟩), I'⟩
  | pwrite dev nr off buf =>
    simp only [run, wp_bind]
    apply I.wp_pwrite writes valid
    · exact fun c' I' => ⟨.inl rfl, I'⟩
    · exact fun full => ⟨.inr (.inl ⟨trivial, .inl ⟨full, rfl⟩⟩), I⟩
    · exact fun e c' ⟨n, err⟩ I' => ⟨.inr (.inl ⟨trivial, .inr ⟨e, n, err, rfl⟩⟩), I'⟩
  | add m count =>
    simp only [run, blkAdd, wp_bind, Cmd.wp_get, after_ok]
    split
    · exact ⟨.inl (fun h => by cases h), I⟩
    · split
      · exact ⟨.inl (fun h => by cases h), I⟩
      · simp only [wp_bind]
        apply I.wp_ask
        · intro n I'
          simp only [after_ok, wp_bind]
          apply I'.wp_ask
          · intro n I''
            split
            · rename_i more _ tight
              refine ⟨.inr (.inr fun fits => ?_), I''⟩
              obtain ⟨array, bufs⟩ := fits (by omega)
              have le := (room_iff ..).mpr array
              have le' := (room_iff ..).mpr bufs
              omega
            · have grown := I''.add (count - w.cache.count)
              refine ⟨.inl (fun h => by cases h), ?_⟩
              rw [show w.cache.count + (count - w.cache.count) = count by omega] at grown
              exact grown
          · exact fun e n I'' => ⟨.inl (fun h => by cases h), I''⟩
        · exact fun e n I' => ⟨.inl (fun h => by cases h), I'⟩
  | syncdev dev flags =>
    simp only [run, blkSyncdev, wp_bind, Cmd.wp_get, after_ok]
    exact I.wp_syncLru writes _ flags fun c' I' => ⟨.inl rfl, I'⟩
  | syncall flags =>
    simp only [run, blkSyncall, wp_bind, Cmd.wp_get, after_ok]
    exact I.wp_syncLru writes _ flags fun c' I' => ⟨.inl rfl, I'⟩
  | «open» dev =>
    simp only [run, blkOpen, wp_bind, Cmd.wp_get, after_ok]
    split
    · rw [wp_bind]
      apply I.wp_ask
      · exact fun n I' => ⟨.inl (fun h => by cases h), I'.clock _ n⟩
      · exact fun e n I' => ⟨.inl (fun h => by cases h), I'⟩
    · exact ⟨.inl (fun h => by cases h), I.clock _ _⟩
  | close dev =>
    simp only [run, wp_bind]
    refine I.wp_close writes valid fun r c' returns I' => ?_
    cases r with
    | ok _ => exact ⟨.inl (fun h => by cases h), I'⟩
    | err e => exact ⟨.inl (fun h => by cases h), I'⟩
    | crash => exact absurd rfl returns

theorem Reached.inv {cond : Io → World → Req → Prop} (reached : Reached cond w)
    (writes : ∀ {io v req}, cond io v req → io.Writes) :
    Inv w.cache w.held w.store := by
  induction reached with
  | init disk =>
    generalize blkNblk = n
    exact Inv.init n disk
  | step _ step ih =>
    obtain ⟨io, req, cond, valid, rfl⟩ := step
    exact (req.rule (writes cond) ih valid).2

/-- The devices do not fail, fewer references are out than there are buffers, and `blk_add` asks for nothing that cannot
    be represented. -/
structure Serves (io : Io) (w : World) (req : Req) : Prop where
  reliable : io.Reliable
  few : req.Takes → w.held.length < w.cache.count
  fits : req.Fits w.cache

/-- Every request sees the data last stored. -/
theorem cache_coherent (reached : Reached Serves w) {req : Req} (serves : Serves io w req) (valid : req.Valid w) :
    Sees w req (req.run io w.cache).1 := by
  have inv := reached.inv fun serves => serves.reliable.1
  rcases (req.rule serves.reliable.1 inv valid).1 with sees | ⟨takes, ⟨full, _⟩ | ⟨e, n, err, _⟩⟩ | outgrown
  · exact sees
  · exact absurd (serves.few takes) (not_lt.mpr full)
  · rw [serves.reliable.2 n] at err
    cases err
  · exact absurd serves.fits outgrown

/-- As long as no write to a device fails, every block that is not on its device as last stored is in a
    dirty buffer; reads and other requests may fail. -/
theorem writes_kept (reached : Reached (fun io _ _ => io.Writes) w) : Backed w.cache w.store :=
  (reached.inv id).backed

/- What happens when writes fail -/

theorem wp_write_failing (fails : ∀ n, io.write n = some Errno.EIO) (valid : (c.bufs b).valid = true)
    (mark : (c.bufs b).dirty = true) (post : Q (.err Errno.EIO) { setBuf b (fun x => { x with dirty := false }) c with tick := c.tick + 1 }) :
    wp (blkWrite io b) Q c := by
  simp only [blkWrite, wp_bind, wp_get, after_ok, valid, mark, Bool.not_true, Bool.false_eq_true,
    if_false, wp_modify]
  rw [wp, ask, fails]
  exact post

theorem wp_syncFrom_failing (fails : ∀ n, io.write n = some Errno.EIO)
    (k : Linked h ln l) (rest : List Nat) : ∀ (seen : List Nat) (n : Nat) (c : Cache), l = seen ++ rest →
      rest.length ≤ n → c.lruItem = ln → (∀ b ∈ rest, (c.bufs b).dirty = true → (c.bufs b).valid = true) →
      wp (syncFrom io (fun _ => true) syncWrite n rest.head?) (fun r c' => r = .ok () ∧ c'.disk = c.disk ∧
        c'.count = c.count ∧ ∀ b, (b ∈ rest → (c'.bufs b).dirty = false) ∧
          ((c.bufs b).dirty = false → (c'.bufs b).dirty = false)) c := by
  induction rest with
  | nil =>
    intro seen n c _ _ _ _
    cases n <;> exact ⟨rfl, rfl, rfl, fun b => ⟨fun mem => (by cases mem), id⟩⟩
  | cons b rest ih =>
    intro seen n c split room links valid
    cases n with
    | zero => exact absurd room (by simp)
    | succ n =>
      have next := k.next split
      have tail : ∀ c', c'.lruItem = c.lruItem → c'.disk = c.disk → c'.count = c.count →
          (c'.bufs b).dirty = false → (∀ x, x ≠ b → c'.bufs x = c.bufs x) → wp (do
            let c ← get
            syncFrom io (fun _ => true) syncWrite n (c.lruItem b).next) (fun r c' => r = .ok () ∧ c'.disk = c.disk ∧
            c'.count = c.count ∧ ∀ x, (x ∈ b :: rest → (c'.bufs x).dirty = false) ∧
              ((c.bufs x).dirty = false → (c'.bufs x).dirty = false)) c' := by
        intro c' links' disk count clean other
        have step := ih (seen ++ [b]) n c' (by rw [split]; simp) (by simpa using room) (links'.trans links) (by
          intro x mem
          by_cases eq : x = b
          · rw [eq, clean]
            exact fun h => by cases h
          · rw [other x eq]
            exact valid x (mem_cons_of_mem _ mem))
        simp only [wp_bind, wp_get, after_ok, links', links, next]
        refine wp_mono step ?_
        rintro r d ⟨ok, disk', count', marks⟩
        refine ⟨ok, disk'.trans disk, count'.trans count, fun x => ⟨?_, ?_⟩⟩
        · intro mem
          rcases mem_cons.mp mem with rfl | mem
          · exact (marks x).2 clean
          · exact (marks x).1 mem
        · intro old
          by_cases eq : x = b
          · rw [eq] at old ⊢
            exact (marks b).2 clean
          · exact (marks x).2 (by rw [other x eq]; exact old)
      simp only [head?_cons, syncFrom, wp_bind, wp_get, after_ok, if_true, blkSync]
      by_cases mark : (c.bufs b).dirty = true
      · have ok := valid b (mem_cons_self ..) mark
        have asked : syncWrite &&& syncWrite ≠ 0 ∧ (c.bufs b).dirty = true := ⟨by decide, mark⟩
        have keep : ¬ (syncWrite &&& syncInvalidate ≠ 0) := by decide
        rw [if_pos asked]
        simp only [wp_bind, wp_attempt]
        apply wp_write_failing fails ok mark
        simp only [caught_err, after_ok, wp_bind, wp_get, keep, false_and, if_false, wp_pure]
        refine tail { setBuf b (fun x => { x with dirty := false }) c with tick := c.tick + 1 } rfl rfl rfl ?_ ?_
        · simp only [setBuf, update_self]
        · exact fun x ne => update_of_ne ne ..
      · have skip : ¬ (syncWrite &&& syncWrite ≠ 0 ∧ (c.bufs b).dirty = true) := fun h => mark h.2
        have keep : ¬ (syncWrite &&& syncInvalidate ≠ 0) := by decide
        simp only [if_neg skip, wp_bind, wp_get, after_ok, wp_pure, keep, false_and, if_false]
        exact tail c rfl rfl rfl (by simpa using mark) fun _ _ => rfl

theorem blkInit_fields (n : Nat) (disk : Disks) : (blkInit n disk).bufs = (fun _ => Buf.unused) ∧
    (blkInit n disk).count = n ∧ (blkInit n disk).disk = disk := by
  obtain ⟨_, _, _, _, eq, _⟩ := blkInit_shape n disk
  rw [eq]
  exact ⟨rfl, rfl, rfl⟩

theorem wp_pwrite_first (writes : io.Writes) (whole : buf.length = 512) :
    wp (blkPwrite io dev nr 0 buf) (fun _ c => c.disk = disk) (blkInit n disk) := by
  obtain ⟨bufs, _, same⟩ := blkInit_fields n disk
  have put : ∀ (b : Nat) (c : Cache), c.disk = disk → wp (do
      let c ← get
      blkFill b (poke (c.bufs b).data 0 buf)
      blkPut b) (fun _ c => c.disk = disk) c := by
    intro b c eq
    simp only [wp_bind, wp_get, after_ok, blkFill, wp_modify, blkPut]
    split
    · exact eq
    · simp only [wp_bind, wp_modify, after_ok]
      split <;> exact eq
  rw [blkPwrite, if_neg (by simpa using whole), wp_bind]
  simp only [blkGet, wp_bind, wp_get, after_ok]
  split
  · exact same
  · simp only [blkHold, wp_bind, wp_get, after_ok]
    split <;> exact put _ _ same
  · split
    · exact same
    · rename_i b _
      have clean : ((blkInit n disk).bufs b).dirty = false := by rw [bufs]; rfl
      rw [wp, Inv.blkRecycle_eq writes fun mark => by rw [clean] at mark; cases mark]
      refine put b _ ?_
      simp only [Inv.recycled, clean, Bool.false_eq_true, if_false]
      exact same

end Runs

def goodIo : Io := ⟨fun _ => none, fun _ => none, fun _ => none⟩

def brokenIo : Io := ⟨fun _ => none, fun _ => some Errno.EIO, fun _ => none⟩

/-- When no buffer is referenced and the device refuses every write, `blk_syncall` loses the blocks that
    are not on the device, and reports success. -/
theorem sync_lost {w : World} {dev nr : Nat} (inv : Inv w.cache [] w.store)
    (differ : w.cache.disk dev nr ≠ w.store dev nr) :
    ((Req.syncall syncWrite).run brokenIo w.cache).1 = .ok .done ∧
    ¬ Backed (w.next brokenIo (.syncall syncWrite)).cache (w.next brokenIo (.syncall syncWrite)).store := by
  obtain ⟨chains, lru, T⟩ := inv.tables
  have inside : ∀ b ∈ lru, b < w.cache.count := fun b mem => ((T.lruMem b).mp mem).1
  have lost : wp ((Req.syncall syncWrite).run brokenIo) (fun r c => r = .ok .done ∧
      c.disk = w.cache.disk ∧ c.count = w.cache.count ∧ ∀ b ∈ lru, (c.bufs b).dirty = false) w.cache := by
    simp only [Req.run, blkSyncall, wp_bind, wp_get, after_ok]
    rw [T.lruLinked.first]
    refine wp_mono (wp_syncFrom_failing (fun _ => rfl) T.lruLinked lru [] _ _ rfl
      (length_le_of_nodup T.lruNodup inside) rfl fun b mem => T.dirty b (inside b mem)) ?_
    rintro r c ⟨rfl, same, count, marks⟩
    exact ⟨rfl, same, count, fun b mem => (marks b).1 mem⟩
  obtain ⟨ok, same, count, marks⟩ := lost
  have store : (w.next brokenIo (.syncall syncWrite)).store = w.store := by
    rw [World.next]
    simp only [ok]
    rfl
  refine ⟨ok, fun backed => ?_⟩
  rcases backed dev nr with onDisk | ⟨b, lt, mark, _⟩
  · rw [store, show (w.next brokenIo (.syncall syncWrite)).cache.disk = w.cache.disk from same] at onDisk
    exact differ onDisk
  · have lt : b < w.cache.count := by
      rw [← count]
      exact lt
    rw [show ((w.next brokenIo (.syncall syncWrite)).cache.bufs b).dirty = false from
      marks b ((T.lruMem b).mpr ⟨lt, inv.refs b lt⟩)] at mark
    cases mark

def newWorld (n : Nat) (v : Byte) : World := ⟨blkInit n fun _ _ _ => v, [], fun _ _ _ => v⟩

theorem newWorld_reached (cond : Io → World → Req → Prop) (v : Byte) : Reached cond (newWorld blkNblk v) := .init _

/-- A block is read from a device with a new cache. -/
theorem cache_coherent_first :
    Sees (newWorld blkNblk 7) (.pread 1 3 0 4) ((Req.pread 1 3 0 4).run goodIo (newWorld blkNblk 7).cache).1 := by
  have few : 0 < (newWorld blkNblk 7).cache.count := by
    rw [newWorld, (blkInit_fields ..).2.1]
    decide
  exact cache_coherent (newWorld_reached _ 7)
    ⟨⟨fun _ => rfl, fun _ => rfl⟩, fun _ => few, trivial⟩ (by decide : 0 + 4 ≤ 512)

/-- On i386 memory is asked for the pointers of 1025 buffers and for one new one, and 2^30 + 1 are put on the list. -/
theorem add_outgrown {c : Cache} (count : c.count = blkNblk) :
    ((Req.add .i386 0x40000401).run goodIo c).1 = .crash := by
  have answer : wp ((Req.add .i386 0x40000401).run goodIo) (fun r _ => r = .crash) c := by
    simp only [Req.run, blkAdd, wp_bind, Cmd.wp_get, after_ok, count]
    rw [if_neg (by decide), if_neg (by decide)]
    rw [if_pos (by decide)]
    rfl
  exact answer

theorem cache_not_coherent : ¬ ∀ (io : Io) (w : World) (req : Req),
    Reached (fun io w req => io.Reliable ∧ (req.Takes → w.held.length < w.cache.count)) w →
    io.Reliable → (req.Takes → w.held.length < w.cache.count) → req.Valid w → Sees w req (req.run io w.cache).1 := by
  intro all
  have sees := all goodIo (newWorld blkNblk 0) (.add .i386 0x40000401) (newWorld_reached _ 0)
    ⟨fun _ => rfl, fun _ => rfl⟩ False.elim trivial
  exact sees (add_outgrown (blkInit_fields ..).2.1)

@[irreducible] def ones : List Byte := replicate 512 1

theorem ones_length : ones.length = 512 := by rw [ones, length_replicate]

def onesWritten (n : Nat) : World := (newWorld n 0).next goodIo (.pwrite 1 0 0 ones)

theorem onesWritten_step (cond : Io → World → Req → Prop) (n : Nat)
    (good : cond goodIo (newWorld n 0) (.pwrite 1 0 0 ones)) :
    Step cond (newWorld n 0) (onesWritten n) :=
  ⟨goodIo, .pwrite 1 0 0 ones, good, (by rw [ones_length] : 0 + ones.length ≤ 512), rfl⟩

/-- The block is in a dirty buffer. -/
theorem writes_kept_ones : Backed (onesWritten blkNblk).cache (onesWritten blkNblk).store :=
  writes_kept (.step (newWorld_reached _ 0) (onesWritten_step _ _ fun _ => rfl))

def onesSynced (n : Nat) : World := (onesWritten n).next brokenIo (.syncall syncWrite)

theorem onesWritten_inv (pos : 0 < n) :
    Inv (onesWritten n).cache [] (onesWritten n).store ∧ (onesWritten n).cache.disk = (fun _ _ _ => 0) ∧
    (onesWritten n).store 1 0 = fun _ => 1 := by
  have writes : goodIo.Writes := fun _ => rfl
  have few : ¬ (newWorld n 0).cache.count ≤ 0 := by
    rw [newWorld, (blkInit_fields ..).2.1]
    omega
  have rule : wp ((Req.pwrite 1 0 0 ones).run goodIo) (fun r c => r = .ok .done ∧
      Inv c [] (setDisk (newWorld n 0).store 1 0 (poke ((newWorld n 0).store 1 0) 0 ones)))
      (newWorld n 0).cache := by
    simp only [Req.run, wp_bind]
    apply (Inv.init n _).wp_pwrite writes (by rw [ones_length])
    · exact fun c' I => ⟨rfl, I⟩
    · exact fun full => absurd full few
    · rintro e c' ⟨_, err⟩
      cases err
  have disk : wp ((Req.pwrite 1 0 0 ones).run goodIo) (fun _ c => c.disk = fun _ _ _ => 0)
      (newWorld n 0).cache := by
    simp only [Req.run, wp_bind]
    refine wp_mono (@wp_pwrite_first _ _ _ _ (fun _ _ _ => 0) _ writes ones_length) fun r c eq => ?_
    cases r <;> exact eq
  obtain ⟨ok, inv⟩ := rule
  have store : (onesWritten n).store =
      setDisk (newWorld n 0).store 1 0 (poke ((newWorld n 0).store 1 0) 0 ones) := by
    rw [onesWritten, World.next]
    simp only [ok]
    rfl
  rw [store]
  refine ⟨inv, disk, ?_⟩
  rw [Inv.setDisk_same]
  funext k
  have lt := k.isLt
  rw [poke, if_pos (by rw [ones_length]; omega), ones, getD_replicate _ (by omega)]

/-- Both calls report success; the block is not on the device, and no buffer is dirty. -/
theorem writes_not_kept_sync : Reached (fun _ _ _ => True) (onesSynced blkNblk) ∧
    ((Req.syncall syncWrite).run brokenIo (onesWritten blkNblk).cache).1 = .ok .done ∧
    ¬ Backed (onesSynced blkNblk).cache (onesSynced blkNblk).store := by
  obtain ⟨inv, disk, store⟩ := onesWritten_inv (n := blkNblk) (by decide)
  have differ : (onesWritten blkNblk).cache.disk 1 0 ≠ (onesWritten blkNblk).store 1 0 := by
    rw [disk, store]
    exact fun eq => absurd (congrFun eq 0) (by decide)
  obtain ⟨ok, lost⟩ := sync_lost inv differ
  exact ⟨.step (.step (newWorld_reached _ 0) (onesWritten_step _ _ trivial)) ⟨brokenIo, .syncall syncWrite, trivial,
    trivial, rfl⟩, ok, lost⟩

end Block
