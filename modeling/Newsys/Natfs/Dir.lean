import Newsys.Lib.Slots
import Newsys.Natfs.Dirent
import Newsys.Natfs.Objects
import Newsys.Natfs.Rw

/- Searching and changing one directory (kern/fs/nat/dir.c). Seen from outside, a directory is a
   row of slots, sixteen to a block, and its live entries are those of the slots in use. -/
namespace Natfs
open Bytes Cmds Cmd List

/-- `struct dirent_ptr`: a held block and the number of the entry in it. -/
abbrev DirentPtr := Nat × Nat

def readDirBlock (cx : Cx) (d log : Nat) : NatM (Nat × Mem) := do
  natBmap cx d log false
  let s ← get
  let b ← blkRead cx (s.fso d).bmapPhys
  pure ((s.fso d).bmapPhys, b)

def scanBlock (b : Mem) (name : Name) : Option Nat :=
  (range 16).find? fun k => deFirstBlock b k != 0 && deName b k == name

def findEntryFrom (cx : Cx) (d : Nat) (name : Name) : List Nat → NatM DirentPtr
  | [] => fail .ENOENT
  | log :: logs => do
    let (phys, b) ← readDirBlock cx d log
    match scanBlock b name with
    | some k => pure (phys, k)
    | none => findEntryFrom cx d name logs

def findEntry (cx : Cx) (d : Nat) (name : Name) : NatM DirentPtr := do
  let s ← get
  if !sIsdir (s.fso d).mode then fail .ENOTDIR
  else
    fsChkPerm cx d xOk
    findEntryFrom cx d name (range ((s.fso d).size / 512))

/-- `free_blk` and `free_i` after the loop over the entries of one block. -/
def scanFree (phys : Nat) (b : Mem) (free : DirentPtr) : DirentPtr :=
  (range 16).foldl
    (fun free k => if deFirstBlock b k = 0 ∧ free.1 = 0 then (phys, k) else free) free

def newEntryFrom (cx : Cx) (d : Nat) (name : Name) : List Nat → DirentPtr → NatM DirentPtr
  | [], free => pure free
  | log :: logs, free => do
    let (phys, b) ← readDirBlock cx d log
    match scanBlock b name with
    | some _ => fail .EEXIST
    | none => newEntryFrom cx d name logs (scanFree phys b free)

def growDir (cx : Cx) (d : Nat) : NatM DirentPtr := do
  let s ← get
  if 0x100000 < (s.fso d).size + 512 then fail .EFBIG
  else
    natBmap cx d ((s.fso d).size / 512) true
    let s ← get
    let blk := (s.fso d).bmapPhys
    blkGet cx blk
    blkFill blk zero
    modifyFso d fun f => { f with size := f.size + 512, dirty := true }
    pure (blk, 0)

def fillEntry (cx : Cx) (d : Nat) (name : Name) (firstBlock : Nat) (p : DirentPtr) : NatM Unit := do
  let now ← clockTime cx
  modifyFso d fun f => { f with mtime := now, dirty := true }
  modify fun s => s.setDev p.1 (setDirent (s.dev p.1) p.2 name firstBlock)

def storeEntry (cx : Cx) (d : Nat) (name : Name) (firstBlock : Nat) (free : DirentPtr) : NatM Unit :=
  if free.1 = 0 then growDir cx d >>= fillEntry cx d name firstBlock
  else blkRead cx free.1 >>= fun _ => fillEntry cx d name firstBlock free

def newEntry (cx : Cx) (d : Nat) (name : Name) (firstBlock : Nat) : NatM Unit := do
  let s ← get
  if !sIsdir (s.fso d).mode then fail .ENOTDIR
  else if name = [] then fail .EEXIST
  else
    fsChkPerm cx d (xOk ||| wOk)
    if 27 < name.length then fail .ENAMETOOLONG
    else
      let free ← newEntryFrom cx d name (range ((s.fso d).size / 512)) (0, 0)
      storeEntry cx d name firstBlock free

def isEmptyFrom (cx : Cx) (d : Nat) : List Nat → NatM Unit
  | [] => pure ()
  | log :: logs => do
    let (_, b) ← readDirBlock cx d log
    if (range 16).any fun k => deFirstBlock b k != 0 then fail .ENOTEMPTY
    else isEmptyFrom cx d logs

def isEmpty (cx : Cx) (d : Nat) : NatM Unit := do
  let s ← get
  if !sIsdir (s.fso d).mode then fail .ENOTDIR
  else isEmptyFrom cx d (range ((s.fso d).size / 512))

def clearEntry (p : DirentPtr) : NatM Unit :=
  modify fun s => s.setDev p.1 (clearDirent (s.dev p.1) p.2)

/-- The entry is cleared and written anew, as `nat_rename` does with one that exists. -/
def putEntry (p : DirentPtr) (name : Name) (firstBlock : Nat) : NatM Unit :=
  modify fun s => s.setDev p.1 (setDirent (s.dev p.1) p.2 name firstBlock)

/- The slots of a directory -/

def isDir (s : Vol) (d : Nat) : Prop := (hdr s d).kind = 0o30000

def slot (s : Vol) (d i : Nat) : Option (Name × Nat) := dirent ((obj s d).block (i / 16)) (i % 16)

def slotCount (s : Vol) (d : Nat) : Nat := 16 * ((obj s d).size / 512)

def live (s : Vol) (d : Nat) : List (Name × Nat) := Slots.live (slotCount s d) (slot s d)

/-- A directory in order: whole blocks, all of them there, and no name twice. -/
structure DirOk (s : Vol) (d : Nat) : Prop where
  aligned : (obj s d).size % 512 = 0
  bounded : (obj s d).size ≤ 0x100000
  mapped : ∀ log, log < (obj s d).size / 512 → (hdr s d).phys s.dev log ≠ 0
  names : ∀ e ∈ live s d, NameOk e.1
  distinct : ((live s d).map Prod.fst).Nodup
  wide : (s.fso d).refcnt ≠ 0 → (s.fso d).size < 2 ^ 32

variable {s t : Vol} {d : Nat}

theorem live_eq (size : (obj t d).size = (obj s d).size)
    (block : (obj t d).block = (obj s d).block) : live t d = live s d := by
  have slots : slot t d = slot s d := by
    funext i
    rw [slot, slot, block]
  rw [live, live, slotCount, slotCount, size, slots]

theorem live_congr (same : obj t d = obj s d) : live t d = live s d :=
  live_eq (by rw [same]) (by rw [same])

theorem DirOk.congr (ok : DirOk s d) (size : (obj t d).size = (obj s d).size)
    (block : (obj t d).block = (obj s d).block) (phys : ∀ log, (hdr s d).phys s.dev log ≠ 0 →
      (hdr t d).phys t.dev log = (hdr s d).phys s.dev log)
    (wide : (t.fso d).refcnt ≠ 0 → (t.fso d).size < 2 ^ 32) : DirOk t d := by
  have entries := live_eq size block
  refine ⟨by rw [size]; exact ok.aligned, by rw [size]; exact ok.bounded, ?_, ?_, ?_, wide⟩
  · intro log lt
    have before := ok.mapped log (size ▸ lt)
    rw [phys log before]
    exact before
  · rw [entries]
    exact ok.names
  · rw [entries]
    exact ok.distinct

theorem live_empty (size : (obj s d).size = 0) : live s d = [] := by
  rw [live, slotCount, size]
  rfl

theorem DirOk.empty (size : (obj s d).size = 0)
    (wide : (s.fso d).refcnt ≠ 0 → (s.fso d).size < 2 ^ 32) : DirOk s d := by
  have none := live_empty size
  refine ⟨by rw [size], by rw [size]; decide, ?_, ?_, ?_, wide⟩
  · intro log lt
    rw [size] at lt
    exact absurd lt (Nat.not_lt_zero log)
  · rw [none]
    exact fun e mem => by cases mem
  · rw [none]
    exact nodup_nil

structure At (s : Vol) (d i : Nat) (p : DirentPtr) : Prop where
  inside : i < slotCount s d
  block : p.1 = (hdr s d).phys s.dev (i / 16)
  entry : p.2 = i % 16

theorem DirOk.block (ok : DirOk s d) (lt : log < (obj s d).size / 512) :
    (obj s d).block log = s.dev ((hdr s d).phys s.dev log) :=
  block_of_phys rfl (ok.mapped log lt)

variable {i : Nat} {p : DirentPtr}

theorem At.log_lt (a : At s d i p) : i / 16 < (obj s d).size / 512 := by
  have inside := a.inside
  rw [slotCount] at inside
  omega

theorem At.slot (a : At s d i p) (ok : DirOk s d) : slot s d i = dirent (s.dev p.1) p.2 := by
  rw [Natfs.slot, ok.block a.log_lt, a.block, a.entry]

theorem At.first (a : At s d i p)
    (ok : DirOk s d) (entry : Natfs.slot s d i = some e) : deFirstBlock (s.dev p.1) p.2 = e.2 := by
  rw [a.slot ok, dirent] at entry
  split at entry
  · cases entry
  · cases entry
    rfl

/- Looking at a directory -/

namespace Quiet
variable {s t : Vol} {hold : List Nat} {d : Nat}

theorem kind (q : Quiet s t hold) (ref : (t.fso d).refcnt ≠ 0) :
    sIsdir (t.fso d).mode = true ↔ isDir s d := by
  have head := q.hdr d
  rw [hdr_of_open ref] at head
  rw [isDir, ← head, sIsdir, beq_iff_eq]
  rfl

theorem realSize (q : Quiet s t hold) (ref : (t.fso d).refcnt ≠ 0) (ok : DirOk s d) :
    (t.fso d).size = (Natfs.obj s d).size := by
  have head := congrArg Hdr.size (q.hdr d)
  rw [hdr_of_open ref] at head
  have small : (t.fso d).size < 2 ^ 32 := by
    by_cases closed : (s.fso d).refcnt = 0
    · exact (q.loaded d closed ref).2
    · rw [q.size d closed]
      exact ok.wide closed
  rw [← Nat.mod_eq_of_lt small]
  exact head

theorem dirOk (q : Quiet s t hold) (ok : DirOk s d) : DirOk t d := by
  have same := q.obj d
  refine ok.congr (by rw [same]) (by rw [same]) (fun log _ => by rw [q.hdr, q.dev]) ?_
  intro ref
  rw [q.realSize ref ok]
  have bound := ok.bounded
  omega

end Quiet

theorem Quiet.at' (q : Quiet s t hold) (a : At s d i p) : At t d i p :=
  ⟨by rw [slotCount, q.obj]; exact a.inside, by rw [q.hdr, q.dev]; exact a.block, a.entry⟩

section Looking
variable {cx : Cx} {s t : Vol} {hold : List Nat} {d : Nat} {name : Name}

theorem wp_readDirBlock (q : Quiet s t hold) (ref : (t.fso d).refcnt ≠ 0) (ok : DirOk s d)
    (lt : log < (obj s d).size / 512) (done : ∀ t', Quiet s t' hold →
      Q (.ok ((hdr s d).phys s.dev log, (obj s d).block log)) t')
    (failed : ∀ e t', cx.IoError e → Quiet s t' hold → Q (.err e) t') :
    wp (readDirBlock cx d log) Q t := by
  have bound := ok.bounded
  have slot := (Hdr.phys_mem (ok.mapped log lt)).1
  simp only [readDirBlock, wp_bind]
  apply wp_natBmap_quiet q ref (by omega)
  · intro t' q' _ phys
    simp only [after_ok, wp_bind, wp_get, phys]
    have contents : t'.dev ((hdr s d).phys s.dev log) = (obj s d).block log := by
      rw [q'.dev, ok.block lt]
    apply wp_blkRead_any
    · rw [contents]
      exact done _ (q'.tick _)
    · exact fun e io => failed e _ io (q'.tick _)
  · intro big
    omega
  · exact failed

variable {k : Nat}

theorem scanBlock_some (found : scanBlock b name = some k) : k < 16 ∧ ∃ v, dirent b k = some (name, v) := by
  have inside := mem_range.mp (mem_of_find?_eq_some found)
  have test := find?_some found
  simp only [Bool.and_eq_true, bne_iff_ne, beq_iff_eq] at test
  refine ⟨inside, deFirstBlock b k, ?_⟩
  rw [dirent, if_neg test.1, test.2]

theorem scanBlock_none (missing : scanBlock b name = none) (lt : k < 16)
    (entry : dirent b k = some e) : e.1 ≠ name := by
  have test := find?_eq_none.mp missing k (mem_range.mpr lt)
  simp only [Bool.and_eq_true, bne_iff_ne, beq_iff_eq, not_and] at test
  rw [dirent] at entry
  split at entry
  · cases entry
  · rename_i alive
    cases entry
    exact test alive

theorem slot_eq (s : Vol) (d log : Nat) (lt : k < 16) : slot s d (16 * log + k) = dirent ((obj s d).block log) k := by
  rw [slot, show (16 * log + k) / 16 = log by omega, show (16 * log + k) % 16 = k by omega]

/-- The entries in these blocks of the directory have the property. -/
def Passed (s : Vol) (d : Nat) (P : Name × Nat → Prop) (logs : List Nat) : Prop :=
  ∀ log ∈ logs, ∀ k, k < 16 → ∀ e, slot s d (16 * log + k) = some e → P e

theorem Passed.nil {P : Name × Nat → Prop} : Passed s d P [] := fun _ mem => absurd mem not_mem_nil

theorem Passed.cons {P : Name × Nat → Prop} (rest : Passed s d P logs)
    (here : ∀ k, k < 16 → ∀ e, dirent ((obj s d).block log) k = some e → P e) : Passed s d P (log :: logs) := by
  intro x mem k inside e entry
  rcases mem_cons.mp mem with rfl | mem
  · rw [slot_eq s d x inside] at entry
    exact here k inside e entry
  · exact rest x mem k inside e entry

theorem wp_findEntryFrom (ok : DirOk s d) (logs : List Nat) : ∀ {t : Vol}, Quiet s t hold →
    (t.fso d).refcnt ≠ 0 → (∀ log ∈ logs, log < (obj s d).size / 512) →
    ∀ {Q : Res Errno DirentPtr → Vol → Prop},
    (∀ t' p i b, Quiet s t' hold → At s d i p → slot s d i = some (name, b) → Q (.ok p) t') →
    (∀ t', Quiet s t' hold → Passed s d (·.1 ≠ name) logs → Q (.err .ENOENT) t') → (∀ e t', cx.IoError e → Quiet s t' hold → Q (.err e) t') →
    wp (findEntryFrom cx d name logs) Q t := by
  induction logs with
  | nil =>
    intro t q _ _ Q _ missing _
    exact missing t q .nil
  | cons log logs ih =>
    intro t q ref range Q found missing failed
    have lt := range log (mem_cons_self ..)
    simp only [findEntryFrom, wp_bind]
    apply wp_readDirBlock q ref ok lt
    · intro t' q'
      simp only [after_ok]
      cases scan : scanBlock ((obj s d).block log) name with
      | some k =>
        obtain ⟨inside, b, entry⟩ := scanBlock_some scan
        refine found t' _ (16 * log + k) b q' ⟨?_, ?_, ?_⟩ ?_
        · rw [slotCount]
          omega
        · rw [show (16 * log + k) / 16 = log by omega]
        · exact (show (16 * log + k) % 16 = k by omega).symm
        · rw [slot_eq s d log inside, entry]
      | none =>
        apply ih q' (by rw [q'.refcnt, ← q.refcnt]; exact ref) (fun x mem => range x (mem_cons_of_mem _ mem)) found
        · exact fun t'' q'' rest => missing t'' q'' (rest.cons fun k inside e => scanBlock_none scan inside)
        · exact failed
    · exact failed

theorem not_bound {P : Name × Nat → Prop}
    (rest : Passed s d P (range ((obj s d).size / 512))) : ∀ e ∈ live s d, P e := by
  intro e mem
  obtain ⟨i, lt, entry⟩ := Slots.mem_live.mp mem
  rw [slotCount] at lt
  refine rest (i / 16) (mem_range.mpr (by omega)) (i % 16) (by omega) e ?_
  rw [show 16 * (i / 16) + i % 16 = i by omega]
  exact entry

theorem wp_findEntry (q : Quiet s t hold) (ref : (t.fso d).refcnt ≠ 0) (ok : isDir s d → DirOk s d)
    {Q : Res Errno DirentPtr → Vol → Prop}
    (found : ∀ t' p i b, Quiet s t' hold → isDir s d →
      permError cx t.fs.geo (t.fso d) xOk = none → At s d i p → slot s d i = some (name, b) →
      Q (.ok p) t')
    (missing : ∀ t', Quiet s t' hold → isDir s d →
      permError cx t.fs.geo (t.fso d) xOk = none → (∀ e ∈ live s d, e.1 ≠ name) →
      Q (.err .ENOENT) t')
    (denied : ∀ e, permError cx t.fs.geo (t.fso d) xOk = some e → Q (.err e) t)
    (other : ¬ isDir s d → Q (.err .ENOTDIR) t)
    (failed : ∀ e t', cx.IoError e → Quiet s t' hold → Q (.err e) t') :
    wp (findEntry cx d name) Q t := by
  have kind := q.kind ref
  simp only [findEntry, wp_bind, wp_get, after_ok]
  split
  · rename_i notDir
    apply other
    rw [← kind]
    simpa using notDir
  · rename_i dir
    have dir : isDir s d := by
      rw [← kind]
      simpa using dir
    simp only [wp_bind]
    apply wp_fsChkPerm
    · intro granted
      simp only [after_ok]
      rw [q.realSize ref (ok dir)]
      apply wp_findEntryFrom (ok dir) _ q ref fun log mem => mem_range.mp mem
      · intro t' p i b q' at' entry
        exact found t' p i b q' dir granted at' entry
      · intro t' q' rest
        exact missing t' q' dir granted (not_bound rest)
      · exact failed
    · exact denied

theorem wp_isEmptyFrom (ok : DirOk s d) (logs : List Nat) : ∀ {t : Vol}, Quiet s t hold →
    (t.fso d).refcnt ≠ 0 → (∀ log ∈ logs, log < (obj s d).size / 512) →
    ∀ {Q : Res Errno Unit → Vol → Prop},
    (∀ t', Quiet s t' hold → Passed s d (fun _ => False) logs → Q (.ok ()) t') →
    (∀ t', Quiet s t' hold → Q (.err .ENOTEMPTY) t') →
    (∀ e t', cx.IoError e → Quiet s t' hold → Q (.err e) t') → wp (isEmptyFrom cx d logs) Q t := by
  induction logs with
  | nil =>
    intro t q _ _ Q empty _ _
    exact empty t q .nil
  | cons log logs ih =>
    intro t q ref range Q empty full failed
    simp only [isEmptyFrom, wp_bind]
    apply wp_readDirBlock q ref ok (range log (mem_cons_self ..))
    · intro t' q'
      simp only [after_ok]
      split
      · exact full t' q'
      · rename_i dead
        simp only [any_eq_true, mem_range, bne_iff_ne, not_exists, not_and, not_not] at dead
        apply ih q' (by rw [q'.refcnt, ← q.refcnt]; exact ref)
          (fun x mem => range x (mem_cons_of_mem _ mem)) _ full failed
        refine fun t'' q'' rest => empty t'' q'' (rest.cons fun k inside e entry => ?_)
        rw [dirent, if_pos (dead k inside)] at entry
        cases entry
    · exact failed

theorem wp_isEmpty (q : Quiet s t hold) (ref : (t.fso d).refcnt ≠ 0) (ok : isDir s d → DirOk s d)
    {Q : Res Errno Unit → Vol → Prop}
    (empty : ∀ t', Quiet s t' hold → isDir s d → live s d = [] → Q (.ok ()) t')
    (full : ∀ e t', Quiet s t' hold → Q (.err e) t') :
    wp (isEmpty cx d) Q t := by
  have kind := q.kind ref
  simp only [isEmpty, wp_bind, wp_get, after_ok]
  split
  · exact full _ t q
  · rename_i dir
    have dir : isDir s d := by
      rw [← kind]
      simpa using dir
    rw [q.realSize ref (ok dir)]
    apply wp_isEmptyFrom (ok dir) _ q ref fun log mem => mem_range.mp mem
    · intro t' q' rest
      exact empty t' q' dir (eq_nil_iff_forall_not_mem.mpr (not_bound rest))
    · exact full _
    · exact fun e t' _ q' => full e t' q'

def FreeSlot (s : Vol) (d : Nat) (free : DirentPtr) : Prop :=
  free.1 ≠ 0 → ∃ i, At s d i free ∧ slot s d i = none

theorem scanFree_cases (phys : Nat) (b : Mem) (free : DirentPtr) :
    scanFree phys b free = free ∨ ∃ k, k < 16 ∧ dirent b k = none ∧ scanFree phys b free = (phys, k) := by
  have fold : ∀ (ks : List Nat) (cur : DirentPtr), (∀ k ∈ ks, k < 16) →
      (cur = free ∨ ∃ k, k < 16 ∧ dirent b k = none ∧ cur = (phys, k)) →
      ks.foldl (fun free k => if deFirstBlock b k = 0 ∧ free.1 = 0 then (phys, k) else free) cur = free ∨
      ∃ k, k < 16 ∧ dirent b k = none ∧
        ks.foldl (fun free k => if deFirstBlock b k = 0 ∧ free.1 = 0 then (phys, k) else free) cur =
          (phys, k) := by
    intro ks
    induction ks with
    | nil => exact fun cur _ h => h
    | cons k ks ih =>
      intro cur range h
      rw [foldl_cons]
      apply ih _ fun x mem => range x (mem_cons_of_mem _ mem)
      split
      · rename_i dead
        exact .inr ⟨k, range k (mem_cons_self ..), by rw [dirent, if_pos dead.1], rfl⟩
      · exact h
  exact fold _ free (fun k mem => mem_range.mp mem) (.inl rfl)

theorem Quiet.freeSlot (q : Quiet s t hold) (ok : FreeSlot s d free) : FreeSlot t d free := by
  intro found
  obtain ⟨i, at', empty⟩ := ok found
  refine ⟨i, q.at' at', ?_⟩
  rw [slot, q.obj]
  exact empty

theorem FreeSlot.scan (ok : FreeSlot s d free) (lt : log < (obj s d).size / 512) :
    FreeSlot s d (scanFree ((hdr s d).phys s.dev log) ((obj s d).block log) free) := by
  rcases scanFree_cases ((hdr s d).phys s.dev log) ((obj s d).block log) free with same |
    ⟨k, inside, dead, value⟩
  · rw [same]
    exact ok
  · rw [value]
    refine fun _ => ⟨16 * log + k, ⟨?_, ?_, ?_⟩, ?_⟩
    · rw [slotCount]
      omega
    · rw [show (16 * log + k) / 16 = log by omega]
    · exact (show (16 * log + k) % 16 = k by omega).symm
    · rw [slot_eq s d log inside, dead]

theorem wp_newEntryFrom (ok : DirOk s d) (logs : List Nat) : ∀ {t : Vol} {free : DirentPtr},
    Quiet s t hold → (t.fso d).refcnt ≠ 0 → (∀ log ∈ logs, log < (obj s d).size / 512) →
    FreeSlot s d free → ∀ {Q : Res Errno DirentPtr → Vol → Prop},
    (∀ t' free', Quiet s t' hold → FreeSlot s d free' → Passed s d (·.1 ≠ name) logs → Q (.ok free') t') →
    (∀ t' b, Quiet s t' hold → (name, b) ∈ live s d → Q (.err .EEXIST) t') →
    (∀ e t', cx.IoError e → Quiet s t' hold → Q (.err e) t') →
    wp (newEntryFrom cx d name logs free) Q t := by
  induction logs with
  | nil =>
    intro t free q _ _ open' Q done _ _
    exact done t free q open' .nil
  | cons log logs ih =>
    intro t free q ref range open' Q done exists' failed
    have lt := range log (mem_cons_self ..)
    simp only [newEntryFrom, wp_bind]
    apply wp_readDirBlock q ref ok lt
    · intro t' q'
      simp only [after_ok]
      cases scan : scanBlock ((obj s d).block log) name with
      | some k =>
        obtain ⟨inside, b, entry⟩ := scanBlock_some scan
        refine exists' t' b q' (Slots.mem_live.mpr ⟨16 * log + k, ?_, ?_⟩)
        · rw [slotCount]
          omega
        · rw [slot_eq s d log inside, entry]
      | none =>
        apply ih q' (by rw [q'.refcnt, ← q.refcnt]; exact ref)
          (fun x mem => range x (mem_cons_of_mem _ mem)) (open'.scan lt)
        · exact fun t'' free' q'' open'' rest =>
            done t'' free' q'' open'' (rest.cons fun k inside e => scanBlock_none scan inside)
        · exact exists'
        · exact failed
    · exact failed

end Looking

/- Changing a directory -/

/-- The entries of the list that are there stay in their slots. -/
def Stays (s s' : Vol) (d : Nat) (l : List (Name × Nat)) : Prop :=
  ∀ k p e, At s d k p → slot s d k = some e → e ∈ l → At s' d k p ∧ slot s' d k = some e

/-- A call has worked on directory `d` and left it in order, with the entries `l`. -/
structure Edited (s s' : Vol) (d : Nat) (l : List (Name × Nat)) : Prop where
  worked : Worked s s' d
  ok : DirOk s' d
  live : (live s' d).Perm l
  stays : Stays s s' d l

section Changing
variable {cx : Cx} {s t : Vol} {d i : Nat} {p : DirentPtr}

variable {l : List (Name × Nat)}

theorem Stays.of_slots (count : slotCount s d ≤ slotCount t d)
    (phys : ∀ log, log < (obj s d).size / 512 → (hdr t d).phys t.dev log = (hdr s d).phys s.dev log)
    (slots : ∀ k, k < slotCount s d → ∀ e ∈ l, slot s d k = some e → slot t d k = some e) : Stays s t d l := by
  intro k p e at' entry mem
  refine ⟨⟨lt_of_lt_of_le at'.inside count, ?_, at'.entry⟩, slots k at'.inside e mem entry⟩
  rw [phys _ at'.log_lt]
  exact at'.block

theorem Stays.of_obj (ok : DirOk s d) (same : obj t d = obj s d)
    (phys : ∀ log, (hdr s d).phys s.dev log ≠ 0 → (hdr t d).phys t.dev log = (hdr s d).phys s.dev log) :
    Stays s t d l := by
  refine .of_slots (by rw [slotCount, slotCount, same]) (fun log lt => phys log (ok.mapped log lt)) ?_
  intro k _ e _ entry
  rw [slot, same]
  exact entry

theorem Stays.trans (a : Stays s t d (live s d)) (b : Stays t u d l) : Stays s u d l := by
  intro k p e at' entry mem
  obtain ⟨at'', entry'⟩ := a k p e at' entry (Slots.mem_live.mpr ⟨k, at'.inside, entry⟩)
  exact b k p e at'' entry' mem

theorem Edited.trans (a : Edited s t d (Natfs.live s d)) (b : Edited t u d l) : Edited s u d l := ⟨a.worked.trans b.worked, b.ok, b.live, a.stays.trans b.stays⟩

theorem Edited.of_obj (ok : DirOk s d) (worked : Worked s t d) (same : obj t d = obj s d)
    (phys : ∀ log, (hdr s d).phys s.dev log ≠ 0 → (hdr t d).phys t.dev log = (hdr s d).phys s.dev log)
    (wide : (t.fso d).refcnt ≠ 0 → (t.fso d).size < 2 ^ 32) : Edited s t d (Natfs.live s d) :=
  ⟨worked, ok.congr (by rw [same]) (by rw [same]) phys wide, by rw [live_congr same], .of_obj ok same phys⟩

variable {log : Nat} {m : Mem}

theorem DirOk.stored (ok : DirOk s d) (st : Stored s t d log m)
    (names : ∀ e ∈ Natfs.live t d, NameOk e.1) (distinct : ((Natfs.live t d).map Prod.fst).Nodup) : DirOk t d := by
  have size : (obj t d).size = (obj s d).size := by rw [st.obj]
  refine ⟨by rw [size]; exact ok.aligned, by rw [size]; exact ok.bounded, ?_, names, distinct, ?_⟩
  · intro log lt
    rw [st.phys]
    exact ok.mapped log (size ▸ lt)
  · rw [st.fso]
    exact ok.wide

theorem Disk.setEntry (disk : Disk s) (file : d ∈ s.files) (ok : DirOk s d) (at' : At s d i p)
    (same : ∀ k, k < 16 → k ≠ p.2 → dirent m k = dirent (s.dev p.1) k) :
    Stored s (s.setDev p.1 m) d (i / 16) m ∧ slotCount (s.setDev p.1 m) d = slotCount s d ∧
      slot (s.setDev p.1 m) d i = dirent m p.2 ∧ ∀ j, j ≠ i → slot (s.setDev p.1 m) d j = slot s d j := by
  have pos : p.1 ≠ 0 := by
    rw [at'.block]
    exact ok.mapped _ at'.log_lt
  have st := disk.setLeaf file at'.block.symm pos m
  have here : (obj s d).block (i / 16) = s.dev p.1 := by rw [ok.block at'.log_lt, at'.block]
  refine ⟨st, ?_, ?_, ?_⟩
  · rw [slotCount, slotCount, st.obj]
  · rw [slot, st.obj, at'.entry]
    simp only [update_same]
  · intro j ne
    rw [slot, slot, st.obj]
    by_cases block : j / 16 = i / 16
    · simp only [block, update_same, here]
      refine same _ (Nat.mod_lt _ (by decide)) ?_
      rw [at'.entry]
      omega
    · simp only [update_ne _ _ _ block]

theorem Stays.of_stored (st : Stored s t d log m)
    (rest : ∀ j, j ≠ i → slot t d j = slot s d j) (here : ∀ e ∈ l, slot s d i = some e → slot t d i = some e) :
    Stays s t d l := by
  refine .of_slots (by rw [slotCount, slotCount, st.obj]) (fun log _ => st.phys log) ?_
  intro k _ e mem entry
  by_cases eq : k = i
  · rw [eq] at entry ⊢
    exact here e mem entry
  · rw [rest k eq]
    exact entry

variable {e : Name × Nat}

theorem DirOk.not_mem (ok : DirOk s d) (perm : (Natfs.live s d).Perm (e :: l)) : e ∉ l := by
  intro mem
  have distinct := (perm.map Prod.fst).nodup_iff.mp ok.distinct
  exact (nodup_cons.mp distinct).1 (mem_map_of_mem mem)

theorem live_short (ok : DirOk s d) (at' : At s d i p) (lt : k < 16)
    (entry : dirent (s.dev p.1) k = some e) : e.1.length ≤ 27 := by
  have inside := at'.inside
  rw [slotCount] at inside
  have mem : e ∈ live s d := by
    refine Slots.mem_live.mpr ⟨16 * (i / 16) + k, ?_, ?_⟩
    · rw [slotCount]
      omega
    · rw [slot_eq s d _ lt, ok.block at'.log_lt, ← at'.block, entry]
  exact (ok.names e mem).short

theorem Disk.clearEntry (disk : Disk s) (file : d ∈ s.files) (ok : DirOk s d)
    (at' : At s d i p) (entry : slot s d i = some e) :
    ∃ l, Edited s (s.setDev p.1 (clearDirent (s.dev p.1) p.2)) d l ∧ (live s d).Perm (e :: l) := by
  have others : ∀ k, k < 16 → k ≠ p.2 →
      dirent (clearDirent (s.dev p.1) p.2) k = dirent (s.dev p.1) k := by
    intro k lt ne
    apply dirent_congr lt fun e entry => live_short ok at' lt entry
    exact fun x lo hi => clearDirent_outside _ (by omega)
  obtain ⟨st, count, now, rest⟩ := disk.setEntry file ok at' others
  rw [dirent_clear] at now
  have perm : (live s d).Perm (e :: live (s.setDev p.1 (clearDirent (s.dev p.1) p.2)) d) := by
    rw [live, live, count]
    exact Slots.live_fill at'.inside now entry fun j ne => (rest j ne).symm
  have distinct := (perm.map Prod.fst).nodup_iff.mp ok.distinct
  refine ⟨_, ⟨.of_stored st, ok.stored st ?_ ?_, .refl _, .of_stored st rest ?_⟩, perm⟩
  · exact fun x mem => ok.names x (perm.mem_iff.mpr (mem_cons_of_mem _ mem))
  · exact (nodup_cons.mp distinct).2
  · intro x mem here
    rw [entry] at here
    cases here
    exact absurd mem (ok.not_mem perm)

variable {n : Name} {v : Nat}

theorem Disk.fillEntry (disk : Disk s) (file : d ∈ s.files) (ok : DirOk s d)
    (at' : At s d i p) (free : slot s d i = none) (name : NameOk n) (fresh : ∀ e ∈ live s d, e.1 ≠ n)
    (pos : v ≠ 0) (small : v < 2 ^ 32) :
    Edited s (s.setDev p.1 (setDirent (s.dev p.1) p.2 n v)) d ((n, v) :: live s d) := by
  have inside : p.2 < 16 := at'.entry ▸ Nat.mod_lt _ (by decide)
  have others : ∀ k, k < 16 → k ≠ p.2 →
      dirent (setDirent (s.dev p.1) p.2 n v) k = dirent (s.dev p.1) k := by
    intro k lt ne
    apply dirent_congr lt fun e entry => live_short ok at' lt entry
    exact fun x lo hi => setDirent_outside _ name.short (by omega)
  obtain ⟨st, count, now, rest⟩ := disk.setEntry file ok at' others
  rw [dirent_set _ inside name pos small] at now
  have perm : (live (s.setDev p.1 (setDirent (s.dev p.1) p.2 n v)) d).Perm ((n, v) :: live s d) := by
    rw [live, count]
    exact Slots.live_fill at'.inside free now rest
  refine ⟨.of_stored st, ok.stored st ?_ ?_, perm, .of_stored st rest ?_⟩
  · intro x mem
    rcases mem_cons.mp (perm.mem_iff.mp mem) with eq | old
    · rw [eq]
      exact name
    · exact ok.names x old
  · rw [(perm.map Prod.fst).nodup_iff, map_cons, nodup_cons]
    refine ⟨?_, ok.distinct⟩
    intro mem
    obtain ⟨e, old, eq⟩ := mem_map.mp mem
    exact fresh e old eq
  · intro e _ here
    rw [free] at here
    cases here

theorem Disk.replaceEntry (disk : Disk s) (file : d ∈ s.files) (ok : DirOk s d)
    (at' : At s d i p) (entry : slot s d i = some (n, b)) (pos : v ≠ 0) (small : v < 2 ^ 32) :
    ∃ l, (live s d).Perm ((n, b) :: l) ∧ Edited s (s.setDev p.1 (setDirent (s.dev p.1) p.2 n v)) d ((n, v) :: l) := by
  have inside : p.2 < 16 := at'.entry ▸ Nat.mod_lt _ (by decide)
  have name : NameOk n := ok.names (n, b) (Slots.mem_live.mpr ⟨i, at'.inside, entry⟩)
  have others : ∀ k, k < 16 → k ≠ p.2 →
      dirent (setDirent (s.dev p.1) p.2 n v) k = dirent (s.dev p.1) k := by
    intro k lt ne
    apply dirent_congr lt fun e entry => live_short ok at' lt entry
    exact fun x lo hi => setDirent_outside _ name.short (by omega)
  obtain ⟨st, count, now, rest⟩ := disk.setEntry file ok at' others
  rw [dirent_set _ inside name pos small] at now
  obtain ⟨l, was, new⟩ := Slots.live_replace at'.inside entry now rest
  rw [← count] at new
  have was : (live s d).Perm ((n, b) :: l) := was
  have new : (live (s.setDev p.1 (setDirent (s.dev p.1) p.2 n v)) d).Perm ((n, v) :: l) := new
  refine ⟨l, was, .of_stored st, ok.stored st ?_ ?_, new, .of_stored st rest ?_⟩
  · intro x mem
    rcases mem_cons.mp (new.mem_iff.mp mem) with eq | old
    · rw [eq]
      exact name
    · exact ok.names x (was.mem_iff.mpr (mem_cons_of_mem _ old))
  · have before := (was.map Prod.fst).nodup_iff.mp ok.distinct
    exact (new.map Prod.fst).nodup_iff.mpr before
  · intro e mem here
    rw [entry] at here
    cases here
    rcases mem_cons.mp mem with eq | old
    · rw [eq]
      exact now
    · exact absurd old (ok.not_mem was)

theorem DirOk.titled (disk : Disk s) (ok : DirOk s d) (ref : (s.fso d).refcnt ≠ 0)
    (title : Retitled (s.fso d) f) (size : f.size = (s.fso d).size)
    (nlink : f.nlink = (s.fso d).nlink) : Edited s (s.setFso d f) d (live s d) := by
  obtain ⟨worked, same, size'⟩ := dated disk ref title size nlink
  have phys := (disk.setAttrs ref title).phys
  refine .of_obj ok worked same (fun log _ => phys log) ?_
  intro _
  rw [size']
  exact ok.wide ref

theorem DirOk.extended (ok : DirOk s d) (ref : (s.fso d).refcnt ≠ 0) (ext : Extended s t d) :
    DirOk t d := by
  refine ok.congr (by rw [ext.obj]) (by rw [ext.obj]) ext.phys ?_
  intro _
  rw [ext.attrs.size]
  exact ok.wide ref

theorem DirOk.ticked (ok : DirOk s d) (n : Nat) : DirOk { s with tick := n } d :=
  ⟨ok.aligned, ok.bounded, ok.mapped, ok.names, ok.distinct, ok.wide⟩

theorem DirOk.grown (ok : DirOk s d) (size : (obj t d).size = (obj s d).size + 512)
    (room : (obj s d).size + 512 ≤ 0x100000)
    (old : ∀ log, log < (obj s d).size / 512 → (obj t d).block log = (obj s d).block log)
    (new : (obj t d).block ((obj s d).size / 512) = zero)
    (mapped : ∀ log, log ≤ (obj s d).size / 512 → (hdr t d).phys t.dev log ≠ 0)
    (wide : (t.fso d).size < 2 ^ 32) : DirOk t d ∧ live t d = live s d := by
  have aligned := ok.aligned
  have count : slotCount t d = slotCount s d + 16 := by
    rw [slotCount, slotCount, size]
    omega
  have same : live t d = live s d := by
    rw [live, count, Slots.live_add, live]
    · apply Slots.live_congr
      intro j lt
      rw [slotCount] at lt
      rw [slot, slot, old _ (by omega)]
    · intro j lo hi
      rw [slotCount] at lo hi
      rw [slot, show j / 16 = (obj s d).size / 512 by omega, new, dirent_zero]
  refine ⟨⟨by omega, by omega, ?_, ?_, ?_, fun _ => wide⟩, same⟩
  · intro log lt
    exact mapped log (by omega)
  · rw [same]
    exact ok.names
  · rw [same]
    exact ok.distinct

theorem DirOk.addBlock (disk : Disk s) (ok : DirOk s d) (ref : (s.fso d).refcnt ≠ 0)
    (room : (obj s d).size + 512 ≤ 0x100000) (pos : b ≠ 0)
    (phys : (hdr s d).phys s.dev ((obj s d).size / 512) = b) : let t := (s.setDev b zero).setFso d { s.fso d with size := (s.fso d).size + 512, dirty := true }
    Edited s t d (live s d) ∧ At t d (slotCount s d) (b, 0) ∧ slot t d (slotCount s d) = none := by
  intro t
  have file := (disk.opened d ref).file
  have size : (s.fso d).size = (obj s d).size := (Quiet.refl disk).realSize ref ok
  have st := disk.setLeaf file phys pos zero
  have set := st.disk.setAttrs (i := d) (f := { s.fso d with size := (s.fso d).size + 512, dirty := true })
    ref ⟨rfl, rfl, rfl, rfl, rfl, rfl, ⟨rfl, rfl, rfl⟩, rfl, disk.nlink_lt ref⟩
  have after : obj t d = { obj s d with
      size := (obj s d).size + 512
      block := update (obj s d).block ((obj s d).size / 512) zero } := by
    have small : ((s.fso d).size + 512) % 2 ^ 32 = (obj s d).size + 512 := by
      rw [size]
      exact Nat.mod_eq_of_lt (by omega)
    have nlink : (s.fso d).nlink = (obj s d).nlink := by
      rw [obj, hdr_of_open ref]
      rfl
    rw [set.obj, st.obj, small, nlink]
  have where' : ∀ log, (hdr t d).phys t.dev log = (hdr s d).phys s.dev log := by
    intro log
    rw [set.phys, st.phys]
  have self : t.fso d = { s.fso d with size := (s.fso d).size + 512, dirty := true } := set.self
  have last : slotCount s d / 16 = (obj s d).size / 512 := by
    rw [slotCount]
    omega
  obtain ⟨inOrder, same⟩ := ok.grown (t := t) (by rw [after]) room
    (by
      intro log lt
      rw [after]
      exact update_ne _ _ _ (by omega))
    (by rw [after]; exact update_same _ _ _)
    (by
      intro log le
      rw [where']
      rcases lt_or_ge log ((obj s d).size / 512) with lt | ge
      · exact ok.mapped log lt
      · rw [show log = (obj s d).size / 512 by omega, phys]
        exact pos)
    (by
      rw [self]
      show (s.fso d).size + 512 < 2 ^ 32
      omega)
  refine ⟨⟨⟨set.disk, st.only.trans set.only, rfl, by rw [self], by rw [self], by rw [self],
    fun count => set.counted (st.counted count)⟩, inOrder, by rw [same], ?_⟩, ⟨?_, ?_, ?_⟩, ?_⟩
  · have more : slotCount s d ≤ slotCount t d := by
      rw [slotCount, slotCount, after]
      show _ ≤ 16 * (((obj s d).size + 512) / 512)
      omega
    refine .of_slots more (fun log _ => where' log) ?_
    intro k lt e _ entry
    rw [slotCount] at lt
    rw [slot, after]
    simp only
    rw [update_ne _ _ _ (by omega)]
    exact entry
  · have aligned := ok.aligned
    rw [slotCount, slotCount, after]
    show _ < 16 * (((obj s d).size + 512) / 512)
    omega
  · rw [where', last, phys]
  · rw [slotCount]
    omega
  · rw [slot, last, after]
    simp only [update_same]
    exact dirent_zero _

/-- The directory has got blocks, all that have been taken from the map, and its entries are where they
    were. -/
structure Grew (s t : Vol) (d : Nat) : Prop where
  edited : Edited s t d (Natfs.live s d)
  elsewhere : Elsewhere s t d
  sprouted : Sprouted s t d
  marked : ∀ b, b < 4096 * s.fs.geo.bamSize → used s b = true → used t b = true
  longer : (t.fso d).dirty = true → (s.fso d).dirty = true ∨
    ((hdr s d).owned s.dev).length < ((hdr t d).owned t.dev).length

theorem Disk.phys_ne (disk : Disk s) (file : d ∈ s.files) (found : (hdr s d).phys s.dev log ≠ 0) :
    (hdr s d).phys s.dev log ≠ d := by
  intro eq
  have own := nodup_cons.mp (disk.nodup d file)
  have mem := (Hdr.phys_mem found).2.2
  rw [eq] at mem
  exact own.1 mem

theorem Grew.of_stretched (ok : DirOk s d) (ref : (s.fso d).refcnt ≠ 0) (st : Stretched s t d) : Grew s t d :=
  ⟨.of_obj ok (.of_extended st.extended) st.extended.obj st.extended.phys (ok.extended ref st.extended).wide,
    st.elsewhere, st.sprouted, st.marked, st.longer⟩

theorem Grew.refl (disk : Disk s) (ok : DirOk s d) (ref : (s.fso d).refcnt ≠ 0) : Grew s s d :=
  .of_stretched ok ref (.refl disk d)

/-- `P` holds of a state in which a directory without a free entry asks for a block. -/
def GrowAsks (P : Vol → Prop) (cx : Cx) (d : Nat) (s : Vol) : Prop :=
  (s.fso d).size + 512 ≤ 0x100000 ∧ BmapAsks P cx d ((s.fso d).size / 512) s

theorem wp_growDir (disk : Disk s) (ok : DirOk s d) (ref : (s.fso d).refcnt ≠ 0)
    (kept : ¬ GrowAsks (BallocLoses cx) cx d s)
    (done : ∀ t p i, ¬ GrowAsks (Drops cx) cx d s → Edited s t d (live s d) → Sprouted s t d → At t d i p →
      slot t d i = none → Q (.ok p) t)
    (failed : ∀ e t, ¬ GrowAsks (Drops cx) cx d s → e = .EFBIG ∨ e = .ENOSPC ∨ cx.IoError e → Grew s t d →
      Q (.err e) t)
    (dropped : ∀ e t s' b, GrowAsks (Drops cx) cx d s → cx.IoError e → Grew s t d → Spilled t s' b →
      Q (.err e) s') : wp (growDir cx d) Q s := by
  have bound := ok.bounded
  have size : (s.fso d).size = (obj s d).size := (Quiet.refl disk).realSize ref ok
  simp only [growDir, wp_bind, wp_get, after_ok]
  split
  · rename_i full
    exact failed _ s (fun asks => absurd asks.1 (not_le.mpr full)) (.inl rfl) (.refl disk ok ref)
  · rename_i room
    have room' : (s.fso d).size + 512 ≤ 0x100000 := not_lt.mp room
    have asks : ∀ P, GrowAsks P cx d s ↔ BmapAsks P cx d ((obj s d).size / 512) s := by
      intro P
      rw [GrowAsks, and_iff_right room', size]
    rw [asks] at kept done failed dropped
    rw [size] at room ⊢
    simp only [wp_bind]
    apply wp_natBmap_io disk ref (by omega) kept
    · intro u clear st pos phys
      have ext := st.extended
      -- waiting for the buffer does not change the directory
      have ticked := (Worked.of_extended ext).trans (.tick ext.disk (u.tick + 1))
      have first : Edited s { u with tick := u.tick + 1 } d (live s d) := .of_obj ok ticked ext.obj ext.phys
        (ok.extended ref ext).wide
      simp only [after_ok, wp_bind, wp_get]
      apply wp_blkGet_any
      · have added := DirOk.addBlock (s := { u with tick := u.tick + 1 }) (d := d) ticked.disk
          ((ok.extended ref ext).ticked _) (by rw [ticked.refcnt]; exact ref)
          (by rw [show obj { u with tick := u.tick + 1 } d = obj s d from ext.obj]; omega) pos
          (by rw [show obj { u with tick := u.tick + 1 } d = obj s d from ext.obj]; exact phys)
        obtain ⟨edited, at', free⟩ := added
        rw [show live { u with tick := u.tick + 1 } d = live s d from live_congr ext.obj] at edited
        simp only [after_ok, wp_bind, blkFill, wp_modify, modifyFso, wp_pure]
        have apart : (u.fso d).bmapPhys ≠ d := by
          rw [← phys] at pos ⊢
          exact ext.disk.phys_ne ((ext.disk.opened d (by rw [ext.attrs.refcnt]; exact ref)).file) pos
        exact done _ _ _ clear (first.trans edited)
          (st.sprouted.still (update_ne _ _ _ apart.symm) (update_same _ _ _) rfl rfl rfl) at' free
      · exact fun e io => failed e _ clear (.inr (.inr io)) ⟨first, st.elsewhere,
          st.sprouted.still rfl rfl rfl rfl rfl, st.marked, st.longer⟩
    · exact fun e u clear why st => failed e u clear (.inr why) (.of_stretched ok ref st)
    · exact fun e u s' b spills io st spilled => dropped e u s' b spills io (.of_stretched ok ref st) spilled
    · exact fun clear _ => failed _ s clear (.inl rfl) (.refl disk ok ref)

-- unification would run the comparison of sizes in it otherwise
attribute [irreducible] growDir

variable {Q : Res Errno Unit → Vol → Prop}

theorem wp_fillEntry (disk : Disk s) (ok : DirOk s d) (ref : (s.fso d).refcnt ≠ 0)
    (at' : At s d i p) (free : slot s d i = none) (name : NameOk n) (fresh : ∀ e ∈ live s d, e.1 ≠ n)
    (pos : v ≠ 0) (small : v < 2 ^ 32) (done : ∀ t, Edited s t d ((n, v) :: live s d) → t.dev d = s.dev d →
      (∃ now, t.fso d = { s.fso d with mtime := now, dirty := true }) → Q (.ok ()) t) :
    wp (fillEntry cx d n v p) Q s := by
  have file := (disk.opened d ref).file
  have title : Retitled (s.fso d) { s.fso d with mtime := cx.clock s.tick, dirty := true } :=
    ⟨rfl, rfl, rfl, rfl, rfl, rfl, ⟨rfl, rfl, rfl⟩, rfl, disk.nlink_lt ref⟩
  have dated := ok.titled disk ref title rfl rfl
  have same := (Natfs.dated disk ref title rfl rfl).2.1
  have phys := (disk.setAttrs ref title).phys
  have filled := dated.worked.disk.fillEntry (i := i) (p := p) file dated.ok
    ⟨by rw [slotCount, same]; exact at'.inside, by rw [phys]; exact at'.block, at'.entry⟩
    (by rw [slot, same]; exact free) name (by rw [live_congr same]; exact fresh) pos small
  rw [live_congr same] at filled
  simp only [fillEntry, wp_bind, wp_clockTime, after_ok, modifyFso, wp_modify]
  have apart : p.1 ≠ d := by
    rw [at'.block]
    exact disk.phys_ne file (ok.mapped _ at'.log_lt)
  exact done _ (dated.trans filled) (update_ne _ _ _ apart.symm) ⟨_, update_same _ _ _⟩

/-- `P` holds of a state in which `new_entry`, with the free slot it has found, asks for a block. -/
def StoreAsks (P : Vol → Prop) (cx : Cx) (d : Nat) (free : DirentPtr) (s : Vol) : Prop :=
  free.1 = 0 ∧ GrowAsks P cx d s

theorem wp_storeEntry (disk : Disk s) (ok : DirOk s d)
    (ref : (s.fso d).refcnt ≠ 0) (open' : FreeSlot s d free) (name : NameOk n) (fresh : ∀ e ∈ live s d, e.1 ≠ n)
    (pos : v ≠ 0) (small : v < 2 ^ 32) (kept : ¬ StoreAsks (BallocLoses cx) cx d free s)
    (done : ∀ t, ¬ StoreAsks (Drops cx) cx d free s → Edited s t d ((n, v) :: live s d) → Sprouted s t d →
      Q (.ok ()) t) (failed : ∀ e t, ¬ StoreAsks (Drops cx) cx d free s → e = .EFBIG ∨ e = .ENOSPC ∨ cx.IoError e →
      Grew s t d → Q (.err e) t)
    (dropped : ∀ e t s' b, StoreAsks (Drops cx) cx d free s → cx.IoError e → Grew s t d → Spilled t s' b →
      Q (.err e) s') : wp (storeEntry cx d n v free) Q s := by
  simp only [storeEntry]
  split
  · rename_i none
    have asks : ∀ P, StoreAsks P cx d free s ↔ GrowAsks P cx d s := fun _ => and_iff_right none
    rw [asks] at kept done failed dropped
    rw [wp_bind]
    apply wp_growDir disk ok ref kept
    · intro t p i clear edited sprouted at' empty
      have same : ∀ e ∈ live t d, e.1 ≠ n := fun e mem => fresh e (edited.live.mem_iff.mp mem)
      apply wp_fillEntry edited.worked.disk edited.ok (by rw [edited.worked.refcnt]; exact ref) at' empty
        name same pos small
      rintro u filled header ⟨now, self⟩
      have all := edited.trans filled
      refine done u clear ⟨all.worked, all.ok, all.live.trans (edited.live.cons _), ?_⟩
        (sprouted.still header self rfl rfl rfl)
      exact fun k p e at' entry mem => all.stays k p e at' entry ((edited.live.cons _).mem_iff.mpr mem)
    · exact failed
    · exact dropped
  · rename_i found
    have clear : ¬ StoreAsks (Drops cx) cx d free s := fun asks => found asks.1
    obtain ⟨i, at', empty⟩ := open' found
    have ticked : Worked s { s with tick := s.tick + 1 } d := .tick disk _
    have still : Edited s { s with tick := s.tick + 1 } d (live s d) :=
      .of_obj ok ticked rfl (fun _ _ => rfl) ok.wide
    simp only [wp_bind]
    apply wp_blkRead_any
    · rw [after_ok]
      apply wp_fillEntry (s := { s with tick := s.tick + 1 }) ticked.disk (ok.ticked _) ref
        ⟨at'.inside, at'.block, at'.entry⟩ empty name fresh pos small
      rintro t filled header ⟨now, self⟩
      exact done t clear (still.trans filled) ((Sprouted.refl s d).still header self rfl rfl rfl)
    · exact fun e io => failed e _ clear (.inr (.inr io)) ⟨still, .refl s d,
        (Sprouted.refl s d).still rfl rfl rfl rfl rfl, fun _ _ => id, .inl⟩

/-- `P` holds of a state in which `new_entry` asks for a block. -/
def EntryAsks (P : Vol → Prop) (cx : Cx) (d : Nat) (name : Name) (s : Vol) : Prop :=
  sIsdir (s.fso d).mode = true ∧ name ≠ [] ∧ permError cx s.fs.geo (s.fso d) (xOk ||| wOk) = none ∧
    name.length ≤ 27 ∧ ∃ free t,
      newEntryFrom cx d name (range ((s.fso d).size / 512)) (0, 0) s = (.ok free, t) ∧
        StoreAsks P cx d free t

theorem wp_newEntry_io {hold : List Nat} (q : Quiet s t hold) (ref : (t.fso d).refcnt ≠ 0)
    (ok : isDir s d → DirOk s d) (clean : (0 : Byte) ∉ n) (pos : v ≠ 0) (small : v < 2 ^ 32)
    (kept : ¬ EntryAsks (BallocLoses cx) cx d n t)
    (done : ∀ t' u, ¬ EntryAsks (Drops cx) cx d n t → Quiet s t' hold → isDir s d →
      Edited t' u d ((n, v) :: live s d) → Sprouted t' u d → Q (.ok ()) u)
    (exists' : ∀ t', ¬ EntryAsks (Drops cx) cx d n t → Quiet s t' hold → isDir s d →
      (n = [] ∨ ∃ b, (n, b) ∈ live s d) → Q (.err .EEXIST) t')
    (failed : ∀ e t' u, ¬ EntryAsks (Drops cx) cx d n t → e = .EFBIG ∨ e = .ENOSPC ∨ cx.IoError e →
      Quiet s t' hold → isDir s d → Grew t' u d → Q (.err e) u)
    (dropped : ∀ e t' u w b, EntryAsks (Drops cx) cx d n t → cx.IoError e → Quiet s t' hold → isDir s d →
      Grew t' u d → Spilled u w b → Q (.err e) w)
    (denied : ∀ e, ¬ EntryAsks (Drops cx) cx d n t → e ≠ .EEXIST → Q (.err e) t) : wp (newEntry cx d n v) Q t := by
  have kind := q.kind ref
  simp only [newEntry, wp_bind, wp_get, after_ok]
  split
  · rename_i other
    refine denied _ (fun asks => ?_) (by decide)
    rw [asks.1] at other
    cases other
  · rename_i isdir
    have isdir : sIsdir (t.fso d).mode = true := by simpa using isdir
    have dir : isDir s d := kind.mp isdir
    split
    · rename_i empty
      exact exists' t (fun asks => asks.2.1 empty) q dir (.inl empty)
    · rename_i nonempty
      simp only [wp_bind]
      apply wp_fsChkPerm
      · intro granted
        simp only [after_ok]
        split
        · rename_i long
          exact denied _ (fun asks => absurd asks.2.2.2.1 (not_le.mpr long)) (by decide)
        · rename_i short
          have short : n.length ≤ 27 := not_lt.mp short
          have name : NameOk n := ⟨nonempty, short, clean⟩
          -- the scan decides whether a block is needed
          have asks : ∀ P, EntryAsks P cx d n t ↔ ∃ free t',
              newEntryFrom cx d n (range ((t.fso d).size / 512)) (0, 0) t = (.ok free, t') ∧
                StoreAsks P cx d free t' := by
            intro P
            simp only [EntryAsks, isdir, nonempty, granted, short, ne_eq, not_false_iff, true_and]
          have stop : ∀ {e t'}, newEntryFrom cx d n (range ((t.fso d).size / 512)) (0, 0) t = (.err e, t') →
              ¬ EntryAsks (Drops cx) cx d n t := by
            rintro e t' run asking
            obtain ⟨free, u, run', _⟩ := (asks _).mp asking
            rw [run] at run'
            cases run'
          rw [asks] at kept
          have size := q.realSize ref (ok dir)
          simp only [wp_bind]
          apply wp_run
          rw [size] at kept asks stop ⊢
          apply wp_newEntryFrom (ok dir) _ q ref (fun log mem => mem_range.mp mem)
            (fun h => absurd rfl h)
          · intro t' free q' open' rest run
            have store : ∀ P, EntryAsks P cx d n t ↔ StoreAsks P cx d free t' := by
              intro P
              rw [asks]
              constructor
              · rintro ⟨free', u, run', storing⟩
                rw [run] at run'
                cases run'
                exact storing
              · exact fun storing => ⟨free, t', run, storing⟩
            rw [store] at done failed dropped
            have same : live t' d = live s d := live_congr (q'.obj d)
            have ref' : (t'.fso d).refcnt ≠ 0 := by rw [q'.refcnt, ← q.refcnt]; exact ref
            simp only [after_ok]
            apply wp_storeEntry q'.disk (q'.dirOk (ok dir)) ref' (q'.freeSlot open') name
              (by rw [same]; exact not_bound rest) pos small fun loses => kept ⟨free, t', run, loses⟩
            · intro u clear edited sprouted
              rw [same] at edited
              exact done t' u clear q' dir edited sprouted
            · exact fun e u clear why grew => failed e t' u clear why q' dir grew
            · exact fun e u w b spills io grew spilled => dropped e t' u w b spills io q' dir grew spilled
          · exact fun t' b q' mem run => exists' t' (stop run) q' dir (.inr ⟨b, mem⟩)
          · intro e t' io q' run
            have ref' : (t'.fso d).refcnt ≠ 0 := by rw [q'.refcnt, ← q.refcnt]; exact ref
            exact failed e t' t' (stop run) (.inr (.inr io)) q' dir (.refl q'.disk (q'.dirOk (ok dir)) ref')
      · intro e code
        refine denied e (fun asks => ?_) ?_
        · rw [asks.2.2.1] at code
          cases code
        · rcases permError_cases code with rfl | rfl <;> decide

theorem wp_newEntry (noio : cx.NoIoError) (q : Quiet s t hold)
    (ref : (t.fso d).refcnt ≠ 0) (ok : isDir s d → DirOk s d) (clean : (0 : Byte) ∉ n) (pos : v ≠ 0)
    (small : v < 2 ^ 32)
    (done : ∀ t' u, Quiet s t' hold → isDir s d → Edited t' u d ((n, v) :: live s d) → Q (.ok ()) u)
    (exists' : ∀ t', Quiet s t' hold → isDir s d → (n = [] ∨ ∃ b, (n, b) ∈ live s d) → Q (.err .EEXIST) t')
    (refused : ∀ e t' u, e ≠ .EEXIST → Quiet s t' hold → isDir s d → Edited t' u d (live s d) → Q (.err e) u)
    (denied : ∀ e, e ≠ .EEXIST → Q (.err e) t) : wp (newEntry cx d n v) Q t := by
  have kept : ¬ EntryAsks (BallocLoses cx) cx d n t := by
    rintro ⟨_, _, _, _, free, u, _, _, _, asks⟩
    exact not_bmapAsks (not_ballocLoses noio) asks
  apply wp_newEntry_io q ref ok clean pos small kept
  · exact fun t' u _ q' dir edited _ => done t' u q' dir edited
  · exact fun t' _ q' dir why => exists' t' q' dir why
  · intro e t' u _ why q' dir grew
    have edited := grew.edited
    rw [live_congr (q'.obj d)] at edited
    refine refused e t' u ?_ q' dir edited
    rcases why with rfl | rfl | io
    · decide
    · decide
    · exact (noio.none io).elim
  · exact fun _ _ _ _ _ _ io _ _ _ _ => (noio.none io).elim
  · exact fun e _ other => denied e other

end Changing

end Natfs
