import Newsys.Kern.Fdesc
import Newsys.Natfs.Rw

/- Reading, writing and seeking on a descriptor of a native file (kern/fs/syscall.c). The offset is kept in the open
   file, the start of an append is the size of the object. -/
namespace Natfs.Descriptor
open Bytes Cmds Cmd Sparse List
open Fdesc (Mode reads writes oAppend)

structure Desc where
  vol : Vol
  fso : Nat
  offset : Nat
  omode : Mode

abbrev DescM := Cmd Errno Desc

def onVol {α : Type} (m : NatM α) : DescM α := fun s => ((m s.vol).1, { s with vol := (m s.vol).2 })

def accessError (cx : Cx) (s : Desc) (mode : Nat) : Option Errno :=
  if mode &&& rOk ≠ 0 ∧ reads s.omode = false then some .EBADF
  else if mode &&& wOk ≠ 0 ∧ writes s.omode = false then some .EBADF
  else if mode &&& xOk ≠ 0 then some .EINVAL
  else permError cx s.vol.fs.geo (s.vol.fso s.fso) mode

def check : Option Errno → DescM Unit
  | some e => fail e
  | none => pure ()

def fsFdaccess (cx : Cx) (mode : Nat) : DescM Unit := do
  let s ← get
  check (accessError cx s mode)

def advance (count : Nat) : DescM Unit := modify fun s => { s with offset := (s.offset + count) % 2 ^ 64 }

def sysRead (cx : Cx) (uga : Option Errno) (size : Nat) : DescM (List Byte) := do
  fsFdaccess cx rOk
  check uga
  let s ← get
  let data ← onVol (natRead cx s.fso s.offset size)
  advance data.length
  pure data

def start (s : Desc) : Nat := if s.omode &&& oAppend ≠ 0 then (s.vol.fso s.fso).size else s.offset

def sysWrite (cx : Cx) (uga : Option Errno) (data : List Byte) : DescM Nat := do
  fsFdaccess cx wOk
  check uga
  let s ← get
  onVol (natWrite cx s.fso (start s) data)
  advance data.length
  pure data.length

inductive Whence where
  | set | cur | end' | other
  deriving DecidableEq

def uoff (off : Int) : Nat := (off % 2 ^ 64).toNat

def sysLseek (cx : Cx) (off : Int) (whence : Whence) : DescM Nat := do
  fsFdaccess cx 0
  match whence with
  | .set => modify fun s => { s with offset := uoff off }
  | .cur => modify fun s => { s with offset := uoff (s.offset + off) }
  | .end' => modify fun s => { s with offset := uoff ((s.vol.fso s.fso).size + off) }
  | .other => fail .EINVAL
  let s ← get
  pure s.offset

def Desc.content (s : Desc) : File Byte := Natfs.content s.vol s.fso

structure Valid (s : Desc) : Prop where
  disk : Disk s.vol
  opened : (s.vol.fso s.fso).refcnt ≠ 0
  size : (s.vol.fso s.fso).size < 2 ^ 32
  offset : s.offset < 2 ^ 64

theorem Valid.seen {s : Desc} {v : Vol} (valid : Valid s) (seen : Seen s.vol v s.fso) {offset : Nat}
    (lt : offset < 2 ^ 64) : Valid { s with vol := v, offset := offset } :=
  ⟨seen.worked.disk, by rw [seen.worked.refcnt]; exact valid.opened, by rw [seen.size]; exact valid.size, lt⟩

theorem Valid.covers {s : Desc} {v : Vol} {at' m : Nat} {data : List Byte} (valid : Valid s)
    (covers : Covers s.vol v s.fso at' data m) (range : m ≠ 0 → at' + m < 2 ^ 31) {offset : Nat}
    (lt : offset < 2 ^ 64) : Valid { s with vol := v, offset := offset } :=
  ⟨covers.worked.disk, by rw [covers.worked.refcnt]; exact valid.opened, (covers.filled valid.size range).1, lt⟩

section Rules
variable {α : Type} {cx : Cx} {s : Desc} {uga : Option Errno}

theorem wp_onVol (h : wp m (fun r v => Q r { s with vol := v }) s.vol) : wp (onVol m) Q s := h

theorem wp_check (ok : e = none → Q (.ok ()) s)
    (refused : ∀ e', e = some e' → Q (.err e') s) : wp (check e) Q s := by
  cases e with
  | none => exact ok rfl
  | some e => exact refused e rfl

theorem read_end (valid : Valid s) (size : Nat) : s.offset + (s.content.read s.offset size).length < 2 ^ 64 := by
  have width := content_size valid.opened valid.size
  have offset := valid.offset
  have small := valid.size
  simp only [Desc.content, File.read, File.bytes, length_map, length_range, width]
  omega

theorem wp_sysRead (valid : Valid s) (range : s.offset ≤ (s.vol.fso s.fso).size → s.offset + size < 2 ^ 64)
    (done : ∀ v, Seen s.vol v s.fso → Q (.ok (s.content.read s.offset size)) { s with vol := v, offset := s.offset + (s.content.read s.offset size).length })
    (failed : ∀ e v, Seen s.vol v s.fso → Q (.err e) { s with vol := v }) : wp (sysRead cx uga size) Q s := by
  have refl := Seen.refl valid.disk s.fso
  simp only [sysRead, fsFdaccess, wp_bind, wp_get, after_ok]
  apply wp_check
  · intro _
    simp only [after_ok, wp_bind]
    apply wp_check
    · intro _
      simp only [after_ok, wp_bind, wp_get]
      apply wp_onVol
      apply wp_natRead valid.disk valid.opened valid.size range
      · intro v seen
        simp only [after_ok, wp_bind, advance, wp_modify, wp_pure]
        have post := done v seen
        rw [← Nat.mod_eq_of_lt (read_end valid size)] at post
        exact post
      · exact fun v e seen => failed e v seen
    · exact fun e _ => failed e s.vol refl
  · exact fun e _ => failed e s.vol refl

def Passes (cx : Cx) (s : Desc) (uga : Option Errno) : Prop := accessError cx s wOk = none ∧ uga = none

instance (cx : Cx) (s : Desc) (uga : Option Errno) : Decidable (Passes cx s uga) :=
  inferInstanceAs (Decidable (_ ∧ _))

theorem wp_sysWrite (valid : Valid s) (kept : ¬ WriteLoses cx s.fso (start s) data s.vol)
    (done : ∀ v, Admitted cx s.vol s.fso (start s) data.length → writeStops cx s.fso (start s) data s.vol = none →
      Wrote s.vol v s.fso (start s) data → Q (.ok data.length) { s with vol := v, offset := (s.offset + data.length) % 2 ^ 64 })
    (refused : ∀ e, ¬ (Passes cx s uga ∧ Admitted cx s.vol s.fso (start s) data.length) → Q (.err e) s)
    (stopped : ∀ v n m e, Passes cx s uga → Admitted cx s.vol s.fso (start s) data.length →
      writeStops cx s.fso (start s) data s.vol = some (n, m) → n ≤ m → m ≤ data.length →
      Covers s.vol v s.fso (start s) (data.take n) m → Q (.err e) { s with vol := v }) :
    wp (sysWrite cx uga data) Q s := by
  simp only [sysWrite, fsFdaccess, wp_bind, wp_get, after_ok]
  apply wp_check
  · intro access
    simp only [after_ok, wp_bind]
    apply wp_check
    · intro buffer
      simp only [after_ok, wp_bind, wp_get]
      apply wp_onVol
      apply wp_natWrite_io valid.disk valid.opened kept
      · exact fun v admitted through wrote => done v admitted through wrote
      · exact fun e not => refused e fun both => not both.2
      · exact fun v n m e admitted stops order bound covers =>
          stopped v n m e ⟨access, buffer⟩ admitted stops order bound covers
    · intro e denied
      refine refused e fun both => ?_
      rw [both.1.2] at denied
      cases denied
  · intro e denied
    refine refused e fun both => ?_
    rw [both.1.1] at denied
    cases denied

end Rules
/- Writes that fail -/

def Same (f f' : File Byte) : Prop := f'.size = f.size ∧ ∀ k, k < f.size → f'.byte k = f.byte k

/-- The number of bytes that the caller is told about: -1 with an error code says nothing of one. -/
def told : Res Errno Nat → Option Nat
  | .ok n => some n
  | _ => none

/-- What a write that fails may leave behind, and what the size of the file may cover after any write. -/
structure Honest (f f' : File Byte) (at' : Nat) (data : List Byte) (r : Res Errno Nat) : Prop where
  failed : ∀ e, r = .err e → Same f f' ∨ ∃ n, told r = some n ∧ Same (f.write at' (data.take n)) f'
  covered : ∀ k, k < f'.size → f'.byte k = 0 ∨ k < f.size ∧ f'.byte k = f.byte k ∨
    at' ≤ k ∧ k < at' + data.length ∧ f'.byte k = data.getD (k - at') 0

def sampleDesc (omode : Mode) : Desc := ⟨sampleVol, 9, 0, omode⟩

theorem sampleDesc_valid (omode : Mode) : Valid (sampleDesc omode) := by
  have opened : (sampleVol.fso 9).refcnt ≠ 0 := by decide
  have size : (sampleVol.fso 9).size < 2 ^ 32 := by decide
  exact ⟨sampleVol_disk, opened, size, Nat.two_pow_pos 64⟩

inductive Call where
  | read (cx : Cx) (uga : Option Errno) (size : Nat)
  | write (cx : Cx) (uga : Option Errno) (data : List Byte)
  | lseek (cx : Cx) (off : Int) (whence : Whence)

inductive Reply where
  | data (bytes : List Byte)
  | count (n : Nat)
  | position (offset : Nat)
  deriving DecidableEq

namespace Call

def run : Call → DescM Reply
  | read cx uga size => do
    let bytes ← sysRead cx uga size
    pure (.data bytes)
  | write cx uga data => do
    let n ← sysWrite cx uga data
    pure (.count n)
  | lseek cx off whence => do
    let offset ← sysLseek cx off whence
    pure (.position offset)

def Transfers (c : Call) (s s' : Desc) (r : Reply) : Prop :=
  match c, r with
  | read _ _ size, .data bytes =>
    bytes = s.content.read s.offset size ∧ s'.offset = s.offset + bytes.length ∧ s'.content = s.content
  | write _ _ data, .count n =>
    n = data.length ∧ s'.content = s.content.write (start s) data ∧
      s'.offset = if data = [] then s.offset else start s + n
  | lseek .., .position offset => s'.offset = offset ∧ s'.content = s.content
  | _, _ => False

def Lawful (c : Call) (s : Desc) : Prop :=
  match c.run s with
  | (.ok r, s') => c.Transfers s s' r
  | (.err _, s') => s'.offset = s.offset
  | (.crash, _) => False

/-- Two calls in a row that succeed: a read after an append is at the end of the file, and a read after a read
    goes on where the first one ended. -/
def Joins (c c' : Call) (s : Desc) (r r' : Reply) : Prop :=
  match c, r, c', r' with
  | write _ _ data, _, read .., .data bytes => s.omode &&& oAppend ≠ 0 → data ≠ [] → bytes = []
  | read .., .data first, read .., .data second =>
    first ++ second = s.content.bytes s.offset (first.length + second.length)
  | _, _, _, _ => True

def Adjoins (c c' : Call) (s : Desc) : Prop :=
  match c.run s with
  | (.ok r, t) =>
    match c'.run t with
    | (.ok r', _) => c.Joins c' s r r'
    | _ => True
  | _ => True

/-- The end of the request can be represented, an append is made with the offset at the end of the file, and no
    changes of the map of used blocks are lost. -/
def Apt (s : Desc) : Call → Prop
  | read _ _ size => s.offset ≤ (s.vol.fso s.fso).size → s.offset + size < 2 ^ 64
  | write cx _ data => start s + data.length < 2 ^ 64 ∧ (data ≠ [] → start s = s.offset) ∧
    ¬ WriteLoses cx s.fso (start s) data s.vol
  | lseek .. => True

end Call

def AllApt : Desc → List Call → Prop
  | _, [] => True
  | s, c :: cs => c.Apt s ∧ AllApt (c.run s).2 cs

def Follows : Desc → List Call → Prop
  | _, [] => True
  | s, c :: cs => c.Lawful s ∧ (∀ c', cs.head? = some c' → c.Adjoins c' s) ∧ Follows (c.run s).2 cs

theorem uoff_lt (off : Int) : uoff off < 2 ^ 64 := by
  rw [uoff]
  omega

theorem call_lawful {s : Desc} (c : Call) (valid : Valid s) (apt : c.Apt s) :
    c.Lawful s ∧ Valid (c.run s).2 := by
  show wp c.run (fun r s' => (match (r, s') with
    | (.ok r, s') => c.Transfers s s' r
    | (.err _, s') => s'.offset = s.offset
    | (.crash, _) => False) ∧ Valid s') s
  cases c with
  | read cx uga size =>
    rw [Call.run, wp_bind]
    apply wp_sysRead valid apt
    · intro v seen
      simp only [after_ok, wp_pure]
      exact ⟨⟨rfl, rfl, content_of_obj seen.obj⟩, valid.seen seen (read_end valid size)⟩
    · intro e v seen
      exact ⟨rfl, valid.seen seen valid.offset⟩
  | write cx uga data =>
    rw [Call.run, wp_bind]
    obtain ⟨range, atEnd, kept⟩ := apt
    have limit : Admitted cx s.vol s.fso (start s) data.length → start s + data.length < 2 ^ 31 := by
      intro admitted
      have last := admitted.2.2.2
      rw [Nat.mod_eq_of_lt range] at last
      omega
    apply wp_sysWrite valid kept
    · intro v admitted _ wrote
      simp only [after_ok, wp_pure]
      obtain ⟨_, filled⟩ := wrote.filled valid.size fun _ => limit admitted
      have offset : (s.offset + data.length) % 2 ^ 64 = if data = [] then s.offset else start s + data.length := by
        split
        · rename_i none
          rw [none, length_nil, add_zero, Nat.mod_eq_of_lt valid.offset]
        · rename_i some
          rw [← atEnd some, Nat.mod_eq_of_lt range]
      refine ⟨⟨rfl, filled, offset⟩, ?_⟩
      exact valid.covers wrote.covers (fun _ => limit admitted) (Nat.mod_lt _ (Nat.two_pow_pos 64))
    · intro e _
      exact ⟨rfl, valid⟩
    · intro v n m e _ admitted _ _ bound covers
      refine ⟨rfl, valid.covers covers (fun _ => ?_) valid.offset⟩
      have last := limit admitted
      omega
  | lseek cx off whence =>
    have moved : ∀ offset, Valid { s with offset := uoff offset } := fun offset =>
      ⟨valid.disk, valid.opened, valid.size, uoff_lt offset⟩
    simp only [Call.run, sysLseek, fsFdaccess, wp_bind, wp_get, after_ok]
    apply wp_check
    · intro _
      cases whence with
      | set => exact ⟨⟨rfl, rfl⟩, moved _⟩
      | cur => exact ⟨⟨rfl, rfl⟩, moved _⟩
      | end' => exact ⟨⟨rfl, rfl⟩, moved _⟩
      | other => exact ⟨rfl, valid⟩
    · exact fun e _ => ⟨rfl, valid⟩

theorem read_after_append {f : File Byte} {data : List Byte} (some : data ≠ []) (size : Nat) :
    (f.write f.size data).read (f.size + data.length) size = [] := by
  simp only [File.read, File.write, if_neg some]
  rw [show max f.size (f.size + data.length) - (f.size + data.length) = 0 by omega, Nat.min_zero]
  rfl

theorem read_after_read (f : File Byte) (off m n : Nat) :
    f.read off m ++ f.read (off + (f.read off m).length) n =
      f.bytes off ((f.read off m).length + (f.read (off + (f.read off m).length) n).length) := by
  have whole : ∀ o k, f.read o k = f.bytes o (f.read o k).length := by
    intro o k
    simp [File.read, File.bytes]
  rw [bytes_add, ← whole, ← whole]

theorem joins_of_transfers {c c' : Call} {s t u : Desc} {r r' : Reply} (valid : Valid s)
    (first : c.Transfers s t r) (later : c'.Transfers t u r') : c.Joins c' s r r' := by
  unfold Call.Joins
  split
  · cases r with
    | count n =>
      obtain ⟨rfl, content, offset⟩ := first
      obtain ⟨all, _, _⟩ := later
      intro append some
      have eof : start s = s.content.size := by
        rw [start, if_pos append]
        exact (content_size valid.opened valid.size).symm
      rw [all, content, offset, if_neg some, eof]
      exact read_after_append some _
    | data | position => exact first.elim
  · obtain ⟨bytes, offset, content⟩ := first
    obtain ⟨bytes', _, _⟩ := later
    rw [content, offset] at bytes'
    subst bytes
    subst bytes'
    exact read_after_read _ _ _ _
  · trivial

theorem adjoins_of_lawful {c c' : Call} {s : Desc} (valid : Valid s) (lawful : c.Lawful s)
    (later : c'.Lawful (c.run s).2) : c.Adjoins c' s := by
  unfold Call.Adjoins
  unfold Call.Lawful at lawful later
  rcases run : c.run s with ⟨r | e | _, t⟩
  · rw [run] at lawful later
    dsimp only at lawful later ⊢
    rcases run' : c'.run t with ⟨r' | e | _, u⟩
    · rw [run'] at later
      exact joins_of_transfers valid lawful later
    · trivial
    · trivial
  · trivial
  · trivial

theorem follows_from (calls : List Call) : ∀ {s : Desc}, Valid s → AllApt s calls → Follows s calls := by
  induction calls with
  | nil => exact fun _ _ => trivial
  | cons c calls ih =>
    intro s valid apt
    obtain ⟨lawful, next⟩ := call_lawful c valid apt.1
    refine ⟨lawful, ?_, ih next apt.2⟩
    intro c' first
    cases calls with
    | nil => cases first
    | cons d rest =>
      cases first
      exact adjoins_of_lawful valid lawful (call_lawful c' next apt.2.1).1

/-- The offset of a descriptor follows the data in every sequence of calls. -/
theorem offsets_follow (s : Desc) (calls : List Call) (valid : Valid s) (apt : AllApt s calls) : Follows s calls :=
  follows_from calls valid apt

/-- An append to an empty file, a read at its end, and a read of all of it. -/
theorem offsets_follow_sample :
    Follows (sampleDesc (Fdesc.oRdwr ||| oAppend))
      [.write sampleCx none [1, 2], .read sampleCx none 5, .lseek sampleCx 0 .set, .read sampleCx none 5] := by
  refine offsets_follow _ _ (sampleDesc_valid _) ⟨⟨by decide, fun _ => rfl, ?_⟩, ?_, trivial, ?_, trivial⟩
  · exact fun loses => not_loopLoses (fun _ => rfl) _ _ _ _ _ loses.2
  · intro _
    decide +kernel
  · intro _
    decide +kernel

theorem Call.Lawful.offset (lawful : (Call.write cx uga data).Lawful s) (some : data ≠ [])
    (ok : ((Call.write cx uga data).run s).1 = .ok (.count n)) :
    ((Call.write cx uga data).run s).2.offset = start s + n := by
  unfold Call.Lawful at lawful
  rcases run : (Call.write cx uga data).run s with ⟨r | e | _, t⟩
  · rw [run] at lawful ok
    cases ok
    obtain ⟨_, _, offset⟩ := lawful
    rw [if_neg some] at offset
    exact offset
  · rw [run] at ok
    cases ok
  · rw [run] at ok
    cases ok

def rewound : Desc :=
  ((Call.lseek sampleCx 0 .set).run
    ((Call.write sampleCx none [1, 2, 3]).run (sampleDesc (Fdesc.oRdwr ||| oAppend))).2).2

theorem rewound_appends : ((Call.write sampleCx none [4]).run rewound).1 = .ok (.count 1) ∧ start rewound = 3 ∧
    ((Call.write sampleCx none [4]).run rewound).2.offset = 1 := by
  decide +kernel

/-- A byte is appended with the offset at the start of a file: it goes to the end, but the offset moves on from the
    start. -/
theorem offsets_not_follow_append : ¬ ∀ (s : Desc) (calls : List Call), Valid s → Follows s calls := by
  intro all
  obtain ⟨_, _, _, _, lawful, _⟩ := all (sampleDesc (Fdesc.oRdwr ||| oAppend))
    [.write sampleCx none [1, 2, 3], .lseek sampleCx 0 .set, .write sampleCx none [4]] (sampleDesc_valid _)
  obtain ⟨ok, start, offset⟩ := rewound_appends
  have follows : ((Call.write sampleCx none [4]).run rewound).2.offset = Descriptor.start rewound + 1 :=
    Call.Lawful.offset lawful (by decide) ok
  rw [offset, start] at follows
  exact absurd follows (by decide)

end Natfs.Descriptor
