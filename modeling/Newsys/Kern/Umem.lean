import Mathlib.Algebra.Group.Nat.Defs
import Mathlib.Algebra.Ring.Int.Defs
import Mathlib.Tactic.Common
import Newsys.Lib.Cmd
import Newsys.Kern.Errno

/- The check of user memory (kern/arch-i386/umem.c and page.c, kern/arch-amd64/umem.c and page.c). What the
   pages hold is left out, and so is the signal that a fault may raise. -/
namespace Umem
open Cmds Cmd Kern List Nat Function

/- The part that both machines share -/

/-- A machine: the bits of a pointer, the pages of the user area, and `pg_uauto`. -/
structure Arch where
  word : Nat
  pageUser : Nat
  pageUserEnd : Nat
  Mem : Type
  pgUauto : Nat → Cmd Errno Mem Unit

variable {A : Arch}

def firstPage (p : Nat) : Nat := p / 4096

def lastPage (A : Arch) (p size : Nat) : Nat := (p + size - 1) % 2 ^ A.word / 4096

def InRange (A : Arch) (p size : Nat) : Prop :=
  firstPage p ≤ lastPage A p size ∧ (A.pageUser ≤ firstPage p ∧ firstPage p < A.pageUserEnd) ∧
    (A.pageUser ≤ lastPage A p size ∧ lastPage A p size < A.pageUserEnd)

instance (p size : Nat) : Decidable (InRange A p size) := inferInstanceAs (Decidable (_ ∧ _))

def ugaOn (A : Arch) (p size : Nat) : Cmd Errno A.Mem Unit :=
  if size = 0 then pure ()
  else if InRange A p size then
    forEach (List.range' (firstPage p) (lastPage A p size + 1 - firstPage p)) A.pgUauto
  else fail .EFAULT

/-- `size_t s = sz * nm`, a product of two `unsigned`. -/
def uaaOn (A : Arch) (p sz nm : Nat) : Cmd Errno A.Mem Unit :=
  let s := sz * nm % 2 ^ 32
  if s < sz then fail .EINVAL else ugaOn A p s

def Covered (A : Arch) (mapped : A.Mem → Nat → Prop) (m : A.Mem) (p n : Nat) : Prop :=
  ∀ a, p ≤ a → a < p + n → A.pageUser ≤ a / 4096 ∧ a / 4096 < A.pageUserEnd ∧ mapped m (a / 4096)

section Shared
variable {mapped : A.Mem → Nat → Prop} {m : A.Mem} {p size n : Nat}

/-- `pg_uauto` maps its page, and keeps the pages of the user area that are mapped. -/
def Maps (A : Arch) (mapped : A.Mem → Nat → Prop) : Prop :=
  ∀ m i, A.pageUser ≤ i → wp (A.pgUauto i)
    (fun r m' => r = .ok () → mapped m' i ∧ ∀ j, A.pageUser ≤ j → mapped m j → mapped m' j) m

theorem wp_ugaOn (maps : Maps A mapped) (some : size ≠ 0) :
    wp (ugaOn A p size) (fun r m' => r = .ok () → InRange A p size ∧
      ∀ i, firstPage p ≤ i → i ≤ lastPage A p size → mapped m' i) m := by
  rw [ugaOn, if_neg some]
  split
  swap
  · exact nofun
  rename_i range
  obtain ⟨order, ⟨low, -⟩, -⟩ := id range
  -- the pages that are not in the rest of the list are mapped
  apply wp_forEach (fun rest m' => (∀ i ∈ rest, A.pageUser ≤ i) ∧
    ∀ i, firstPage p ≤ i → i ≤ lastPage A p size → i ∉ rest → mapped m' i)
  · refine ⟨?_, ?_⟩
    · intro i mem
      have := (mem_range'_1.mp mem).1
      omega
    · intro i from_first to_last out
      exact absurd (mem_range'_1.mpr ⟨from_first, by omega⟩) out
  · rintro m' ⟨-, all⟩ _
    exact ⟨range, fun i from_first to_last => all i from_first to_last not_mem_nil⟩
  · rintro i rest m' ⟨user, done⟩
    apply wp_mono (maps m' i (user i mem_cons_self))
    intro r m'' post
    cases r with
    | ok a =>
      obtain ⟨here, kept⟩ := post rfl
      refine ⟨fun j mem => user j (mem_cons_of_mem _ mem), ?_⟩
      intro j from_first to_last out
      by_cases eq : j = i
      · rw [eq]
        exact here
      · apply kept j (by omega)
        apply done j from_first to_last
        intro mem
        rcases List.mem_cons.mp mem with same | mem
        · exact eq same
        · exact out mem
    | err e => exact nofun
    | crash => exact nofun

theorem ugaOn_mapped (range : InRange A p size) (ready : ∀ i, firstPage p ≤ i → i ≤ lastPage A p size →
    A.pgUauto i m = (.ok (), m)) (some : size ≠ 0) : ugaOn A p size m = (.ok (), m) := by
  have all : ∀ l : List Nat, (∀ i ∈ l, A.pgUauto i m = (.ok (), m)) → forEach l A.pgUauto m = (.ok (), m) := by
    intro l each
    induction l with
    | nil => rfl
    | cons i l ih =>
      simp only [forEach, bind, Cmd.bind, each i mem_cons_self]
      exact ih fun j mem => each j (mem_cons_of_mem _ mem)
  rw [ugaOn, if_neg some, if_pos range]
  apply all
  intro i mem
  obtain ⟨low, high⟩ := mem_range'_1.mp mem
  have order := range.1
  exact ready i low (by omega)

theorem covered_of_pages (range : InRange A p size) (straight : p + size ≤ 2 ^ A.word)
    (all : ∀ i, firstPage p ≤ i → i ≤ lastPage A p size → mapped m i) : Covered A mapped m p size := by
  intro a from_p to_end
  have last : lastPage A p size = (p + size - 1) / 4096 := by
    rw [lastPage, mod_eq_of_lt (by omega)]
  obtain ⟨-, ⟨low, -⟩, -, high⟩ := range
  rw [last] at high all
  have first : firstPage p ≤ a / 4096 := Nat.div_le_div_right from_p
  have before : a / 4096 ≤ (p + size - 1) / 4096 := Nat.div_le_div_right (by omega)
  exact ⟨by omega, by omega, all _ first before⟩

theorem covered_of_ugaOn (maps : Maps A mapped)
    (straight : InRange A p size → p + size ≤ 2 ^ A.word) (done : ugaOn A p size m = (.ok (), m')) :
    Covered A mapped m' p size := by
  by_cases some : size = 0
  · intro a from_p to_end
    omega
  have post : (ugaOn A p size m).1 = .ok () → InRange A p size ∧
      ∀ i, firstPage p ≤ i → i ≤ lastPage A p size → mapped (ugaOn A p size m).2 i := wp_ugaOn maps some
  rw [done] at post
  obtain ⟨range, all⟩ := post rfl
  exact covered_of_pages range (straight range) all

/-- `uaa` promises what `uga` does for a product of 32 bits. For a larger one it promises nothing unless it
    fails. -/
theorem uaaOn_iff {sz nm : Nat} {Fits : Nat → Prop} (empty : Fits 0)
    (uga : ∀ n, n < 2 ^ 32 → ((∀ m m', ugaOn A p n m = (.ok (), m') → Covered A mapped m' p n) ↔ Fits n))
    (beyond : ∀ n, 2 ^ 32 ≤ n → n % 2 ^ 32 ≠ 0 → InRange A p (n % 2 ^ 32) →
      ∃ m, ugaOn A p (n % 2 ^ 32) m = (.ok (), m) ∧ ¬ Covered A mapped m p n) :
    (∀ m m', uaaOn A p sz nm m = (.ok (), m') → Covered A mapped m' p (sz * nm)) ↔
      if sz * nm < 2 ^ 32 then Fits (sz * nm) else sz * nm % 2 ^ 32 < sz ∨ ¬ InRange A p (sz * nm % 2 ^ 32) := by
  have failed : sz * nm % 2 ^ 32 < sz → ∀ m m', uaaOn A p sz nm m ≠ (.ok (), m') := by
    intro lt m m' done
    rw [uaaOn, if_pos lt] at done
    cases done
  have run : ¬ sz * nm % 2 ^ 32 < sz → uaaOn A p sz nm = ugaOn A p (sz * nm % 2 ^ 32) := by
    intro le
    rw [uaaOn, if_neg le]
  split
  · rename_i fits
    rw [mod_eq_of_lt fits] at failed run
    by_cases lt : sz * nm < sz
    · -- only a product of nothing is smaller than a factor
      have none : sz * nm = 0 := by
        cases nm with
        | zero => rfl
        | succ n =>
          have le : sz * 1 ≤ sz * (n + 1) := mul_le_mul_left sz (by omega)
          omega
      rw [none]
      constructor
      · intro _
        exact empty
      · intro _ m m' _ a from_p to_end
        omega
    · rw [run lt]
      exact uga _ fits
  · rename_i large
    have some : ¬ sz * nm % 2 ^ 32 < sz → sz * nm % 2 ^ 32 ≠ 0 := by
      intro le none
      have factor : sz = 0 := by omega
      rw [factor] at large
      omega
    constructor
    · intro sound
      by_contra misfit
      simp only [not_or, not_not] at misfit
      obtain ⟨le, range⟩ := misfit
      obtain ⟨m, done, uncovered⟩ := beyond _ (by omega) (some le) range
      rw [← run le] at done
      exact uncovered (sound m m done)
    · rintro (lt | out) m m' done
      · exact absurd done (failed lt m m')
      · by_cases lt : sz * nm % 2 ^ 32 < sz
        · exact absurd done (failed lt m m')
        · rw [run lt, ugaOn, if_neg (some lt), if_neg out] at done
          cases done

end Shared

/- i386 -/

namespace I386

abbrev Pte := BitVec 32

def pgfPresent : Pte := 1
def pgfWritable : Pte := 2
def pgfUser : Pte := 4
def pgfAuto : Pte := 1024
def pgfCow : Pte := 2048

def pageUser : Nat := 0x40000
def pageUserEnd : Nat := 0x100000
def pageTmp : Nat := 7

/-- The page directory and the page table, and what `pg_alloc` answers at each time. -/
structure Mem where
  pgDir : Nat → Pte
  pgTab : Nat → Pte
  alloc : Nat → Except Errno Pte
  tick : Nat
  pgCount : Nat

def pgAlloc : Cmd Errno Mem Pte := do
  let m ← get
  modify fun m => { m with tick := m.tick + 1 }
  match m.alloc m.tick with
  | .ok pg => pure pg
  | .error e => fail e

def setTab (p : Nat) (e : Pte) (m : Mem) : Mem := { m with pgTab := update m.pgTab p e }

def pgUauto (p : Nat) : Cmd Errno Mem Unit := do
  let m ← get
  if m.pgDir (p / 1024) &&& pgfUser = 0 then fail .EFAULT
  else if m.pgTab p &&& pgfCow ≠ 0 then do
    let pg ← pgAlloc
    modify (setTab pageTmp ((pg <<< 12) ||| pgfPresent ||| pgfWritable))
    modify (setTab pageTmp 0)
    modify (setTab p ((pg <<< 12) ||| pgfPresent ||| pgfUser ||| pgfWritable))
    modify fun m => { m with pgCount := m.pgCount + 1 }
  else if m.pgTab p &&& pgfPresent ≠ 0 then pure ()
  else if m.pgTab p &&& pgfAuto ≠ 0 then do
    let pg ← pgAlloc
    modify (setTab p ((pg <<< 12) ||| pgfPresent ||| pgfWritable ||| pgfUser))
    modify fun m => { m with pgCount := m.pgCount + 1 }
  else fail .EFAULT

def arch : Arch := ⟨32, pageUser, pageUserEnd, Mem, pgUauto⟩

def uga (p size : Nat) : Cmd Errno Mem Unit := ugaOn arch p size

def uaa (p sz nm : Nat) : Cmd Errno Mem Unit := uaaOn arch p sz nm

def Mapped (m : Mem) (p : Nat) : Prop := m.pgDir (p / 1024) &&& pgfUser ≠ 0 ∧ m.pgTab p &&& pgfPresent ≠ 0

variable {m : Mem}

theorem wp_pgAlloc (ok : ∀ pg, Q (.ok pg) { m with tick := m.tick + 1 })
    (err : ∀ e, Q (.err e) { m with tick := m.tick + 1 }) : wp pgAlloc Q m := by
  simp only [pgAlloc, wp_bind, wp_get, after_ok, wp_modify]
  split
  · exact ok _
  · exact err _

theorem present_of_bit (bit : e.getLsbD 0 = true) : e &&& pgfPresent ≠ 0 := by
  intro zero
  have here := congrArg (fun x => x.getLsbD 0) zero
  simp [pgfPresent] at here
  simp [BitVec.getLsbD_eq_getElem, here] at bit

variable {p : Nat}

theorem mapped_setTab (dir : m'.pgDir = m.pgDir)
    (tab : ∀ q, pageUser ≤ q → m'.pgTab q = if q = p then e else m.pgTab q) (present : e &&& pgfPresent ≠ 0)
    (user : pageUser ≤ p) (reach : m.pgDir (p / 1024) &&& pgfUser ≠ 0) :
    Mapped m' p ∧ ∀ q, pageUser ≤ q → Mapped m q → Mapped m' q := by
  constructor
  · rw [Mapped, dir, tab p user, if_pos rfl]
    exact ⟨reach, present⟩
  · intro q user' mapped
    rw [Mapped, dir, tab q user']
    refine ⟨mapped.1, ?_⟩
    split
    · exact present
    · exact mapped.2

theorem wp_pgUauto (user : pageUser ≤ i) : wp (pgUauto i)
    (fun r m' => r = .ok () → Mapped m' i ∧ ∀ j, pageUser ≤ j → Mapped m j → Mapped m' j) m := by
  simp only [pgUauto, wp_bind, wp_get, after_ok]
  split
  · exact nofun
  rename_i reach
  split
  · simp only [wp_bind]
    apply wp_pgAlloc
    · intro pg
      simp only [after_ok, wp_bind, wp_modify]
      intro _
      refine mapped_setTab (m := m) (p := i) (e := (pg <<< 12) ||| pgfPresent ||| pgfUser ||| pgfWritable) rfl ?_ ?_ user reach
      · intro q user'
        have apart : q ≠ pageTmp := by
          simp only [pageUser, pageTmp] at *
          omega
        by_cases eq : q = i
        · subst eq
          simp [setTab]
        · simp [setTab, update_of_ne apart, eq]
      · apply present_of_bit
        simp [pgfPresent, pgfUser, pgfWritable]
    · intro e
      exact nofun
  split
  · rename_i present
    intro _
    exact ⟨⟨reach, present⟩, fun _ _ mapped => mapped⟩
  split
  · simp only [wp_bind]
    apply wp_pgAlloc
    · intro pg
      simp only [after_ok, wp_bind, wp_modify]
      intro _
      refine mapped_setTab (m := m) (p := i) (e := (pg <<< 12) ||| pgfPresent ||| pgfWritable ||| pgfUser) rfl ?_ ?_ user reach
      · intro q user'
        by_cases eq : q = i
        · subst eq
          simp [setTab]
        · simp [setTab, eq]
      · apply present_of_bit
        simp [pgfPresent, pgfUser, pgfWritable]
    · intro e
      exact nofun
  · exact nofun

theorem maps : Maps arch Mapped := fun _ _ user => wp_pgUauto user

/-- What a successful `uga` and `uaa` promise, whatever is mapped before. -/
def UgaSound (p : BitVec 32) (size : BitVec 32) : Prop :=
  ∀ m m', uga p.toNat size.toNat m = (.ok (), m') → Covered arch Mapped m' p.toNat size.toNat

def UaaSound (p sz nm : BitVec 32) : Prop :=
  ∀ m m', uaa p.toNat sz.toNat nm.toNat m = (.ok (), m') → Covered arch Mapped m' p.toNat (sz.toNat * nm.toNat)

/-- Below the user area, or not around to the same page. -/
def UgaFits (p size : Nat) : Prop := firstPage p < pageUser ∨ p % 4096 + size ≤ 2 ^ 32

def UaaFits (p sz nm : Nat) : Prop :=
  if sz * nm < 2 ^ 32 then UgaFits p (sz * nm)
  else sz * nm % 2 ^ 32 < sz ∨ ¬ InRange arch p (sz * nm % 2 ^ 32)

def full : Mem := ⟨fun _ => pgfUser, fun _ => pgfPresent, fun _ => .error .ENOMEM, 0, 0⟩

theorem pgUauto_full (i : Nat) : pgUauto i full = (.ok (), full) := by
  simp only [pgUauto, bind, Cmd.bind, Cmd.get, full]
  rw [if_neg (by decide), if_neg (by decide), if_pos (by decide)]
  rfl

variable {size : Nat}

theorem covered_of_uga (fits : UgaFits p size)
    (done : uga p size m = (.ok (), m')) : Covered arch Mapped m' p size := by
  refine covered_of_ugaOn maps ?_ done
  -- an address that wraps comes out in front of the first page
  intro range
  obtain ⟨order, ⟨low, -⟩, -⟩ := range
  simp only [firstPage, lastPage, arch, pageUser, UgaFits] at *
  omega

theorem not_covered (past : 2 ^ 32 < p + n) (some : n ≠ 0) : ¬ Covered arch Mapped m p n := by
  intro covered
  have last := (covered (p + n - 1) (by omega) (by omega)).2.1
  simp only [arch, pageUserEnd] at last
  omega

theorem uga_full (range : InRange arch p size) (some : size ≠ 0) : uga p size full = (.ok (), full) :=
  ugaOn_mapped range (fun i _ _ => pgUauto_full i) some

theorem uga_iff (small : p < 2 ^ 32) (small' : size < 2 ^ 32) :
    (∀ m m', uga p size m = (.ok (), m') → Covered arch Mapped m' p size) ↔ UgaFits p size := by
  constructor
  · intro sound
    by_contra misfit
    simp only [UgaFits, not_or, not_lt, not_le] at misfit
    obtain ⟨user, around⟩ := misfit
    have range : InRange arch p size := by
      simp only [InRange, firstPage, lastPage, arch, pageUser, pageUserEnd] at *
      omega
    have covered := sound full full (uga_full range (by omega))
    refine not_covered ?_ (by omega) covered
    simp only [firstPage, pageUser] at user
    omega
  · intro fits m m' done
    exact covered_of_uga fits done

theorem ugaSound_iff (p size : BitVec 32) : UgaSound p size ↔ UgaFits p.toNat size.toNat := uga_iff p.isLt size.isLt

theorem uaaSound_iff (p sz nm : BitVec 32) : UaaSound p sz nm ↔ UaaFits p.toNat sz.toNat nm.toNat := by
  have small := p.isLt
  refine @uaaOn_iff arch Mapped p.toNat sz.toNat nm.toNat (UgaFits p.toNat) ?_ ?_ ?_
  · exact .inr (by omega)
  · intro n lt
    exact uga_iff small lt
  · intro n large some range
    exact ⟨full, uga_full range some, not_covered (by omega) (by omega)⟩

end I386

/- amd64 -/

namespace Amd64

abbrev Pte := BitVec 64

def pgfPresent : Pte := 1
def pgfWritable : Pte := 2
def pgfUser : Pte := 4
def pgfAuto : Pte := 1024
def pgfCow : Pte := 2048
def pgfHighlevel : Pte := pgfPresent ||| pgfWritable ||| pgfUser

def pageUser : Nat := 0x40000
def pageUserEnd : Nat := 0x200000

inductive Level where
  | pml4
  | pdp
  | dir
  | tab
  deriving DecidableEq

structure Mem where
  table : Level → Nat → Pte
  alloc : Nat → Except Errno Pte
  tick : Nat
  pgCount : Nat

def pgAlloc : Cmd Errno Mem Pte := do
  let m ← get
  modify fun m => { m with tick := m.tick + 1 }
  match m.alloc m.tick with
  | .ok pg => pure pg
  | .error e => fail e

def setTable (l : Level) (t : Nat → Pte) (m : Mem) : Mem := { m with table := update m.table l t }

/-- A missing entry `i` of a level gets a table of zeros on the level below. -/
def pgAltab1 (l sub : Level) (i : Nat) (flags : Pte) : Cmd Errno Mem Unit := do
  let m ← get
  if m.table l i = 0 then
    if flags = 0 then fail .EFAULT
    else do
      let pg ← pgAlloc
      modify fun m => setTable l (update (m.table l) i ((pg <<< 12) ||| flags)) m
      modify fun m => setTable sub (fun j => if i * 512 ≤ j ∧ j < i * 512 + 512 then 0 else m.table sub j) m
  else pure ()

def pgAltab (pti : Nat) (flags : Pte) : Cmd Errno Mem Unit := do
  pgAltab1 .pml4 .pdp (pti / 2 ^ 27) pgfHighlevel
  pgAltab1 .pdp .dir (pti / 2 ^ 18) pgfHighlevel
  pgAltab1 .dir .tab (pti / 2 ^ 9) flags

def pgUauto (p : Nat) : Cmd Errno Mem Unit :=
  if p < pageUser ∨ p ≥ pageUserEnd then fail .EFAULT
  else do
    pgAltab p 0
    let m ← get
    if m.table .tab p &&& pgfCow ≠ 0 then crash
    else if m.table .tab p &&& pgfPresent ≠ 0 then pure ()
    else if m.table .tab p &&& pgfAuto ≠ 0 then do
      let pg ← pgAlloc
      modify fun m => setTable .tab
        (update (m.table .tab) p ((pg <<< 12) ||| pgfPresent ||| pgfWritable ||| pgfUser)) m
      modify fun m => { m with pgCount := m.pgCount + 1 }
    else fail .EFAULT

def arch : Arch := ⟨64, pageUser, pageUserEnd, Mem, pgUauto⟩

def uga (p size : Nat) : Cmd Errno Mem Unit := ugaOn arch p size

def uaa (p sz nm : Nat) : Cmd Errno Mem Unit := uaaOn arch p sz nm

def Mapped (m : Mem) (p : Nat) : Prop :=
  m.table .pml4 (p / 2 ^ 27) ≠ 0 ∧ m.table .pdp (p / 2 ^ 18) ≠ 0 ∧ m.table .dir (p / 2 ^ 9) ≠ 0 ∧
    m.table .tab p &&& pgfPresent ≠ 0

variable {m : Mem}

theorem wp_pgAlloc (ok : ∀ pg, Q (.ok pg) { m with tick := m.tick + 1 })
    (err : ∀ e, Q (.err e) { m with tick := m.tick + 1 }) : wp pgAlloc Q m := by
  simp only [pgAlloc, wp_bind, wp_get, after_ok, wp_modify]
  split
  · exact ok _
  · exact err _

variable {i : Nat}

theorem wp_pgAltab1 (there : m.table l i ≠ 0 → Q (.ok ()) m)
    (cleared : ∀ m', flags ≠ 0 → (∀ j, i * 512 ≤ j → j < i * 512 + 512 → m'.table sub j = 0) → Q (.ok ()) m')
    (err : ∀ e m', Q (.err e) m') : wp (pgAltab1 l sub i flags) Q m := by
  simp only [pgAltab1, wp_bind, wp_get, after_ok]
  split
  · split
    · exact err _ _
    · rename_i some
      simp only [wp_bind]
      apply wp_pgAlloc
      · intro pg
        simp only [after_ok, wp_bind, wp_modify]
        apply cleared _ some
        intro j low high
        simp [setTable, low, high]
      · intro e
        exact err e _
  · rename_i entry
    exact there entry

variable {p : Nat}

theorem wp_pgAltab
    (ok : m.table .pml4 (p / 2 ^ 27) ≠ 0 → m.table .pdp (p / 2 ^ 18) ≠ 0 → m.table .dir (p / 2 ^ 9) ≠ 0 → Q (.ok ()) m)
    (err : ∀ e m', Q (.err e) m') : wp (pgAltab p 0) Q m := by
  -- a new directory is empty, so that there is no table for the page in it
  have last : ∀ m' : Mem, m'.table .dir (p / 2 ^ 9) = 0 → wp (pgAltab1 .dir .tab (p / 2 ^ 9) 0) Q m' := by
    intro m' zero
    simp only [pgAltab1, wp_bind, wp_get, after_ok, zero, if_true]
    exact err _ _
  have lower : ∀ m' : Mem, m'.table .pdp (p / 2 ^ 18) = 0 →
      wp (do
        pgAltab1 .pdp .dir (p / 2 ^ 18) pgfHighlevel
        pgAltab1 .dir .tab (p / 2 ^ 9) 0) Q m' := by
    intro m' zero
    rw [wp_bind]
    apply wp_pgAltab1
    · intro entry
      exact absurd zero entry
    · intro m'' _ cleared
      rw [after_ok]
      exact last m'' (cleared _ (by omega) (by omega))
    · intro e m''
      exact err e m''
  simp only [pgAltab]
  rw [wp_bind]
  apply wp_pgAltab1
  · intro top
    rw [after_ok, wp_bind]
    apply wp_pgAltab1
    · intro middle
      rw [after_ok]
      apply wp_pgAltab1
      · intro bottom
        exact ok top middle bottom
      · intro m' some
        exact absurd rfl some
      · exact err
    · intro m' _ cleared
      rw [after_ok]
      exact last m' (cleared _ (by omega) (by omega))
    · intro e m'
      exact err e m'
  · intro m' _ cleared
    rw [after_ok]
    exact lower m' (cleared _ (by omega) (by omega))
  · intro e m'
    exact err e m'

theorem present_of_bit (bit : e.getLsbD 0 = true) : e &&& pgfPresent ≠ 0 := by
  intro zero
  have here := congrArg (fun x => x.getLsbD 0) zero
  simp [pgfPresent] at here
  simp [BitVec.getLsbD_eq_getElem, here] at bit

theorem wp_pgUauto : wp (pgUauto i)
    (fun r m' => r = .ok () → Mapped m' i ∧ ∀ j, pageUser ≤ j → Mapped m j → Mapped m' j) m := by
  rw [pgUauto]
  split
  · exact nofun
  rw [wp_bind]
  apply wp_pgAltab
  swap
  · exact fun _ _ => nofun
  intro top middle bottom
  simp only [after_ok, wp_bind, wp_get]
  split
  · exact nofun
  split
  · rename_i present
    intro _
    exact ⟨⟨top, middle, bottom, present⟩, fun _ _ mapped => mapped⟩
  split
  swap
  · exact nofun
  simp only [wp_bind]
  apply wp_pgAlloc
  swap
  · exact fun _ => nofun
  intro pg
  simp only [after_ok, wp_bind, wp_modify]
  intro _
  have present : ((pg <<< 12) ||| pgfPresent ||| pgfWritable ||| pgfUser) &&& pgfPresent ≠ 0 := by
    apply present_of_bit
    simp [pgfPresent, pgfUser, pgfWritable]
  refine ⟨⟨by simpa [setTable] using top, by simpa [setTable] using middle, by simpa [setTable] using bottom, ?_⟩, ?_⟩
  · simpa [setTable] using present
  · rintro j - ⟨top', middle', bottom', present'⟩
    refine ⟨by simpa [setTable] using top', by simpa [setTable] using middle', by simpa [setTable] using bottom', ?_⟩
    by_cases eq : j = i
    · subst eq
      simpa [setTable] using present
    · simpa [setTable, update_of_ne eq] using present'

theorem maps : Maps arch Mapped := fun _ _ _ => wp_pgUauto

def UgaSound (p : BitVec 64) (size : BitVec 32) : Prop :=
  ∀ m m', uga p.toNat size.toNat m = (.ok (), m') → Covered arch Mapped m' p.toNat size.toNat

def UaaSound (p : BitVec 64) (sz nm : BitVec 32) : Prop :=
  ∀ m m', uaa p.toNat sz.toNat nm.toNat m = (.ok (), m') → Covered arch Mapped m' p.toNat (sz.toNat * nm.toNat)

def UaaFits (p sz nm : Nat) : Prop :=
  sz * nm < 2 ^ 32 ∨ sz * nm % 2 ^ 32 < sz ∨ ¬ InRange arch p (sz * nm % 2 ^ 32)

theorem covered_of_uga {size : Nat} (small : size < 2 ^ 32) (done : uga p size m = (.ok (), m')) :
    Covered arch Mapped m' p size := by
  refine covered_of_ugaOn maps ?_ done
  intro range
  obtain ⟨-, ⟨-, high⟩, -⟩ := range
  simp only [firstPage, arch, pageUserEnd] at *
  omega

/-- Memory in which just the pages that `uga` looks at are mapped. -/
def window (p size : Nat) : Mem :=
  { table := fun l i => match l with
      | .tab => if firstPage p ≤ i ∧ i ≤ lastPage arch p size then pgfPresent else 0
      | _ => 1
    alloc := fun _ => .error .ENOMEM, tick := 0, pgCount := 0 }

theorem pgUauto_window {size : Nat} (range : InRange arch p size) (low : firstPage p ≤ i)
    (high : i ≤ lastPage arch p size) : pgUauto i (window p size) = (.ok (), window p size) := by
  have user : ¬ (i < pageUser ∨ i ≥ pageUserEnd) := by
    obtain ⟨-, ⟨user, -⟩, -, past⟩ := range
    change pageUser ≤ firstPage p at user
    change lastPage arch p size < pageUserEnd at past
    omega
  have entry : (window p size).table .tab i = pgfPresent := by simp [window, low, high]
  have tables : pgAltab i 0 (window p size) = (.ok (), window p size) := rfl
  rw [pgUauto, if_neg user]
  simp only [bind, Cmd.bind, tables, Cmd.get, entry]
  rw [if_neg (by decide), if_pos (by decide)]
  rfl

theorem uaaSound_iff (p : BitVec 64) (sz nm : BitVec 32) : UaaSound p sz nm ↔ UaaFits p.toNat sz.toNat nm.toNat := by
  have iff := @uaaOn_iff arch Mapped p.toNat sz.toNat nm.toNat (fun _ => True) trivial ?_ ?_
  · refine iff.trans ?_
    rw [UaaFits]
    split
    · rename_i fits
      exact ⟨fun _ => .inl fits, fun _ => trivial⟩
    · rename_i large
      exact ⟨fun h => .inr h, fun h => h.resolve_left large⟩
  · intro n lt
    exact ⟨fun _ => trivial, fun _ m m' done => covered_of_uga lt done⟩
  · intro n large some range
    refine ⟨window p.toNat (n % 2 ^ 32), ugaOn_mapped range (fun i low high => pgUauto_window range low high) some, ?_⟩
    intro covered
    -- the last byte lies in a page behind the window
    have last := (covered (p.toNat + n - 1) (by omega) (by omega)).2.2.2.2.2
    have behind : ¬ (p.toNat + n - 1) / 4096 ≤ lastPage arch p.toNat (n % 2 ^ 32) := by
      have lt := p.isLt
      obtain ⟨-, ⟨-, high⟩, -⟩ := range
      simp only [firstPage, lastPage, arch, pageUserEnd] at *
      omega
    have empty : (window p.toNat (n % 2 ^ 32)).table .tab ((p.toNat + n - 1) / 4096) = 0 :=
      if_neg fun both => behind both.2
    rw [empty] at last
    exact last (by decide)

end Amd64

/-- Exactly when the checks promise that every byte is mapped, on both machines, for every pointer and every size. -/
theorem user_memory_checked (p size sz nm : BitVec 32) (q : BitVec 64) :
    (I386.UgaSound p size ↔ I386.UgaFits p.toNat size.toNat) ∧
    (I386.UaaSound p sz nm ↔ I386.UaaFits p.toNat sz.toNat nm.toNat) ∧
    Amd64.UgaSound q size ∧
    (Amd64.UaaSound q sz nm ↔ Amd64.UaaFits q.toNat sz.toNat nm.toNat) := by
  refine ⟨I386.ugaSound_iff p size, I386.uaaSound_iff p sz nm, ?_, Amd64.uaaSound_iff q sz nm⟩
  intro m m' done
  exact Amd64.covered_of_uga size.isLt done

/-- A size that goes around to the first page passes `uga` on i386, and a product that overflows to more than
    a factor passes `uaa` on both machines. -/
theorem user_memory_not_checked : ¬ I386.UgaSound 0x40000002 0xffffffff ∧ ¬ I386.UaaSound 0x40000000 12 0x15555557 ∧
    ¬ Amd64.UaaSound 0x40000000 12 0x15555557 := by
  refine ⟨?_, ?_, ?_⟩
  · rw [I386.ugaSound_iff, I386.UgaFits]
    decide
  · rw [I386.uaaSound_iff, I386.UaaFits, if_neg (by decide)]
    decide
  · rw [Amd64.uaaSound_iff, Amd64.UaaFits]
    decide

end Umem
