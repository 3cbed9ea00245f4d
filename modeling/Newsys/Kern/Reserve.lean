import Newsys.Kern.Paging

/- Reservations in the address space of the kernel: what `pg_adget` and `pg_adput` do to ranges that are reserved. On
   i386 the search steps over four tables at once when one is absent; on amd64 nobody subtracts from `pg_vfree`. -/
namespace Reserve
open Cmds Cmd Kern Paging Finset Nat
open Machine (pageDyn pageDynEnd)

/-- The tables, and the ranges that have been reserved and not been returned. -/
structure Sys where
  space : Space
  held : List (Nat × Nat)

def Covers (r : Nat × Nat) (k : Nat) : Prop := r.1 ≤ k ∧ k < r.1 + r.2

instance (r : Nat × Nat) (k : Nat) : Decidable (Covers r k) := inferInstanceAs (Decidable (_ ∧ _))

def Apart (r r' : Nat × Nat) : Prop := ∀ k, ¬ (Covers r k ∧ Covers r' k)

/-- A range of free pages of the area. -/
structure Fits (M : Machine) (s : Space) (size a : Nat) : Prop where
  lower : M.pageDyn ≤ a
  upper : a + size ≤ pageDynEnd
  unused : ∀ k, a ≤ k → k < a + size → ¬ used M s k

def Fitting (M : Machine) (s : Space) (size : Nat) : Prop := ∃ a, Fits M s size a

def unreserved (M : Machine) (s : Space) : Finset Nat :=
  (Finset.Ico M.pageDyn pageDynEnd).filter fun k => ¬ used M s k

def Exact (M : Machine) (s : Space) : Prop := s.vfree = (unreserved M s).card

/-- What `pg_adget` should do: a range inside the area and apart from the others, or an error because there is none,
    and `pg_vfree` is right. -/
def GoodGet (M : Machine) (σ : Sys) (size : Nat) : Prop :=
  wp (pgAdget M size) (fun r s' => match r with
    | .ok a => M.pageDyn ≤ a ∧ a + size ≤ pageDynEnd ∧ (∀ r ∈ σ.held, Apart r (a, size)) ∧ Exact M s'
    | .err _ => ¬ Fitting M σ.space size ∧ Exact M s'
    | .crash => False) σ.space

structure Edge (s : Space) (T : Nat) : Prop where
  whole : T % 1024 = 0
  lower : pageDyn .i386 ≤ T
  upper : T < pageDynEnd
  absent : s.dir (T / 1024) = none
  present : ∀ k, pageDyn .i386 ≤ k → k < T → s.dir (k / 1024) ≠ none

/-- Where steps of four tables from `T` on first arrive at the end of the area or behind it. -/
def reach (T : Nat) : Nat := T + 4096 * ((pageDynEnd - T + 4095) / 4096)

/-- On i386 the size has a place in the area, or has none even if the last free pages, from `b` on, went on to the end
    of the last step. On amd64 no page may ever be reserved. -/
def Right (s : Space) (size : Nat) : Machine → Prop
  | .i386 => Fitting .i386 s size ∨ ∀ T b, Edge s T → pageDyn .i386 ≤ b →
      (∀ k, b ≤ k → k < T → ¬ used .i386 s k) → reach T < b + size
  | .amd64 => size = 0 ∨ pageDynEnd - pageDyn .amd64 < size

/-- The frames for all page tables that a call may need. -/
def Plenty (q : Frames.Pool) : Prop := 256 ≤ Frames.avail q

structure Booted (M : Machine) (s : Space) : Prop where
  counted : Frames.Counted s.pool
  high : s.pml4 0 ≠ none ∧ s.pdp 0 ≠ none
  empty : ∀ k, M.pageDyn ≤ k → k < pageDynEnd → s.dir (k / M.tableEntries) = none
  vfree : s.vfree = pageDynEnd - M.pageDyn

/-- The states in runs whose calls meet the condition. Between the calls frames come and go, and reserved pages are
    mapped and unmapped. -/
inductive Reached (M : Machine) : Sys → Prop where
  | boot {s : Space} : Booted M s → Reached M ⟨s, []⟩
  | other {σ : Sys} {q : Frames.Pool} {tab : Nat → Pte} : Reached M σ → Frames.Counted q →
      (∀ k, tab k = .none ↔ σ.space.tab k = .none) → Reached M ⟨{ σ.space with pool := q, tab := tab }, σ.held⟩
  | got {σ : Sys} {size a : Nat} {s' : Space} : Reached M σ → Plenty σ.space.pool → Right σ.space size M →
      pgAdget M size σ.space = (.ok a, s') → Reached M ⟨s', (a, size) :: σ.held⟩
  | refused {σ : Sys} {size : Nat} {e : Errno} {s' : Space} : Reached M σ → Plenty σ.space.pool →
      Right σ.space size M → pgAdget M size σ.space = (.err e, s') → Reached M ⟨s', σ.held⟩
  | put {σ : Sys} {r : Nat × Nat} : Reached M σ → r ∈ σ.held →
      Reached M ⟨pgAdput M r.1 r.2 σ.space, σ.held.erase r⟩

structure Inv (M : Machine) (σ : Sys) : Prop where
  counted : Frames.Counted σ.space.pool
  high : σ.space.pml4 0 ≠ none ∧ σ.space.pdp 0 ≠ none
  down : ∀ a b, M.pageDyn ≤ a → a ≤ b → b < pageDynEnd → σ.space.dir (b / M.tableEntries) ≠ none →
    σ.space.dir (a / M.tableEntries) ≠ none
  covered : ∀ k, M.pageDyn ≤ k → k < pageDynEnd → (used M σ.space k ↔ ∃ r ∈ σ.held, Covers r k)
  inside : ∀ r ∈ σ.held, M.pageDyn ≤ r.1 ∧ r.1 + r.2 ≤ pageDynEnd
  apart : σ.held.Pairwise Apart
  exact_ : Exact M σ.space
  empty : M = .amd64 → ∀ r ∈ σ.held, r.2 = 0

section SearchI386
variable {s : Space} {size i start fuel : Nat}

/-- The invariant of the search: the pages looked at since `start` are free, no range begins before `start`, and the
    search is either among the tables that are there or in steps behind them. -/
structure Looking (s : Space) (size i start : Nat) : Prop where
  lower : pageDyn .i386 ≤ start
  le : start ≤ i
  unused : ∀ k, start ≤ k → k < i → k < pageDynEnd → ¬ used .i386 s k
  begins : start = pageDyn .i386 ∨ ∃ k, start = k + 1 ∧ used .i386 s k
  early : ∀ a, Fits .i386 s size a → start ≤ a
  place : (i ≤ pageDynEnd ∧ ∀ k, pageDyn .i386 ≤ k → k < i → s.dir (k / 1024) ≠ none) ∨
    ∃ T j, Edge s T ∧ start ≤ T ∧ i = T + 4096 * j ∧ i ≤ pageDynEnd + 4095

structure Found (s : Space) (size a : Nat) : Prop where
  lower : pageDyn .i386 ≤ a
  unused : ∀ k, a ≤ k → k < a + size → k < pageDynEnd → ¬ used .i386 s k
  early : ∀ b, Fits .i386 s size b → a ≤ b
  fits : a + size ≤ pageDynEnd ∨ ∃ T, Edge s T ∧ a + size ≤ reach T
  present : ∀ k, pageDyn .i386 ≤ k → k < a → s.dir (k / 1024) ≠ none

theorem Looking.found (look : Looking s size i start) (enough : size ≤ i - start) : Found s size start := by
  have le := look.le
  refine ⟨look.lower, ?_, look.early, ?_, ?_⟩
  · intro k lo hi
    exact look.unused k lo (by omega)
  · rcases look.place with ⟨inside, -⟩ | ⟨T, j, edge, -, here, near⟩
    · exact Or.inl (by omega)
    · have upper := edge.upper
      refine Or.inr ⟨T, edge, ?_⟩
      rw [reach]
      omega
  · intro k lo hi
    rcases look.place with ⟨-, present⟩ | ⟨T, j, edge, before, -, -⟩
    · exact present k lo (by omega)
    · exact edge.present k lo (by omega)

theorem edge_unique (edge : Edge s T) (edge' : Edge s T') : T = T' := by
  rcases lt_trichotomy T T' with lt | eq | lt
  · exact absurd edge.absent (edge'.present T edge.lower lt)
  · exact eq
  · exact absurd edge'.absent (edge.present T' edge'.lower lt)

section
variable (look : Looking s size i start)
include look

theorem Looking.nothing (short : ¬ size ≤ i - start) (out : pageDynEnd ≤ i) :
    ¬ Fitting .i386 s size ∧ ∀ T b, Edge s T → pageDyn .i386 ≤ b →
      (∀ k, b ≤ k → k < T → ¬ used .i386 s k) → reach T < b + size := by
  have le := look.le
  constructor
  · rintro ⟨a, fits⟩
    have after := look.early a fits
    have upper := fits.upper
    omega
  · intro T b edge lower unused
    have upper := edge.upper
    rcases look.place with ⟨-, present⟩ | ⟨T', j, edge', before, here, -⟩
    · exact absurd edge.absent (present T edge.lower (by omega))
    · have same := edge_unique edge edge'
      subst same
      have after : start ≤ b := by
        rcases look.begins with first | ⟨k, next, taken⟩
        · omega
        · apply Nat.le_of_not_lt
          intro lt
          exact unused k (by omega) (by omega) taken
      rw [reach]
      omega

theorem Looking.jump
    (down : ∀ a b, pageDyn .i386 ≤ a → a ≤ b → b < pageDynEnd → s.dir (b / 1024) ≠ none →
      s.dir (a / 1024) ≠ none) (inside : i < pageDynEnd) (absent : s.dir (i / 1024) = none) :
    Looking s size (i + 4096) start := by
  have le := look.le
  have lower := look.lower
  refine ⟨lower, by omega, ?_, look.begins, look.early, Or.inr ?_⟩
  · intro k lo hi upper taken
    by_cases seen : k < i
    · exact look.unused k lo seen upper taken
    · exact down i k (by omega) (by omega) upper taken.1 absent
  · rcases look.place with ⟨-, present⟩ | ⟨T, j, edge, before, here, near⟩
    · have aligned : i % 1024 = 0 := by
        apply Classical.byContradiction
        intro unaligned
        have first : pageDyn .i386 % 1024 = 0 := rfl
        have table := present (i - 1) (by omega) (by omega)
        rw [show (i - 1) / 1024 = i / 1024 by omega] at table
        exact table absent
      exact ⟨i, 1, ⟨aligned, by omega, inside, absent, present⟩, le, by omega, by omega⟩
    · exact ⟨T, j + 1, edge, before, by omega, by omega⟩

theorem Looking.walk
    (down : ∀ a b, pageDyn .i386 ≤ a → a ≤ b → b < pageDynEnd → s.dir (b / 1024) ≠ none →
      s.dir (a / 1024) ≠ none) (short : ¬ size ≤ i - start) (inside : i < pageDynEnd)
    (present : s.dir (i / 1024) ≠ none) :
    Looking s size (i + 1) (if s.tab i ≠ .none then i + 1 else start) := by
  have le := look.le
  have lower := look.lower
  have place : i + 1 ≤ pageDynEnd ∧ ∀ k, pageDyn .i386 ≤ k → k < i + 1 → s.dir (k / 1024) ≠ none := by
    refine ⟨inside, ?_⟩
    intro k lo hi
    rcases Nat.lt_succ_iff_lt_or_eq.mp hi with before | rfl
    · rcases look.place with ⟨-, tables⟩ | ⟨T, j, edge, -, here, -⟩
      · exact tables k lo before
      · exact absurd edge.absent (down T i edge.lower (by omega) inside present)
    · exact present
  split
  · rename_i taken
    refine ⟨by omega, Nat.le_refl _, fun k lo hi => by omega, Or.inr ⟨i, rfl, present, taken⟩, ?_, Or.inl place⟩
    intro a fits
    have after := look.early a fits
    apply Nat.lt_of_not_le
    intro before
    exact fits.unused i before (by omega) ⟨present, taken⟩
  · rename_i vacant
    refine ⟨lower, by omega, ?_, look.begins, look.early, Or.inl place⟩
    intro k lo hi upper taken
    rcases Nat.lt_succ_iff_lt_or_eq.mp hi with before | rfl
    · exact look.unused k lo before upper taken
    · exact vacant taken.2

end

theorem searchI386_spec
    (down : ∀ a b, pageDyn .i386 ≤ a → a ≤ b → b < pageDynEnd → s.dir (b / 1024) ≠ none →
      s.dir (a / 1024) ≠ none) (look : Looking s size i start) (more : 0 < fuel)
    (rounds : pageDynEnd + 1 < i + fuel) :
    match searchI386 s size fuel i start with
    | some a => Found s size a
    | none => ¬ Fitting .i386 s size ∧ ∀ T b, Edge s T → pageDyn .i386 ≤ b →
        (∀ k, b ≤ k → k < T → ¬ used .i386 s k) → reach T < b + size := by
  induction fuel generalizing i start with
  | zero => exact absurd more (lt_irrefl 0)
  | succ fuel ih =>
    rw [searchI386]
    by_cases enough : size ≤ i - start
    · rw [if_pos enough]
      exact look.found enough
    · rw [if_neg enough]
      by_cases out : pageDynEnd ≤ i
      · rw [if_pos out]
        exact look.nothing enough out
      · rw [if_neg out]
        by_cases absent : s.dir (i / 1024) = none
        · rw [if_pos absent]
          exact ih (look.jump down (by omega) absent) (by omega) (by omega)
        · rw [if_neg absent]
          exact ih (look.walk down enough (by omega) absent) (by omega) (by omega)

theorem findI386_spec
    (down : ∀ a b, pageDyn .i386 ≤ a → a ≤ b → b < pageDynEnd → s.dir (b / 1024) ≠ none →
      s.dir (a / 1024) ≠ none) (size : Nat) :
    match findI386 s size with
    | some a => Found s size a
    | none => ¬ Fitting .i386 s size ∧ ∀ T b, Edge s T → pageDyn .i386 ≤ b →
        (∀ k, b ≤ k → k < T → ¬ used .i386 s k) → reach T < b + size := by
  have first : 0 < pageDyn .i386 := by decide
  have look : Looking s size (pageDyn .i386) (pageDyn .i386) :=
    ⟨le_refl _, le_refl _, fun k lo hi => by omega, Or.inl rfl, fun a fits => fits.lower,
      Or.inl ⟨by decide, fun k lo hi => by omega⟩⟩
  exact searchI386_spec down look (succ_pos _) (by omega)

end SearchI386

/- Reserving what has been found -/

section ReserveI386
variable {s : Space} {size start : Nat}

structure Tabled (s : Space) (a n : Nat) (s' : Space) : Prop where
  counted : Frames.Counted s'.pool
  same : ∀ k, used .i386 s' k ↔ used .i386 s k
  dir : ∀ j, s'.dir j ≠ none ↔ s.dir j ≠ none ∨ a ≤ j ∧ j < a + n
  vfree : s'.vfree = s.vfree
  high : s'.pml4 = s.pml4 ∧ s'.pdp = s.pdp

theorem wp_newTab (counted : Frames.Counted s.pool) (i : Nat) (some : 1 ≤ Frames.avail s.pool) :
    wp (newTab i) (fun r s' => r = .ok () ∧ Tabled s i 1 s' ∧ Frames.avail s.pool ≤ Frames.avail s'.pool + 1) s := by
  simp only [newTab, wp_bind, wp_get, after_ok]
  by_cases absent : s.dir i = none
  · rw [if_pos absent, wp_bind]
    apply wp_onPool
    apply wp_mono (Frames.wp_alloc counted some)
    rintro _ q ⟨⟨m, rfl⟩, counted', left⟩
    rw [after_ok, wp_modify]
    refine ⟨rfl, ⟨counted', ?_, ?_, rfl, rfl, rfl⟩, left⟩
    · exact fun k => used_enterTab (M := .i386) (s := { s with pool := q }) absent k
    · intro j
      by_cases eq : j = i
      · subst eq
        simp [enterTab]
      · simp only [enterTab, Function.update_of_ne eq]
        exact ⟨Or.inl, fun here => here.resolve_right (by omega)⟩
  · rw [if_neg absent]
    refine ⟨rfl, ⟨counted, fun k => Iff.rfl, ?_, rfl, rfl, rfl⟩, le_succ _⟩
    intro j
    constructor
    · exact Or.inl
    · rintro (here | here)
      · exact here
      · rw [show j = i by omega]
        exact absent

theorem wp_newTabs (a n : Nat) (counted : Frames.Counted s.pool) (some : n ≤ Frames.avail s.pool) :
    wp (forEach (List.range' a n) newTab) (fun r s' => r = .ok () ∧ Tabled s a n s') s := by
  induction n generalizing a s with
  | zero =>
    exact ⟨rfl, counted, fun k => Iff.rfl, fun j => ⟨Or.inl, fun here => here.resolve_right (by omega)⟩, rfl, rfl, rfl⟩
  | succ n ih =>
    rw [List.range'_succ, forEach, wp_bind]
    apply wp_mono (wp_newTab counted a (by omega))
    rintro _ s' ⟨rfl, one, left⟩
    rw [after_ok]
    apply wp_mono (ih (a + 1) one.counted (by omega))
    rintro _ s'' ⟨rfl, rest⟩
    refine ⟨rfl, rest.counted, fun k => (rest.same k).trans (one.same k), ?_, rest.vfree.trans one.vfree,
      rest.high.1.trans one.high.1, rest.high.2.trans one.high.2⟩
    intro j
    rw [rest.dir, one.dir, or_assoc]
    apply or_congr_right
    omega

theorem card_unreserved (fits : Fits M s size a)
    (same : ∀ k, used M s' k ↔ used M s k ∨ a ≤ k ∧ k < a + size) :
    (unreserved M s').card = (unreserved M s).card - size ∧ size ≤ (unreserved M s).card := by
  have lower := fits.lower
  have upper := fits.upper
  have range : Finset.Ico a (a + size) ⊆ unreserved M s := by
    intro k mem
    obtain ⟨lo, hi⟩ := mem_Ico.mp mem
    exact mem_filter.mpr ⟨mem_Ico.mpr ⟨by omega, by omega⟩, fits.unused k lo hi⟩
  have less : unreserved M s' = unreserved M s \ Finset.Ico a (a + size) := by
    ext k
    simp only [unreserved, mem_sdiff, mem_filter, mem_Ico, same]
    tauto
  have size_le := card_le_card range
  rw [Nat.card_Ico, Nat.add_sub_cancel_left] at size_le
  refine ⟨?_, size_le⟩
  rw [less, card_sdiff_of_subset range, Nat.card_Ico, Nat.add_sub_cancel_left]

theorem unreserved_le (M : Machine) (s : Space) : (unreserved M s).card ≤ pageDynEnd - M.pageDyn :=
  (card_filter_le _ _).trans_eq (card_Ico ..)

theorem wp_pgAdgetI386 (inv : Inv .i386 σ) (plenty : Plenty σ.space.pool) (size : Nat) :
    wp (pgAdgetI386 size) (fun r s' => match r with
      | .ok a => Found σ.space size a ∧ Frames.Counted s'.pool ∧
          (∀ k, used .i386 s' k ↔ used .i386 σ.space k ∨ a ≤ k ∧ k < a + size) ∧
          (∀ j, s'.dir j ≠ none ↔ σ.space.dir j ≠ none ∨ a / 1024 ≤ j ∧ j < (a + size + 1023) / 1024) ∧
          s'.vfree = (σ.space.vfree + 2 ^ 32 - size) % 2 ^ 32 ∧ s'.pml4 = σ.space.pml4 ∧ s'.pdp = σ.space.pdp
      | .err _ => s' = σ.space ∧ ¬ Fitting .i386 σ.space size ∧ ∀ T b, Edge σ.space T → pageDyn .i386 ≤ b →
          (∀ k, b ≤ k → k < T → ¬ used .i386 σ.space k) → reach T < b + size
      | .crash => False) σ.space := by
  have spec := findI386_spec inv.down size
  simp only [pgAdgetI386, wp_bind, wp_get, after_ok]
  cases here : findI386 σ.space size with
  | none =>
    rw [here] at spec
    exact ⟨rfl, spec⟩
  | some a =>
    rw [here] at spec
    have found : Found σ.space size a := spec
    have near : a + size ≤ 0x40fff := by
      rcases found.fits with inside | ⟨T, edge, le⟩
      · exact le_trans inside (by decide)
      · have upper := edge.upper
        rw [reach] at le
        simp only [pageDynEnd] at upper le
        omega
    have lower : 0x1400 ≤ a := found.lower
    rw [Plenty] at plenty
    have tables : (a + size + 1023) / 1024 - a / 1024 ≤ Frames.avail σ.space.pool := by omega
    simp only [wp_bind]
    apply wp_mono (wp_newTabs _ _ inv.counted tables)
    rintro _ s' ⟨rfl, made⟩
    simp only [after_ok, wp_bind, wp_modify, wp_pure]
    have covers : ∀ j, a / 1024 ≤ j ∧ j < a / 1024 + ((a + size + 1023) / 1024 - a / 1024) ↔
        a / 1024 ≤ j ∧ j < (a + size + 1023) / 1024 := by
      intro j
      omega
    refine ⟨found, made.counted, ?_, ?_, ?_, made.high.1, made.high.2⟩
    · intro k
      rw [← made.same, used_vfree]
      apply used_setInUse (M := .i386)
      intro j lo hi
      show s'.dir (j / 1024) ≠ none
      rw [made.dir]
      right
      omega
    · intro j
      rw [← covers]
      exact made.dir j
    · show (s'.vfree + 2 ^ 32 - size) % 2 ^ 32 = _
      rw [made.vfree]

end ReserveI386

/- amd64 -/

section ReserveAmd64
variable {s : Space} {size fin start fuel a : Nat}

theorem searchAmd64_some (le : start ≤ fin) (lower : pageDyn .amd64 ≤ start)
    (here : searchAmd64 s size fuel fin start = some a) :
    pageDyn .amd64 ≤ a ∧ a + size < pageDynEnd := by
  induction fuel generalizing fin start with
  | zero => cases here
  | succ fuel ih =>
    rw [searchAmd64] at here
    split at here
    · cases here
    · split at here
      · cases here
        exact ⟨lower, by omega⟩
      · split at here
        · exact ih (by omega) lower here
        · split at here
          · exact ih (by omega) lower here
          · split at here
            · exact ih (by omega) lower here
            · split at here
              · exact ih (le_refl _) (by omega) here
              · exact ih (by omega) lower here

theorem findAmd64_some (here : findAmd64 s size = some a) :
    pageDyn .amd64 ≤ a ∧ a + size < pageDynEnd :=
  searchAmd64_some (le_refl _) (le_refl _) here

theorem findAmd64_zero (s : Space) : findAmd64 s 0 = some (pageDyn .amd64) := by
  rw [findAmd64, searchAmd64, if_neg (by decide), if_pos (zero_le _)]

structure Grown (s s' : Space) : Prop where
  counted : Frames.Counted s'.pool
  high : s'.pml4 0 ≠ none ∧ s'.pdp 0 ≠ none
  used : ∀ k, used .amd64 s k → used .amd64 s' k
  vfree : s'.vfree = s.vfree

theorem Grown.trans (one : Grown s s') (two : Grown s' s'') : Grown s s'' :=
  ⟨two.counted, two.high, fun k taken => two.used k (one.used k taken), two.vfree.trans one.vfree⟩

theorem wp_reserveOne (counted : Frames.Counted s.pool) (high : s.pml4 0 ≠ none ∧ s.pdp 0 ≠ none)
    (inside : i < pageDynEnd) :
    wp (reserveOne i) (fun r s' => r ≠ .crash ∧ Grown s s' ∧ (r = .ok () → used .amd64 s' i)) s := by
  simp only [pageDynEnd] at inside
  have top : i / 2 ^ 27 = 0 := by omega
  have mid : i / 2 ^ 18 = 0 := by omega
  simp only [reserveOne, pgAltab, altabPml4, altabPdp, altabDir, wp_bind, wp_get, after_ok, top, mid, high.1, high.2,
    if_false, wp_pure]
  have set : ∀ t : Space, Frames.Counted t.pool → t.pml4 = s.pml4 → t.pdp = s.pdp → t.vfree = s.vfree →
      (∀ k, used .amd64 s k → used .amd64 t k) → t.dir (i / 512) ≠ none →
      Grown s (setInUse i 1 t) ∧ used .amd64 (setInUse i 1 t) i := by
    intro t counted' pml4 pdp vfree more table
    have now : ∀ k, used .amd64 (setInUse i 1 t) k ↔ used .amd64 t k ∨ i ≤ k ∧ k < i + 1 := by
      intro k
      apply used_setInUse (M := .amd64)
      intro j lo hi
      rw [show j = i by omega]
      exact table
    refine ⟨⟨counted', ?_, fun k taken => (now k).mpr (Or.inl (more k taken)), vfree⟩, (now i).mpr (Or.inr (by omega))⟩
    show t.pml4 0 ≠ none ∧ t.pdp 0 ≠ none
    rw [pml4, pdp]
    exact high
  by_cases absent : s.dir (i / 2 ^ 9) = none
  · simp only [absent, if_true, wp_bind]
    apply wp_onPool
    apply wp_mono (Frames.wp_pgAlloc counted)
    rintro (m | e | _) q post
    · obtain ⟨-, counted', -⟩ := post
      simp only [after_ok, wp_modify]
      have done := set (enterTab 512 (i / 2 ^ 9) m { s with pool := q }) counted' rfl rfl rfl
        (fun k taken => (used_enterTab (M := .amd64) (s := { s with pool := q }) absent k).mpr taken)
        (by simp [enterTab])
      exact ⟨(by rintro ⟨⟩), done.1, fun _ => done.2⟩
    · obtain ⟨rfl, -⟩ := post
      exact ⟨(by rintro ⟨⟩), ⟨counted, high, fun k taken => taken, rfl⟩, (by rintro ⟨⟩)⟩
    · exact post.elim
  · simp only [absent, if_false, wp_pure, after_ok, wp_modify]
    have done := set s counted rfl rfl rfl (fun k taken => taken) absent
    exact ⟨(by rintro ⟨⟩), done.1, fun _ => done.2⟩

theorem wp_reserveAll (a n : Nat) (counted : Frames.Counted s.pool) (high : s.pml4 0 ≠ none ∧ s.pdp 0 ≠ none)
    (inside : a + n ≤ pageDynEnd) :
    wp (forEach (List.range' a n) reserveOne)
      (fun r s' => r ≠ .crash ∧ Grown s s' ∧ (r = .ok () → 0 < n → used .amd64 s' a)) s := by
  induction n generalizing a s with
  | zero => exact ⟨(by rintro ⟨⟩), ⟨counted, high, fun k taken => taken, rfl⟩, fun _ none => absurd none (lt_irrefl 0)⟩
  | succ n ih =>
    rw [List.range'_succ, forEach, wp_bind]
    apply wp_mono (wp_reserveOne counted high (by omega))
    rintro (u | e | _) s' ⟨fine, one, here⟩
    · rw [after_ok]
      apply wp_mono (ih (a + 1) one.counted one.high (by omega))
      rintro r s'' ⟨fine', two, -⟩
      exact ⟨fine', one.trans two, fun _ _ => two.used a (here rfl)⟩
    · exact ⟨(by rintro ⟨⟩), one, (by rintro ⟨⟩)⟩
    · exact absurd rfl fine

theorem wp_pgAdgetAmd64 (counted : Frames.Counted s.pool) (high : s.pml4 0 ≠ none ∧ s.pdp 0 ≠ none) (size : Nat) :
    wp (pgAdgetAmd64 size) (fun r s' => match r with
      | .ok a => pageDyn .amd64 ≤ a ∧ a + size < pageDynEnd ∧ (size = 0 → s' = s) ∧
          (0 < size → used .amd64 s' a ∧ s'.vfree = s.vfree)
      | .err _ => size ≠ 0 ∧ (pageDynEnd - pageDyn .amd64 < size → s' = s)
      | .crash => False) s := by
  simp only [pgAdgetAmd64, wp_bind, wp_get, after_ok]
  cases here : findAmd64 s size with
  | none =>
    refine ⟨?_, fun _ => rfl⟩
    rintro rfl
    rw [findAmd64_zero] at here
    cases here
  | some a =>
    obtain ⟨lower, upper⟩ := findAmd64_some here
    simp only [wp_bind]
    by_cases none : size = 0
    · subst none
      exact ⟨lower, upper, fun _ => rfl, fun some => absurd some (lt_irrefl 0)⟩
    · apply wp_mono (wp_reserveAll a size counted high (le_of_lt upper))
      rintro (u | e | _) s' ⟨fine, grown, begins⟩
      · exact ⟨lower, upper, fun zero => absurd zero none, fun some => ⟨begins rfl some, grown.vfree⟩⟩
      · exact ⟨none, fun large => absurd large (by omega)⟩
      · exact absurd rfl fine

end ReserveAmd64

section Runs
variable {M : Machine} {σ : Sys} {s' : Space} {size a : Nat}

theorem area_small (M : Machine) : pageDynEnd - M.pageDyn < M.word := by
  cases M <;> decide

theorem inv_boot (boot : Booted M s) : Inv M ⟨s, []⟩ := by
  have free : ∀ k, M.pageDyn ≤ k → k < pageDynEnd → ¬ used M s k := fun k lo hi taken =>
    taken.1 (boot.empty k lo hi)
  refine ⟨boot.counted, boot.high, ?_, ?_, nofun, List.Pairwise.nil, ?_, nofun⟩
  · intro a b lo le hi there
    exact absurd (boot.empty b (by omega) hi) there
  · intro k lo hi
    exact ⟨fun taken => absurd taken (free k lo hi), nofun⟩
  · have all : unreserved M s = Finset.Ico M.pageDyn pageDynEnd := by
      apply filter_true_of_mem
      intro k mem
      obtain ⟨lo, hi⟩ := mem_Ico.mp mem
      exact free k lo hi
    rw [Exact, all, card_Ico]
    exact boot.vfree

theorem inv_other (inv : Inv M σ) (counted : Frames.Counted q)
    (same : ∀ k, tab k = .none ↔ σ.space.tab k = .none) : Inv M ⟨{ σ.space with pool := q, tab := tab }, σ.held⟩ := by
  have same' : ∀ k, used M { σ.space with pool := q, tab := tab } k ↔ used M σ.space k :=
    fun k => and_congr_right fun _ => not_congr (same k)
  refine ⟨counted, inv.high, inv.down, ?_, inv.inside, inv.apart, ?_, inv.empty⟩
  · intro k lo hi
    rw [same']
    exact inv.covered k lo hi
  · have all : unreserved M { σ.space with pool := q, tab := tab } = unreserved M σ.space := by
      ext k
      simp only [unreserved, mem_filter, same']
    rw [Exact, all]
    exact inv.exact_

theorem apart_of_fits (inv : Inv M σ) (fits : Fits M σ.space size a) (mem : r ∈ σ.held) :
    Apart r (a, size) := by
  intro k both
  have lower := fits.lower
  have upper := fits.upper
  obtain ⟨lo, hi⟩ := both.2
  simp only at lo hi
  exact fits.unused k lo hi ((inv.covered k (by omega) (by omega)).mpr ⟨r, mem, both.1⟩)

theorem apart_symm (apart : Apart r r') : Apart r' r := fun k both => apart k both.symm

theorem fits_of_found (found : Found s size a) (right : Right s size .i386) : Fits .i386 s size a := by
  have upper : a + size ≤ pageDynEnd := by
    rcases right with ⟨b, fits⟩ | short
    · have before := found.early b fits
      have inside := fits.upper
      omega
    · rcases found.fits with inside | ⟨T, edge, near⟩
      · exact inside
      · apply Nat.le_of_not_lt
        intro out
        have last := edge.upper
        have far := short T a edge found.lower fun k lo hi => found.unused k lo (by omega) (by omega)
        omega
  exact ⟨found.lower, upper, fun k lo hi => found.unused k lo hi (by omega)⟩

theorem inv_gotI386 (inv : Inv .i386 σ) (fits : Fits .i386 σ.space size a) (found : Found σ.space size a)
    (counted : Frames.Counted s'.pool)
    (now : ∀ k, used .i386 s' k ↔ used .i386 σ.space k ∨ a ≤ k ∧ k < a + size)
    (dir : ∀ j, s'.dir j ≠ none ↔ σ.space.dir j ≠ none ∨ a / 1024 ≤ j ∧ j < (a + size + 1023) / 1024)
    (vfree : s'.vfree = (σ.space.vfree + 2 ^ 32 - size) % 2 ^ 32) (high : s'.pml4 = σ.space.pml4 ∧ s'.pdp = σ.space.pdp) :
    Inv .i386 ⟨s', (a, size) :: σ.held⟩ := by
  refine ⟨counted, ?_, ?_, ?_, ?_, ?_, ?_, nofun⟩
  · show s'.pml4 0 ≠ none ∧ s'.pdp 0 ≠ none
    rw [high.1, high.2]
    exact inv.high
  · intro x b lo le hi there
    show s'.dir (x / 1024) ≠ none
    rw [dir]
    rcases (dir (b / 1024)).mp there with old | ⟨-, before⟩
    · exact Or.inl (inv.down x b lo le hi old)
    · by_cases early : x < a
      · exact Or.inl (found.present x lo early)
      · exact Or.inr (by omega)
  · intro k lo hi
    show used .i386 s' k ↔ _
    rw [now, inv.covered k lo hi]
    constructor
    · rintro (⟨r, mem, covers⟩ | here)
      · exact ⟨r, List.mem_cons_of_mem _ mem, covers⟩
      · exact ⟨(a, size), List.mem_cons_self .., here⟩
    · rintro ⟨r, mem, covers⟩
      rcases List.mem_cons.mp mem with rfl | old
      · exact Or.inr covers
      · exact Or.inl ⟨r, old, covers⟩
  · intro r mem
    rcases List.mem_cons.mp mem with rfl | old
    · exact ⟨fits.lower, fits.upper⟩
    · exact inv.inside r old
  · refine List.pairwise_cons.mpr ⟨?_, inv.apart⟩
    intro r mem
    exact apart_symm (apart_of_fits inv fits mem)
  · obtain ⟨less, le⟩ := card_unreserved fits now
    have few := lt_of_le_of_lt (unreserved_le .i386 σ.space) (area_small .i386)
    have was : σ.space.vfree = (unreserved .i386 σ.space).card := inv.exact_
    show s'.vfree = (unreserved .i386 s').card
    generalize (unreserved .i386 σ.space).card = n at *
    have word : n < 2 ^ 32 := few
    rw [vfree, less, was, show n + 2 ^ 32 - size = n - size + 2 ^ 32 by omega, add_mod_right,
      mod_eq_of_lt (by omega)]

theorem unused_amd64 (inv : Inv .amd64 σ) (lo : pageDyn .amd64 ≤ k) (hi : k < pageDynEnd) :
    ¬ used .amd64 σ.space k := by
  intro taken
  obtain ⟨r, mem, covers⟩ := (inv.covered k lo hi).mp taken
  have none := inv.empty rfl r mem
  obtain ⟨first, last⟩ := covers
  omega

theorem inv_gotAmd64 (inv : Inv .amd64 σ) (lower : pageDyn .amd64 ≤ a) (upper : a < pageDynEnd) :
    Inv .amd64 ⟨σ.space, (a, 0) :: σ.held⟩ := by
  have nothing : ∀ k, ¬ Covers (a, 0) k := fun k covers => by
    obtain ⟨first, last⟩ := covers
    simp only at first last
    omega
  refine ⟨inv.counted, inv.high, inv.down, ?_, ?_, ?_, inv.exact_, ?_⟩
  · intro k lo hi
    show used .amd64 σ.space k ↔ _
    rw [inv.covered k lo hi]
    simp [nothing k]
  · intro r mem
    rcases List.mem_cons.mp mem with rfl | old
    · exact ⟨lower, le_of_lt upper⟩
    · exact inv.inside r old
  · exact List.pairwise_cons.mpr ⟨fun r _ k both => nothing k both.1, inv.apart⟩
  · intro _ r mem
    rcases List.mem_cons.mp mem with rfl | old
    · rfl
    · exact inv.empty rfl r old

theorem exact_put (inv : Inv M σ) (mem : r ∈ σ.held) : Exact M (pgAdput M r.1 r.2 σ.space) := by
  obtain ⟨lower, upper⟩ := inv.inside r mem
  have more : unreserved M (pgAdput M r.1 r.2 σ.space) = unreserved M σ.space ∪ Finset.Ico r.1 (r.1 + r.2) := by
    ext k
    simp only [unreserved, mem_union, mem_filter, mem_Ico, used_pgAdput]
    have inside : r.1 ≤ k ∧ k < r.1 + r.2 → M.pageDyn ≤ k ∧ k < pageDynEnd := by omega
    tauto
  have apart : Disjoint (unreserved M σ.space) (Finset.Ico r.1 (r.1 + r.2)) := by
    rw [disjoint_left]
    intro k isFree here
    obtain ⟨lo, hi⟩ := mem_Ico.mp here
    exact (mem_filter.mp isFree).2 ((inv.covered k (by omega) (by omega)).mpr ⟨r, mem, lo, hi⟩)
  have sum : (unreserved M (pgAdput M r.1 r.2 σ.space)).card = (unreserved M σ.space).card + r.2 := by
    rw [more, card_union_of_disjoint apart, Nat.card_Ico, Nat.add_sub_cancel_left]
  have few := lt_of_le_of_lt (unreserved_le M (pgAdput M r.1 r.2 σ.space)) (area_small M)
  show (σ.space.vfree + r.2) % M.word = _
  rw [inv.exact_, ← sum, mod_eq_of_lt few]

theorem inv_put (inv : Inv M σ) (mem : r ∈ σ.held) :
    Inv M ⟨pgAdput M r.1 r.2 σ.space, σ.held.erase r⟩ := by
  have perm : σ.held.Perm (r :: σ.held.erase r) := List.perm_cons_erase mem
  have apart := (List.Perm.pairwise_iff (fun here => apart_symm here) perm).mp inv.apart
  obtain ⟨others, rest⟩ := List.pairwise_cons.mp apart
  refine ⟨inv.counted, inv.high, inv.down, ?_, fun x here => inv.inside x (List.mem_of_mem_erase here), rest,
    exact_put inv mem, fun machine x here => inv.empty machine x (List.mem_of_mem_erase here)⟩
  intro k lo hi
  show used M (pgAdput M r.1 r.2 σ.space) k ↔ _
  rw [used_pgAdput, inv.covered k lo hi]
  constructor
  · rintro ⟨⟨x, here, covers⟩, out⟩
    rcases List.mem_cons.mp (perm.mem_iff.mp here) with rfl | other
    · exact absurd covers out
    · exact ⟨x, other, covers⟩
  · rintro ⟨x, here, covers⟩
    exact ⟨⟨x, List.mem_of_mem_erase here, covers⟩, fun own => others x here k ⟨own, covers⟩⟩

theorem inv_reached (run : Reached M σ) : Inv M σ := by
  induction run with
  | boot boot => exact inv_boot boot
  | other _ counted same ih => exact inv_other ih counted same
  | put _ mem ih => exact inv_put ih mem
  | @got σ size a s' _ plenty right here ih =>
    cases M with
    | i386 =>
      have post := wp_pgAdgetI386 ih plenty size
      rw [wp, show pgAdgetI386 _ _ = _ from here] at post
      obtain ⟨found, counted, now, dir, vfree, high⟩ := post
      exact inv_gotI386 ih (fits_of_found found right) found counted now dir vfree high
    | amd64 =>
      have post := wp_pgAdgetAmd64 ih.counted ih.high size
      rw [wp, show pgAdgetAmd64 _ _ = _ from here] at post
      obtain ⟨lower, upper, same, -⟩ := post
      rcases right with rfl | large
      · have unchanged : s' = σ.space := same rfl
        rw [unchanged]
        exact inv_gotAmd64 ih lower upper
      · omega
  | @refused σ size e s' _ plenty right here ih =>
    cases M with
    | i386 =>
      have post := wp_pgAdgetI386 ih plenty size
      rw [wp, show pgAdgetI386 _ _ = _ from here] at post
      have unchanged : s' = σ.space := post.1
      rw [unchanged]
      exact ih
    | amd64 =>
      have post := wp_pgAdgetAmd64 ih.counted ih.high size
      rw [wp, show pgAdgetAmd64 _ _ = _ from here] at post
      rcases right with rfl | large
      · exact absurd rfl post.1
      · have unchanged : s' = σ.space := post.2 large
        rw [unchanged]
        exact ih

theorem goodGet_i386 (inv : Inv .i386 σ) (plenty : Plenty σ.space.pool) :
    GoodGet .i386 σ size ↔ Right σ.space size .i386 := by
  have post := wp_pgAdgetI386 inv plenty size
  constructor
  · intro good
    apply Classical.byContradiction
    intro wrong
    obtain ⟨none, far⟩ := not_or.mp wrong
    rw [GoodGet, wp] at good
    rw [wp] at post
    rcases run : pgAdget .i386 size σ.space with ⟨a | e | _, s'⟩
    · rw [show pgAdgetI386 size σ.space = _ from run] at post
      rw [run] at good
      exact none ⟨a, post.1.lower, good.2.1, fun k lo hi => post.1.unused k lo hi (by have := good.2.1; omega)⟩
    · rw [show pgAdgetI386 size σ.space = _ from run] at post
      exact far post.2.2
    · rw [run] at good
      exact good
  · intro right
    apply wp_mono post
    rintro (a | e | _) s' result
    · obtain ⟨found, counted, now, dir, vfree, high⟩ := result
      have fits := fits_of_found found right
      exact ⟨fits.lower, fits.upper, fun r mem => apart_of_fits inv fits mem,
        (inv_gotI386 inv fits found counted now dir vfree high).exact_⟩
    · obtain ⟨rfl, none, -⟩ := result
      exact ⟨none, inv.exact_⟩
    · exact result

theorem goodGet_amd64 (inv : Inv .amd64 σ) : GoodGet .amd64 σ size ↔ Right σ.space size .amd64 := by
  have post := wp_pgAdgetAmd64 inv.counted inv.high size
  constructor
  · intro good
    apply Classical.byContradiction
    intro wrong
    obtain ⟨some, small⟩ := not_or.mp wrong
    have all : unreserved .amd64 σ.space = Finset.Ico (pageDyn .amd64) pageDynEnd := by
      apply filter_true_of_mem
      intro k mem
      obtain ⟨lo, hi⟩ := mem_Ico.mp mem
      exact unused_amd64 inv lo hi
    rw [GoodGet, wp] at good
    rw [wp] at post
    rcases run : pgAdget .amd64 size σ.space with ⟨a | e | _, s'⟩
    · rw [show pgAdgetAmd64 size σ.space = _ from run] at post
      rw [run] at good
      obtain ⟨lower, upper, -, counted⟩ := post
      obtain ⟨taken, vfree⟩ := counted (Nat.pos_of_ne_zero some)
      have exact_ : s'.vfree = (unreserved .amd64 s').card := good.2.2.2
      have fewer : unreserved .amd64 s' ⊂ unreserved .amd64 σ.space := by
        rw [all]
        refine (filter_subset _ _).ssubset_of_mem_notMem (mem_Ico.mpr ⟨lower, by omega⟩) ?_
        exact fun here => (mem_filter.mp here).2 taken
      have less := card_lt_card fewer
      have was : s'.vfree = (unreserved .amd64 σ.space).card := vfree.trans inv.exact_
      omega
    · rw [run] at good
      refine good.1 ⟨pageDyn .amd64, le_refl _, ?_, fun k lo hi => ?_⟩
      · have fits : size ≤ pageDynEnd - pageDyn .amd64 := Nat.le_of_not_lt small
        have order : pageDyn .amd64 ≤ pageDynEnd := by decide
        omega
      · have fits : size ≤ pageDynEnd - pageDyn .amd64 := Nat.le_of_not_lt small
        exact unused_amd64 inv lo (by omega)
    · rw [run] at good
      exact good
  · intro right
    apply wp_mono post
    rintro (a | e | _) s' result
    · obtain ⟨lower, upper, same, -⟩ := result
      rcases right with rfl | large
      · rw [same rfl]
        refine ⟨lower, le_of_lt upper, ?_, inv.exact_⟩
        rintro r _ k ⟨-, first, last⟩
        simp only at first last
        omega
      · omega
    · obtain ⟨some, same⟩ := result
      rcases right with rfl | large
      · exact absurd rfl some
      · rw [same large]
        refine ⟨?_, inv.exact_⟩
        rintro ⟨b, fits⟩
        have lower := fits.lower
        have upper := fits.upper
        omega
    · exact result

/-- While all calls so far met the condition, reservations are as they should be, and the next call keeps them so if
    and only if it meets the condition. -/
theorem adget_good_iff (run : Reached M σ) :
    (Exact M σ.space ∧ σ.held.Pairwise Apart ∧ ∀ r ∈ σ.held, M.pageDyn ≤ r.1 ∧ r.1 + r.2 ≤ pageDynEnd) ∧
      (∀ r ∈ σ.held, Exact M (pgAdput M r.1 r.2 σ.space)) ∧
      ∀ size, Plenty σ.space.pool → (GoodGet M σ size ↔ Right σ.space size M) := by
  have inv := inv_reached run
  refine ⟨⟨inv.exact_, inv.apart, inv.inside⟩, fun r mem => exact_put inv mem, fun size plenty => ?_⟩
  cases M with
  | i386 => exact goodGet_i386 inv plenty
  | amd64 => exact goodGet_amd64 inv

end Runs

def sampleSpace (M : Machine) : Space :=
  ⟨⟨fun i => i + 4096, 256, fun _ => false, 0⟩, fun _ => some 3, fun _ => some 4, fun _ => none, fun _ => .none,
    pageDynEnd - M.pageDyn⟩

theorem sampleSpace_counted (M : Machine) : Frames.Counted (sampleSpace M).pool ∧ Plenty (sampleSpace M).pool := by
  have map : Frames.dmaFree (sampleSpace M).pool = ∅ := by
    ext k
    simp [Frames.mem_dmaFree, sampleSpace]
  have stack : Frames.listed (sampleSpace M).pool = Finset.Ico 4096 4352 := by
    ext k
    simp only [Frames.mem_listed, sampleSpace, mem_Ico]
    exact ⟨fun ⟨i, lt, eq⟩ => by omega, fun here => ⟨k - 4096, by omega, by omega⟩⟩
  refine ⟨⟨?_, ?_, ?_⟩, ?_⟩
  · rw [map]
    rfl
  · rw [stack, card_Ico]
    rfl
  · rw [stack]
    exact fun k mem => (mem_Ico.mp mem).1
  · rw [Plenty, Frames.avail, Frames.free, map, stack, empty_union, erase_eq_of_notMem (by simp), card_Ico]

theorem sampleSpace_boot (M : Machine) : Booted M (sampleSpace M) :=
  ⟨(sampleSpace_counted M).1, ⟨nofun, nofun⟩, fun _ _ _ => rfl, rfl⟩

/-- Three pages are reserved. -/
def sampleHeld : Sys := ⟨(pgAdget .i386 3 (sampleSpace .i386)).2, [(pageDyn .i386, 3)]⟩

theorem reached_sampleHeld : Reached .i386 sampleHeld :=
  .got (.boot (sampleSpace_boot .i386)) (sampleSpace_counted .i386).2
    (.inl ⟨pageDyn .i386, le_refl _, by decide, fun _ _ _ use => use.1 rfl⟩) (Prod.ext (by decide +kernel) rfl)

theorem adget_good_iff_sample :
    (Exact .i386 sampleHeld.space ∧ sampleHeld.held.Pairwise Apart ∧
      ∀ r ∈ sampleHeld.held, pageDyn .i386 ≤ r.1 ∧ r.1 + r.2 ≤ pageDynEnd) ∧
      (∀ r ∈ sampleHeld.held, Exact .i386 (pgAdput .i386 r.1 r.2 sampleHeld.space)) ∧
      ∀ size, Plenty sampleHeld.space.pool → (GoodGet .i386 sampleHeld size ↔ Right sampleHeld.space size .i386) :=
  adget_good_iff reached_sampleHeld

/-- After boot, on amd64 a reserved page is not subtracted from `pg_vfree`, and on i386 a range with one page more than
    the area is reserved. -/
theorem adget_not_good : (Reached .amd64 ⟨sampleSpace .amd64, []⟩ ∧ Plenty (sampleSpace .amd64).pool ∧
      ¬ GoodGet .amd64 ⟨sampleSpace .amd64, []⟩ 1) ∧
    (Reached .i386 ⟨sampleSpace .i386, []⟩ ∧ Plenty (sampleSpace .i386).pool ∧
      ¬ GoodGet .i386 ⟨sampleSpace .i386, []⟩ 0x3ec01) := by
  have boot (M : Machine) : Reached M ⟨sampleSpace M, []⟩ := .boot (sampleSpace_boot M)
  have plenty (M : Machine) := (sampleSpace_counted M).2
  refine ⟨⟨boot .amd64, plenty .amd64, ?_⟩, ⟨boot .i386, plenty .i386, ?_⟩⟩
  · rw [goodGet_amd64 (inv_reached (boot .amd64))]
    show ¬ (1 = 0 ∨ pageDynEnd - pageDyn .amd64 < 1)
    decide
  · rw [goodGet_i386 (inv_reached (boot .i386)) (plenty .i386)]
    rintro (⟨a, fits⟩ | far)
    · have lower : 0x1400 ≤ a := fits.lower
      have upper : a + 0x3ec01 ≤ 0x40000 := fits.upper
      omega
    · have edge : Edge (sampleSpace .i386) 0x1400 :=
        ⟨rfl, le_refl _, by decide, rfl, fun k lo hi => absurd lo (not_le.mpr hi)⟩
      have short := far 0x1400 0x1400 edge (le_refl _) fun k lo hi => absurd lo (not_le.mpr hi)
      exact absurd short (by decide)

end Reserve
