import Mathlib.Order.Interval.Finset.Nat
import Newsys.Lib.Cmd
import Newsys.Kern.Errno
import Newsys.Kern.Machine

/- Physical frames (kern/arch-i386/page.c, kern/arch-amd64/page.c): those below 4096 are marked in a map when they are
   free, the others are on a stack. The two machines run the same code with words of different sizes. -/
namespace Frames
open Cmds Cmd Kern Function Finset

structure Pool where
  flist : Nat → Nat
  nfree : Nat
  dmaMap : Nat → Bool
  nfreeDma : Nat

/-- The loop of `pg_alloc_dma` in `n` rounds from frame `i` on: the first frame of the run that it finds, and the frame
    behind the run. A run is begun again at every multiple of 15. -/
def dmaScan (map : Nat → Bool) (s : Nat) : Nat → Nat → Nat → Option (Nat × Nat)
  | 0, _, _ => none
  | n + 1, i, start =>
    if s ≤ i - start then some (start, i)
    else dmaScan map s n (i + 1) (if map i then (if i % 15 = 0 then i else start) else i + 1)

def pgAllocDma (s : Nat) : Cmd Errno Pool Nat := do
  let q ← get
  match dmaScan q.dmaMap s 4096 0 0 with
  | none => fail .ENOMEM
  | some (start, i) => do
    modify fun q => { q with dmaMap := fun k => q.dmaMap k && !(decide (start ≤ k) && decide (k < i))
                             nfreeDma := q.nfreeDma - s }
    pure start

def pgAlloc : Cmd Errno Pool Nat := do
  let q ← get
  if q.nfree = 0 then pgAllocDma 1
  else do
    modify fun q => { q with nfree := q.nfree - 1 }
    if q.flist (q.nfree - 1) = 0 then crash else pure (q.flist (q.nfree - 1))

def freeMark (k : Nat) : Cmd Errno Pool Unit := do
  let q ← get
  if q.dmaMap k then crash else modify fun q => { q with dmaMap := update q.dmaMap k true }

def pgFreeDma (M : Machine) (p s : Nat) : Cmd Errno Pool Unit :=
  if 4096 ≤ p ∨ 4096 < (p + s) % M.word then crash
  else do
    forEach (List.range s) fun i => freeMark (p + i)
    modify fun q => { q with nfreeDma := q.nfreeDma + s }

def pgFree (M : Machine) (p : Nat) : Cmd Errno Pool Unit :=
  if p = 0 then crash
  else if p < 4096 then pgFreeDma M p 1
  else modify fun q => { q with flist := update q.flist q.nfree p, nfree := q.nfree + 1 }

/- The frames of a pool -/

def dmaFree (q : Pool) : Finset Nat := (range 4096).filter fun k => q.dmaMap k

def listed (q : Pool) : Finset Nat := (range q.nfree).image q.flist

def free (q : Pool) : Finset Nat := dmaFree q ∪ listed q

/-- The counters are right, and no frame is on the stack twice or in the wrong place. -/
structure Counted (q : Pool) : Prop where
  dma : q.nfreeDma = (dmaFree q).card
  once : q.nfree = (listed q).card
  high : ∀ p ∈ listed q, 4096 ≤ p

section Scan
variable {map : Nat → Bool} {s n i start : Nat} {out : Nat × Nat}

theorem dmaScan_some (le : start ≤ i) (short : i - start ≤ s) (marked : ∀ k, start ≤ k → k < i → map k = true)
    (here : dmaScan map s n i start = some out) :
    out.2 = out.1 + s ∧ out.2 < n + i ∧ ∀ k, out.1 ≤ k → k < out.2 → map k = true := by
  induction n generalizing i start with
  | zero => cases here
  | succ n ih =>
    rw [dmaScan] at here
    split at here
    · cases here
      exact ⟨by show i = start + s; omega, by show i < n + 1 + i; omega, marked⟩
    · rename_i more
      have next : ∀ start' ≤ i + 1, start ≤ start' → (∀ k, start' ≤ k → k < i + 1 → map k = true) →
          dmaScan map s n (i + 1) start' = some out →
          out.2 = out.1 + s ∧ out.2 < n + 1 + i ∧ ∀ k, out.1 ≤ k → k < out.2 → map k = true := by
        intro start' le' after marked' run
        have rest := ih le' (by omega) marked' run
        rw [Nat.add_assoc, Nat.add_comm 1 i]
        exact rest
      split at here
      · rename_i this
        have last : ∀ k, start ≤ k → k < i + 1 → map k = true := by
          intro k lo hi
          rcases Nat.lt_succ_iff_lt_or_eq.mp hi with before | eq
          · exact marked k lo before
          · rw [eq]
            exact this
        split at here
        · exact next i (by omega) le (fun k lo hi => last k (by omega) hi) here
        · exact next start (by omega) (le_refl _) last here
      · exact next (i + 1) (le_refl _) (by omega) (fun k lo hi => by omega) here

theorem dmaScan_none (here : dmaScan map 1 n i i = none) : ∀ k, i ≤ k → k + 1 < n + i → map k = false := by
  induction n generalizing i with
  | zero => exact fun k lo hi => by omega
  | succ n ih =>
    rw [dmaScan, if_neg (by omega)] at here
    cases mark : map i with
    | false =>
      rw [mark, if_neg Bool.false_ne_true] at here
      intro k lo hi
      rcases eq_or_lt_of_le lo with eq | after
      · rw [← eq]
        exact mark
      · exact ih here k after (by omega)
    | true =>
      have same : (if map i = true then (if i % 15 = 0 then i else i) else i + 1) = i := by
        rw [mark, if_pos rfl, ite_self]
      rw [same] at here
      cases n with
      | zero => exact fun k lo hi => by omega
      | succ n =>
        rw [dmaScan, if_pos (by omega)] at here
        cases here

theorem dmaScan_last (le : start ≤ i) (unmarked : ∀ k, k + 1 < n + i → i ≤ k → map k = false) (nothing : start = i) :
    dmaScan map 1 n i start = none := by
  induction n generalizing i start with
  | zero => rfl
  | succ n ih =>
    rw [dmaScan, if_neg (by omega)]
    cases n with
    | zero => rfl
    | succ n =>
      rw [unmarked i (by omega) (le_refl i), if_neg Bool.false_ne_true]
      exact ih (le_refl _) (fun k hi lo => unmarked k (by omega) (by omega)) rfl

end Scan

section Pools
variable {M : Machine} {q : Pool} {p s : Nat}

theorem mem_dmaFree : k ∈ dmaFree q ↔ k < 4096 ∧ q.dmaMap k = true := by
  simp [dmaFree]

theorem mem_listed : k ∈ listed q ↔ ∃ i < q.nfree, q.flist i = k := by
  simp [listed]

theorem low_of_dmaFree (mem : k ∈ dmaFree q) : k < 4096 := (mem_dmaFree.mp mem).1

theorem listed_congr (flist : q'.flist = q.flist) (nfree : q'.nfree = q.nfree) : listed q' = listed q := by
  simp only [listed, flist, nfree]

section
variable (counted : Counted q)
include counted

theorem Counted.ne (hi : i < q.nfree) (hj : j < q.nfree) (ne : i ≠ j) :
    q.flist i ≠ q.flist j := by
  have whole : ((range q.nfree).image q.flist).card = (range q.nfree).card := by
    rw [card_range]
    exact counted.once.symm
  have distinct := card_image_iff.mp whole
  intro eq
  exact ne (distinct (mem_coe.mpr (mem_range.mpr hi)) (mem_coe.mpr (mem_range.mpr hj)) eq)

theorem Counted.card : q.nfree + q.nfreeDma = (free q).card := by
  have apart : Disjoint (dmaFree q) (listed q) := by
    rw [disjoint_left]
    intro k low high
    have lt := low_of_dmaFree low
    have le := counted.high k high
    omega
  rw [free, card_union_of_disjoint apart, ← counted.dma, ← counted.once, add_comm]

theorem counted_clear (marked : Finset.Ico p (p + s) ⊆ dmaFree q) :
    let q' : Pool := { q with dmaMap := fun k => q.dmaMap k && !(decide (p ≤ k) && decide (k < p + s))
                              nfreeDma := q.nfreeDma - s }
    Counted q' ∧ free q' = free q \ Finset.Ico p (p + s) := by
  intro q'
  have map : dmaFree q' = dmaFree q \ Finset.Ico p (p + s) := by
    ext k
    simp only [mem_dmaFree, mem_sdiff, mem_Ico, q', Bool.and_eq_true, Bool.not_eq_true',
      Bool.and_eq_false_imp, decide_eq_true_eq, decide_eq_false_iff_not]
    tauto
  have stack : listed q' = listed q := listed_congr rfl rfl
  refine ⟨⟨?_, ?_, ?_⟩, ?_⟩
  · rw [map, card_sdiff_of_subset marked, Nat.card_Ico, ← counted.dma, Nat.add_sub_cancel_left]
  · rw [stack]
    exact counted.once
  · rw [stack]
    exact counted.high
  · have apart : Disjoint (listed q) (Finset.Ico p (p + s)) := by
      rw [disjoint_left]
      intro k mem inside
      have low := low_of_dmaFree (marked inside)
      have high := counted.high k mem
      omega
    rw [free, map, stack, free, union_sdiff_distrib, sdiff_eq_self_of_disjoint apart]

theorem wp_pgAllocDma (some : 1 ≤ s) :
    wp (pgAllocDma s) (fun r q' => match r with
      | .ok p => Finset.Ico p (p + s) ⊆ dmaFree q ∧ Counted q' ∧ free q' = free q \ Finset.Ico p (p + s)
      | .err _ => q' = q ∧ (s = 1 → dmaFree q ⊆ {4095})
      | .crash => False) q := by
  simp only [pgAllocDma, wp_bind, wp_get, after_ok]
  cases here : dmaScan q.dmaMap s 4096 0 0 with
  | none =>
    refine ⟨rfl, ?_⟩
    rintro rfl k mem
    obtain ⟨low, marked⟩ := mem_dmaFree.mp mem
    rw [mem_singleton]
    apply Classical.byContradiction
    intro other
    have unmarked := dmaScan_none here k (Nat.zero_le k) (by omega)
    rw [marked] at unmarked
    cases unmarked
  | some out =>
    obtain ⟨start, i⟩ := out
    obtain ⟨behind, fits, marked⟩ := dmaScan_some (Nat.le_refl 0) (Nat.zero_le s) (fun k _ lt => absurd lt (Nat.not_lt_zero k)) here
    simp only at behind fits marked
    subst behind
    have run : Finset.Ico start (start + s) ⊆ dmaFree q := by
      intro k mem
      have bounds := mem_Ico.mp mem
      exact mem_dmaFree.mpr ⟨by omega, marked k bounds.1 bounds.2⟩
    simp only [wp_bind, wp_modify, after_ok, wp_pure]
    exact ⟨run, counted_clear counted run⟩

theorem counted_pop (some : q.nfree ≠ 0) :
    q.flist (q.nfree - 1) ∈ listed q ∧ Counted { q with nfree := q.nfree - 1 } ∧
      free { q with nfree := q.nfree - 1 } = free q \ {q.flist (q.nfree - 1)} := by
  have top : q.flist (q.nfree - 1) ∈ listed q := mem_listed.mpr ⟨q.nfree - 1, by omega, rfl⟩
  have rest : listed { q with nfree := q.nfree - 1 } = listed q \ {q.flist (q.nfree - 1)} := by
    ext k
    simp only [mem_sdiff, mem_listed, mem_singleton]
    constructor
    · rintro ⟨i, lt, rfl⟩
      exact ⟨⟨i, by omega, rfl⟩, counted.ne (by omega) (by omega) (by omega)⟩
    · rintro ⟨⟨i, lt, rfl⟩, ne⟩
      have other : i ≠ q.nfree - 1 := fun eq => ne (by rw [eq])
      exact ⟨i, by omega, rfl⟩
  have high := counted.high _ top
  refine ⟨top, ⟨counted.dma, ?_, ?_⟩, ?_⟩
  · rw [rest, card_sdiff_of_subset (singleton_subset_iff.mpr top), card_singleton, ← counted.once]
  · intro k mem
    rw [rest] at mem
    exact counted.high k (mem_sdiff.mp mem).1
  · have apart : Disjoint (dmaFree q) {q.flist (q.nfree - 1)} := by
      rw [disjoint_singleton_right]
      intro mem
      have low := low_of_dmaFree mem
      omega
    have same : dmaFree { q with nfree := q.nfree - 1 } = dmaFree q := rfl
    rw [free, rest, same, free, union_sdiff_distrib, sdiff_eq_self_of_disjoint apart]

theorem wp_pgAlloc : wp pgAlloc (fun r q' => match r with
    | .ok p => p ∈ free q ∧ Counted q' ∧ free q' = free q \ {p}
    | .err _ => q' = q ∧ free q ⊆ {4095}
    | .crash => False) q := by
  simp only [pgAlloc, wp_bind, wp_get, after_ok]
  by_cases none : q.nfree = 0
  · rw [if_pos none]
    have empty : listed q = ∅ := by
      rw [listed, none]
      rfl
    apply wp_mono (wp_pgAllocDma counted (le_refl 1))
    rintro (p | e | _) q' post
    · obtain ⟨run, counted', eq⟩ := post
      rw [Nat.Ico_succ_singleton] at run eq
      exact ⟨mem_union_left _ (run (mem_singleton_self p)), counted', eq⟩
    · refine ⟨post.1, ?_⟩
      rw [free, empty, union_empty]
      exact post.2 rfl
    · exact post
  · obtain ⟨top, counted', eq⟩ := counted_pop counted none
    have high := counted.high _ top
    rw [if_neg none]
    simp only [wp_bind, wp_modify, after_ok]
    rw [if_neg (by omega)]
    exact ⟨mem_union_right _ top, counted', eq⟩

theorem pgAlloc_not_last : wp pgAlloc (fun r _ => r ≠ .ok 4095) q := by
  simp only [pgAlloc, wp_bind, wp_get, after_ok]
  by_cases none : q.nfree = 0
  · simp only [none, if_true, pgAllocDma, wp_bind, wp_get, after_ok]
    cases here : dmaScan q.dmaMap 1 4096 0 0 with
    | none => exact nofun
    | some out =>
      obtain ⟨start, i⟩ := out
      obtain ⟨behind, fits, -⟩ :=
        dmaScan_some (Nat.le_refl 0) (Nat.zero_le 1) (fun k _ lt => absurd lt (Nat.not_lt_zero k)) here
      simp only at behind fits
      simp only [wp_bind, wp_modify, after_ok, wp_pure, ne_eq, Res.ok.injEq]
      omega
  · have high := counted.high _ (counted_pop counted none).1
    simp only [none, if_false, wp_bind, wp_modify, after_ok]
    rw [if_neg (by omega)]
    simp only [wp_pure, ne_eq, Res.ok.injEq]
    omega

theorem pgAlloc_last (last : free q = {4095}) : (pgAlloc q).1 = .err .ENOMEM := by
  have empty : q.nfree = 0 := by
    apply Classical.byContradiction
    intro some
    obtain ⟨top, -, -⟩ := counted_pop counted some
    have high := counted.high _ top
    have here : q.flist (q.nfree - 1) ∈ free q := mem_union_right _ top
    rw [last, mem_singleton] at here
    omega
  have nothing : dmaScan q.dmaMap 1 4096 0 0 = none := by
    refine dmaScan_last (le_refl 0) ?_ rfl
    intro k hi _
    cases mark : q.dmaMap k with
    | false => rfl
    | true =>
      have here : k ∈ free q := mem_union_left _ (mem_dmaFree.mpr ⟨by omega, mark⟩)
      rw [last, mem_singleton] at here
      omega
  show wp pgAlloc (fun r _ => r = .err .ENOMEM) q
  simp only [pgAlloc, wp_bind, wp_get, after_ok, empty, if_true, pgAllocDma, nothing]
  rfl

end

def marked (q : Pool) (p k : Nat) : Pool :=
  { q with dmaMap := fun j => q.dmaMap j || (decide (p ≤ j) && decide (j < p + k)) }

theorem wp_freeMarks (k n : Nat) (unmarked : ∀ j, p ≤ j → j < p + (k + n) → q.dmaMap j = false) :
    wp (forEach (List.range' k n) fun i => freeMark (p + i)) (fun r q' => r = .ok () ∧ q' = marked q p (k + n))
      (marked q p k) := by
  induction n generalizing k with
  | zero => exact ⟨rfl, rfl⟩
  | succ n ih =>
    have here : (marked q p k).dmaMap (p + k) = false := by
      simp [marked, unmarked (p + k) (by omega) (by omega)]
    have next : ({ marked q p k with dmaMap := update (marked q p k).dmaMap (p + k) true } : Pool) =
        marked q p (k + 1) := by
      simp only [marked, Pool.mk.injEq, true_and, and_true]
      funext j
      by_cases eq : j = p + k
      · subst eq
        simp
      · rw [update_of_ne eq]
        congr 2
        simp only [decide_eq_decide]
        omega
    rw [List.range'_succ, forEach, wp_bind]
    simp only [freeMark, wp_bind, wp_get, after_ok, here, Bool.false_eq_true, if_false, wp_modify]
    rw [next, show k + (n + 1) = k + 1 + n by omega]
    exact ih (k + 1) fun j lo hi => unmarked j lo (by omega)

theorem dmaFree_marked (low : p + s ≤ 4096) : dmaFree (marked q p s) = dmaFree q ∪ Finset.Ico p (p + s) := by
  ext k
  simp only [mem_dmaFree, marked, mem_union, mem_Ico, Bool.or_eq_true, Bool.and_eq_true,
    decide_eq_true_eq]
  constructor
  · rintro ⟨lt, was | here⟩
    · exact Or.inl ⟨lt, was⟩
    · exact Or.inr here
  · rintro (⟨lt, was⟩ | here)
    · exact ⟨lt, Or.inl was⟩
    · exact ⟨by omega, Or.inr here⟩

theorem wp_pgFreeDma (counted : Counted q) (word : p + s < M.word) (used : Disjoint (Finset.Ico p (p + s)) (free q)) :
    wp (pgFreeDma M p s) (fun r q' => match r with
      | .ok _ => Counted q' ∧ free q' = free q ∪ Finset.Ico p (p + s)
      | .err _ => False
      | .crash => True) q := by
  rw [pgFreeDma, Nat.mod_eq_of_lt word]
  split
  · trivial
  · rename_i low
    have unmarked : ∀ j, p ≤ j → j < p + (0 + s) → q.dmaMap j = false := by
      intro j lo hi
      cases mark : q.dmaMap j with
      | false => rfl
      | true =>
        have isFree : j ∈ free q := mem_union_left _ (mem_dmaFree.mpr ⟨by omega, mark⟩)
        exact absurd isFree (disjoint_left.mp used (mem_Ico.mpr ⟨lo, by omega⟩))
    have same : marked q p 0 = q := by
      simp only [marked]
      congr 1
      funext j
      simp only [add_zero, Bool.or_eq_left_iff_imp, Bool.and_eq_true, decide_eq_true_eq]
      omega
    have loop := wp_freeMarks 0 s unmarked
    rw [same, zero_add] at loop
    rw [wp_bind, List.range_eq_range']
    apply wp_mono loop
    rintro _ _ ⟨rfl, rfl⟩
    rw [after_ok, wp_modify]
    have map : dmaFree { marked q p s with nfreeDma := (marked q p s).nfreeDma + s } = dmaFree q ∪ Finset.Ico p (p + s) :=
      dmaFree_marked (by omega)
    have stack : listed { marked q p s with nfreeDma := (marked q p s).nfreeDma + s } = listed q := listed_congr rfl rfl
    have apart : Disjoint (dmaFree q) (Finset.Ico p (p + s)) :=
      (used.mono_right (subset_union_left)).symm
    refine ⟨⟨?_, ?_, ?_⟩, ?_⟩
    · rw [map, card_union_of_disjoint apart, Nat.card_Ico, Nat.add_sub_cancel_left, ← counted.dma]
      rfl
    · rw [stack]
      exact counted.once
    · rw [stack]
      exact counted.high
    · rw [free, map, stack, free, union_assoc, union_assoc, union_comm (Finset.Ico p (p + s))]

theorem counted_push (counted : Counted q) (high : 4096 ≤ p) (used : p ∉ free q) :
    let q' : Pool := { q with flist := update q.flist q.nfree p, nfree := q.nfree + 1 }
    Counted q' ∧ free q' = free q ∪ {p} := by
  intro q'
  have stack : listed q' = listed q ∪ {p} := by
    ext k
    simp only [mem_listed, mem_union, mem_singleton, q']
    constructor
    · rintro ⟨i, lt, here⟩
      rcases Nat.lt_succ_iff_lt_or_eq.mp lt with old | rfl
      · rw [update_of_ne (Nat.ne_of_lt old)] at here
        exact Or.inl ⟨i, old, here⟩
      · rw [update_self] at here
        exact Or.inr here.symm
    · rintro (⟨i, lt, here⟩ | rfl)
      · refine ⟨i, Nat.lt_succ_of_lt lt, ?_⟩
        rw [update_of_ne (ne_of_lt lt)]
        exact here
      · exact ⟨q.nfree, Nat.lt_succ_self _, update_self ..⟩
  have new : Disjoint (listed q) {p} := by
    rw [disjoint_singleton_right]
    exact fun mem => used (mem_union_right _ mem)
  refine ⟨⟨counted.dma, ?_, ?_⟩, ?_⟩
  · rw [stack, card_union_of_disjoint new, card_singleton, ← counted.once]
  · intro k mem
    rw [stack, mem_union, mem_singleton] at mem
    rcases mem with old | rfl
    · exact counted.high k old
    · exact high
  · rw [free, stack, free, union_assoc]
    rfl

theorem wp_pgFree (counted : Counted q) (word : p + 1 < M.word) (used : p ∉ free q) :
    wp (pgFree M p) (fun r q' => match r with
      | .ok _ => Counted q' ∧ free q' = free q ∪ {p}
      | .err _ => False
      | .crash => True) q := by
  rw [pgFree]
  split
  · trivial
  · split
    · have alone : Disjoint (Finset.Ico p (p + 1)) (free q) := by
        rw [Nat.Ico_succ_singleton, disjoint_singleton_left]
        exact used
      have freed := wp_pgFreeDma counted word alone
      rw [Nat.Ico_succ_singleton] at freed
      exact freed
    · rename_i high
      exact counted_push counted (Nat.le_of_not_lt high) used

end Pools

/- Frames that can be allocated -/

def avail (q : Pool) : Nat := ((free q).erase 4095).card

section Avail
variable {q : Pool}

theorem wp_alloc_avail (counted : Counted q) : wp pgAlloc (fun r q' => match r with
    | .ok p => p ∈ free q ∧ Counted q' ∧ free q' = free q \ {p} ∧ avail q' + 1 = avail q
    | .err _ => q' = q ∧ avail q = 0
    | .crash => False) q := by
  apply wp_mono (wp_and (wp_pgAlloc counted) (pgAlloc_not_last counted))
  rintro (p | e | _) q' ⟨post, other⟩
  · obtain ⟨isFree, counted', rest⟩ := post
    have mem : p ∈ (free q).erase 4095 := mem_erase.mpr ⟨fun eq => other (by rw [eq]), isFree⟩
    refine ⟨isFree, counted', rest, ?_⟩
    rw [avail, avail, rest, sdiff_singleton_eq_erase, erase_right_comm]
    exact card_erase_add_one mem
  · obtain ⟨same, last⟩ := post
    have none : (free q).erase 4095 = ∅ := by
      rw [erase_eq_empty_iff]
      exact subset_singleton_iff.mp last
    exact ⟨same, by rw [avail, none, card_empty]⟩
  · exact post

theorem wp_alloc (counted : Counted q) (some : 1 ≤ avail q) :
    wp pgAlloc (fun r q' => (∃ p, r = .ok p) ∧ Counted q' ∧ avail q ≤ avail q' + 1) q := by
  apply wp_mono (wp_alloc_avail counted)
  rintro (p | e | _) q' post
  · obtain ⟨-, counted', -, less⟩ := post
    exact ⟨⟨p, rfl⟩, counted', le_of_eq less.symm⟩
  · exact absurd post.2 (by omega)
  · exact post.elim

end Avail

/-- The pool, and the frames that have been handed out and not been given back. -/
structure Sys where
  pool : Pool
  held : Finset Nat

inductive Act where
  | alloc
  | free (p : Nat)
  | allocDma (s : Nat)
  | freeDma (p s : Nat)

def call (M : Machine) : Act → Cmd Errno Pool Nat
  | .alloc => pgAlloc
  | .free p => do
    pgFree M p
    pure p
  | .allocDma s => pgAllocDma s
  | .freeDma p s => do
    pgFreeDma M p s
    pure p

/-- Runs of no frames are not asked for, and only frames that are held are given back. -/
def Allowed (held : Finset Nat) : Act → Prop
  | .alloc => True
  | .free p => p ∈ held
  | .allocDma s => 1 ≤ s
  | .freeDma p s => Finset.Ico p (p + s) ⊆ held

def span (p : Nat) : Act → Finset Nat
  | .alloc | .free _ => {p}
  | .allocDma s | .freeDma _ s => Finset.Ico p (p + s)

def holding (held : Finset Nat) (p : Nat) : Act → Finset Nat
  | a@(.alloc) | a@(.allocDma _) => held ∪ span p a
  | a@(.free _) | a@(.freeDma _ _) => held \ span p a

structure Conserved (M : Machine) (frames : Finset Nat) (s : Sys) : Prop where
  counted : Counted s.pool
  apart : Disjoint s.held (free s.pool)
  all : s.held ∪ free s.pool = frames
  small : ∀ p ∈ frames, p < M.word / 4096

/-- What a call does: an allocation returns frames that were free, and one frame is refused only when none is free;
    only a call that frees may panic. -/
def Good (M : Machine) (frames : Finset Nat) (s : Sys) (a : Act) : Prop :=
  wp (call M a) (fun r q => match r with
    | .ok p => Conserved M frames ⟨q, holding s.held p a⟩ ∧
        (a = .alloc ∨ (∃ n, a = .allocDma n) → span p a ⊆ free s.pool)
    | .err _ => Conserved M frames ⟨q, s.held⟩ ∧ (a = .alloc → free s.pool = ∅)
    | .crash => a ≠ .alloc ∧ ∀ n, a ≠ .allocDma n) s.pool

inductive Reached (M : Machine) (frames : Finset Nat) : Sys → Prop where
  | start {s : Sys} : Conserved M frames s → Reached M frames s
  | done {s : Sys} {a : Act} {p : Nat} {q : Pool} : Reached M frames s → Allowed s.held a →
      call M a s.pool = (.ok p, q) → Reached M frames ⟨q, holding s.held p a⟩
  | failed {s : Sys} {a : Act} {e : Errno} {q : Pool} : Reached M frames s → Allowed s.held a →
      call M a s.pool = (.err e, q) → Reached M frames ⟨q, s.held⟩

section Runs
variable {M : Machine} {frames : Finset Nat} {s : Sys} {a : Act}

section
variable (inv : Conserved M frames s)
include inv

theorem conserved_take (counted : Counted q)
    (isFree : new ⊆ free s.pool) (rest : free q = free s.pool \ new) : Conserved M frames ⟨q, s.held ∪ new⟩ := by
  refine ⟨counted, ?_, ?_, inv.small⟩
  · show Disjoint (s.held ∪ new) (free q)
    rw [rest, disjoint_union_left]
    exact ⟨inv.apart.mono_right sdiff_subset, disjoint_sdiff⟩
  · show s.held ∪ new ∪ free q = frames
    rw [rest, union_assoc, union_sdiff_of_subset isFree, inv.all]

theorem conserved_give (counted : Counted q)
    (isHeld : old ⊆ s.held) (rest : free q = free s.pool ∪ old) : Conserved M frames ⟨q, s.held \ old⟩ := by
  refine ⟨counted, ?_, ?_, inv.small⟩
  · show Disjoint (s.held \ old) (free q)
    rw [rest, disjoint_union_right]
    exact ⟨inv.apart.mono_left sdiff_subset, sdiff_disjoint⟩
  · show s.held \ old ∪ free q = frames
    rw [rest, union_comm (free s.pool), ← union_assoc, sdiff_union_of_subset isHeld, inv.all]

theorem held_small (mem : p ∈ s.held) : p < M.word / 4096 :=
  inv.small p (inv.all ▸ mem_union_left _ mem)

theorem call_good (allowed : Allowed s.held a) :
    wp (call M a) (fun r q => match r with
      | .ok p => Conserved M frames ⟨q, holding s.held p a⟩ ∧
          (a = .alloc ∨ (∃ n, a = .allocDma n) → span p a ⊆ free s.pool)
      | .err _ => Conserved M frames ⟨q, s.held⟩ ∧ (a = .alloc → free s.pool ⊆ {4095})
      | .crash => a ≠ .alloc ∧ ∀ n, a ≠ .allocDma n) s.pool := by
  have word := M.word_large
  cases a with
  | alloc =>
    apply wp_mono (wp_pgAlloc inv.counted)
    rintro (p | e | _) q post
    · obtain ⟨isFree, counted, rest⟩ := post
      have alone : {p} ⊆ free s.pool := singleton_subset_iff.mpr isFree
      exact ⟨conserved_take inv counted alone rest, fun _ => alone⟩
    · obtain ⟨rfl, last⟩ := post
      exact ⟨inv, fun _ => last⟩
    · exact post.elim
  | allocDma n =>
    apply wp_mono (wp_pgAllocDma inv.counted allowed)
    rintro (p | e | _) q post
    · obtain ⟨marked, counted, rest⟩ := post
      have run : Finset.Ico p (p + n) ⊆ free s.pool := marked.trans subset_union_left
      exact ⟨conserved_take inv counted run rest, fun _ => run⟩
    · obtain ⟨rfl, -⟩ := post
      exact ⟨inv, nofun⟩
    · exact post.elim
  | free p =>
    have small := held_small inv allowed
    have used : p ∉ free s.pool := disjoint_left.mp inv.apart allowed
    rw [call, wp_bind]
    apply wp_mono (wp_pgFree inv.counted (by omega) used)
    rintro (_ | e | _) q post
    · obtain ⟨counted, rest⟩ := post
      exact ⟨conserved_give inv counted (singleton_subset_iff.mpr allowed) rest, by simp⟩
    · exact post.elim
    · exact ⟨nofun, nofun⟩
  | freeDma p n =>
    have fits : p + n < M.word ∨ 4096 ≤ p := by
      rcases Nat.eq_zero_or_pos n with rfl | some
      · omega
      · have last := held_small inv (allowed (mem_Ico.mpr (show p ≤ p + n - 1 ∧ p + n - 1 < p + n by omega)))
        omega
    rw [call, wp_bind]
    rcases fits with fits | high
    · apply wp_mono (wp_pgFreeDma inv.counted fits (inv.apart.mono_left allowed))
      rintro (_ | e | _) q post
      · obtain ⟨counted, rest⟩ := post
        exact ⟨conserved_give inv counted allowed rest, by simp⟩
      · exact post.elim
      · exact ⟨nofun, nofun⟩
    · rw [pgFreeDma, if_pos (Or.inl high)]
      exact ⟨nofun, nofun⟩

end

theorem conserved_reached (run : Reached M frames s) : Conserved M frames s := by
  induction run with
  | start inv => exact inv
  | done _ allowed here ih =>
    have good := call_good ih allowed
    rw [wp, here] at good
    exact good.1
  | failed _ allowed here ih =>
    have good := call_good ih allowed
    rw [wp, here] at good
    exact good.1

theorem not_good_last (inv : Conserved M frames s) (last : free s.pool = {4095}) : ¬ Good M frames s .alloc := by
  intro claimed
  rw [Good, wp, call, pgAlloc_last inv.counted last] at claimed
  have empty := claimed.2 rfl
  rw [last] at empty
  exact singleton_ne_empty 4095 empty

/-- In every state that is reached, every call keeps the frames apart and counted and refuses a frame only when none
    is free, if and only if frame 4095 is not the only one that is free. -/
theorem frames_conserved_iff (run : Reached M frames s) :
    (∀ a, Allowed s.held a → Good M frames s a) ↔ free s.pool ≠ {4095} := by
  have inv := conserved_reached run
  constructor
  · intro good last
    exact not_good_last inv last (good .alloc trivial)
  · intro other a allowed
    apply wp_mono (call_good inv allowed)
    rintro (p | e | _) q post
    · exact post
    · refine ⟨post.1, fun alloc => ?_⟩
      rcases subset_singleton_iff.mp (post.2 alloc) with empty | last
      · exact empty
      · exact absurd last other
    · exact post

end Runs

def onePool (p : Nat) : Pool := ⟨fun _ => 0, 0, fun k => decide (k = p), 1⟩

theorem onePool_conserved (low : p < 4096) : Conserved .amd64 {p} ⟨onePool p, ∅⟩ := by
  have map : dmaFree (onePool p) = {p} := by
    ext k
    rw [mem_dmaFree, mem_singleton]
    simp only [onePool, decide_eq_true_eq]
    omega
  have stack : listed (onePool p) = ∅ := rfl
  have all : free (onePool p) = {p} := by rw [free, map, stack, union_empty]
  refine ⟨⟨?_, ?_, ?_⟩, ?_, ?_, ?_⟩
  · rw [map]
    rfl
  · rw [stack]
    rfl
  · rw [stack]
    exact fun k mem => absurd mem (notMem_empty k)
  · exact disjoint_empty_left _
  · rw [empty_union, all]
  · intro k mem
    rw [mem_singleton] at mem
    show k < 2 ^ 64 / 4096
    omega

theorem frames_conserved_iff_sample :
    (∀ a, Allowed ∅ a → Good .amd64 {4094} ⟨onePool 4094, ∅⟩ a) ↔ free (onePool 4094) ≠ {4095} :=
  frames_conserved_iff (.start (onePool_conserved (by omega)))

/-- Frame 4095 is free, and `pg_alloc` finds no frame. -/
theorem frames_not_conserved : Reached .amd64 {4095} ⟨onePool 4095, ∅⟩ ∧ Allowed ∅ .alloc ∧
    ¬ Good .amd64 {4095} ⟨onePool 4095, ∅⟩ .alloc := by
  have inv := onePool_conserved (show 4095 < 4096 by omega)
  have all : free (onePool 4095) = {4095} := by
    have here := inv.all
    rwa [empty_union] at here
  exact ⟨.start inv, trivial, not_good_last inv all⟩

end Frames
