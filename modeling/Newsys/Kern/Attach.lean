import Newsys.Kern.Paging

/- Memory for reserved pages (`pg_atmem` of kern/arch-amd64/page.c): the frames are counted first, and then allocated
   one by one. -/
namespace Attach
open Cmds Cmd Kern Paging Nat Function Finset

def setFrame (i m : Nat) (s : Space) : Space := { s with tab := update s.tab i (.frame m) }

def atmemOne (reuse : Bool) (i : Nat) : Cmd Errno Space Unit := do
  match ← attempt (pgAltab i) with
  | .error _ => crash
  | .ok _ => do
    let s ← get
    match s.tab i with
    | .none => crash
    | .frame _ => if reuse then pure () else crash
    | .inUse => do
      match ← attempt (onPool Frames.pgAlloc) with
      | .error _ => crash
      | .ok m => modify (setFrame i m)

def pgAtmem (p size : Nat) (reuse : Bool) : Cmd Errno Space Unit := do
  let s ← get
  if (s.pool.nfree + s.pool.nfreeDma) % Machine.word .amd64 < size then fail .ENOMEM
  else forEach (List.range' p size) (atmemOne reuse)

/-- A range that `pg_adget` has reserved: its tables are there, and no page of it is mapped unless that is allowed. -/
structure Reserved (s : Space) (p size : Nat) (reuse : Bool) : Prop where
  tables : ∀ k, p ≤ k → k < p + size →
    s.pml4 (k / 2 ^ 27) ≠ none ∧ s.pdp (k / 2 ^ 18) ≠ none ∧ s.dir (k / 2 ^ 9) ≠ none
  pages : ∀ k, p ≤ k → k < p + size → s.tab k = .inUse ∨ reuse = true ∧ ∃ m, s.tab k = .frame m

def unmapped (s : Space) (p size : Nat) : Finset Nat := (Finset.Ico p (p + size)).filter fun k => s.tab k = .inUse

structure Attached (s : Space) (p size : Nat) (s' : Space) : Prop where
  counted : Frames.Counted s'.pool
  less : Frames.free s'.pool ⊆ Frames.free s.pool
  frames : ∀ k ∈ unmapped s p size, ∃ m ∈ Frames.free s.pool, m ∉ Frames.free s'.pool ∧ s'.tab k = .frame m
  distinct : ∀ j ∈ unmapped s p size, ∀ k ∈ unmapped s p size, s'.tab j = s'.tab k → j = k
  others : ∀ k, k ∉ unmapped s p size → s'.tab k = s.tab k
  tables : s'.pml4 = s.pml4 ∧ s'.pdp = s.pdp ∧ s'.dir = s.dir
  vfree : s'.vfree = s.vfree

def Good (s : Space) (p size : Nat) (reuse : Bool) : Prop :=
  wp (pgAtmem p size reuse) (fun r s' => match r with
    | .ok _ => Attached s p size s'
    | .err e => e = .ENOMEM ∧ s' = s
    | .crash => False) s

structure Valid (q : Frames.Pool) : Prop where
  counted : Frames.Counted q
  small : ∀ p ∈ Frames.free q, p < 2 ^ 52

section Rounds
variable {s : Space} {p size n a : Nat} {reuse : Bool}

theorem mem_unmapped : k ∈ unmapped s p size ↔ (p ≤ k ∧ k < p + size) ∧ s.tab k = .inUse := by
  simp [unmapped]

theorem pgAltab_present (tables : s.pml4 (i / 2 ^ 27) ≠ none ∧ s.pdp (i / 2 ^ 18) ≠ none ∧ s.dir (i / 2 ^ 9) ≠ none)
    (ok : Q (.ok ()) s) : wp (pgAltab i) Q s := by
  simp only [pgAltab, altabPml4, altabPdp, altabDir, wp_bind, wp_get, after_ok, tables.1, tables.2.1, tables.2.2, if_false,
    wp_pure]
  exact ok

theorem wp_atmemOne (reserved : Reserved s a (n + 1) reuse) (counted : Frames.Counted s.pool) :
    wp (atmemOne reuse a) (fun r s' => match r with
      | .ok _ => (s.tab a ≠ .inUse ∧ s' = s) ∨
          (s.tab a = .inUse ∧ ∃ m q, s' = setFrame a m { s with pool := q } ∧ m ∈ Frames.free s.pool ∧ Frames.Counted q ∧
            Frames.free q = Frames.free s.pool \ {m} ∧ Frames.avail q + 1 = Frames.avail s.pool)
      | .err _ => False
      | .crash => s.tab a = .inUse ∧ Frames.avail s.pool = 0) s := by
  simp only [atmemOne, wp_bind, wp_attempt]
  apply pgAltab_present (reserved.tables a (le_refl a) (by omega))
  simp only [caught_ok, after_ok, wp_bind, wp_get]
  rcases reserved.pages a (le_refl a) (by omega) with vacant | ⟨again, m, mapped⟩
  · simp only [vacant, wp_bind, wp_attempt]
    apply wp_onPool
    apply wp_mono (Frames.wp_alloc_avail counted)
    rintro (m | e | _) q post
    · obtain ⟨isFree, counted', rest, less⟩ := post
      exact Or.inr ⟨trivial, m, q, rfl, isFree, counted', rest, less⟩
    · exact ⟨trivial, post.2⟩
    · exact post.elim
  · simp only [mapped, again, if_true, wp_pure]
    exact Or.inl ⟨nofun, trivial⟩

theorem unmapped_congr (same : ∀ k, p ≤ k → k < p + size → s'.tab k = s.tab k) :
    unmapped s' p size = unmapped s p size := by
  ext k
  simp only [mem_unmapped]
  constructor
  · rintro ⟨⟨lo, hi⟩, vacant⟩
    exact ⟨⟨lo, hi⟩, (same k lo hi).symm.trans vacant⟩
  · rintro ⟨⟨lo, hi⟩, vacant⟩
    exact ⟨⟨lo, hi⟩, (same k lo hi).trans vacant⟩

theorem unmapped_mapped (mapped : s.tab a ≠ .inUse) : unmapped s a (n + 1) = unmapped s (a + 1) n := by
  ext k
  simp only [mem_unmapped]
  constructor
  · rintro ⟨⟨lo, hi⟩, vacant⟩
    have ne : k ≠ a := fun eq => mapped (eq ▸ vacant)
    exact ⟨⟨by omega, by omega⟩, vacant⟩
  · rintro ⟨⟨lo, hi⟩, vacant⟩
    exact ⟨⟨by omega, by omega⟩, vacant⟩

theorem unmapped_vacant (vacant : s.tab a = .inUse) :
    unmapped s a (n + 1) = insert a (unmapped s (a + 1) n) ∧ a ∉ unmapped s (a + 1) n := by
  constructor
  · ext k
    simp only [mem_insert, mem_unmapped]
    constructor
    · rintro ⟨⟨lo, hi⟩, here⟩
      by_cases eq : k = a
      · exact Or.inl eq
      · exact Or.inr ⟨⟨by omega, by omega⟩, here⟩
    · rintro (rfl | ⟨⟨lo, hi⟩, here⟩)
      · exact ⟨⟨le_refl _, by omega⟩, vacant⟩
      · exact ⟨⟨by omega, by omega⟩, here⟩
  · intro mem
    have bounds := (mem_unmapped.mp mem).1
    omega

theorem Reserved.rest (reserved : Reserved s a (n + 1) reuse) (pml4 : s'.pml4 = s.pml4) (pdp : s'.pdp = s.pdp)
    (dir : s'.dir = s.dir) (tab : ∀ k, k ≠ a → s'.tab k = s.tab k) : Reserved s' (a + 1) n reuse := by
  refine ⟨?_, ?_⟩
  · intro k lo hi
    rw [pml4, pdp, dir]
    exact reserved.tables k (by omega) (by omega)
  · intro k lo hi
    rw [tab k (by omega)]
    exact reserved.pages k (by omega) (by omega)

theorem Attached.cons (vacant : s.tab a = .inUse) (isFree : m ∈ Frames.free s.pool)
    (rest : Frames.free q = Frames.free s.pool \ {m}) (others : Attached (setFrame a m { s with pool := q }) (a + 1) n s') :
    Attached s a (n + 1) s' := by
  have tab : ∀ k, k ≠ a → (setFrame a m { s with pool := q }).tab k = s.tab k :=
    fun k ne => update_of_ne ne _ _
  have same : unmapped (setFrame a m { s with pool := q }) (a + 1) n = unmapped s (a + 1) n :=
    unmapped_congr fun k lo _ => tab k (by omega)
  obtain ⟨all, new⟩ := unmapped_vacant (n := n) vacant
  have first : s'.tab a = .frame m := by
    rw [others.others a (by rw [same]; exact new)]
    exact update_self ..
  have shrinks : Frames.free q ⊆ Frames.free s.pool := by
    rw [rest]
    exact sdiff_subset
  have taken : m ∉ Frames.free q := by
    rw [rest]
    exact fun mem => (mem_sdiff.mp mem).2 (mem_singleton_self m)
  have frames := others.frames
  have distinct := others.distinct
  rw [same] at frames distinct
  have apart : ∀ k ∈ unmapped s (a + 1) n, s'.tab a ≠ s'.tab k := by
    intro k mem eq
    obtain ⟨m', isFree', -, here⟩ := frames k mem
    rw [first, here] at eq
    cases eq
    exact taken isFree'
  refine ⟨others.counted, others.less.trans shrinks, ?_, ?_, ?_, others.tables, others.vfree⟩
  · intro k mem
    rw [all, mem_insert] at mem
    rcases mem with rfl | mem
    · exact ⟨m, isFree, fun here => taken (others.less here), first⟩
    · obtain ⟨m', isFree', gone, here⟩ := frames k mem
      exact ⟨m', shrinks isFree', gone, here⟩
  · intro j memj k memk eq
    rw [all, mem_insert] at memj memk
    rcases memj with rfl | memj <;> rcases memk with rfl | memk
    · rfl
    · exact absurd eq (apart k memk)
    · exact absurd eq.symm (apart j memj)
    · exact distinct j memj k memk eq
  · intro k out
    rw [all, mem_insert, not_or] at out
    rw [others.others k (by rw [same]; exact out.2)]
    exact tab k out.1

theorem wp_atmemAll (reserved : Reserved s a n reuse) (counted : Frames.Counted s.pool) :
    wp (forEach (List.range' a n) (atmemOne reuse)) (fun r s' => match r with
      | .ok _ => Attached s a n s' ∧ (unmapped s a n).card ≤ Frames.avail s.pool
      | .err _ => False
      | .crash => Frames.avail s.pool < (unmapped s a n).card) s := by
  induction n generalizing a s with
  | zero =>
    have none : unmapped s a 0 = ∅ := by
      ext k
      simp only [mem_unmapped, notMem_empty, iff_false]
      omega
    refine ⟨⟨counted, Finset.Subset.refl _, ?_, ?_, fun k _ => rfl, ⟨rfl, rfl, rfl⟩, rfl⟩, ?_⟩
    · rw [none]
      exact fun k mem => absurd mem (notMem_empty k)
    · rw [none]
      exact fun k mem => absurd mem (notMem_empty k)
    · rw [none]
      exact zero_le _
  | succ n ih =>
    rw [List.range'_succ, forEach, wp_bind]
    apply wp_mono (wp_atmemOne reserved counted)
    rintro (u | e | _) s' post
    · rw [after_ok]
      rcases post with ⟨mapped, rfl⟩ | ⟨vacant, m, q, rfl, isFree, counted', rest, less⟩
      · rw [unmapped_mapped mapped]
        apply wp_mono (ih (reserved.rest rfl rfl rfl fun _ _ => rfl) counted)
        rintro (u | e | _) s'' post
        · refine ⟨?_, post.2⟩
          have here := post.1
          have same := unmapped_mapped (n := n) mapped
          exact ⟨here.counted, here.less, same ▸ here.frames, same ▸ here.distinct, same ▸ here.others, here.tables,
            here.vfree⟩
        · exact post
        · exact post
      · obtain ⟨all, new⟩ := unmapped_vacant (n := n) vacant
        have same : unmapped (setFrame a m { s with pool := q }) (a + 1) n = unmapped s (a + 1) n :=
          unmapped_congr fun k lo _ => update_of_ne (by omega) _ _
        have card : (unmapped s a (n + 1)).card = (unmapped s (a + 1) n).card + 1 := by
          rw [all, card_insert_of_notMem new]
        have other := ih (s := setFrame a m { s with pool := q })
          (reserved.rest rfl rfl rfl fun k ne => update_of_ne ne _ _) counted'
        rw [same] at other
        have pool : (setFrame a m { s with pool := q }).pool = q := rfl
        rw [pool] at other
        apply wp_mono other
        rintro (u | e | _) s'' post
        · exact ⟨Attached.cons vacant isFree rest post.1, by have := post.2; omega⟩
        · exact post
        · show Frames.avail s.pool < _
          omega
    · exact post.elim
    · have more := (unmapped_vacant (n := n) post.1).1
      show Frames.avail s.pool < _
      rw [post.2, more]
      exact card_pos.mpr ⟨a, mem_insert_self ..⟩

end Rounds

section Calls
variable {s : Space} {p size : Nat} {reuse : Bool}

theorem count_free (valid : Valid s.pool) :
    (s.pool.nfree + s.pool.nfreeDma) % Machine.word .amd64 = (Frames.free s.pool).card := by
  have below : Frames.free s.pool ⊆ range (2 ^ 52) := fun k mem => mem_range.mpr (valid.small k mem)
  have few := card_le_card below
  rw [card_range] at few
  rw [valid.counted.card]
  exact mod_eq_of_lt (lt_of_le_of_lt few (by decide))

theorem unmapped_card_le (s : Space) (p size : Nat) : (unmapped s p size).card ≤ size :=
  (card_filter_le _ _).trans_eq (by rw [Nat.card_Ico, Nat.add_sub_cancel_left])

theorem good_iff_avail (valid : Valid s.pool) (reserved : Reserved s p size reuse)
    (passed : ¬ (Frames.free s.pool).card < size) :
    Good s p size reuse ↔ (unmapped s p size).card ≤ Frames.avail s.pool := by
  have spec := wp_atmemAll reserved valid.counted
  rw [Good]
  simp only [pgAtmem, wp_bind, wp_get, after_ok, count_free valid]
  rw [if_neg passed]
  rw [wp] at spec ⊢
  generalize forEach (List.range' p size) (atmemOne reuse) s = out at spec ⊢
  obtain ⟨u | e | _, s'⟩ := out
  · exact ⟨fun _ => spec.2, fun _ => spec.1⟩
  · exact spec.elim
  · exact ⟨False.elim, fun fits => absurd fits (not_le.mpr spec)⟩

/-- A call panics if and only if it passes the check, needs every free frame, and frame 4095 is one of them. -/
theorem atmem_good_iff (valid : Valid s.pool) (reserved : Reserved s p size reuse) : Good s p size reuse ↔
    (Frames.free s.pool).card < size ∨ 4095 ∉ Frames.free s.pool ∨
      (unmapped s p size).card < (Frames.free s.pool).card := by
  have needed := unmapped_card_le s p size
  by_cases short : (Frames.free s.pool).card < size
  · rw [Good]
    simp only [pgAtmem, wp_bind, wp_get, after_ok, count_free valid]
    rw [if_pos short]
    exact ⟨fun _ => Or.inl short, fun _ => ⟨rfl, rfl⟩⟩
  · rw [good_iff_avail valid reserved short, Frames.avail]
    simp only [short, false_or]
    by_cases last : 4095 ∈ Frames.free s.pool
    · have one := card_erase_add_one last
      simp only [last, not_true, false_or]
      omega
    · rw [erase_eq_of_notMem last]
      simp only [last, not_false_eq_true, true_or, iff_true]
      omega

end Calls

def sampleSpace (frame : Nat) : Space :=
  ⟨Frames.onePool frame, fun _ => some 3, fun _ => some 4, fun _ => some 5,
    fun k => if k = 0x10200 then .inUse else .none, 0⟩

theorem sampleSpace_valid (low : frame < 4096) :
    Valid (sampleSpace frame).pool ∧ Frames.free (sampleSpace frame).pool = {frame} := by
  have inv := Frames.onePool_conserved low
  have all : Frames.free (Frames.onePool frame) = {frame} := by
    have here := inv.all
    rwa [empty_union] at here
  refine ⟨⟨inv.counted, ?_⟩, all⟩
  intro k mem
  have here : k ∈ Frames.free (Frames.onePool frame) := mem
  rw [all, mem_singleton] at here
  omega

theorem sampleSpace_reserved (frame : Nat) : Reserved (sampleSpace frame) 0x10200 1 false := by
  refine ⟨fun k _ _ => ⟨nofun, nofun, nofun⟩, fun k lo hi => Or.inl ?_⟩
  have here : k = 0x10200 := by omega
  exact if_pos here

theorem atmem_good_iff_sample : Good (sampleSpace 4094) 0x10200 1 false ↔
    (Frames.free (sampleSpace 4094).pool).card < 1 ∨ 4095 ∉ Frames.free (sampleSpace 4094).pool ∨
      (unmapped (sampleSpace 4094) 0x10200 1).card < (Frames.free (sampleSpace 4094).pool).card :=
  atmem_good_iff (sampleSpace_valid (by omega)).1 (sampleSpace_reserved 4094)

theorem unmapped_sample (frame : Nat) : unmapped (sampleSpace frame) 0x10200 1 = {0x10200} := by
  ext k
  simp only [mem_unmapped, mem_singleton]
  constructor
  · rintro ⟨⟨lo, hi⟩, -⟩
    omega
  · rintro rfl
    exact ⟨⟨le_refl _, lt_succ_self _⟩, by simp [sampleSpace]⟩

/-- Frame 4095 is the free one: the check passes, and the call panics. -/
theorem atmem_not_good : Valid (sampleSpace 4095).pool ∧ Reserved (sampleSpace 4095) 0x10200 1 false ∧
    ¬ Good (sampleSpace 4095) 0x10200 1 false := by
  have valid := sampleSpace_valid (show 4095 < 4096 by omega)
  refine ⟨valid.1, sampleSpace_reserved 4095, ?_⟩
  rw [good_iff_avail valid.1 (sampleSpace_reserved 4095) (by rw [valid.2]; exact lt_irrefl 1), unmapped_sample,
    Frames.avail, valid.2, erase_singleton]
  exact not_succ_le_zero 0

end Attach
