import Mathlib.Algebra.Order.Ring.Nat
import Newsys.Kern.Frames

/- The free-page list at boot (kern/arch-i386/page.c, kern/arch-amd64/page.c): the pages of the memory map are counted,
   some of them are set aside for the list, and then the pages are collected. The machines differ in their words only. -/
namespace Pageinit
open Cmds Cmd Kern Frames Nat

structure Kmapent where
  type : Nat
  base : Nat
  size : Nat
  deriving DecidableEq

def kmapentMem : Nat := 1

structure Flist where
  total : Nat
  base : Nat
  fin : Nat
  deriving DecidableEq

variable (M : Machine)

/-- The first and the last address of an entry that `pg_count` and `pg_collect` do not leave out. -/
def bounds (me : Kmapent) : Option (Nat × Nat) :=
  let base := me.base % M.word
  let size := me.size % M.word
  let fin := (base + size) % M.word
  if me.type ≠ kmapentMem then none
  else if base ≠ me.base then none
  else if size ≠ me.size then none
  else if (base + fin) % M.word < base then none
  else some (base, fin)

def pageUp (base : Nat) : Nat := (if base % 4096 ≠ 0 then (base + 4096) % M.word else base) / 4096

def countOne (f : Flist) (me : Kmapent) : Flist :=
  match bounds M me with
  | none => f
  | some (first, last) =>
    let base := pageUp M first
    let fin := last / 4096
    let total := (f.total + (fin + M.word - base) % M.word) % M.word
    if 0x100000 ≤ me.base ∧ base < f.base then ⟨total, base, fin⟩ else { f with total := total }

def pgCount (map : List Kmapent) : Flist := map.foldl (countOne M) ⟨0, 0xffffffff, 0⟩

def listPages (total : Nat) : Nat := (total + 1023) % M.word / 1024

def pgFinit (f : Flist) : Option Flist :=
  if (f.fin + M.word - f.base) % M.word < listPages M f.total then none
  else some { f with fin := (f.base + listPages M f.total) % M.word }

/-- The inner loop of `pg_collect` from frame `n` on, in at most `fuel` rounds: the frames that it frees. -/
def collectRun (total fin : Nat) : Nat → Nat → Cmd Errno Pool (List Nat)
  | 0, _ => pure []
  | fuel + 1, n => do
    let q ← get
    if n < fin ∧ (q.nfree + q.nfreeDma) % M.word < total then do
      pgFree M n
      let rest ← collectRun total fin fuel ((n + 1) % 2 ^ 32)
      pure (n :: rest)
    else pure []

/-- One round of the outer loop of `pg_collect`. Addresses are compared with page numbers, as in the source. -/
def collectOne (f : Flist) (me : Kmapent) : Cmd Errno Pool (List Nat) :=
  match bounds M me with
  | none => pure []
  | some (first, last) =>
    if me.base < 0x100000 then pure []
    else
      let first := if f.base ≤ first ∧ first < f.fin then f.fin else first
      let last := if f.base ≤ last ∧ last < f.fin then f.base else last
      if last ≤ first then pure []
      -- the list never grows beyond `pg_total`, so this many rounds are enough
      else collectRun M f.total (last / 4096) f.total (pageUp M first % 2 ^ 32)

def pgCollect (f : Flist) : List Kmapent → Cmd Errno Pool (List Nat)
  | [] => pure []
  | me :: map => do
    let here ← collectOne M f me
    let rest ← pgCollect f map
    pure (here ++ rest)

/-- What `pg_init` leaves behind: the list, the pool, and the frames that were handed to `pg_free`. -/
structure Boot where
  flist : Flist
  pool : Pool
  handed : List Nat

def pgInit (junk : Nat → Nat) (map : List Kmapent) : Option Boot :=
  match pgFinit M (pgCount M map) with
  | none => none
  | some f =>
    match pgCollect M f map ⟨junk, 0, fun _ => false, 0⟩ with
    | (.ok handed, q) => some ⟨f, q, handed⟩
    | _ => none

def Usable (map : List Kmapent) (n : Nat) : Prop :=
  ∃ me ∈ map, me.type = kmapentMem ∧ me.base ≤ 4096 * n ∧ 4096 * (n + 1) ≤ me.base + me.size

/-- The list has room for the frames on it, its own frames are not among those that are handed out, and these are
    usable. -/
structure Fits (map : List Kmapent) (boot : Boot) : Prop where
  room : M.ppageSize * boot.pool.nfree ≤ 4096 * listPages M boot.flist.total
  apart : ∀ k, k < listPages M boot.flist.total → (boot.flist.base + k) % M.word ∉ boot.handed
  usable : ∀ n ∈ boot.handed, Usable map n

def pages (me : Kmapent) : Option (Nat × Nat) := (bounds M me).map fun b => (pageUp M b.1, b.2 / 4096)

/-- No entry from one megabyte on has a whole page, or begins beyond 16 terabytes. -/
def NoHigh (map : List Kmapent) : Prop :=
  ∀ me ∈ map, 0x100000 ≤ me.base → ∀ base fin, pages M me = some (base, fin) → fin ≤ base ∧ base < 2 ^ 32

def extent (me : Kmapent) : Nat :=
  match pages M me with
  | none => 0
  | some (base, fin) => fin - base

/-- A memory map in which no counted entry ends in front of its first page, that is not larger than two terabytes and
    has no page beyond 16 terabytes. -/
structure Regular (map : List Kmapent) : Prop where
  straight : ∀ me ∈ map, ∀ base fin, pages M me = some (base, fin) → me.base ≤ 4096 * base ∧ base ≤ fin ∧ fin < 2 ^ 32
  small : (map.map (extent M)).sum < 2 ^ 29

variable {M}
variable {me : Kmapent} {map : List Kmapent} {f : Flist} {q : Pool} {first last n total fin fuel : Nat}

/- Addresses and pages -/

theorem word_pages : M.word % 4096 = 0 := by
  cases M <;> rfl

theorem pageUp_eq (lt : first < M.word) :
    pageUp M first = (first + 4095) / 4096 ∨ pageUp M first = 0 ∧ M.word < first + 4096 := by
  have whole := word_pages (M := M)
  rw [pageUp]
  split
  · by_cases fits : first + 4096 < M.word
    · rw [mod_eq_of_lt fits]
      omega
    · rw [mod_eq_sub_mod (by omega), mod_eq_of_lt (by omega)]
      omega
  · omega

theorem pageUp_wraps (inside : M.word < first + 4096) (lt : first < M.word) : pageUp M first = 0 := by
  have whole := word_pages (M := M)
  rw [pageUp, if_pos (by omega), mod_eq_sub_mod (by omega), mod_eq_of_lt (by omega)]
  omega

theorem bounds_some (here : bounds M me = some (first, last)) :
    first = me.base ∧ first < M.word ∧ last < M.word ∧ me.type = kmapentMem := by
  have pos : 0 < M.word := lt_of_lt_of_le (by decide) M.word_large
  simp only [bounds] at here
  split at here
  · cases here
  · rename_i type
    split at here
    · cases here
    · rename_i base
      split at here
      · cases here
      · split at here
        · cases here
        · cases here
          exact ⟨of_not_not base, mod_lt _ pos, mod_lt _ pos, of_not_not type⟩

theorem pages_of_bounds (here : bounds M me = some (first, last)) :
    pages M me = some (pageUp M first, last / 4096) := by
  rw [pages, here]
  rfl

/- Frames that are handed out -/

def count (q : Pool) : Nat := q.nfree + q.nfreeDma

theorem count_pgFree (p : Nat) : wp (pgFree M p) (fun r q' => ∀ u, r = .ok u → count q' = count q + 1) q := by
  rw [pgFree]
  split
  · rintro _ ⟨⟩
  · split
    · rw [pgFreeDma]
      split
      · rintro _ ⟨⟩
      · have one : List.range 1 = [0] := rfl
        simp only [one, forEach, freeMark, wp_bind, wp_get, after_ok]
        split
        · rintro _ ⟨⟩
        · intro _ _
          exact (add_assoc ..).symm
    · intro _ _
      exact add_right_comm ..

theorem collectRun_none (le : fin ≤ n) (fuel : Nat) : wp (collectRun M total fin fuel n)
    (fun r q' => ∀ l, r = .ok l → l = [] ∧ q' = q) q := by
  cases fuel with
  | zero =>
    rintro _ ⟨⟩
    exact ⟨rfl, rfl⟩
  | succ fuel =>
    simp only [collectRun, wp_bind, wp_get, after_ok]
    rw [if_neg (by omega)]
    rintro _ ⟨⟩
    exact ⟨rfl, rfl⟩

theorem collectRun_zero (fuel : Nat) : wp (collectRun M total fin fuel 0)
    (fun r q' => ∀ l, r = .ok l → l = [] ∧ q' = q) q := by
  cases fuel with
  | zero =>
    rintro _ ⟨⟩
    exact ⟨rfl, rfl⟩
  | succ fuel =>
    simp only [collectRun, wp_bind, wp_get, after_ok]
    split
    · rw [wp_bind, pgFree, if_pos rfl]
      rintro _ ⟨⟩
    · rintro _ ⟨⟩
      exact ⟨rfl, rfl⟩

theorem collectOne_none (low : 0x100000 ≤ me.base → ∀ base fin, pages M me = some (base, fin) → fin ≤ base ∧ base < 2 ^ 32) :
    wp (collectOne M f me) (fun r q' => ∀ l, r = .ok l → l = [] ∧ q' = q) q := by
  rw [collectOne]
  cases here : bounds M me with
  | none =>
    rintro _ ⟨⟩
    exact ⟨rfl, rfl⟩
  | some b =>
    obtain ⟨first, last⟩ := b
    obtain ⟨base, lt, lt', -⟩ := bounds_some here
    simp only
    split
    · rintro _ ⟨⟩
      exact ⟨rfl, rfl⟩
    · rename_i high
      obtain ⟨le, small⟩ := low (by omega) _ _ (pages_of_bounds here)
      generalize up : (if f.base ≤ first ∧ first < f.fin then f.fin else first) = first'
      generalize down : (if f.base ≤ last ∧ last < f.fin then f.base else last) = last'
      have later : first ≤ first' := by
        rw [← up]
        split <;> omega
      have earlier : last' ≤ last := by
        rw [← down]
        split <;> omega
      split
      · rintro _ ⟨⟩
        exact ⟨rfl, rfl⟩
      · rename_i some
        have small : first' < M.word := by omega
        rcases pageUp_eq small with up' | ⟨zero, -⟩
        · by_cases turns : pageUp M first' < 2 ^ 32
          · apply collectRun_none
            rw [mod_eq_of_lt turns]
            rcases pageUp_eq (M := M) lt with whole | ⟨zero, inside⟩
            · omega
            · have inside' : M.word < first' + 4096 := by omega
              have zero' := pageUp_wraps inside' small
              omega
          · have edge : pageUp M first' = 2 ^ 32 := by omega
            rw [edge]
            exact collectRun_zero _
        · rw [zero]
          exact collectRun_zero _

theorem pgCollect_none (low : NoHigh M map) : wp (pgCollect M f map)
    (fun r q' => ∀ l, r = .ok l → l = [] ∧ q' = q) q := by
  induction map with
  | nil =>
    rintro _ ⟨⟩
    exact ⟨rfl, rfl⟩
  | cons me map ih =>
    rw [pgCollect, wp_bind]
    apply wp_mono (collectOne_none (low me (List.mem_cons_self ..)))
    rintro (l | e | _) q' post
    · obtain ⟨rfl, rfl⟩ := post l rfl
      rw [after_ok, wp_bind]
      apply wp_mono (ih fun me mem => low me (List.mem_cons_of_mem _ mem))
      rintro (l | e | _) q'' post
      · obtain ⟨rfl, rfl⟩ := post l rfl
        rintro _ ⟨⟩
        exact ⟨rfl, rfl⟩
      · exact nofun
      · exact nofun
    · exact nofun
    · exact nofun

theorem collectRun_some (lt : fin < 2 ^ 32) (le : n ≤ fin) (full : count q ≤ total) (word : total < M.word) (fuel : Nat) :
    wp (collectRun M total fin fuel n) (fun r q' => ∀ l, r = .ok l → count q' = count q + l.length ∧
      count q' ≤ total ∧ l.length ≤ fin - n ∧ (n < fin → 0 < fuel → count q < total → n ∈ l)) q := by
  induction fuel generalizing n q with
  | zero =>
    rintro _ ⟨⟩
    exact ⟨rfl, full, zero_le _, fun _ none => absurd none (lt_irrefl 0)⟩
  | succ fuel ih =>
    have whole : (q.nfree + q.nfreeDma) % M.word = count q := mod_eq_of_lt (lt_of_le_of_lt full word)
    simp only [collectRun, wp_bind, wp_get, after_ok, whole]
    split
    · rename_i more
      rw [wp_bind]
      apply wp_mono (count_pgFree n)
      rintro (u | e | _) q' post
      · have one := post u rfl
        rw [mod_eq_of_lt (b := 2 ^ 32) (by omega), after_ok, wp_bind]
        apply wp_mono (ih more.1 (show count q' ≤ total by omega))
        rintro (l | e | _) q'' rest
        · obtain ⟨counted, full', short, -⟩ := rest l rfl
          rintro _ ⟨⟩
          refine ⟨?_, full', ?_, fun _ _ _ => List.mem_cons_self ..⟩
          · show count q'' = count q + (l.length + 1)
            omega
          · show l.length + 1 ≤ fin - n
            omega
        · exact nofun
        · exact nofun
      · exact nofun
      · exact nofun
    · rename_i done
      rintro _ ⟨⟩
      refine ⟨rfl, full, zero_le _, ?_⟩
      intro before _ space
      exact absurd ⟨before, space⟩ done

/-- An entry is regular, and the list is set aside so low that no address is confused with one of its pages. -/
structure Plain (M : Machine) (f : Flist) (me : Kmapent) : Prop where
  straight : ∀ base fin, pages M me = some (base, fin) → me.base ≤ 4096 * base ∧ base ≤ fin ∧ fin < 2 ^ 32
  below : 0x100000 ≤ me.base → ∀ base fin, pages M me = some (base, fin) → f.fin ≤ base + 2 ^ 19

theorem collectOne_some (plain : Plain M f me) (full : count q ≤ f.total) (word : f.total < M.word) :
    wp (collectOne M f me) (fun r q' => ∀ l, r = .ok l → count q' = count q + l.length ∧ count q' ≤ f.total ∧
      l.length ≤ extent M me ∧ (0x100000 ≤ me.base → ∀ base fin, pages M me = some (base, fin) → base < fin →
        count q < f.total → base ∈ l)) q := by
  rw [collectOne]
  cases here : bounds M me with
  | none =>
    rintro _ ⟨⟩
    refine ⟨rfl, full, zero_le _, ?_⟩
    intro _ base fin some
    rw [pages, here] at some
    cases some
  | some b =>
    obtain ⟨first, last⟩ := b
    obtain ⟨base, lt, lt', -⟩ := bounds_some here
    have own := pages_of_bounds here
    obtain ⟨inside, le, small⟩ := plain.straight _ _ own
    have size : extent M me = last / 4096 - pageUp M first := by rw [extent, own]
    simp only
    split
    · rename_i low
      rintro _ ⟨⟩
      refine ⟨rfl, full, zero_le _, ?_⟩
      intro high
      omega
    · rename_i high
      have under := plain.below (by omega) _ _ own
      have up : pageUp M first = (first + 4095) / 4096 := by
        rcases pageUp_eq (M := M) lt with whole | ⟨zero, -⟩
        · exact whole
        · omega
      have noFirst : (if f.base ≤ first ∧ first < f.fin then f.fin else first) = first := if_neg (by omega)
      have noLast : (if f.base ≤ last ∧ last < f.fin then f.base else last) = last := if_neg (by omega)
      rw [noFirst, noLast]
      split
      · rename_i none
        rintro _ ⟨⟩
        refine ⟨rfl, full, zero_le _, ?_⟩
        intro _ base' fin' some before
        rw [own] at some
        cases some
        omega
      · rw [mod_eq_of_lt (b := 2 ^ 32) (by omega)]
        apply wp_mono (collectRun_some small le full word f.total)
        intro r q' post l ok
        obtain ⟨counted, full', short, begins⟩ := post l ok
        refine ⟨counted, full', by rw [size]; exact short, ?_⟩
        intro _ base' fin' some before space
        rw [own] at some
        cases some
        exact begins before (by omega) space

theorem pgCollect_some (plain : ∀ e ∈ pre ++ me :: post, Plain M f e)
    (high : 0x100000 ≤ me.base) (own : pages M me = some (base, fin)) (nonempty : base < fin)
    (full : count q + (pre.map (extent M)).sum < f.total) (word : f.total < M.word) :
    wp (pgCollect M f (pre ++ me :: post)) (fun r _ => ∀ l, r = .ok l → base ∈ l) q := by
  induction pre generalizing q with
  | nil =>
    rw [List.nil_append, pgCollect, wp_bind]
    have fits : count q < f.total := by
      rw [List.map_nil, List.sum_nil] at full
      exact full
    apply wp_mono (collectOne_some (plain me (List.mem_cons_self ..)) (le_of_lt fits) word)
    rintro (l | e | _) q' here
    · obtain ⟨-, -, -, begins⟩ := here l rfl
      have any : wp (pgCollect M f post) (fun _ _ => True) q' := trivial
      rw [after_ok, wp_bind]
      apply wp_mono any
      rintro (rest | e | _) q'' -
      · rintro _ ⟨⟩
        exact List.mem_append_left _ (begins high base fin own nonempty fits)
      · exact nofun
      · exact nofun
    · exact nofun
    · exact nofun
  | cons e pre ih =>
    rw [List.map_cons, List.sum_cons] at full
    rw [List.cons_append, pgCollect, wp_bind]
    apply wp_mono (collectOne_some (plain e (List.mem_cons_self ..)) (by omega) word)
    rintro (l | err | _) q' here
    · obtain ⟨counted, -, short, -⟩ := here l rfl
      rw [after_ok, wp_bind]
      apply wp_mono (ih (fun e mem => plain e (List.mem_cons_of_mem _ mem)) (by omega))
      rintro (rest | err | _) q'' there
      · rintro _ ⟨⟩
        exact List.mem_append_right _ (there rest rfl)
      · exact nofun
      · exact nofun
    · exact nofun
    · exact nofun

/- What is counted -/

structure Counts (M : Machine) (f₀ : Flist) (map : List Kmapent) (f : Flist) : Prop where
  total : f.total = f₀.total + (map.map (extent M)).sum
  lowest : f.base ≤ f₀.base ∧ ∀ me ∈ map, 0x100000 ≤ me.base → ∀ base fin, pages M me = some (base, fin) → f.base ≤ base
  chosen : f.base = f₀.base ∧ f.fin = f₀.fin ∨
    ∃ me ∈ map, 0x100000 ≤ me.base ∧ pages M me = some (f.base, f.fin)

theorem countOne_counts
    (straight : ∀ base fin, pages M me = some (base, fin) → me.base ≤ 4096 * base ∧ base ≤ fin ∧ fin < 2 ^ 32)
    (small : f₀.total + extent M me < M.word) : Counts M f₀ [me] (countOne M f₀ me) := by
  rw [countOne]
  cases here : bounds M me with
  | none =>
    have own : pages M me = none := by rw [pages, here]; rfl
    have size : extent M me = 0 := by rw [extent, own]
    refine ⟨?_, ⟨le_refl _, ?_⟩, Or.inl ⟨rfl, rfl⟩⟩
    · rw [List.map_singleton, List.sum_singleton, size]
      rfl
    · intro e mem _ base fin some
      rw [List.mem_singleton.mp mem, own] at some
      cases some
  | some b =>
    obtain ⟨first, last⟩ := b
    have own := pages_of_bounds here
    obtain ⟨-, le, lt⟩ := straight _ _ own
    have size : extent M me = last / 4096 - pageUp M first := by rw [extent, own]
    have total : (f₀.total + (last / 4096 + M.word - pageUp M first) % M.word) % M.word =
        f₀.total + ([me].map (extent M)).sum := by
      rw [List.map_singleton, List.sum_singleton, size, show last / 4096 + M.word - pageUp M first =
        last / 4096 - pageUp M first + M.word by omega, add_mod_right, mod_eq_of_lt (a := _ - _) (by omega),
        mod_eq_of_lt (by omega)]
    simp only
    split
    · rename_i lower
      refine ⟨total, ⟨le_of_lt lower.2, ?_⟩, Or.inr ⟨me, List.mem_singleton_self me, lower.1, own⟩⟩
      intro e mem _ base fin some
      rw [List.mem_singleton.mp mem, own] at some
      cases some
      exact le_refl _
    · rename_i other
      refine ⟨total, ⟨le_refl _, ?_⟩, Or.inl ⟨rfl, rfl⟩⟩
      intro e mem high base fin some
      rw [List.mem_singleton.mp mem] at some high
      rw [own] at some
      cases some
      exact Nat.le_of_not_lt fun below => other ⟨high, below⟩

theorem Counts.append (one : Counts M f₀ [me] f₁) (more : Counts M f₁ tail f₂) :
    Counts M f₀ (me :: tail) f₂ := by
  refine ⟨?_, ⟨more.lowest.1.trans one.lowest.1, ?_⟩, ?_⟩
  · have first := one.total
    rw [List.map_singleton, List.sum_singleton] at first
    rw [more.total, first, List.map_cons, List.sum_cons, add_assoc]
  · intro e mem high base fin own
    rcases List.mem_cons.mp mem with rfl | later
    · exact more.lowest.1.trans (one.lowest.2 e (List.mem_singleton_self e) high base fin own)
    · exact more.lowest.2 e later high base fin own
  · rcases more.chosen with ⟨base, fin⟩ | ⟨e, mem, high, own⟩
    · rw [base, fin]
      rcases one.chosen with first | ⟨e, mem, high, own⟩
      · exact Or.inl first
      · rw [List.mem_singleton] at mem
        exact Or.inr ⟨e, by rw [mem]; exact List.mem_cons_self .., high, own⟩
    · exact Or.inr ⟨e, List.mem_cons_of_mem _ mem, high, own⟩

theorem foldl_counts (f₀ : Flist)
    (straight : ∀ me ∈ map, ∀ base fin, pages M me = some (base, fin) → me.base ≤ 4096 * base ∧ base ≤ fin ∧ fin < 2 ^ 32)
    (small : f₀.total + (map.map (extent M)).sum < M.word) : Counts M f₀ map (map.foldl (countOne M) f₀) := by
  induction map generalizing f₀ with
  | nil => exact ⟨rfl, ⟨le_refl _, fun e mem => absurd mem List.not_mem_nil⟩, Or.inl ⟨rfl, rfl⟩⟩
  | cons me map ih =>
    rw [List.map_cons, List.sum_cons] at small
    have one : Counts M f₀ [me] (countOne M f₀ me) :=
      countOne_counts (straight me (List.mem_cons_self ..)) (by omega)
    have total := one.total
    rw [List.map_singleton, List.sum_singleton] at total
    exact one.append (ih _ (fun e mem => straight e (List.mem_cons_of_mem _ mem)) (by omega))

theorem extent_le (mem : me ∈ map) : extent M me ≤ (map.map (extent M)).sum := by
  obtain ⟨pre, post, rfl⟩ := List.append_of_mem mem
  rw [List.map_append, List.sum_append, List.map_cons, List.sum_cons]
  omega

theorem pgInit_some (init : pgInit M junk map = some boot) :
    pgFinit M (pgCount M map) = some boot.flist ∧
      pgCollect M boot.flist map ⟨junk, 0, fun _ => false, 0⟩ = (.ok boot.handed, boot.pool) := by
  simp only [pgInit] at init
  split at init
  · cases init
  · rename_i f set
    split at init
    · rename_i handed q collected
      cases init
      exact ⟨set, collected⟩
    · cases init

theorem first_handed (regular : Regular M map) (init : pgInit M junk map = some boot)
    (mem : me ∈ map) (high : 0x100000 ≤ me.base) (own : pages M me = some (base, fin)) (some : base < fin) :
    0 < listPages M boot.flist.total ∧ (boot.flist.base + 0) % M.word ∈ boot.handed := by
  have word := M.word_large
  have small := regular.small
  obtain ⟨set, collected⟩ := pgInit_some init
  have counts : Counts M ⟨0, 0xffffffff, 0⟩ map (pgCount M map) :=
    foldl_counts _ regular.straight (by show 0 + _ < _; omega)
  generalize pgCount M map = f at set counts
  have total : f.total = (map.map (extent M)).sum := counts.total.trans (zero_add _)
  have size : extent M me = fin - base := by rw [extent, own]
  have part := extent_le (M := M) mem
  obtain ⟨-, -, lt⟩ := regular.straight me mem base fin own
  have lowest := counts.lowest.2 me mem high base fin own
  have pos : listPages M f.total = (f.total + 1023) / 1024 := by rw [listPages, mod_eq_of_lt (by omega)]
  rcases counts.chosen with ⟨default, -⟩ | ⟨e, mem', high', own'⟩
  · simp only at default
    omega
  obtain ⟨-, le', lt'⟩ := regular.straight e mem' _ _ own'
  rw [pgFinit, show f.fin + M.word - f.base = f.fin - f.base + M.word by omega, add_mod_right,
    mod_eq_of_lt (by omega)] at set
  split at set
  · cases set
  · rename_i fits
    rw [mod_eq_of_lt (by omega)] at set
    have flist := Option.some.inj set
    rw [← flist] at collected ⊢
    refine ⟨by show 0 < listPages M f.total; omega, ?_⟩
    obtain ⟨pre, post, rfl⟩ := List.append_of_mem mem'
    have size' : extent M e = f.fin - f.base := by rw [extent, own']
    have sum : (((pre ++ e :: post).map (extent M)).sum) =
        (pre.map (extent M)).sum + (extent M e + (post.map (extent M)).sum) := by
      rw [List.map_append, List.sum_append, List.map_cons, List.sum_cons]
    have plain : ∀ x ∈ pre ++ e :: post, Plain M { f with fin := f.base + listPages M f.total } x := by
      intro x here
      refine ⟨regular.straight x here, ?_⟩
      intro high'' base'' fin'' own''
      have under := counts.lowest.2 x here high'' base'' fin'' own''
      show f.base + listPages M f.total ≤ base'' + 2 ^ 19
      omega
    have reached := pgCollect_some (q := ⟨junk, 0, fun _ => false, 0⟩) plain high' own' (by omega)
      (by show 0 + 0 + _ < f.total; omega) (by show f.total < M.word; omega)
    rw [wp, collected] at reached
    rw [add_zero, mod_eq_of_lt (by show f.base < M.word; omega)]
    exact reached _ rfl

/-- The list fits when no entry from one megabyte on has a page; in a regular map this is the only way. -/
theorem flist_fits_iff {junk : Nat → Nat} {boot : Boot} (init : pgInit M junk map = some boot) :
    (NoHigh M map → Fits M map boot) ∧ (Regular M map → (Fits M map boot ↔ NoHigh M map)) := by
  have fits : NoHigh M map → Fits M map boot := by
    intro low
    obtain ⟨-, collected⟩ := pgInit_some init
    have nothing := pgCollect_none (f := boot.flist) (q := ⟨junk, 0, fun _ => false, 0⟩) low
    rw [wp, collected] at nothing
    obtain ⟨handed, pool⟩ := nothing _ rfl
    have empty : boot.pool.nfree = 0 := congrArg Pool.nfree pool
    refine ⟨?_, ?_, ?_⟩
    · rw [empty]
      exact Nat.zero_le _
    · intro k _
      rw [handed]
      exact List.not_mem_nil
    · rw [handed]
      exact fun n mem => absurd mem List.not_mem_nil
  refine ⟨fits, fun regular => ⟨?_, fits⟩⟩
  intro all me mem high base fin own
  obtain ⟨-, le, lt⟩ := regular.straight me mem base fin own
  refine ⟨?_, by omega⟩
  apply Nat.le_of_not_lt
  intro some
  obtain ⟨pos, handed⟩ := first_handed regular init mem high own some
  exact all.apart 0 pos handed

theorem collectRun_fuel (extra : Nat) (word : total < M.word) (enough : total ≤ fuel + count q) (full : count q ≤ total) :
    collectRun M total fin (fuel + extra) n q = collectRun M total fin fuel n q := by
  induction fuel generalizing n q with
  | zero =>
    have whole : (q.nfree + q.nfreeDma) % M.word = count q := mod_eq_of_lt (lt_of_le_of_lt full word)
    cases extra with
    | zero => rfl
    | succ extra =>
      show (if n < fin ∧ (q.nfree + q.nfreeDma) % M.word < total then _ else (pure [] : Cmd Errno Pool (List Nat))) q = _
      rw [if_neg (by omega)]
      rfl
  | succ fuel ih =>
    have whole : (q.nfree + q.nfreeDma) % M.word = count q := mod_eq_of_lt (lt_of_le_of_lt full word)
    rw [add_right_comm]
    show (if n < fin ∧ (q.nfree + q.nfreeDma) % M.word < total then _ else (pure [] : Cmd Errno Pool (List Nat))) q =
      (if n < fin ∧ (q.nfree + q.nfreeDma) % M.word < total then _ else (pure [] : Cmd Errno Pool (List Nat))) q
    split
    · rename_i more
      have one := count_pgFree (M := M) (q := q) n
      show Cmd.bind (pgFree M n) _ q = Cmd.bind (pgFree M n) _ q
      simp only [Cmd.bind]
      rw [wp] at one
      rcases freed : pgFree M n q with ⟨u | e | _, q'⟩
      · rw [freed] at one
        have next : count q' = count q + 1 := one u rfl
        show Cmd.bind _ _ q' = Cmd.bind _ _ q'
        simp only [Cmd.bind]
        rw [ih (n := (n + 1) % 2 ^ 32) (q := q') (by omega) (by omega)]
      · rfl
      · rfl
    · rfl

def sampleMap : List Kmapent := [⟨kmapentMem, 0x100000, 0x2000⟩]

def sampleBoot (M : Machine) : Boot :=
  (pgInit M (fun _ => 0) sampleMap).get (by cases M <;> decide +kernel)

theorem sampleBoot_init (M : Machine) : pgInit M (fun _ => 0) sampleMap = some (sampleBoot M) :=
  (Option.some_get _).symm

theorem flist_fits_iff_sample : (NoHigh .i386 sampleMap → Fits .i386 sampleMap (sampleBoot .i386)) ∧
    (Regular .i386 sampleMap → (Fits .i386 sampleMap (sampleBoot .i386) ↔ NoHigh .i386 sampleMap)) :=
  flist_fits_iff (sampleBoot_init .i386)

theorem sampleBoot_handed (M : Machine) : (sampleBoot M).flist = ⟨2, 256, 257⟩ ∧ (sampleBoot M).handed = [256, 257] := by
  cases M <;> exact ⟨by decide +kernel, by decide +kernel⟩

theorem flist_not_fits : pgInit .amd64 (fun _ => 0) sampleMap = some (sampleBoot .amd64) ∧
    ¬ Fits .amd64 sampleMap (sampleBoot .amd64) := by
  refine ⟨sampleBoot_init .amd64, fun fits => ?_⟩
  obtain ⟨flist, handed⟩ := sampleBoot_handed .amd64
  have apart := fits.apart 0 (by rw [flist]; decide)
  rw [flist, handed] at apart
  exact absurd apart (by decide)

end Pageinit
