import Newsys.Lib.Compare
import Newsys.Libc.Strtol

/- Binary search (lib/stdlib/bsearch.c). It goes right only from an array that has not been halved yet, or from its last
   two elements: the middle of what is left is taken to be `s + e / 2`. -/
namespace Bsearch
open Bytes Kern Libc Compare List

structure Query where
  mem : Mem
  data : Nat
  cnt : Nat
  size : Nat
  key : List Byte

inductive Result where
  | null
  | element (p : Nat)
  | abort
  deriving DecidableEq

def Query.place (m : Machine) (q : Query) (i : Nat) : Nat := (q.data + i * q.size) % 2 ^ longBits m

def Query.elem (m : Machine) (q : Query) (i : Nat) : List Byte := slice q.mem (q.place m i) q.size

def ovMulSize (m : Machine) (a b : Nat) : Prop := b ≠ 0 ∧ a * b % 2 ^ longBits m / b ≠ a

def ovAdd (m : Machine) (a b : Nat) : Prop := (a + b) % 2 ^ longBits m < a

instance (m : Machine) (a b : Nat) : Decidable (ovMulSize m a b) := inferInstanceAs (Decidable (_ ∧ _))

instance (m : Machine) (a b : Nat) : Decidable (ovAdd m a b) := inferInstanceAs (Decidable (_ < _))

/-- The loop, with so many rounds to go: the indices of the elements that have been compared, and what is returned if the
    loop has been left. -/
def loop (m : Machine) (cmp : List Byte → List Byte → Int) (q : Query) : Nat → Nat → Nat → List Nat × Option Result
  | 0, _, _ => ([], none)
  | n + 1, s, e =>
    let i := s + e / 2
    let r := cmp (q.elem m i) q.key
    if r = 0 then ([i], some (.element (q.place m i)))
    else
      let s' := if r > 0 then s else i + 1
      let e' := if r > 0 then i else e
      if s' < e' then
        let rest := loop m cmp q n s' e'
        (i :: rest.1, rest.2)
      else ([i], some .null)

def bsearch (m : Machine) (cmp : List Byte → List Byte → Int) (q : Query) (n : Nat) : List Nat × Option Result :=
  if ovMulSize m q.cnt q.size ∨ ovAdd m q.data (q.cnt * q.size % 2 ^ longBits m) then ([], some .abort)
  else loop m cmp q n 0 q.cnt

/-- The search comes to its end, compares nothing behind the array, and finds an element with the key if there is one. -/
def Finds (m : Machine) (cmp : List Byte → List Byte → Int) (q : Query) : Prop :=
  ∃ n result, (bsearch m cmp q n).2 = some result ∧ (∀ i ∈ (bsearch m cmp q n).1, i < q.cnt) ∧
    ((∃ i, i < q.cnt ∧ cmp (q.elem m i) q.key = 0 ∧ result = .element (q.place m i)) ∨
      (∀ i, i < q.cnt → cmp (q.elem m i) q.key ≠ 0) ∧ result = .null)

/-- The elements of the array are in order, and the array does not reach the end of the address space. -/
structure Query.Sorted (m : Machine) (cmp : List Byte → List Byte → Int) (q : Query) : Prop where
  room : q.data + q.cnt * q.size < 2 ^ longBits m
  sorted : ∀ i j, i < j → j < q.cnt → cmp (q.elem m i) (q.elem m j) ≤ 0

/-- An element that is tried by going left has the key, or all that are tried before the last two come behind it. -/
def LeftFinds (r : Nat → Int) (e : Nat) : Prop :=
  (∃ k, 1 ≤ e / 2 ^ k ∧ r (e / 2 ^ (k + 1)) = 0) ∨ ∀ k, 3 ≤ e / 2 ^ k → 0 < r (e / 2 ^ (k + 1))

section Search
variable {m : Machine} {cmp : List Byte → List Byte → Int} {q : Query}

/-- How the elements compare with the key: those before it, those with it, and those behind it. -/
structure Rising (cnt : Nat) (r : Nat → Int) : Prop where
  neg : ∀ i j, i ≤ j → j < cnt → r j < 0 → r i < 0
  pos : ∀ i j, i ≤ j → j < cnt → 0 < r i → 0 < r j

theorem rising (orders : Orders cmp) (sorted : q.Sorted m cmp) : Rising q.cnt fun i => cmp (q.elem m i) q.key := by
  constructor
  · intro i j le lt neg
    rcases eq_or_lt_of_le le with rfl | before
    · exact neg
    · exact orders.lt_of_le_of_lt (sorted.sorted i j before lt) neg
  · intro i j le lt pos
    rcases eq_or_lt_of_le le with rfl | before
    · exact pos
    · exact orders.pos_of_le_of_pos (sorted.sorted i j before lt) pos

def Right (m : Machine) (cmp : List Byte → List Byte → Int) (q : Query) (s e : Nat) : Prop :=
  ∃ n result, (loop m cmp q n s e).2 = some result ∧ (∀ i ∈ (loop m cmp q n s e).1, i < q.cnt) ∧
    ((∃ i, i < q.cnt ∧ cmp (q.elem m i) q.key = 0 ∧ result = .element (q.place m i)) ∨
      (∀ i, i < q.cnt → cmp (q.elem m i) q.key ≠ 0) ∧ result = .null)

theorem mem_loop (n s e : Nat) : s + e / 2 ∈ (loop m cmp q (n + 1) s e).1 := by
  rw [loop]
  dsimp only
  split
  · exact mem_cons_self
  · generalize (if cmp (q.elem m (s + e / 2)) q.key > 0 then s else s + e / 2 + 1) = s'
    generalize (if cmp (q.elem m (s + e / 2)) q.key > 0 then s + e / 2 else e) = e'
    split <;> exact mem_cons_self

theorem stuck (some : 1 ≤ i) (behind : 0 < cmp (q.elem m (2 * i + 1)) q.key) (n : Nat) :
    (loop m cmp q n (i + 1) (2 * i + 1)).2 = none := by
  induction n with
  | zero => rfl
  | succ n ih =>
    have next : i + 1 + (2 * i + 1) / 2 = 2 * i + 1 := by omega
    rw [loop, next, if_neg (by omega)]
    simp only [gt_iff_lt, if_pos behind]
    rw [if_pos (by omega)]
    exact ih

theorem not_right (mid : i = e / 2) (large : 3 ≤ e)
    (tail : ∀ j, e ≤ j → j < q.cnt → 0 < cmp (q.elem m j) q.key) (before : cmp (q.elem m i) q.key < 0) :
    ¬ Right m cmp q 0 e := by
  rintro ⟨n, result, done, inside, -⟩
  have place : i + 1 + e / 2 = 2 * i + 1 := by omega
  have first : 0 + e / 2 = i := by omega
  cases n with
  | zero => cases done
  | succ n =>
    rw [loop, first, if_neg (by omega)] at done inside
    simp only [gt_iff_lt, if_neg (not_lt.mpr (le_of_lt before)), if_pos (show i + 1 < e by omega)] at done inside
    cases n with
    | zero => cases done
    | succ n =>
      have bound : 2 * i + 1 < q.cnt := by
        rw [← place]
        exact inside _ (mem_cons_of_mem _ (mem_loop ..))
      rw [loop, place] at done
      have behind := tail (2 * i + 1) (by omega) bound
      rw [if_neg (by omega)] at done
      simp only [gt_iff_lt, if_pos behind, if_pos (show i + 1 < 2 * i + 1 by omega)] at done
      rw [stuck (by omega) behind] at done
      cases done

theorem right_left (large : 2 ≤ e) (within : e ≤ q.cnt) (behind : 0 < cmp (q.elem m (e / 2)) q.key) :
    Right m cmp q 0 e ↔ Right m cmp q 0 (e / 2) := by
  have round : ∀ n, loop m cmp q (n + 1) 0 e = (e / 2 :: (loop m cmp q n 0 (e / 2)).1, (loop m cmp q n 0 (e / 2)).2) := by
    intro n
    rw [loop, zero_add, if_neg (by omega)]
    simp only [gt_iff_lt, if_pos behind, if_pos (show 0 < e / 2 by omega)]
  constructor
  · rintro ⟨n, result, done, inside, answer⟩
    cases n with
    | zero => cases done
    | succ n =>
      rw [round] at done inside
      exact ⟨n, result, done, fun i mem => inside i (mem_cons_of_mem _ mem), answer⟩
  · rintro ⟨n, result, done, inside, answer⟩
    refine ⟨n + 1, result, by rw [round]; exact done, ?_, answer⟩
    rw [round]
    exact forall_mem_cons.mpr ⟨by omega, inside⟩

theorem leftFinds_left (behind : 0 < r (e / 2)) : LeftFinds r e ↔ LeftFinds r (e / 2) := by
  have half : ∀ k, e / 2 / 2 ^ k = e / 2 ^ (k + 1) := fun k => by rw [Nat.div_div_eq_div_mul, Nat.pow_succ']
  have one : e / 2 ^ (0 + 1) = e / 2 := by rw [zero_add, Nat.pow_one]
  constructor
  · rintro (⟨k, some, zero⟩ | all)
    · cases k with
      | zero =>
        rw [one] at zero
        omega
      | succ k => exact .inl ⟨k, by rw [half]; exact some, by rw [half]; exact zero⟩
    · exact .inr fun k some => by rw [half] at some ⊢; exact all (k + 1) some
  · rintro (⟨k, some, zero⟩ | all)
    · rw [half] at some zero
      exact .inl ⟨k + 1, some, zero⟩
    · refine .inr fun k some => ?_
      cases k with
      | zero =>
        rw [one]
        exact behind
      | succ k =>
        have rest := all k
        rw [half, half] at rest
        exact rest some

theorem right_iff (rising : Rising q.cnt fun i => cmp (q.elem m i) q.key) (e : Nat) : 1 ≤ e → e ≤ q.cnt →
    (∀ j, e ≤ j → j < q.cnt → 0 < cmp (q.elem m j) q.key) →
    (Right m cmp q 0 e ↔ LeftFinds (fun i => cmp (q.elem m i) q.key) e) := by
  induction e using Nat.strong_induction_on with
  | _ e ih =>
    intro pos within tail
    have lt : e / 2 < q.cnt := by omega
    have one : e / 2 ^ (0 + 1) = e / 2 := by rw [zero_add, Nat.pow_one]
    have none : e / 2 ^ 0 = e := by rw [pow_zero, Nat.div_one]
    -- the loop is left without an element, because all come before the key or behind it
    have ends : (∀ i, i < q.cnt → cmp (q.elem m i) q.key ≠ 0) → loop m cmp q 1 0 e = ([e / 2], some .null) →
        Right m cmp q 0 e := by
      intro absent first
      refine ⟨1, .null, by rw [first], ?_, .inr ⟨absent, rfl⟩⟩
      rw [first]
      exact forall_mem_singleton.mpr lt
    rcases lt_trichotomy (cmp (q.elem m (e / 2)) q.key) 0 with before | here | behind
    · by_cases large : 3 ≤ e
      · refine iff_of_false (not_right rfl large tail before) ?_
        rintro (⟨k, -, zero⟩ | all)
        · -- all that are tried come before the middle
          have le : e / 2 ^ (k + 1) ≤ e / 2 := by
            rw [Nat.pow_succ', ← Nat.div_div_eq_div_mul]
            exact Nat.div_le_self ..
          have neg := rising.neg _ _ le lt before
          dsimp only at zero neg
          omega
        · have first := all 0 (by rw [none]; exact large)
          rw [one] at first
          exact absurd first (not_lt.mpr (le_of_lt before))
      · refine iff_of_true (ends (fun i bound => ?_) ?_) (.inr fun k some => ?_)
        · by_cases low : i ≤ e / 2
          · exact ne_of_lt (rising.neg i _ low lt before)
          · exact ne_of_gt (tail i (by omega) bound)
        · rw [loop, zero_add, if_neg (by omega)]
          simp only [gt_iff_lt, if_neg (not_lt.mpr (le_of_lt before)),
            if_neg (show ¬ e / 2 + 1 < e by omega)]
        · exact absurd (le_trans some (Nat.div_le_self ..)) large
    · refine iff_of_true ⟨1, .element (q.place m (e / 2)), ?_, ?_, .inl ⟨e / 2, lt, here, rfl⟩⟩ (.inl ⟨0, ?_, ?_⟩)
      · rw [loop, zero_add, if_pos here]
      · rw [loop, zero_add, if_pos here]
        exact forall_mem_singleton.mpr lt
      · rw [none]
        exact pos
      · rw [one]
        exact here
    · by_cases large : 2 ≤ e
      · rw [right_left large within behind, leftFinds_left behind]
        refine ih (e / 2) (by omega) (by omega) (by omega) fun j le bound => ?_
        exact rising.pos _ _ le bound behind
      · obtain rfl : e = 1 := by omega
        refine iff_of_true (ends (fun i bound => ?_) ?_) (.inr fun k some => ?_)
        · exact Int.ne_of_gt (rising.pos _ i (Nat.zero_le i) bound behind)
        · rw [loop, zero_add, if_neg (by omega)]
          simp only [gt_iff_lt, if_pos behind]
          rfl
        · exact absurd (le_trans some (Nat.div_le_self ..)) (by decide)

end Search

/-- The search is right just if there is something to search and the elements tried by going left, at half of the array, at
    a quarter and so on, either include one with the key or all come behind it until there are only two left. -/
theorem finds_iff (m : Machine) (cmp : List Byte → List Byte → Int) (orders : Orders cmp) (q : Query)
    (sorted : q.Sorted m cmp) :
    Finds m cmp q ↔ 1 ≤ q.cnt ∧ LeftFinds (fun i => cmp (q.elem m i) q.key) q.cnt := by
  have room := sorted.room
  have noAbort : ¬ (ovMulSize m q.cnt q.size ∨ ovAdd m q.data (q.cnt * q.size % 2 ^ longBits m)) := by
    have small : q.cnt * q.size % 2 ^ longBits m = q.cnt * q.size := Nat.mod_eq_of_lt (by omega)
    rintro (⟨some, differs⟩ | wraps)
    · rw [small, Nat.mul_div_cancel _ (by omega)] at differs
      exact differs rfl
    · rw [ovAdd, small, Nat.mod_eq_of_lt room] at wraps
      omega
  have runs : ∀ n, bsearch m cmp q n = loop m cmp q n 0 q.cnt := fun n => if_neg noAbort
  have eq : Finds m cmp q ↔ Right m cmp q 0 q.cnt := by simp only [Finds, Right, runs]
  rw [eq]
  by_cases some : 1 ≤ q.cnt
  · rw [right_iff (rising orders sorted) q.cnt some (le_refl _) fun j le lt => absurd lt (by omega)]
    exact (and_iff_right some).symm
  · refine iff_of_false ?_ fun good => some good.1
    rintro ⟨n, result, done, inside, -⟩
    cases n with
    | zero => cases done
    | succ n =>
      have bound := inside _ (mem_loop n 0 q.cnt)
      omega

def byteCmp (a b : List Byte) : Int := ((a.headD 0).toNat : Int) - (b.headD 0).toNat

theorem byteCmp_orders : Orders byteCmp := byKey_orders fun bytes : List Byte => ((bytes.headD 0).toNat : Int)

def bytesQuery (bytes : List Byte) (key : Byte) : Query :=
  ⟨blit zero 4096 bytes, 4096, bytes.length, 1, [key]⟩

theorem finds_iff_first : Finds .amd64 byteCmp (bytesQuery [3, 5, 7] 3) ↔ 1 ≤ 3 ∧
    LeftFinds (fun i => byteCmp ((bytesQuery [3, 5, 7] 3).elem .amd64 i) [3]) 3 :=
  finds_iff .amd64 byteCmp byteCmp_orders (bytesQuery [3, 5, 7] 3) ⟨by decide, fun i j lt bound => by
    have bound : j < 3 := bound
    interval_cases j <;> interval_cases i <;> decide⟩

/-- The last of three elements: the search compares the place behind it, and does not find it. -/
theorem not_finds_last : Orders byteCmp ∧ (bytesQuery [1, 2, 3] 3).Sorted .amd64 byteCmp ∧
    ¬ Finds .amd64 byteCmp (bytesQuery [1, 2, 3] 3) ∧
    bsearch .amd64 byteCmp (bytesQuery [1, 2, 3] 3) 2 = ([1, 3], some .null) := by
  have all : bsearch .amd64 byteCmp (bytesQuery [1, 2, 3] 3) 2 = ([1, 3], some .null) := by decide
  refine ⟨byteCmp_orders, ⟨by decide, fun i j lt bound => ?_⟩, ?_, all⟩
  · have bound : j < 3 := bound
    interval_cases j <;> interval_cases i <;> decide
  · rintro ⟨n, result, done, inside, -⟩
    have runs : ∀ n, bsearch .amd64 byteCmp (bytesQuery [1, 2, 3] 3) n = loop .amd64 byteCmp (bytesQuery [1, 2, 3] 3) n 0 3 :=
      fun n => if_neg (by decide)
    rw [runs] at done inside
    have right : byteCmp ((bytesQuery [1, 2, 3] 3).elem .amd64 (0 + 3 / 2)) (bytesQuery [1, 2, 3] 3).key = -1 := by
      decide
    have early : (loop .amd64 byteCmp (bytesQuery [1, 2, 3] 3) 1 0 3).2 = none := by decide
    match n with
    | 0 => cases done
    | 1 =>
      rw [early] at done
      cases done
    | n + 2 =>
      have step : loop .amd64 byteCmp (bytesQuery [1, 2, 3] 3) (n + 2) 0 3 =
          (1 :: (loop .amd64 byteCmp (bytesQuery [1, 2, 3] 3) (n + 1) 2 3).1,
            (loop .amd64 byteCmp (bytesQuery [1, 2, 3] 3) (n + 1) 2 3).2) := by
        rw [loop, right]
        rfl
      rw [step] at inside
      exact absurd (inside 3 (mem_cons_of_mem _ (mem_loop n 2 3))) (by decide)

end Bsearch
