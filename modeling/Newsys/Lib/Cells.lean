import Mathlib.Data.List.Basic

/- Arrays whose accesses are checked: a store, a loop of stores and a copy, `none` where an index is outside. -/
namespace Cells
open List Option

variable {α : Type}

def store (xs : List α) (i : Int) (f : α → α) : Option (List α) :=
  if 0 ≤ i ∧ i < xs.length then some (xs.modify i.toNat f) else none

def storeMany (f : α → α) : Nat → Int → List α → Option (List α)
  | 0, _, xs => some xs
  | n + 1, i, xs => do
    let xs ← store xs i f
    storeMany f n (i + 1) xs

def storeTo (xs : List α) (i stop : Int) (f : α → α) : Option (List α) := storeMany f (stop - i).toNat i xs

def move (xs : List α) (dst src : Int) (n : Nat) : Option (List α) :=
  if n = 0 then some xs
  else if 0 ≤ src ∧ src + n ≤ xs.length ∧ 0 ≤ dst ∧ dst + n ≤ xs.length then
    some (xs.take dst.toNat ++ ((xs.drop src.toNat).take n ++ xs.drop (dst.toNat + n)))
  else none

theorem store_some {xs : List α} {i : Int} (f : α → α) (low : 0 ≤ i) (high : i < xs.length) :
    ∃ ys, store xs i f = some ys ∧ ys.length = xs.length :=
  ⟨xs.modify i.toNat f, if_pos ⟨low, high⟩, length_modify ..⟩

theorem storeMany_some (f : α → α) (n : Nat) {i : Int} {xs : List α} (low : 0 ≤ i) (high : i + n ≤ xs.length) :
    ∃ ys, storeMany f n i xs = some ys ∧ ys.length = xs.length := by
  induction n generalizing i xs with
  | zero => exact ⟨xs, rfl, rfl⟩
  | succ n ih =>
    obtain ⟨ys, eq, length⟩ := store_some f low (show i < xs.length by omega)
    obtain ⟨zs, rest, same⟩ := @ih (i + 1) ys (by omega) (by omega)
    exact ⟨zs, by rw [storeMany, eq]; exact rest, same.trans length⟩

theorem storeTo_some {xs : List α} {i stop : Int} (f : α → α) (inside : i < stop → 0 ≤ i ∧ stop ≤ xs.length) :
    ∃ ys, storeTo xs i stop f = some ys ∧ ys.length = xs.length := by
  by_cases more : i < stop
  · obtain ⟨low, high⟩ := inside more
    exact storeMany_some f _ low (by omega)
  · refine ⟨xs, ?_, rfl⟩
    rw [storeTo, show (stop - i).toNat = 0 by omega]
    rfl

theorem move_some {xs : List α} {dst src : Int} {n : Nat}
    (inside : 0 < n → 0 ≤ src ∧ src + n ≤ xs.length ∧ 0 ≤ dst ∧ dst + n ≤ xs.length) :
    ∃ ys, move xs dst src n = some ys ∧ ys.length = xs.length := by
  rw [move]
  by_cases none : n = 0
  · rw [if_pos none]
    exact ⟨xs, rfl, rfl⟩
  · have fits := inside (by omega)
    rw [if_neg none, if_pos fits]
    refine ⟨_, rfl, ?_⟩
    simp only [length_append, length_take, length_drop]
    omega

/- What is in an array then -/

theorem store_get {xs ys : List α} {i : Int} {v : α} (stored : store xs i (fun _ => v) = some ys) (j : Nat) :
    ys[j]? = if (j : Int) = i then some v else xs[j]? := by
  unfold store at stored
  split at stored
  · obtain rfl := some.inj stored
    rw [getElem?_modify]
    by_cases here : (j : Int) = i
    · have inside : j < xs.length := by omega
      have same : i.toNat = j := by omega
      simp [here, same, inside]
    · have other : i.toNat ≠ j := by omega
      simp [here, other]
  · cases stored

theorem storeMany_get {v : α} (n : Nat) {xs ys : List α} {i : Int}
    (stored : storeMany (fun _ => v) n i xs = some ys) (j : Nat) :
    ys[j]? = if i ≤ j ∧ (j : Int) < i + n then some v else xs[j]? := by
  induction n generalizing xs i with
  | zero =>
    cases stored
    rw [if_neg (by omega)]
  | succ n ih =>
    simp only [storeMany, bind_eq_bind, bind_eq_some_iff] at stored
    obtain ⟨zs, first, rest⟩ := stored
    rw [ih rest, store_get first]
    by_cases later : i + 1 ≤ j ∧ (j : Int) < i + 1 + n
    · rw [if_pos later, if_pos (by omega)]
    · rw [if_neg later]
      by_cases here : (j : Int) = i
      · rw [if_pos here, if_pos (by omega)]
      · rw [if_neg here, if_neg (by omega)]

theorem storeTo_get {v : α} {xs ys : List α} {i stop : Int} (stored : storeTo xs i stop (fun _ => v) = some ys)
    (j : Nat) : ys[j]? = if i ≤ j ∧ (j : Int) < stop then some v else xs[j]? := by
  rw [storeMany_get _ stored]
  by_cases inside : i ≤ j ∧ (j : Int) < stop
  · rw [if_pos inside, if_pos (by omega)]
  · rw [if_neg inside, if_neg (by omega)]

theorem move_get {xs ys : List α} {dst src : Int} {n : Nat} (moved : move xs dst src n = some ys) (j : Nat) :
    ys[j]? = if dst ≤ j ∧ (j : Int) < dst + n then xs[(j - dst + src).toNat]? else xs[j]? := by
  unfold move at moved
  split at moved
  · cases moved
    rw [if_neg (by omega)]
  split at moved
  · obtain rfl := some.inj moved
    have front : (xs.take dst.toNat).length = dst.toNat := by
      rw [length_take]
      omega
    have middle : ((xs.drop src.toNat).take n).length = n := by
      rw [length_take, length_drop]
      omega
    by_cases before : j < dst.toNat
    · rw [if_neg (by omega), getElem?_append_left (by omega), getElem?_take_of_lt before]
    rw [getElem?_append_right (by omega), front]
    by_cases inside : j < dst.toNat + n
    · rw [if_pos (by omega), getElem?_append_left (by omega), getElem?_take_of_lt (by omega),
        getElem?_drop]
      congr 1
      omega
    · rw [if_neg (by omega), getElem?_append_right (by omega), middle, getElem?_drop]
      congr 1
      omega
  · cases moved

end Cells
