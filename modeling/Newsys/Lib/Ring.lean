import Mathlib.Data.List.GetD
import Mathlib.Data.Nat.ModEq

/- Circular buffers: `n` cells, of which `len` are in use from cell `start` on. -/
namespace Ring
open List Nat

variable {α : Type}

def window (m : Nat → α) (n start len : Nat) : List α := (range len).map fun k => m ((start + k) % n)

variable {m m' : Nat → α} {n start len : Nat}

@[simp] theorem window_length (m : Nat → α) (n start len : Nat) : (window m n start len).length = len := by
  simp [window]

@[simp] theorem window_zero (m : Nat → α) (n start : Nat) : window m n start 0 = [] := rfl

theorem window_mod (m : Nat → α) (n start len : Nat) : window m n (start % n) len = window m n start len := by
  simp only [window, mod_add_mod]

theorem window_add (m : Nat → α) (n start a b : Nat) :
    window m n start (a + b) = window m n start a ++ window m n (start + a) b := by
  simp only [window, range_add, map_append, map_map]
  congr 1
  apply map_congr_left
  intro k _
  simp only [Function.comp, add_assoc]

theorem window_congr (same : ∀ k, k < len → m' ((start + k) % n) = m ((start + k) % n)) :
    window m' n start len = window m n start len := by
  apply map_congr_left
  intro k mem
  exact same k (mem_range.mp mem)

theorem cell_ne (lt : i < j) (fits : j < n) : (start + i) % n ≠ (start + j) % n := by
  intro eq
  have close : i ≡ j [MOD n] := Nat.ModEq.add_left_cancel' start eq
  rw [Nat.ModEq, mod_eq_of_lt (by omega), mod_eq_of_lt fits] at close
  omega

theorem window_store
    (stored : ∀ k (lt : k < new.length), m' ((start + len + k) % n) = new.get ⟨k, lt⟩)
    (kept : ∀ k, k < len → m' ((start + k) % n) = m ((start + k) % n)) :
    window m' n start (len + new.length) = window m n start len ++ new := by
  rw [window_add, window_congr kept]
  congr 1
  apply ext_get
  · rw [window_length]
  · intro k lt lt'
    simp only [window, get_eq_getElem, getElem_map, getElem_range]
    exact stored k lt'

theorem window_succ (m : Nat → α) (n start len : Nat) :
    window m n start (len + 1) = m (start % n) :: window m n ((start + 1) % n) len := by
  rw [window_mod, add_comm len 1, window_add]
  rfl

theorem window_take (m : Nat → α) (n start len k : Nat) :
    (window m n start len).take k = window m n start (min k len) := by
  rw [window, ← map_take, take_range]
  rfl

theorem window_drop (m : Nat → α) (n start len k : Nat) :
    (window m n start len).drop k = window m n (start + k) (len - k) := by
  by_cases within : k ≤ len
  · obtain ⟨rest, rfl⟩ : ∃ rest, len = k + rest := ⟨len - k, by omega⟩
    rw [window_add, drop_append_of_le_length (by rw [window_length]), drop_of_length_le (by rw [window_length]),
      nil_append, Nat.add_sub_cancel_left]
  · rw [drop_of_length_le (by rw [window_length]; omega), Nat.sub_eq_zero_of_le (by omega), window_zero]

theorem window_straight (fits : start + len ≤ n) : window m n start len = (range len).map fun k => m (start + k) := by
  apply map_congr_left
  intro k mem
  have lt := mem_range.mp mem
  rw [mod_eq_of_lt (by omega)]

theorem window_split (inside : start ≤ n) (wraps : n ≤ start + len) (fits : len ≤ n) : window m n start len =
    ((range (n - start)).map fun k => m (start + k)) ++ (range (len - (n - start))).map fun k => m (0 + k) := by
  obtain ⟨rest, rfl⟩ : ∃ rest, len = (n - start) + rest := ⟨len - (n - start), by omega⟩
  have first : start + (n - start) ≤ n := by omega
  rw [window_add, window_straight first, Nat.add_sub_cancel' inside, ← window_mod, Nat.mod_self,
    Nat.add_sub_cancel_left, window_straight (by omega)]

theorem window_push (fits : len < n) (stored : m' ((start + len) % n) = v)
    (kept : ∀ k, k ≠ (start + len) % n → m' k = m k) :
    window m' n start (len + 1) = window m n start len ++ [v] := by
  have cell : ∀ k (lt : k < [v].length), m' ((start + len + k) % n) = [v].get ⟨k, lt⟩ := by
    intro k lt
    have first : k = 0 := lt_one_iff.mp lt
    subst first
    exact stored
  exact window_store cell fun k lt => kept _ (cell_ne lt fits)

end Ring
