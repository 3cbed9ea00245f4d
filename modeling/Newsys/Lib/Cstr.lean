import Newsys.Lib.Bytes

/- Strings that end with a NUL, in byte memory. -/
namespace Cstr
open Bytes List

def Holds (m : Mem) (a : Nat) : List Byte → Prop
  | [] => m a = 0
  | c :: cs => (m a = c ∧ c ≠ 0) ∧ Holds m (a + 1) cs

variable {m m' : Mem} {a : Nat} {s : List Byte}

theorem Holds.congr (held : Holds m a s) (same : ∀ k, a ≤ k → k ≤ a + s.length → m' k = m k) :
    Holds m' a s := by
  induction s generalizing a with
  | nil => exact (same a (le_refl _) (le_refl _)).trans held
  | cons c cs ih =>
    obtain ⟨⟨here, nonzero⟩, rest⟩ := held
    have follow : ∀ k, a + 1 ≤ k → k ≤ a + 1 + cs.length → m' k = m k := fun k lo hi =>
      same k (by omega) (by simp only [length_cons]; omega)
    exact ⟨⟨(same a (le_refl _) (by omega)).trans here, nonzero⟩, ih rest follow⟩

variable {d : Nat}

theorem Holds.put (held : Holds m a s) (before : d < a) (c : Byte) : Holds (put m d c) a s := by
  apply held.congr
  intro k lo _
  exact if_neg (by omega)

theorem Holds.put_behind (held : Holds m a s) (behind : a + s.length < d) (c : Byte) :
    Holds (Bytes.put m d c) a s := by
  apply held.congr
  intro k _ hi
  exact if_neg (by omega)

variable {t : List Byte}

theorem Holds.blit (held : Holds m a s) (before : d + t.length ≤ a) : Holds (blit m d t) a s := by
  apply held.congr
  intro k lo _
  exact blit_outside m d t k (Or.inr (by omega))

theorem Holds.append (held : Holds m a (s ++ t)) : Holds m (a + s.length) t := by
  induction s generalizing a with
  | nil => exact held
  | cons c cs ih =>
    have next := ih held.2
    rwa [length_cons, ← add_assoc, add_right_comm]

theorem Holds.noNul (held : Holds m a s) : (0 : Byte) ∉ s := by
  induction s generalizing a with
  | nil => simp
  | cons c cs ih =>
    rw [mem_cons, not_or]
    exact ⟨held.1.2.symm, ih held.2⟩

theorem holds_written (m : Mem) (a : Nat) (noNul : (0 : Byte) ∉ s) :
    Holds (Bytes.put (Bytes.blit m a s) (a + s.length) 0) a s := by
  induction s generalizing m a with
  | nil => exact if_pos rfl
  | cons c cs ih =>
    rw [mem_cons, not_or] at noNul
    rw [blit_cons, length_cons, ← add_assoc, add_right_comm]
    have here : Bytes.put (Bytes.blit (Bytes.put m a c) (a + 1) cs) (a + 1 + cs.length) 0 a = c := by
      rw [Bytes.put, if_neg (by omega), blit_outside _ _ _ _ (Or.inl (by omega)), Bytes.put, if_pos rfl]
    exact ⟨⟨here, Ne.symm noNul.1⟩, ih _ _ noNul.2⟩

theorem blit_nil (m : Mem) (a : Nat) : Bytes.blit m a [] = m := by
  funext k
  exact if_neg (by simp only [length_nil]; omega)

theorem blit_blit (m : Mem) (a : Nat) (s t : List Byte) :
    Bytes.blit (Bytes.blit m a s) (a + s.length) t = Bytes.blit m a (s ++ t) := by
  induction s generalizing m a with
  | nil => rw [blit_nil]; rfl
  | cons c cs ih =>
    rw [blit_cons, cons_append, blit_cons, ← ih, length_cons, ← add_assoc, add_right_comm]

def strcpy (m : Mem) (a : Nat) (s : List Byte) : Mem := Bytes.put (Bytes.blit m a s) (a + s.length) 0

theorem strcpy_outside (m : Mem) (s : List Byte) (out : k < a ∨ a + s.length < k) :
    strcpy m a s k = m k := by
  rw [strcpy, Bytes.put, if_neg (by omega)]
  exact blit_outside m a s k (by omega)

theorem holds_strcpy (m : Mem) (a : Nat) (noNul : (0 : Byte) ∉ s) : Holds (strcpy m a s) a s :=
  holds_written m a noNul

theorem Holds.strcpy (held : Holds m a s) (apart : d + t.length < a ∨ a + s.length < d) :
    Holds (strcpy m d t) a s := by
  apply held.congr
  intro k lo hi
  exact strcpy_outside m t (by omega)

theorem Holds.strcpy_behind (held : Holds m a s) (behind : a + s.length < d) (t : List Byte) :
    Holds (Cstr.strcpy m d t) a s := held.strcpy (.inr behind)

theorem slice_succ (m : Mem) (a n : Nat) : slice m a (n + 1) = m a :: slice m (a + 1) n := by
  rw [slice, range_succ_eq_map, map_cons, map_map, slice, add_zero]
  congr 1
  apply map_congr_left
  intro k _
  show m (a + (k + 1)) = m (a + 1 + k)
  rw [add_right_comm, add_assoc]

theorem slice_drop (m : Mem) (n a : Nat) : ∀ b, (slice m b (a + n)).drop a = slice m (b + a) n := by
  induction a with
  | zero =>
    intro b
    rw [zero_add, add_zero, drop_zero]
  | succ a ih =>
    intro b
    rw [add_right_comm, slice_succ, drop_succ_cons, ih, add_right_comm, add_assoc]

theorem Holds.takeWhile (held : Holds m a s) (room : s.length < n) :
    (slice m a n).takeWhile (· ≠ 0) = s := by
  induction s generalizing a n with
  | nil =>
    obtain ⟨k, rfl⟩ : ∃ k, n = k + 1 := ⟨n - 1, by simp at room; omega⟩
    have zero : m a = 0 := held
    rw [slice_succ, zero]
    rfl
  | cons c cs ih =>
    obtain ⟨k, rfl⟩ : ∃ k, n = k + 1 := ⟨n - 1, by rw [length_cons] at room; omega⟩
    obtain ⟨⟨here, nonzero⟩, rest⟩ := held
    rw [slice_succ, here, takeWhile_cons_of_pos (by simpa using nonzero), ih rest]
    rw [length_cons] at room
    omega

end Cstr
