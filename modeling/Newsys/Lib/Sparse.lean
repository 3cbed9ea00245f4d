import Mathlib.Data.List.Range
import Mathlib.Data.List.GetD

/- Sparse files: a size and a value at every offset, over any type of bytes. -/
namespace Sparse
open List

structure File (β : Type) where
  size : Nat
  byte : Nat → β

variable {β : Type}

def File.empty (hole : β) : File β := ⟨0, fun _ => hole⟩

/-- The values from `off` on are replaced; the file ends where the last write did, or later. -/
def File.write (f : File β) (off : Nat) (data : List β) : File β :=
  { size := if data = [] then f.size else max f.size (off + data.length)
    byte := fun k => if off ≤ k then data.getD (k - off) (f.byte k) else f.byte k }

def File.bytes (f : File β) (off n : Nat) : List β := (range n).map fun k => f.byte (off + k)

/-- As many of the values from `off` on as are wanted and are there. -/
def File.read (f : File β) (off count : Nat) : List β := f.bytes off (min count (f.size - off))

/-- The file reaches to the end of the `m` values from `off` on, if there are any. -/
def File.cover (f : File β) (off m : Nat) : File β := if m = 0 then f else ⟨max f.size (off + m), f.byte⟩

/-- No value past the end differs from that of a hole. -/
def File.Tidy (hole : β) (f : File β) : Prop := ∀ k, f.size ≤ k → f.byte k = hole

@[simp] theorem write_nil (f : File β) (off : Nat) : f.write off [] = f := by
  simp [File.write]

theorem byte_write_inside (f : File β) (lower : off ≤ k)
    (d : β) (upper : k < off + data.length) : (f.write off data).byte k = data.getD (k - off) d := by
  have inside : k - off < data.length := by omega
  simp [File.write, lower, getD, inside]

theorem byte_write_outside (f : File β)
    (out : k < off ∨ off + data.length ≤ k) : (f.write off data).byte k = f.byte k := by
  rcases out with below | above
  · simp [File.write, not_le.mpr below]
  · have outside : data.length ≤ k - off := by omega
    simp [File.write, getD, outside]

theorem write_append (f : File β) (off : Nat) (a b : List β) :
    (f.write off a).write (off + a.length) b = f.write off (a ++ b) := by
  have values : ∀ k, ((f.write off a).write (off + a.length) b).byte k =
      (f.write off (a ++ b)).byte k := by
    intro k
    by_cases low : off ≤ k
    · by_cases mid : k < off + a.length
      · rw [byte_write_outside _ (.inl mid), byte_write_inside f low (f.byte k) mid,
          byte_write_inside f low (f.byte k) (by simp; omega), getD_append _ _ _ _ (by omega)]
      · by_cases high : k < off + (a ++ b).length
        · rw [byte_write_inside _ (by omega) (f.byte k) (by simp at high; omega),
            byte_write_inside f low (f.byte k) high, getD_append_right _ _ _ _ (by omega)]
          congr 1
          omega
        · simp only [length_append] at high
          rw [byte_write_outside _ (.inr (by omega)), byte_write_outside _ (.inr (by omega)),
            byte_write_outside _ (.inr (by simp; omega))]
    · rw [byte_write_outside _ (.inl (by omega)), byte_write_outside _ (.inl (by omega)),
        byte_write_outside _ (.inl (by omega))]
  have sizes : ((f.write off a).write (off + a.length) b).size = (f.write off (a ++ b)).size := by
    simp only [File.write]
    by_cases left : a = []
    · by_cases right : b = []
      · simp [left, right]
      · simp [left, right]
    · by_cases right : b = []
      · simp [left, right]
      · simp only [left, right, if_false, append_eq_nil_iff, and_self, length_append]
        omega
  have ext : ∀ g h : File β, g.size = h.size → (∀ k, g.byte k = h.byte k) → g = h := by
    intro g h size byte
    cases g
    cases h
    simp only [File.mk.injEq]
    exact ⟨size, funext byte⟩
  exact ext _ _ sizes values

theorem write_tidy {hole : β} {f : File β} (tidy : f.Tidy hole) (off : Nat) (data : List β) :
    (f.write off data).Tidy hole := by
  intro k past
  by_cases none : data = []
  · rw [none, write_nil] at past ⊢
    exact tidy k past
  · simp only [File.write, if_neg none] at past
    rw [byte_write_outside _ (.inr (by omega))]
    exact tidy k (by omega)

theorem cover_write (f : File β) (off : Nat) (data : List β) :
    (f.write off data).cover off data.length = f.write off data := by
  by_cases none : data = []
  · simp [none, File.cover]
  · have some : data.length ≠ 0 := fun h => none (length_eq_zero_iff.mp h)
    simp [File.cover, File.write, none]

theorem cover_append (f : File β) (off : Nat) (a b : List β) (m : Nat) :
    ((f.write off a).write (off + a.length) b).cover (off + a.length) m =
      (f.write off (a ++ b)).cover off (a.length + m) := by
  rw [write_append]
  by_cases none : m = 0
  · rw [none, Nat.add_zero, File.cover, if_pos rfl]
    by_cases left : a = []
    · simp [left, File.cover]
    · have size : off + a.length ≤ (f.write off (a ++ b)).size := by
        simp only [File.write, append_eq_nil_iff, left, false_and, if_false, length_append]
        omega
      rw [File.cover]
      split
      · rfl
      · rw [Nat.max_eq_left size]
  · rw [File.cover, File.cover, if_neg none, if_neg (by omega), Nat.add_assoc]

theorem bytes_add (f : File β) (off m n : Nat) :
    f.bytes off (m + n) = f.bytes off m ++ f.bytes (off + m) n := by
  simp only [File.bytes, range_add, map_append, map_map]
  congr 1
  apply map_congr_left
  intro k _
  simp [Nat.add_assoc]

end Sparse
