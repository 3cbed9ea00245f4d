import Mathlib.Algebra.BigOperators.Group.List.Basic
import Mathlib.Data.Nat.Bitwise

/- Words as fields of a number of bits, and neighbouring fields added all at once. -/
namespace Fields
open List Nat

def value (k : Nat) : List Nat → Nat
  | [] => 0
  | d :: ds => d + 2 ^ k * value k ds

def halve : List Nat → List Nat
  | a :: b :: ds => (a + b) :: halve ds
  | ds => ds

/-- Every other field of `2 * n` ones is set, starting with the lowest one. -/
def mask (k : Nat) : Nat → Nat
  | 0 => 0
  | n + 1 => 2 ^ k - 1 + 2 ^ k * (2 ^ k * mask k n)

def bits (v : Nat) : Nat → List Nat
  | 0 => []
  | n + 1 => v % 2 :: bits (v / 2) n

variable {k n : Nat} {ds : List Nat}

theorem and_field (lt : a < 2 ^ k) (lt' : c < 2 ^ k) :
    (a + 2 ^ k * x) &&& (c + 2 ^ k * y) = (a &&& c) + 2 ^ k * (x &&& y) := by
  apply eq_of_testBit_eq
  intro j
  rw [add_comm a, add_comm c, add_comm (a &&& c), testBit_and, testBit_two_pow_mul_add _ lt,
    testBit_two_pow_mul_add _ lt', testBit_two_pow_mul_add _ (and_lt_two_pow a lt')]
  by_cases low : j < k
  · simp only [low, if_true, testBit_and]
  · simp only [low, if_false, testBit_and]

theorem and_shifted (v x : Nat) : v &&& 2 ^ k * x = 2 ^ k * (v / 2 ^ k &&& x) := by
  have parts : v = v % 2 ^ k + 2 ^ k * (v / 2 ^ k) := (Nat.mod_add_div v (2 ^ k)).symm
  have zero : 2 ^ k * x = 0 + 2 ^ k * x := (zero_add _).symm
  have lt : v % 2 ^ k < 2 ^ k := Nat.mod_lt _ (Nat.two_pow_pos k)
  conv => lhs; rw [parts, zero]
  rw [and_field lt (Nat.two_pow_pos k), Nat.and_zero, zero_add]

theorem value_lt (fits : ∀ d ∈ ds, d < 2 ^ k) : value k ds < 2 ^ (k * ds.length) := by
  induction ds with
  | nil => simp [value]
  | cons d ds ih =>
    have here := fits d (mem_cons_self ..)
    have rest := ih fun e mem => fits e (mem_cons_of_mem d mem)
    have more : 2 ^ k * (value k ds + 1) ≤ 2 ^ k * 2 ^ (k * ds.length) := mul_le_mul_left _ rest
    rw [value, length_cons, mul_succ, add_comm, pow_add, mul_comm (2 ^ (k * ds.length))]
    rw [mul_succ] at more
    omega

@[simp] theorem halve_nil : halve [] = [] := rfl

theorem length_halve (even : ds.length = 2 * n) : (halve ds).length = n := by
  induction n generalizing ds with
  | zero => rw [eq_nil_of_length_eq_zero even, halve_nil, length_nil]
  | succ n ih =>
    match ds, even with
    | a :: b :: ds, even =>
      have rest : ds.length = 2 * n := by
        simp only [length_cons] at even
        omega
      rw [halve, length_cons, ih rest]

theorem sum_halve (ds : List Nat) : (halve ds).sum = ds.sum := by
  induction ds using halve.induct with
  | case1 a b ds ih => rw [halve, sum_cons, ih, sum_cons, sum_cons, add_assoc]
  | case2 ds _ => rw [halve]; assumption

theorem halve_lt (pos : 0 < k) (even : ds.length = 2 * n) (fits : ∀ d ∈ ds, d < 2 ^ k) : ∀ d ∈ halve ds, d < 2 ^ (2 * k) := by
  induction n generalizing ds with
  | zero =>
    rw [eq_nil_of_length_eq_zero even]
    exact fun d mem => absurd mem not_mem_nil
  | succ n ih =>
    match ds, even, fits with
    | a :: b :: ds, even, fits =>
      have rest : ds.length = 2 * n := by
        simp only [length_cons] at even
        omega
      intro d mem
      rcases mem_cons.1 mem with rfl | mem
      · have first := fits a (mem_cons_self ..)
        have second := fits b (mem_cons_of_mem _ (mem_cons_self ..))
        have grow : 2 ^ (k + 1) ≤ 2 ^ (2 * k) := Nat.pow_le_pow_right (by decide) (by omega)
        rw [pow_succ] at grow
        omega
      · exact ih rest (fun e inside => fits e (mem_cons_of_mem _ (mem_cons_of_mem _ inside))) d mem

theorem mask_add (even : ds.length = 2 * n) (fits : ∀ d ∈ ds, d < 2 ^ k) :
    (value k ds &&& mask k n) + (value k ds / 2 ^ k &&& mask k n) = value (2 * k) (halve ds) := by
  induction n generalizing ds with
  | zero => rw [eq_nil_of_length_eq_zero even, mask, and_zero, and_zero, halve_nil, value]
  | succ n ih =>
    match ds, even, fits with
    | a :: b :: ds, even, fits =>
      have rest : ds.length = 2 * n := by
        simp only [length_cons] at even
        omega
      have first := fits a (mem_cons_self ..)
      have second := fits b (mem_cons_of_mem _ (mem_cons_self ..))
      have sum := ih rest fun d mem => fits d (mem_cons_of_mem _ (mem_cons_of_mem _ mem))
      have ones : 2 ^ k - 1 < 2 ^ k := Nat.sub_lt (Nat.two_pow_pos k) Nat.one_pos
      have low : value k (a :: b :: ds) &&& mask k (n + 1) = a + 2 ^ k * (2 ^ k * (value k ds &&& mask k n)) := by
        have tail : (b + 2 ^ k * value k ds) / 2 ^ k = value k ds := by
          rw [Nat.add_mul_div_left _ _ (Nat.two_pow_pos k), Nat.div_eq_of_lt second, zero_add]
        rw [value, value, mask, and_field first ones, Nat.and_two_pow_sub_one_eq_mod, Nat.mod_eq_of_lt first, and_shifted,
          tail]
      have high : value k (a :: b :: ds) / 2 ^ k &&& mask k (n + 1) =
          b + 2 ^ k * (2 ^ k * (value k ds / 2 ^ k &&& mask k n)) := by
        have shifted : value k (a :: b :: ds) / 2 ^ k = b + 2 ^ k * value k ds := by
          rw [value, value, Nat.add_mul_div_left _ _ (Nat.two_pow_pos k), Nat.div_eq_of_lt first, zero_add]
        rw [shifted, mask, and_field second ones, and_two_pow_sub_one_eq_mod, mod_eq_of_lt second, and_shifted]
      have square : 2 ^ (2 * k) = 2 ^ k * 2 ^ k := by rw [two_mul, pow_add]
      rw [low, high, halve, value, ← sum, square, mul_add, mul_assoc, mul_assoc]
      omega

theorem length_bits (v n : Nat) : (bits v n).length = n := by
  induction n generalizing v with
  | zero => rfl
  | succ n ih => rw [bits, length_cons, ih]

theorem bits_lt (v n : Nat) : ∀ d ∈ bits v n, d < 2 ^ 1 := by
  induction n generalizing v with
  | zero => exact fun d mem => absurd mem not_mem_nil
  | succ n ih =>
    intro d mem
    rcases mem_cons.1 mem with rfl | mem
    · exact mod_lt _ (by decide)
    · exact ih (v / 2) d mem

theorem value_bits (v n : Nat) : value 1 (bits v n) = v % 2 ^ n := by
  induction n generalizing v with
  | zero => rw [bits, value, pow_zero, mod_one]
  | succ n ih => rw [bits, value, ih, pow_one, pow_succ', mod_mul]

theorem sum_bits (v n : Nat) : (bits v n).sum = (range n).countP v.testBit := by
  induction n generalizing v with
  | zero => rfl
  | succ n ih =>
    have shift : (range n).countP (v / 2).testBit = (range n).countP (v.testBit ∘ Nat.succ) :=
      countP_congr fun k _ => by simp [testBit_succ]
    rw [bits, sum_cons, ih, range_succ_eq_map, countP_cons, countP_map, shift, add_comm]
    congr 1
    rw [testBit_zero]
    rcases mod_two_eq_zero_or_one v with even | odd
    · simp [even]
    · simp [odd]

end Fields
