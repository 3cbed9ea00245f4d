import Mathlib.Tactic.Ring

/- Numbers of a fixed count of digits in a base, the lowest digit first. -/
namespace Digits
open List Int
variable {b : Int} {n k : Nat} {ds es : List Int} {u v d : Int}

def value (b : Int) : List Int → Int
  | [] => 0
  | d :: ds => d + b * value b ds

structure Spells (b : Int) (n : Nat) (ds : List Int) (v : Int) : Prop where
  length : ds.length = n
  proper : ∀ d ∈ ds, 0 ≤ d ∧ d < b
  value : value b ds = v

theorem value_append (b : Int) (ds es : List Int) : value b (ds ++ es) = value b ds + b ^ ds.length * value b es := by
  induction ds with
  | nil => simp [value]
  | cons d ds ih =>
    rw [cons_append, value, value, ih, length_cons]
    ring

theorem value_zeros (b : Int) (n : Nat) : value b (replicate n 0) = 0 := by
  induction n with
  | zero => rfl
  | succ n ih => rw [replicate_succ, value, ih, mul_zero, add_zero]

theorem spells_nil : Spells b 0 [] 0 := ⟨rfl, forall_mem_nil _, rfl⟩

theorem spells_cons (low : 0 ≤ d) (high : d < b) (rest : Spells b n ds v) : Spells b (n + 1) (d :: ds) (d + b * v) :=
  ⟨congrArg Nat.succ rest.length, forall_mem_cons.mpr ⟨⟨low, high⟩, rest.proper⟩,
    by rw [Digits.value, rest.value]⟩

theorem Spells.split (all : Spells b (n + 1) ds v) :
    ∃ d es w, ds = d :: es ∧ 0 ≤ d ∧ d < b ∧ Spells b n es w ∧ v = d + b * w := by
  cases ds with
  | nil => cases all.length
  | cons d es =>
    obtain ⟨here, rest⟩ := forall_mem_cons.mp all.proper
    exact ⟨d, es, _, rfl, here.1, here.2, ⟨Nat.succ.inj all.length, rest, rfl⟩, all.value.symm⟩

theorem spells_zeros (pos : 0 < b) (n : Nat) : Spells b n (replicate n 0) 0 := by
  refine ⟨length_replicate, ?_, value_zeros b n⟩
  intro d mem
  rw [eq_of_mem_replicate mem]
  exact ⟨le_refl 0, pos⟩

theorem Spells.append (low : Spells b n ds u) (high : Spells b k es v) :
    Spells b (n + k) (ds ++ es) (u + b ^ n * v) := by
  refine ⟨?_, forall_mem_append.mpr ⟨low.proper, high.proper⟩, ?_⟩
  · rw [length_append, low.length, high.length]
  · rw [value_append, low.value, high.value, low.length]

variable (pos : 0 < b)
include pos

theorem Spells.bounds (all : Spells b n ds v) : 0 ≤ v ∧ v < b ^ n := by
  induction n generalizing ds v with
  | zero =>
    obtain rfl : v = 0 := by rw [← all.value, eq_nil_of_length_eq_zero all.length, Digits.value]
    exact ⟨Int.le_refl 0, Int.pow_pos pos⟩
  | succ n ih =>
    obtain ⟨d, es, w, rfl, low, high, rest, rfl⟩ := all.split
    obtain ⟨below, above⟩ := ih rest
    have scaled : b * (w + 1) ≤ b * b ^ n := Int.mul_le_mul_of_nonneg_left above (le_of_lt pos)
    have nonneg : 0 ≤ b * w := Int.mul_nonneg (le_of_lt pos) below
    rw [pow_succ, mul_comm (b ^ n)]
    rw [mul_add, mul_one] at scaled
    omega

theorem Spells.parts (all : Spells b n ds v) (le : k ≤ n) :
    Spells b k (ds.take k) (v % b ^ k) ∧ Spells b (n - k) (ds.drop k) (v / b ^ k) := by
  have low : Spells b k (ds.take k) (Digits.value b (ds.take k)) :=
    ⟨by rw [length_take, all.length, min_eq_left le],
      fun d mem => all.proper d (mem_of_mem_take mem), rfl⟩
  have high : Spells b (n - k) (ds.drop k) (Digits.value b (ds.drop k)) :=
    ⟨by rw [length_drop, all.length], fun d mem => all.proper d (mem_of_mem_drop mem), rfl⟩
  obtain ⟨below, above⟩ := low.bounds pos
  have whole := (low.append high).value
  rw [take_append_drop, all.value] at whole
  have unit : 0 < b ^ k := Int.pow_pos pos
  rw [whole, add_mul_emod_self_left, emod_eq_of_lt below above, add_mul_ediv_left _ _ (ne_of_gt unit),
    ediv_eq_zero_of_lt below above, zero_add]
  exact ⟨low, high⟩

theorem Spells.zero_iff (all : Spells b n ds v) : (∀ d ∈ ds, d = 0) ↔ v = 0 := by
  induction n generalizing ds v with
  | zero =>
    obtain rfl := eq_nil_of_length_eq_zero all.length
    exact iff_of_true (forall_mem_nil _) all.value.symm
  | succ n ih =>
    obtain ⟨d, es, w, rfl, low, high, rest, rfl⟩ := all.split
    have below : 0 ≤ b * w := Int.mul_nonneg (le_of_lt pos) (rest.bounds pos).1
    rw [forall_mem_cons, ih rest]
    constructor
    · rintro ⟨rfl, rfl⟩
      rw [mul_zero, add_zero]
    · intro none
      have product : b * w = 0 := by omega
      exact ⟨by omega, (mul_eq_zero.mp product).resolve_left (ne_of_gt pos)⟩

theorem wrap_cons (low : 0 ≤ d) (high : d < b) (x : Int) (n : Nat) :
    d + b * (x % b ^ n) = (d + b * x) % b ^ (n + 1) := by
  have unit : 0 < b ^ n := Int.pow_pos pos
  have below : 0 ≤ b * (x % b ^ n) := Int.mul_nonneg (le_of_lt pos) (Int.emod_nonneg x (ne_of_gt unit))
  have above : b * (x % b ^ n + 1) ≤ b * b ^ n :=
    Int.mul_le_mul_of_nonneg_left (Int.emod_lt_of_pos x unit) (le_of_lt pos)
  have whole : d + b * x = d + b * (x % b ^ n) + b ^ (n + 1) * (x / b ^ n) := by
    conv_lhs => rw [← emod_add_mul_ediv x (b ^ n)]
    ring
  rw [mul_add, mul_one] at above
  have fits : d + b * (x % b ^ n) < b ^ (n + 1) := by
    rw [pow_succ, mul_comm (b ^ n)]
    omega
  rw [whole, add_mul_emod_self_left, emod_eq_of_lt (add_nonneg low below) fits]

end Digits
