import Mathlib.Data.Nat.Bitwise

/- Byte memory: little-endian fields, bits and fills. A memory is a total function from
   offsets to bytes; a client that has a fixed size only uses the offsets below it. -/
namespace Bytes
open List Nat

abbrev Byte := BitVec 8

abbrev Mem := Nat → Byte

instance decidableMem (c : Byte) (s : List Byte) : Decidable (c ∈ s) := instDecidableMemOfLawfulBEq c s

def zero : Mem := fun _ => 0

/-- The unsigned value of the `n` bytes at `off`, least significant byte first. -/
def getLE (m : Mem) : Nat → Nat → Nat
  | _, 0 => 0
  | off, n + 1 => (m off).toNat + 256 * getLE m (off + 1) n

def setLE (m : Mem) (off n v : Nat) : Mem := fun k =>
  if off ≤ k ∧ k < off + n then BitVec.ofNat 8 (v / 256 ^ (k - off)) else m k

def bit (m : Mem) (k : Nat) : Bool := (m (k / 8)).getLsbD (k % 8)

def setBit (m : Mem) (k : Nat) (v : Bool) : Mem := fun j =>
  if j = k / 8 then
    (if v then m j ||| BitVec.twoPow 8 (k % 8) else m j &&& ~~~(BitVec.twoPow 8 (k % 8)))
  else m j

def fill (m : Mem) (lo hi : Nat) (v : Byte) : Mem := fun k =>
  if lo ≤ k ∧ k < hi then v else m k

def put (m : Mem) (off : Nat) (v : Byte) : Mem := fun k => if k = off then v else m k

def blit (m : Mem) (off : Nat) (src : List Byte) : Mem := fun k =>
  if off ≤ k ∧ k < off + src.length then src.getD (k - off) 0 else m k

def slice (m : Mem) (off n : Nat) : List Byte := (range n).map fun k => m (off + k)

theorem getLE_lt (m : Mem) (off n : Nat) : getLE m off n < 256 ^ n := by
  induction n generalizing off with
  | zero => simp [getLE]
  | succ n ih =>
    have head := (m off).isLt
    have tail := ih (off + 1)
    simp only [getLE, pow_succ]
    omega

theorem getLE_congr
    (same : ∀ k, off ≤ k → k < off + n → m' k = m k) : getLE m' off n = getLE m off n := by
  induction n generalizing off with
  | zero => rfl
  | succ n ih =>
    simp only [getLE]
    rw [same off (le_refl _) (by omega), ih fun k lo hi => same k (by omega) (by omega)]

theorem getLE_zero (off n : Nat) : getLE zero off n = 0 := by
  induction n generalizing off with
  | zero => rfl
  | succ n ih => simp [getLE, ih, zero]

section
variable (m : Mem)
include m

theorem setLE_outside (off n v k : Nat) (out : k < off ∨ off + n ≤ k) :
    setLE m off n v k = m k := by
  simp only [setLE]
  rw [if_neg (by omega)]

theorem getLE_setLE_ne (off n v off' n' : Nat)
    (apart : off' + n' ≤ off ∨ off + n ≤ off') :
    getLE (setLE m off n v) off' n' = getLE m off' n' := by
  apply getLE_congr
  intro k lo hi
  exact setLE_outside m off n v k (by omega)

theorem setLE_shift (off n v k : Nat) (inside : off < k) :
    setLE m off (n + 1) v k = setLE m (off + 1) n (v / 256) k := by
  simp only [setLE]
  by_cases upper : k < off + (n + 1)
  · rw [if_pos (by omega), if_pos (by omega), Nat.div_div_eq_div_mul, ← Nat.pow_succ',
      show (k - (off + 1)).succ = k - off by omega]
  · rw [if_neg (by omega), if_neg (by omega)]

theorem getLE_setLE_same (off n v : Nat) :
    getLE (setLE m off n v) off n = v % 256 ^ n := by
  induction n generalizing m off v with
  | zero => simp [getLE, mod_one]
  | succ n ih =>
    have tail : getLE (setLE m off (n + 1) v) (off + 1) n =
        getLE (setLE m (off + 1) n (v / 256)) (off + 1) n := by
      apply getLE_congr
      intro k lo hi
      exact setLE_shift m off n v k (by omega)
    have head : (setLE m off (n + 1) v off).toNat = v % 256 := by simp [setLE]
    rw [getLE, tail, ih, head, pow_succ', mod_mul]

theorem testBit_getLE (off n j : Nat) (inside : j < 8 * n) :
    (getLE m off n).testBit j = bit m (8 * off + j) := by
  induction n generalizing off j with
  | zero => omega
  | succ n ih =>
    have byte : (m off).toNat < 2 ^ 8 := (m off).isLt
    have form : getLE m off (n + 1) = 2 ^ 8 * getLE m (off + 1) n + (m off).toNat := by
      simp only [getLE]; omega
    rw [form, testBit_two_pow_mul_add _ byte]
    by_cases low : j < 8
    · rw [if_pos low]
      simp only [bit, BitVec.getLsbD]
      rw [show (8 * off + j) / 8 = off by omega, show (8 * off + j) % 8 = j by omega]
    · rw [if_neg low, ih (off + 1) (j - 8) (by omega)]
      congr 1
      omega

theorem bit_setLE (off n v k : Nat) :
    bit (setLE m off n v) k =
      if 8 * off ≤ k ∧ k < 8 * (off + n) then v.testBit (k - 8 * off) else bit m k := by
  simp only [bit, setLE]
  by_cases inside : off ≤ k / 8 ∧ k / 8 < off + n
  · rw [if_pos inside, if_pos (by omega)]
    rw [BitVec.getLsbD_ofNat, show (256 : Nat) = 2 ^ 8 from rfl, ← pow_mul,
      testBit_div_two_pow]
    simp only [show k % 8 < 8 by omega, decide_true, Bool.true_and]
    congr 1
    omega
  · rw [if_neg inside, if_neg (by omega)]

theorem bit_setBit (k : Nat) (v : Bool) (j : Nat) :
    bit (setBit m k v) j = if j = k then v else bit m j := by
  simp only [bit, setBit]
  by_cases same : j / 8 = k / 8
  · rw [if_pos same]
    by_cases eq : j = k
    · subst eq
      cases v <;> simp [mod_lt]
    · rw [if_neg eq]
      have differ : ¬ j % 8 = k % 8 := by omega
      cases v <;> simp [differ, mod_lt]
  · rw [if_neg same, if_neg (by intro eq; exact same (by rw [eq]))]

theorem bit_fill (lo hi : Nat) (v : Byte) (k : Nat) :
    bit (fill m lo hi v) k = if lo ≤ k / 8 ∧ k / 8 < hi then v.getLsbD (k % 8) else bit m k := by
  simp only [bit, fill]
  split <;> rfl

theorem bit_put (off : Nat) (v : Byte) (k : Nat) :
    bit (put m off v) k = if k / 8 = off then v.getLsbD (k % 8) else bit m k := by
  simp only [bit, put]
  split <;> rfl

end

theorem bit_zero (k : Nat) : bit zero k = false := by
  simp [bit, zero]

theorem low_ones_getLsbD (r i : Nat) (small : r ≤ 8) :
    ((255 : Byte) >>> (8 - r)).getLsbD i = decide (i < r) := by
  have ones : (255 : Byte) = BitVec.allOnes 8 := by decide
  rw [BitVec.getLsbD_ushiftRight, ones, BitVec.getLsbD_allOnes]
  simp only [decide_eq_decide]
  omega

theorem high_ones_getLsbD (r i : Nat) (small : r ≤ 8) (inside : i < 8) :
    (~~~((255 : Byte) >>> (8 - r))).getLsbD i = decide (r ≤ i) := by
  rw [BitVec.getLsbD_not, low_ones_getLsbD r i small]
  simp only [inside, decide_true, Bool.true_and]
  by_cases h : i < r
  · simp [h]
  · simp [h, not_lt.mp h]

theorem full_getLsbD (i : Nat) (inside : i < 8) : (255 : Byte).getLsbD i = true := by
  have ones : (255 : Byte) = BitVec.allOnes 8 := by decide
  rw [ones, BitVec.getLsbD_allOnes]
  simp [inside]

theorem blit_inside (m : Mem) (off : Nat) (src : List Byte) (k : Nat)
    (lower : off ≤ k) (upper : k < off + src.length) : blit m off src k = src.getD (k - off) 0 := by
  simp [blit, lower, upper]

theorem blit_outside (m : Mem) (off : Nat) (src : List Byte) (k : Nat)
    (out : k < off ∨ off + src.length ≤ k) : blit m off src k = m k := by
  simp only [blit]
  rw [if_neg (by omega)]

theorem getLE_blit_slice (m src : Mem) (len off n : Nat) (inside : off + n ≤ len) :
    getLE (blit m 0 (slice src 0 len)) off n = getLE src off n := by
  apply getLE_congr
  intro k lo hi
  rw [blit_inside _ _ _ _ (zero_le _) (by simp [slice]; omega)]
  simp [slice, getD, show k < len by omega]

theorem slice_blit_slice (m src : Mem) (len n : Nat) (inside : n ≤ len) :
    slice (blit m 0 (slice src 0 len)) 0 n = slice src 0 n := by
  apply map_congr_left
  intro k mem
  rw [mem_range] at mem
  rw [blit_inside _ _ _ _ (zero_le _) (by simp [slice]; omega)]
  simp [slice, getD, show k < len by omega]

theorem slice_length (m : Mem) (off n : Nat) : (slice m off n).length = n := by
  simp [slice]

theorem slice_getD (m : Mem) (off n k : Nat) (inside : k < n) :
    (slice m off n).getD k 0 = m (off + k) := by
  simp [slice, getD, inside]

theorem blit_cons (m : Mem) (off : Nat) (b : Byte) (src : List Byte) :
    blit m off (b :: src) = blit (put m off b) (off + 1) src := by
  funext k
  simp only [blit, put, length_cons]
  by_cases here : k = off
  · subst here
    rw [if_pos (by omega), if_neg (by omega), if_pos rfl, Nat.sub_self]
    rfl
  · by_cases inside : off + 1 ≤ k ∧ k < off + 1 + src.length
    · have next : k - off = (k - (off + 1)) + 1 := by omega
      rw [if_pos (by omega), if_pos inside, next]
      rfl
    · rw [if_neg (by omega), if_neg inside, if_neg here]

theorem slice_blit (m : Mem) (off : Nat) (src : List Byte) : slice (blit m off src) off src.length = src := by
  apply ext_getElem
  · exact slice_length _ _ _
  · intro k _ lt
    simp only [slice, getElem_map, getElem_range]
    rw [blit_inside _ _ _ _ (by omega) (by omega), Nat.add_sub_cancel_left, getD_eq_getElem _ _ lt]

end Bytes
