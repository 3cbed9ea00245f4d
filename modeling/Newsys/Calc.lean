import Newsys.Lib.Digits

/- The calculator (cmd/bin/calc.c): decimal numbers of 32 digits, 8 of them behind the point. -/
namespace Calc
open Digits Int

def fDigits : Nat := 8
def iDigits : Nat := 8
def digits : Nat := (fDigits + iDigits) * 2

structure Fxpn where
  digit : List Int
  negative : Bool
  deriving DecidableEq

def i8 (x : Int) : Int := (x + 128) % 256 - 128

def fxpZero : Fxpn := ⟨List.replicate digits 0, false⟩

def fxpNzero (n : Fxpn) : Bool := n.digit.any (· ≠ 0)

def moveDown (n : Fxpn) (count : Nat) : Fxpn :=
  { n with digit := n.digit.drop count ++ List.replicate count 0 }

def moveUp (n : Fxpn) (count : Nat) : Fxpn :=
  { n with digit := List.replicate count 0 ++ n.digit.take (digits - count) }

def fxpShr (n : Fxpn) (count : Int) : Fxpn :=
  if count < 0 then moveUp n (-count).toNat else moveDown n count.toNat

def fxpShl (n : Fxpn) (count : Int) : Fxpn :=
  if count < 0 then moveDown n (-count).toNat else moveUp n count.toNat

def ucmpLoop : List Int → List Int → Int
  | a :: as, d :: ds =>
    if ucmpLoop as ds ≠ 0 then ucmpLoop as ds
    else if a < d then -1
    else if a > d then 1
    else 0
  | _, _ => 0

def fxpUcmp (arg1 arg2 : Fxpn) : Int := ucmpLoop arg1.digit arg2.digit

def uaddLoop : Int → List Int → List Int → List Int
  | cy, a :: as, d :: ds =>
    let s := i8 (a + (d + cy))
    if s > 9 then i8 (s - 10) :: uaddLoop 1 as ds else s :: uaddLoop 0 as ds
  | _, _, _ => []

def fxpUadd (acc arg : Fxpn) : Fxpn := { acc with digit := uaddLoop 0 acc.digit arg.digit }

def usubLoop : Int → List Int → List Int → List Int
  | cy, a :: as, d :: ds =>
    let s := i8 (a - (d + cy))
    if s < 0 then i8 (s + 10) :: usubLoop 1 as ds else s :: usubLoop 0 as ds
  | _, _, _ => []

def fxpUsub (acc arg : Fxpn) : Fxpn := { acc with digit := usubLoop 0 acc.digit arg.digit }

def differ (acc arg : Fxpn) : Fxpn :=
  if fxpUcmp acc arg ≥ 0 then { fxpUsub acc arg with negative := acc.negative }
  else { fxpUsub arg acc with negative := !acc.negative }

def fxpAdd (acc arg : Fxpn) : Fxpn := if acc.negative = arg.negative then fxpUadd acc arg else differ acc arg

def fxpSub (acc arg : Fxpn) : Fxpn := if acc.negative = arg.negative then differ acc arg else fxpUadd acc arg

def addTimes : Nat → Fxpn → Fxpn → Fxpn
  | 0, acc, _ => acc
  | n + 1, acc, a => addTimes n (fxpUadd acc a) a

def mulLoop : Fxpn → Fxpn → List Int → Fxpn
  | acc, _, [] => acc
  | acc, a, n :: ds => mulLoop (addTimes (n % 2 ^ 32).toNat acc a) (fxpShl a 1) ds

def fxpMul (acc arg : Fxpn) : Fxpn :=
  mulLoop { fxpZero with negative := acc.negative ^^ arg.negative } acc arg.digit

/-- `while (fxp_ucmp(&a, arg) >= 0)` of `fxp_div`, with the digit of `r` that it counts. -/
def subLoop : Nat → Fxpn → Fxpn → Int → Option (Fxpn × Int)
  | 0, _, _, _ => none
  | fuel + 1, a, arg, digit =>
    if fxpUcmp a arg ≥ 0 then subLoop fuel (fxpUsub a arg) arg (i8 (digit + 1)) else some (a, digit)

/-- The loop of `fxp_div` over digits of `acc`, the ones above first: `a`, and the digits of `r`. -/
def divLoop (fuel : Nat) (arg : Fxpn) : List Int → Option (Fxpn × List Int)
  | [] => some (fxpZero, [])
  | d :: ds => do
    let (a, r) ← divLoop fuel arg ds
    let a := fxpShl a 1
    let (a, digit) ← subLoop fuel { a with digit := a.digit.set 0 d } arg 0
    some (a, digit :: r)

def fxpDiv (fuel : Nat) (acc arg : Fxpn) : Option Fxpn :=
  if fxpNzero arg then
    (divLoop fuel arg acc.digit).map fun result => ⟨result.2, acc.negative ^^ arg.negative⟩
  else some acc

/-- The variables of the program; `pos` is where the next digit goes. -/
structure State where
  arg0 : Fxpn
  arg1 : Fxpn
  op : Char
  error : Bool
  clearOnInput : Bool
  pos : Int

def opDone (s : State) : State :=
  let s := if (s.arg0.digit.drop (fDigits + iDigits)).any (· ≠ 0) then { s with error := true } else s
  { s with clearOnInput := true, pos := fDigits }

def doOp (fuel : Nat) (s : State) : Option State :=
  if s.error then some s
  else if s.op = '+' then
    let arg1 := fxpAdd s.arg1 s.arg0
    some (opDone { s with arg1, arg0 := arg1 })
  else if s.op = '-' then
    let arg1 := fxpSub s.arg1 s.arg0
    some (opDone { s with arg1, arg0 := arg1 })
  else if s.op = '*' then
    let arg1 := fxpShr (fxpMul s.arg1 s.arg0) fDigits
    some (opDone { s with arg1, arg0 := arg1 })
  else if s.op = '/' then
    if fxpNzero s.arg0 then
      (fxpDiv fuel (fxpShl s.arg1 fDigits) s.arg0).map fun arg1 => opDone { s with arg1, arg0 := arg1 }
    else some (opDone { s with error := true })
  else some (opDone { s with clearOnInput := true, arg1 := s.arg0 })

def signed (n : Fxpn) : Int := if n.negative then -value 10 n.digit else value 10 n.digit

def Decimal (n : Fxpn) : Prop := n.digit.length = digits ∧ ∀ d ∈ n.digit, 0 ≤ d ∧ d ≤ 9

/-- A number with 8 digits in front of the point and 8 behind it. -/
def Operand (n : Fxpn) : Prop := Decimal n ∧ ∀ d ∈ n.digit.drop (fDigits + iDigits), d = 0

/-- The exact result of an operation has no place in front of the point, or there is none. -/
def Exceeds (op : Char) (x y : Int) : Prop :=
  if op = '+' then (10 : Int) ^ 16 ≤ (x + y).natAbs
  else if op = '-' then (10 : Int) ^ 16 ≤ (x - y).natAbs
  else if op = '*' then (10 : Int) ^ 16 * 10 ^ 8 ≤ (x * y).natAbs
  else if op = '/' then y = 0 ∨ (10 : Int) ^ 16 * y.natAbs ≤ (x * 10 ^ 8).natAbs
  else False

section Unsigned
variable {n : Nat} {as ds : List Int} {u v cy : Int} {a acc arg : Fxpn}

abbrev Holds (n : Fxpn) (v : Int) : Prop := Spells 10 digits n.digit v

theorem ten_pos : (0 : Int) < 10 := by decide

theorem i8_small (low : -128 ≤ x) (high : x < 128) : i8 x = x := by
  rw [i8, emod_eq_of_lt] <;> omega

theorem spells_digit (low : 0 ≤ d) (high : d < 10) (whole : u = d + 10 * v) (rest : Spells 10 n ds (v % 10 ^ n)) :
    Spells 10 (n + 1) (d :: ds) (u % 10 ^ (n + 1)) := by
  rw [whole, ← wrap_cons ten_pos low high]
  exact spells_cons low high rest

theorem uaddLoop_spells (left : Spells 10 n as u) (right : Spells 10 n ds v) (low : 0 ≤ cy) (high : cy ≤ 1) :
    Spells 10 n (uaddLoop cy as ds) ((u + v + cy) % 10 ^ n) := by
  induction n generalizing as ds u v cy with
  | zero =>
    rw [List.eq_nil_of_length_eq_zero left.length, pow_zero, emod_one]
    exact spells_nil
  | succ n ih =>
    obtain ⟨a, as, u, rfl, lowA, highA, restA, rfl⟩ := left.split
    obtain ⟨d, ds, v, rfl, lowD, highD, restD, rfl⟩ := right.split
    have sum : i8 (a + (d + cy)) = a + (d + cy) := i8_small (by omega) (by omega)
    simp only [uaddLoop, sum]
    split
    · rw [i8_small (by omega) (by omega)]
      exact spells_digit (by omega) (by omega) (by omega) (ih restA restD (by decide) (by decide))
    · exact spells_digit (by omega) (by omega) (by omega) (ih restA restD (by decide) (by decide))

theorem usubLoop_spells (left : Spells 10 n as u) (right : Spells 10 n ds v) (low : 0 ≤ cy) (high : cy ≤ 1) :
    Spells 10 n (usubLoop cy as ds) ((u - v - cy) % 10 ^ n) := by
  induction n generalizing as ds u v cy with
  | zero =>
    rw [List.eq_nil_of_length_eq_zero left.length, pow_zero, emod_one]
    exact spells_nil
  | succ n ih =>
    obtain ⟨a, as, u, rfl, lowA, highA, restA, rfl⟩ := left.split
    obtain ⟨d, ds, v, rfl, lowD, highD, restD, rfl⟩ := right.split
    have difference : i8 (a - (d + cy)) = a - (d + cy) := i8_small (by omega) (by omega)
    simp only [usubLoop, difference]
    split
    · rw [i8_small (by omega) (by omega)]
      exact spells_digit (by omega) (by omega) (by omega) (ih restA restD (by decide) (by decide))
    · exact spells_digit (by omega) (by omega) (by omega) (ih restA restD (by decide) (by decide))

theorem ucmpLoop_sign (left : Spells 10 n as u) (right : Spells 10 n ds v) :
    ucmpLoop as ds = (u - v).sign := by
  induction n generalizing as ds u v with
  | zero =>
    rw [List.eq_nil_of_length_eq_zero left.length, List.eq_nil_of_length_eq_zero right.length] at *
    rw [← left.value, ← right.value]
    rfl
  | succ n ih =>
    obtain ⟨a, as, u, rfl, lowA, highA, restA, rfl⟩ := left.split
    obtain ⟨d, ds, v, rfl, lowD, highD, restD, rfl⟩ := right.split
    rw [ucmpLoop, ih restA restD]
    rcases lt_trichotomy u v with less | rfl | more
    · rw [sign_eq_neg_one_of_neg (by omega), sign_eq_neg_one_of_neg (by omega)]
      rfl
    · rw [sub_self, sign_zero, if_neg (by decide)]
      split
      · rw [sign_eq_neg_one_of_neg (by omega)]
      · split
        · rw [sign_eq_one_of_pos (by omega)]
        · rw [show a = d by omega, sub_self, sign_zero]
    · rw [sign_eq_one_of_pos (by omega), sign_eq_one_of_pos (by omega)]
      rfl

theorem holds_zero : Holds fxpZero 0 := spells_zeros ten_pos digits

theorem holds_uadd (left : Holds acc u) (right : Holds arg v) : Holds (fxpUadd acc arg) ((u + v) % 10 ^ digits) := by
  have sum := uaddLoop_spells left right (le_refl 0) (by decide)
  rwa [add_zero] at sum

theorem holds_usub (left : Holds acc u) (right : Holds arg v) (le : v ≤ u) : Holds (fxpUsub acc arg) (u - v) := by
  have difference := usubLoop_spells left right (le_refl 0) (by decide)
  have above := (left.bounds ten_pos).2
  have below := (right.bounds ten_pos).1
  rwa [sub_zero, emod_eq_of_lt (by omega) (by omega)] at difference

theorem fxpUcmp_nonneg (left : Holds acc u) (right : Holds arg v) : fxpUcmp acc arg ≥ 0 ↔ v ≤ u := by
  rw [fxpUcmp, ucmpLoop_sign left right, ge_iff_le, sign_nonneg_iff]
  omega

section
variable (all : Holds a u)
include all

theorem holds_moveUp (le : count ≤ digits) :
    Holds (moveUp a count) (u * 10 ^ count % 10 ^ digits) := by
  have low := (all.parts ten_pos (Nat.sub_le digits count)).1
  have moved := (spells_zeros ten_pos count).append low
  rw [Nat.add_sub_cancel' le] at moved
  have value : 0 + 10 ^ count * (u % 10 ^ (digits - count)) = u * 10 ^ count % (10 : Int) ^ digits := by
    rw [Int.zero_add, ← Int.mul_emod_mul_of_pos _ _ (Int.pow_pos ten_pos), ← Int.pow_add, Nat.add_sub_cancel' le,
      mul_comm]
  rwa [value] at moved

theorem holds_moveDown (le : count ≤ digits) :
    Holds (moveDown a count) (u / 10 ^ count) := by
  have high := (all.parts ten_pos le).2
  have moved := high.append (spells_zeros ten_pos count)
  rw [Nat.sub_add_cancel le, mul_zero, add_zero] at moved
  exact moved

theorem holds_addTimes (n : Nat) (sum : Holds acc v) :
    Holds (addTimes n acc a) ((v + n * u) % 10 ^ digits) := by
  induction n generalizing acc v with
  | zero =>
    obtain ⟨below, above⟩ := sum.bounds ten_pos
    rw [Int.natCast_zero, zero_mul, add_zero, Int.emod_eq_of_lt below above]
    exact sum
  | succ n ih =>
    have added := ih (holds_uadd sum all)
    have step : v + ((n + 1 : Nat) : Int) * u = v + u + n * u := by
      rw [natCast_succ]
      ring
    rwa [emod_add_emod, ← step] at added

theorem fxpShl_one : Holds (fxpShl a 1) (u * 10 % 10 ^ digits) := by
  have moved : Holds (fxpShl a 1) (u * 10 ^ 1 % 10 ^ digits) := holds_moveUp all (by decide)
  rwa [pow_succ, pow_zero, one_mul] at moved

theorem holds_mulLoop (sum : Holds acc v) (proper : ∀ d ∈ ds, 0 ≤ d ∧ d < 10) :
    Holds (mulLoop acc a ds) ((v + u * value 10 ds) % 10 ^ digits) := by
  induction ds generalizing a acc u v with
  | nil =>
    obtain ⟨below, above⟩ := sum.bounds ten_pos
    rw [value, mul_zero, add_zero, emod_eq_of_lt below above]
    exact sum
  | cons d ds ih =>
    obtain ⟨⟨low, high⟩, proper⟩ := List.forall_mem_cons.mp proper
    have times : (((d % 2 ^ 32).toNat : Nat) : Int) = d := by omega
    have added := holds_addTimes all (d % 2 ^ 32).toNat sum
    have rest := ih (fxpShl_one all) added proper
    rw [times] at rest
    have whole : v + u * value 10 (d :: ds) = v + d * u + u * 10 * value 10 ds := by
      rw [value]
      ring
    rw [whole, mulLoop]
    rwa [emod_add_emod, ← add_emod_emod, mul_emod, emod_emod_of_dvd _ (dvd_refl _), ← mul_emod,
      add_emod_emod] at rest

end

theorem subLoop_fits (fuel : Nat) (all : Holds a u) (divisor : Holds arg v) (pos : 0 < v)
    (enough : u / v < fuel) (low : 0 ≤ q) (digit : q + u / v ≤ 9) :
    ∃ a', subLoop fuel a arg q = some (a', q + u / v) ∧ Holds a' (u % v) := by
  induction fuel generalizing a u q with
  | zero => 
    have nonneg := ediv_nonneg (all.bounds ten_pos).1 (le_of_lt pos)
    omega
  | succ fuel ih =>
    have below := (all.bounds ten_pos).1
    rw [subLoop]
    by_cases fits : v ≤ u
    · have less : (u - v) / v = u / v - 1 := by
        rw [Int.sub_ediv_of_dvd _ (dvd_refl v), Int.ediv_self (ne_of_gt pos)]
      have same : (u - v) % v = u % v := sub_emod_right u v
      have nonneg := ediv_nonneg (sub_nonneg.mpr fits) (le_of_lt pos)
      have count : i8 (q + 1) = q + 1 := i8_small (by omega) (by omega)
      obtain ⟨a', ends, left⟩ := ih (holds_usub all divisor fits) (q := q + 1) (by omega) (by omega) (by omega)
      rw [if_pos ((fxpUcmp_nonneg all divisor).mpr fits), count, ends, less]
      rw [same] at left
      exact ⟨a', by congr 2; omega, left⟩
    · have none : u / v = 0 := ediv_eq_zero_of_lt below (lt_of_not_ge fits)
      rw [if_neg fun more => fits ((fxpUcmp_nonneg all divisor).mp more), none, add_zero,
        emod_eq_of_lt below (lt_of_not_ge fits)]
      exact ⟨a, rfl, all⟩

theorem divLoop_divides (enough : 10 ≤ fuel) (dividend : Spells 10 n ds u) (divisor : Holds arg v)
    (pos : 0 < v) (room : v * 10 ≤ 10 ^ digits) :
    ∃ a r, divLoop fuel arg ds = some (a, r) ∧ Holds a (u % v) ∧ Spells 10 n r (u / v) := by
  induction n generalizing ds u with
  | zero =>
    obtain rfl : u = 0 := by rw [← dividend.value, List.eq_nil_of_length_eq_zero dividend.length, value]
    rw [List.eq_nil_of_length_eq_zero dividend.length, zero_emod, zero_ediv]
    exact ⟨fxpZero, [], rfl, holds_zero, spells_nil⟩
  | succ n ih =>
    obtain ⟨d, ds, u, rfl, low, high, rest, rfl⟩ := dividend.split
    obtain ⟨a, r, ends, left, quotient⟩ := ih rest
    have less := emod_lt_of_pos u pos
    have nonneg := emod_nonneg u (ne_of_gt pos)
    have shifted := fxpShl_one left
    rw [emod_eq_of_lt (by omega) (by omega)] at shifted
    obtain ⟨_, es, w, eq, _, _, above, whole⟩ := Spells.split (n := 31) shifted
    obtain rfl : w = u % v := by omega
    have brought : Holds { fxpShl a 1 with digit := (fxpShl a 1).digit.set 0 d } (d + 10 * (u % v)) := by
      rw [eq]
      exact spells_cons low high above
    have parts : d + 10 * u = d + 10 * (u % v) + v * (10 * (u / v)) := by
      conv_lhs => rw [← emod_add_mul_ediv u v]
      ring
    have digit : (d + 10 * (u % v)) / v < 10 := Int.ediv_lt_of_lt_mul pos (by omega)
    have digit' : 0 ≤ (d + 10 * (u % v)) / v := ediv_nonneg (by omega) (le_of_lt pos)
    obtain ⟨a', counted, left'⟩ := subLoop_fits fuel brought divisor pos (by omega) (le_refl 0) (by omega)
    rw [zero_add] at counted
    refine ⟨a', (d + 10 * (u % v)) / v :: r, ?_, ?_, ?_⟩
    · rw [divLoop, ends]
      simp only [Option.bind_eq_bind, Option.bind_some, counted]
    · rwa [parts, add_mul_emod_self_left]
    · rw [parts, add_mul_ediv_left _ _ (ne_of_gt pos)]
      exact spells_cons digit' digit quotient

theorem small_iff (all : Holds a u) : (∀ d ∈ a.digit.drop (fDigits + iDigits), d = 0) ↔ u < 10 ^ 16 := by
  have le : fDigits + iDigits ≤ digits := by decide
  have high := (all.parts ten_pos le).2
  have unit : (10 : Int) ^ (fDigits + iDigits) = 10 ^ 16 := rfl
  have below := (all.bounds ten_pos).1
  rw [high.zero_iff ten_pos, unit]
  omega

theorem fxpNzero_iff (all : Holds a u) : fxpNzero a = true ↔ u ≠ 0 := by
  rw [ne_eq, ← all.zero_iff ten_pos, fxpNzero, List.any_eq_true]
  simp

end Unsigned

/- Signed numbers -/

section Signed
variable {a b : Fxpn} {u v : Int}

/-- The number is a decimal one with this value. -/
def Reads (n : Fxpn) (x : Int) : Prop := Decimal n ∧ signed n = x

def signOf (negative : Bool) (u : Int) : Int := if negative then -u else u

theorem Holds.signed (all : Holds a u) : signed a = signOf a.negative u := by
  rw [Calc.signed, signOf, all.value]

theorem Holds.decimal (all : Holds a u) : Decimal a :=
  ⟨all.length, fun d mem => ⟨(all.proper d mem).1, le_of_lt_add_one (all.proper d mem).2⟩⟩

theorem Decimal.holds (decimal : Decimal a) : Holds a (value 10 a.digit) :=
  ⟨decimal.1, fun d mem => ⟨(decimal.2 d mem).1, lt_add_one_of_le (decimal.2 d mem).2⟩, rfl⟩

theorem Holds.reads (all : Holds a u) (value : signOf a.negative u = x) : Reads a x :=
  ⟨Holds.decimal all, (Holds.signed all).trans value⟩

theorem signOf_natAbs (negative : Bool) (nonneg : 0 ≤ u) : ((signOf negative u).natAbs : Int) = u := by
  cases negative <;> simp only [signOf, if_true, Bool.false_eq_true, if_false] <;> omega

theorem signOf_mul (m n : Bool) (u v : Int) : signOf m u * signOf n v = signOf (m ^^ n) (u * v) := by
  cases m <;> cases n <;> simp [signOf]

theorem signOf_tdiv (m n : Bool) (low : 0 ≤ u) : (signOf m u).tdiv (signOf n v) = signOf (m ^^ n) (u / v) := by
  rw [← tdiv_eq_ediv_of_nonneg low]
  cases m <;> cases n <;> simp [signOf]

theorem differ_reads (left : Holds a u) (right : Holds b v) : Reads (differ a b) (signOf a.negative (u - v)) := by
  have comparison := fxpUcmp_nonneg left right
  unfold differ
  by_cases le : v ≤ u
  · rw [if_pos (comparison.mpr le)]
    have difference : Holds { fxpUsub a b with negative := a.negative } (u - v) := holds_usub left right le
    exact Holds.reads difference rfl
  · rw [if_neg fun more => le (comparison.mp more)]
    have difference : Holds { fxpUsub b a with negative := !a.negative } (v - u) := holds_usub right left (by omega)
    refine Holds.reads difference ?_
    cases a.negative <;> simp [signOf]

theorem uadd_reads (left : Holds a u) (right : Holds b v) (room : u + v < 10 ^ digits) :
    Reads (fxpUadd a b) (signOf a.negative (u + v)) := by
  have nonneg := add_nonneg (left.bounds ten_pos).1 (right.bounds ten_pos).1
  have sum := holds_uadd left right
  rw [emod_eq_of_lt nonneg room] at sum
  exact Holds.reads sum rfl

theorem fxpAdd_reads (left : Holds a u) (right : Holds b v) (room : u + v < 10 ^ digits) :
    Reads (fxpAdd a b) (signOf a.negative u + signOf b.negative v) := by
  unfold fxpAdd
  split
  · next same =>
    have sum : signOf a.negative u + signOf b.negative v = signOf a.negative (u + v) := by
      rw [← same]
      cases a.negative <;> simp [signOf]
      omega
    rw [sum]
    exact uadd_reads left right room
  · next other =>
    have sum : signOf a.negative u + signOf b.negative v = signOf a.negative (u - v) := by
      revert other
      cases a.negative <;> cases b.negative <;> simp [signOf] <;> omega
    rw [sum]
    exact differ_reads left right

theorem fxpSub_reads (left : Holds a u) (right : Holds b v) (room : u + v < 10 ^ digits) :
    Reads (fxpSub a b) (signOf a.negative u - signOf b.negative v) := by
  unfold fxpSub
  split
  · next same =>
    have difference : signOf a.negative u - signOf b.negative v = signOf a.negative (u - v) := by
      rw [← same]
      cases a.negative <;> simp [signOf]
      omega
    rw [difference]
    exact differ_reads left right
  · next other =>
    have difference : signOf a.negative u - signOf b.negative v = signOf a.negative (u + v) := by
      revert other
      cases a.negative <;> cases b.negative <;> simp [signOf]
      omega
    rw [difference]
    exact uadd_reads left right room

theorem addTimes_negative (n : Nat) (acc a : Fxpn) : (addTimes n acc a).negative = acc.negative := by
  induction n generalizing acc with
  | zero => rfl
  | succ n ih => exact ih (fxpUadd acc a)

theorem mulLoop_negative (acc a : Fxpn) (ds : List Int) : (mulLoop acc a ds).negative = acc.negative := by
  induction ds generalizing acc a with
  | nil => rfl
  | cons d ds ih => exact (ih _ _).trans (addTimes_negative _ acc a)

theorem fxpMul_holds (left : Holds a u) (right : Holds b v) (room : u * v < 10 ^ digits) :
    Holds (fxpMul a b) (u * v) ∧ (fxpMul a b).negative = (a.negative ^^ b.negative) := by
  have nonneg := Int.mul_nonneg (left.bounds ten_pos).1 (right.bounds ten_pos).1
  have product : Holds (fxpMul a b) ((0 + u * value 10 b.digit) % 10 ^ digits) :=
    holds_mulLoop left holds_zero right.proper
  rw [right.value, zero_add, emod_eq_of_lt nonneg room] at product
  exact ⟨product, mulLoop_negative _ _ _⟩

theorem fxpDiv_holds (enough : 10 ≤ fuel) (left : Holds a u) (right : Holds b v) (pos : 0 < v)
    (room : v * 10 ≤ 10 ^ digits) :
    ∃ q, fxpDiv fuel a b = some q ∧ Holds q (u / v) ∧ q.negative = (a.negative ^^ b.negative) := by
  obtain ⟨rest, r, ends, _, quotient⟩ := divLoop_divides enough left right pos room
  refine ⟨⟨r, a.negative ^^ b.negative⟩, ?_, quotient, rfl⟩
  rw [fxpDiv, if_pos ((fxpNzero_iff right).mpr (ne_of_gt pos)), ends]
  rfl

theorem Reads.holds (reads : Reads a x) : Holds a x.natAbs := by
  have all := reads.1.holds
  have size := signOf_natAbs a.negative (all.bounds ten_pos).1
  rw [← Holds.signed all, reads.2] at size
  rwa [size]

theorem Operand.holds (operand : Operand a) : ∃ u, Holds a u ∧ u < 10 ^ 16 :=
  ⟨_, operand.1.holds, (small_iff operand.1.holds).mp operand.2⟩

end Signed

section Operations
variable {a b : Fxpn} {x : Int} {fuel : Nat}

theorem add_exact (left : Operand a) (right : Operand b) : Reads (fxpAdd a b) (signed a + signed b) := by
  obtain ⟨u, left, small⟩ := left.holds
  obtain ⟨v, right, small'⟩ := right.holds
  rw [Holds.signed left, Holds.signed right]
  exact fxpAdd_reads left right (by simp only [digits, fDigits, iDigits]; omega)

theorem sub_exact (left : Operand a) (right : Operand b) : Reads (fxpSub a b) (signed a - signed b) := by
  obtain ⟨u, left, small⟩ := left.holds
  obtain ⟨v, right, small'⟩ := right.holds
  rw [Holds.signed left, Holds.signed right]
  exact fxpSub_reads left right (by simp only [digits, fDigits, iDigits]; omega)

theorem mul_exact (left : Operand a) (right : Operand b) :
    Reads (fxpShr (fxpMul a b) fDigits) ((signed a * signed b).tdiv (10 ^ 8)) := by
  obtain ⟨u, left, small⟩ := left.holds
  obtain ⟨v, right, small'⟩ := right.holds
  have low := (left.bounds ten_pos).1
  have low' := (right.bounds ten_pos).1
  have room : u * v < 10 ^ digits := by
    have product := Int.mul_lt_mul' (le_of_lt small) small' low' (by decide)
    exact product
  obtain ⟨product, sign⟩ := fxpMul_holds left right room
  have moved : Holds (fxpShr (fxpMul a b) fDigits) (u * v / 10 ^ 8) := holds_moveDown product (by decide)
  refine Holds.reads moved ?_
  have truncated := signOf_tdiv (v := 10 ^ 8) (a.negative ^^ b.negative) false (Int.mul_nonneg low low')
  rw [Bool.xor_false] at truncated
  rw [Holds.signed left, Holds.signed right, signOf_mul]
  show signOf (fxpMul a b).negative _ = _
  rw [sign]
  exact truncated.symm

theorem div_exact (enough : 10 ≤ fuel) (left : Operand a) (right : Operand b) (nonzero : signed b ≠ 0) :
    ∃ q, fxpDiv fuel (fxpShl a fDigits) b = some q ∧ Reads q ((signed a * 10 ^ 8).tdiv (signed b)) := by
  obtain ⟨u, left, small⟩ := left.holds
  obtain ⟨v, right, small'⟩ := right.holds
  have low := (left.bounds ten_pos).1
  have low' := (right.bounds ten_pos).1
  have wide : u * 10 ^ 8 < 10 ^ digits := by simp only [digits, fDigits, iDigits]; omega
  have moved : Holds (fxpShl a fDigits) (u * 10 ^ 8 % 10 ^ digits) := holds_moveUp left (by decide)
  rw [emod_eq_of_lt (by omega) wide] at moved
  rw [Holds.signed right] at nonzero
  have other : v ≠ 0 := by
    rintro rfl
    revert nonzero
    cases b.negative <;> simp [signOf]
  have pos : 0 < v := by omega
  have room : v * 10 ≤ 10 ^ digits := by simp only [digits, fDigits, iDigits]; omega
  obtain ⟨q, ends, quotient, sign⟩ := fxpDiv_holds enough moved right pos room
  refine ⟨q, ends, Holds.reads quotient ?_⟩
  have scaled : signOf a.negative u * 10 ^ 8 = signOf a.negative (u * 10 ^ 8) := by
    cases a.negative <;> simp [signOf]
  rw [Holds.signed left, Holds.signed right, scaled, signOf_tdiv _ _ (by omega), sign]
  rfl

theorem opDone_error (reads : Reads s.arg0 x) :
    (opDone s).error = true ↔ s.error = true ∨ (10 : Int) ^ 16 ≤ x.natAbs := by
  have small := small_iff reads.holds
  have any : (s.arg0.digit.drop (fDigits + iDigits)).any (· ≠ 0) = true ↔ ¬ (x.natAbs : Int) < 10 ^ 16 := by
    rw [← small]
    simp
  unfold opDone
  by_cases wide : (x.natAbs : Int) < 10 ^ 16
  · rw [if_neg fun more => any.mp more wide]
    exact ⟨.inl, fun either => either.resolve_right (not_le.mpr wide)⟩
  · rw [if_pos (any.mpr wide)]
    exact iff_of_true rfl (.inr (not_lt.mp wide))

theorem wide_tdiv (x : Int) (nonzero : y ≠ 0) :
    (10 : Int) ^ 16 ≤ (x.tdiv y).natAbs ↔ (10 : Int) ^ 16 * y.natAbs ≤ x.natAbs := by
  have quotient := Nat.le_div_iff_mul_le (x := 10 ^ 16) (y := x.natAbs) (natAbs_pos.mpr nonzero)
  rw [natAbs_tdiv]
  exact_mod_cast quotient

theorem doOp_error (enough : 10 ≤ fuel) (left : Operand s.arg1) (right : Operand s.arg0)
    (fresh : s.error = false) : ∃ s', doOp fuel s = some s' ∧
      (s'.error = true ↔ Exceeds s.op (signed s.arg1) (signed s.arg0)) := by
  have ended : ∀ (t : State) {x : Int}, t.error = false → Reads t.arg0 x →
      ((opDone t).error = true ↔ (10 : Int) ^ 16 ≤ x.natAbs) := by
    intro t x fresh reads
    rw [opDone_error reads, fresh]
    simp
  have running : ¬ s.error = true := by rw [fresh]; decide
  rw [doOp, if_neg running]
  unfold Exceeds
  by_cases add : s.op = '+'
  · rw [if_pos add, if_pos add]
    exact ⟨_, rfl, ended _ fresh (add_exact left right)⟩
  rw [if_neg add, if_neg add]
  by_cases sub : s.op = '-'
  · rw [if_pos sub, if_pos sub]
    exact ⟨_, rfl, ended _ fresh (sub_exact left right)⟩
  rw [if_neg sub, if_neg sub]
  by_cases mul : s.op = '*'
  · rw [if_pos mul, if_pos mul]
    have product := mul_exact left right
    generalize fxpShr (fxpMul s.arg1 s.arg0) fDigits = p at product
    have wide := ended { s with arg1 := p, arg0 := p } fresh product
    exact ⟨_, rfl, wide.trans (wide_tdiv _ (by decide))⟩
  rw [if_neg mul, if_neg mul]
  by_cases div : s.op = '/'
  · rw [if_pos div, if_pos div]
    obtain ⟨v, all, small⟩ := right.holds
    have zero : fxpNzero s.arg0 = true ↔ signed s.arg0 ≠ 0 := by
      rw [fxpNzero_iff all, Holds.signed all, signOf]
      split <;> omega
    by_cases nonzero : signed s.arg0 = 0
    · rw [if_neg fun more => zero.mp more nonzero]
      have flag := opDone_error (s := { s with error := true }) ⟨Holds.decimal all, rfl⟩
      exact ⟨_, rfl, iff_of_true (flag.mpr (.inl rfl)) (.inl nonzero)⟩
    · obtain ⟨q, ends, reads⟩ := div_exact enough left right nonzero
      have wide := ended { s with arg1 := q, arg0 := q } fresh reads
      rw [if_pos (zero.mpr nonzero), ends]
      refine ⟨_, rfl, wide.trans ((wide_tdiv _ nonzero).trans ?_)⟩
      rw [or_iff_right nonzero]
  · rw [if_neg div, if_neg div]
    obtain ⟨v, all, small⟩ := right.holds
    have wide := ended { s with clearOnInput := true, arg1 := s.arg0 } fresh ⟨Holds.decimal all, rfl⟩
    refine ⟨_, rfl, wide.trans (iff_of_false ?_ id)⟩
    rw [Holds.signed all, signOf_natAbs _ (all.bounds ten_pos).1]
    omega

/-- The operations on two numbers of 8 digits in front of the point and 8 behind it. The product and the quotient are
    truncated to 8 digits behind the point. -/
theorem calc_exact (left : Operand a) (right : Operand b) (enough : 10 ≤ fuel) :
    Reads (fxpAdd a b) (signed a + signed b) ∧ Reads (fxpSub a b) (signed a - signed b) ∧
    Reads (fxpShr (fxpMul a b) fDigits) ((signed a * signed b).tdiv (10 ^ 8)) ∧
    (signed b ≠ 0 → ∃ q, fxpDiv fuel (fxpShl a fDigits) b = some q ∧
      Reads q ((signed a * 10 ^ 8).tdiv (signed b))) ∧
    ∀ s : State, s.arg1 = a → s.arg0 = b → s.error = false →
      ∃ s', doOp fuel s = some s' ∧ (s'.error = true ↔ Exceeds s.op (signed a) (signed b)) := by
  refine ⟨add_exact left right, sub_exact left right, mul_exact left right, div_exact enough left right, ?_⟩
  rintro s rfl rfl fresh
  exact doOp_error enough left right fresh

def unit (d : Int) (negative : Bool) : Fxpn := ⟨List.replicate 8 0 ++ d :: List.replicate 23 0, negative⟩

theorem calc_exact_thirds : ∃ q, fxpDiv 10 (fxpShl (unit 2 true) fDigits) (unit 3 false) = some q ∧
    Reads q ((signed (unit 2 true) * 10 ^ 8).tdiv (signed (unit 3 false))) := by
  have left : Operand (unit 2 true) := ⟨⟨rfl, by decide⟩, by decide⟩
  have right : Operand (unit 3 false) := ⟨⟨rfl, by decide⟩, by decide⟩
  obtain ⟨-, -, -, quotient, -⟩ := calc_exact left right (le_refl 10)
  exact quotient (by decide)

end Operations

end Calc
