import Newsys.Kern.Machine
import Newsys.Lib.Bytes
import Newsys.Lib.Ints
import Mathlib.Data.List.DropRight
import Mathlib.Data.Nat.Digits.Lemmas

/- Characters and the reading of numbers (lib/ctype, lib/stdlib/strtol.c, strtoll.c, strtoul.c, strtoull.c). A string is
   given without its NUL: where the bytes end, `*ptr` is 0. -/
namespace Libc
open Bytes Ints Kern List Nat

def chr (c : Char) : Byte := BitVec.ofNat 8 c.toNat

def isdigit (c : Byte) : Bool := chr '0' ≤ c && c ≤ chr '9'

def isupper (c : Byte) : Bool := chr 'A' ≤ c && c ≤ chr 'Z'

def islower (c : Byte) : Bool := chr 'a' ≤ c && c ≤ chr 'z'

def isspace (c : Byte) : Bool :=
  c == chr ' ' || c == chr '\t' || c == chr '\r' || c == chr '\n' || c == 11

def longBits : Machine → Nat
  | .i386 => 32
  | .amd64 => 64

def peek (s : List Byte) : Byte := s.headD 0

/-- What one of the functions returns: the value, where `*endptr` points if it is stored to, and whether `errno` is set
    to ERANGE. -/
structure Read (α : Type) where
  value : α
  endptr : Option (List Byte)
  erange : Bool
  deriving DecidableEq

def digitOf (c : Byte) : Option Nat :=
  if isdigit c then some (c.toNat - (chr '0').toNat)
  else if isupper c then some (c.toNat - (chr 'A').toNat + 10)
  else if islower c then some (c.toNat - (chr 'a').toNat + 10)
  else none

def scanDigits (w base : Nat) : Nat → List Byte → Read Nat
  | v, [] => ⟨v, some [], false⟩
  | v, c :: cs =>
    match digitOf c with
    | none => ⟨v, some (c :: cs), false⟩
    | some digit =>
      if base ≤ digit then ⟨v, some (c :: cs), false⟩
      else if v * base % 2 ^ w / base ≠ v then ⟨v * base % 2 ^ w, some (c :: cs), true⟩
      else scanDigits w base ((v * base % 2 ^ w + digit) % 2 ^ w) cs

def startsHex (s : List Byte) : Bool := s.head? = some (chr '0') && (s[1]? = some (chr 'x') || s[1]? = some (chr 'X'))

def basePrefix (base : Nat) (s : List Byte) : Nat × List Byte :=
  if base = 0 then
    if peek s = chr '0' then if startsHex s then (16, s.drop 2) else (8, s.drop 1)
    else (10, s)
  else if base = 16 ∧ startsHex s then (base, s.drop 2)
  else (base, s)

/-- `strtoul` and `strtoull` are the same text for two widths. -/
def strtou (w : Nat) (nptr : List Byte) (base : Nat) : Read Nat :=
  let (base, ptr) := basePrefix base (nptr.dropWhile isspace)
  scanDigits w base 0 ptr

def strtoul (m : Machine) : List Byte → Nat → Read Nat := strtou (longBits m)

def strtoull : List Byte → Nat → Read Nat := strtou 64

def maxOf (w : Nat) : Nat := 2 ^ (w - 1) - 1

/-- `strtol` and `strtoll`; both compare an unnegated value with `LLONG_MAX`. -/
def strtos (w : Nat) (nptr : List Byte) (base : Nat) : Read Int :=
  let ptr := nptr.dropWhile isspace
  let neg := peek ptr = chr '-'
  let uv := strtou w (if peek ptr = chr '-' ∨ peek ptr = chr '+' then ptr.drop 1 else ptr) base
  if neg then
    if uv.value > maxOf w + 1 then ⟨-2 ^ (w - 1), none, true⟩ else ⟨signed w (-uv.value), uv.endptr, uv.erange⟩
  else if uv.value > maxOf 64 then ⟨maxOf w, none, true⟩
  else ⟨signed w uv.value, uv.endptr, uv.erange⟩

def strtol (m : Machine) : List Byte → Nat → Read Int := strtos (longBits m)

def strtoll : List Byte → Nat → Read Int := strtos 64

/- Numerals -/

def digitChar (d : Nat) : Byte := BitVec.ofNat 8 (if d ≤ 9 then (chr '0').toNat + d else (chr 'a').toNat + d - 10)

def numeral (base v : Nat) : List Byte := ((digits base v).map digitChar).reverse

variable {d : Nat}

theorem digitOf_digitChar (lt : d < 16) : digitOf (digitChar d) = some d := by
  interval_cases d <;> decide

theorem not_space_digitChar (lt : d < 16) : isspace (digitChar d) = false := by
  interval_cases d <;> decide

theorem digitChar_ne (lt : d < 16) :
    digitChar d ≠ chr '-' ∧ digitChar d ≠ chr '+' ∧ digitChar d ≠ chr 'x' ∧ digitChar d ≠ chr 'X' := by
  interval_cases d <;> decide

def valueOf (base : Nat) (ds : List Nat) : Nat := ds.foldl (fun v d => v * base + d) 0

theorem valueOf_digits (base v : Nat) : valueOf base (digits base v).reverse = v := by
  rw [valueOf, foldl_reverse]
  have eq := ofDigits_digits base v
  rw [ofDigits_eq_foldr] at eq
  conv_rhs => rw [← eq]
  congr 1
  funext d v
  simp only [cast_id]
  ring

theorem fold_le (base : Nat) (ds : List Nat) (pos : 0 < base) (v : Nat) :
    v ≤ ds.foldl (fun v d => v * base + d) v := by
  induction ds generalizing v with
  | nil => exact le_refl _
  | cons d ds ih =>
    have here := Nat.le_mul_of_pos_right v pos
    exact le_trans (by omega) (ih (v * base + d))

variable {w base : Nat} {ds : List Nat}

theorem scanDigits_fold (pos : 0 < base) (le : base ≤ 16)
    (small : ∀ d ∈ ds, d < base) (fits : ds.foldl (fun v d => v * base + d) v < 2 ^ w) :
    scanDigits w base v (ds.map digitChar ++ rest) =
      scanDigits w base (ds.foldl (fun v d => v * base + d) v) rest := by
  induction ds generalizing v with
  | nil => rfl
  | cons d ds ih =>
    have lt := small d (mem_cons_self ..)
    have bound := fold_le base ds pos (v * base + d)
    rw [foldl_cons] at fits
    have whole : v * base % 2 ^ w = v * base := Nat.mod_eq_of_lt (by omega)
    have next : (v * base + d) % 2 ^ w = v * base + d := Nat.mod_eq_of_lt (by omega)
    rw [map_cons, cons_append, scanDigits, digitOf_digitChar (by omega)]
    simp only [whole, next, Nat.mul_div_cancel v pos, ne_eq, not_true_eq_false, if_false, if_neg (not_le.mpr lt)]
    exact ih (fun x mem => small x (mem_cons_of_mem d mem)) fits

def Ends (base : Nat) (rest : List Byte) : Prop := ∀ c ∈ rest.head?, ∀ d ∈ digitOf c, base ≤ d

theorem scanDigits_ends (ends : Ends base rest) : scanDigits w base v rest = ⟨v, some rest, false⟩ := by
  cases rest with
  | nil => rfl
  | cons c cs =>
    rw [scanDigits]
    cases digit : digitOf c with
    | none => rfl
    | some d => exact if_pos (ends c rfl d digit)

theorem ends_spaces (base n : Nat) : Ends base (replicate n (chr ' ')) := by
  intro c mem d digit
  cases n with
  | zero => cases mem
  | succ n =>
    cases mem
    cases digit

theorem dropWhile_spaces (n : Nat) (s : List Byte) :
    (replicate n (chr ' ') ++ s).dropWhile isspace = s.dropWhile isspace := by
  induction n with
  | zero => rfl
  | succ n ih => rw [replicate_succ, cons_append, dropWhile_cons_of_pos (by decide), ih]

theorem startsHex_digits (small : ∀ d ∈ ds, d < 16) (n : Nat) :
    startsHex (ds.map digitChar ++ replicate n (chr ' ')) = false := by
  have blank : ∀ k : Nat, startsHex (replicate k (chr ' ')) = false := by
    intro k
    cases k <;> rfl
  cases ds with
  | nil => exact blank n
  | cons d ds =>
    have second : (ds.map digitChar ++ replicate n (chr ' '))[0]? ≠ some (chr 'x') ∧
        (ds.map digitChar ++ replicate n (chr ' '))[0]? ≠ some (chr 'X') := by
      cases ds with
      | nil =>
        have blank : chr ' ' ≠ chr 'x' ∧ chr ' ' ≠ chr 'X' := by decide
        cases n <;> simp [replicate_succ, blank]
      | cons e ds =>
        have other := digitChar_ne (small e (by simp))
        simpa using other.2.2
    simp [startsHex, second]

theorem strtou_digits (l r : Nat) (pos : 0 < base) (le : base ≤ 16)
    (small : ∀ d ∈ ds, d < base) (fits : valueOf base ds < 2 ^ w) :
    strtou w (replicate l (chr ' ') ++ (ds.map digitChar ++ replicate r (chr ' '))) base =
      ⟨valueOf base ds, some (if ds = [] then [] else replicate r (chr ' ')), false⟩ := by
  have small16 : ∀ d ∈ ds, d < 16 := fun d mem => lt_of_lt_of_le (small d mem) le
  have plain : ∀ s : List Byte, startsHex s = false → basePrefix base s = (base, s) := by
    intro s no
    rw [basePrefix, if_neg (by omega), no]
    simp
  rw [strtou, dropWhile_spaces]
  cases ds with
  | nil =>
    have blank : (replicate r (chr ' ')).dropWhile isspace = [] := by
      have all := dropWhile_spaces r []
      rwa [append_nil] at all
    rw [map_nil, nil_append, blank, plain [] rfl]
    rfl
  | cons d ds =>
    have front : isspace (digitChar d) = false := not_space_digitChar (small16 d (mem_cons_self ..))
    rw [map_cons, cons_append, dropWhile_cons_of_neg (by simp [front]), ← cons_append,
      ← map_cons, plain _ (startsHex_digits small16 r)]
    simp only
    rw [scanDigits_fold pos le small fits, scanDigits_ends (ends_spaces base r), if_neg (by simp)]
    rfl

theorem valueOf_zeros (base n : Nat) (ds : List Nat) : valueOf base (replicate n 0 ++ ds) = valueOf base ds := by
  rw [valueOf, foldl_append]
  have zero : (replicate n 0).foldl (fun v d => v * base + d) 0 = 0 := by
    induction n with
    | zero => rfl
    | succ n ih => simpa [replicate_succ] using ih
  rw [zero]
  rfl

theorem strtos_digits (l r : Nat) (neg : Bool) (bits : w ≤ 64) (wide : 0 < w)
    (pos : 0 < base) (le : base ≤ 16) (small : ∀ d ∈ ds, d < base)
    (fits : Fits w (if neg then -(valueOf base ds : Int) else valueOf base ds)) :
    (strtos w (replicate l (chr ' ') ++ ((if neg then [chr '-'] else []) ++
      (ds.map digitChar ++ replicate r (chr ' ')))) base).value =
      if neg then -(valueOf base ds : Int) else valueOf base ds := by
  have split : 2 ^ w = 2 ^ (w - 1) + 2 ^ (w - 1) := by
    obtain ⟨v, rfl⟩ : ∃ v, w = v + 1 := ⟨w - 1, by omega⟩
    rw [Nat.add_sub_cancel, Nat.pow_succ]
    omega
  have power : (2 : Int) ^ (w - 1) = (2 ^ (w - 1) : Nat) := by push_cast; rfl
  have half : 0 < 2 ^ (w - 1) := Nat.pow_pos (by decide)
  have top : 2 ^ (w - 1) ≤ 2 ^ 63 := Nat.pow_le_pow_right (by decide) (by omega)
  rw [strtos, dropWhile_spaces]
  obtain ⟨lo, hi⟩ := fits
  rw [power] at lo hi
  cases neg with
  | true =>
    simp only [if_true] at lo hi ⊢
    have small' : valueOf base ds < 2 ^ w := by omega
    have read := strtou_digits 0 r pos le small small'
    rw [replicate_zero, nil_append] at read
    have sign : ([chr '-'] ++ (ds.map digitChar ++ replicate r (chr ' '))).dropWhile isspace =
        chr '-' :: (ds.map digitChar ++ replicate r (chr ' ')) := dropWhile_cons_of_neg (by decide)
    simp only [sign, peek, headD_cons, true_or, if_true, drop_succ_cons, drop_zero, read]
    rw [if_neg (by simp only [maxOf]; omega)]
    exact signed_eq wide ⟨by rw [power]; exact lo, by rw [power]; exact hi⟩
  | false =>
    simp only [Bool.false_eq_true, if_false, nil_append] at lo hi ⊢
    have small' : valueOf base ds < 2 ^ w := by omega
    have read := strtou_digits 0 r pos le small small'
    rw [replicate_zero, nil_append] at read
    have value : (strtou w ((ds.map digitChar ++ replicate r (chr ' ')).dropWhile isspace) base).value =
        valueOf base ds := by
      refine Eq.trans ?_ (congrArg Read.value read)
      simp only [strtou, dropWhile_idempotent]
    have plain : peek ((ds.map digitChar ++ replicate r (chr ' ')).dropWhile isspace) ≠ chr '-' ∧
        peek ((ds.map digitChar ++ replicate r (chr ' ')).dropWhile isspace) ≠ chr '+' := by
      cases ds with
      | nil =>
        have blank := dropWhile_spaces r []
        rw [append_nil] at blank
        rw [map_nil, nil_append, blank]
        exact ⟨by decide, by decide⟩
      | cons d ds =>
        have lt : d < 16 := lt_of_lt_of_le (small d (mem_cons_self ..)) le
        have other := digitChar_ne lt
        rw [map_cons, cons_append, dropWhile_cons_of_neg (by simp [not_space_digitChar lt])]
        exact ⟨other.1, other.2.1⟩
    simp only [plain.1, plain.2, or_self, if_false, value]
    rw [if_neg (by simp only [maxOf]; omega)]
    exact signed_eq wide ⟨by rw [power]; exact lo, by rw [power]; exact hi⟩

end Libc
