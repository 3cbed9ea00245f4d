import Newsys.Libc.Strtol

/- Numbers that do not fit (lib/stdlib/strtol.c, strtoul.c, strtoull.c). An overflow is looked for in the multiplication
   only, and the digit at which it is found is not read. -/
namespace Libc
open Bytes Ints Kern List Nat Bool Option

def valid (base : Nat) (c : Byte) : Bool := (digitOf c).any (· < base)

def digits (base : Nat) (s : List Byte) : List Nat := (s.takeWhile (valid base)).filterMap digitOf

/-- The base of a number, and where its digits start. A `0x` belongs to it where a digit follows. -/
def numberAt (base : Nat) (s : List Byte) : Nat × List Byte :=
  if (base = 0 ∨ base = 16) ∧ startsHex s ∧ valid 16 (peek (s.drop 2)) then (16, s.drop 2)
  else if base = 0 then (if peek s = chr '0' then 8 else 10, s)
  else (base, s)

/-- The number at the start of a string, and what is behind it. -/
def numberOf (base : Nat) (s : List Byte) : Nat :=
  valueOf (numberAt base s).1 (digits (numberAt base s).1 (numberAt base s).2)

def behindNumber (base : Nat) (s : List Byte) : List Byte := (numberAt base s).2.dropWhile (valid (numberAt base s).1)

/-- What is read is the number, or the largest one if it does not fit. The end pointer is behind the digits. -/
structure Exact (w v : Nat) (rest : List Byte) (r : Read Nat) : Prop where
  fits : v < 2 ^ w → r.value = v ∧ r.endptr = some rest
  range : 2 ^ w ≤ v → r.value = 2 ^ w - 1 ∧ r.endptr = some rest ∧ r.erange = true

/-- The same for a signed type, with its limits. -/
structure ExactSigned (w : Nat) (v : Int) (rest : List Byte) (r : Read Int) : Prop where
  fits : Fits w v → r.value = v ∧ r.endptr = some rest
  range : ¬ Fits w v → r.value = (if v < 0 then -2 ^ (w - 1) else 2 ^ (w - 1) - 1) ∧ r.endptr = some rest ∧
    r.erange = true

/-- A `0x` without a digit behind it. -/
def BareHex (base : Nat) (s : List Byte) : Prop :=
  (base = 0 ∨ base = 16) ∧ startsHex s = true ∧ valid 16 (peek (s.drop 2)) = false

/-- The text of a signed number behind white space and its sign. -/
def unsignedPart (s : List Byte) : List Byte :=
  let ptr := s.dropWhile isspace
  if peek ptr = chr '-' ∨ peek ptr = chr '+' then ptr.drop 1 else ptr

def signedNumber (base : Nat) (s : List Byte) : Int :=
  if peek (s.dropWhile isspace) = chr '-' then -(numberOf base (unsignedPart s) : Int)
  else numberOf base (unsignedPart s)

section Scan
variable {w base : Nat}

variable {c : Byte}

theorem valid_some (digit : digitOf c = some d) : valid base c = decide (d < base) := by
  rw [valid, digit]
  rfl

theorem valid_none (none : digitOf c = none) : valid base c = false := by
  rw [valid, none]
  rfl

theorem scanDigits_stop (stop : valid base (peek s) = false) (v : Nat) :
    scanDigits w base v s = ⟨v, some s, false⟩ := by
  cases s with
  | nil => rfl
  | cons c cs =>
    rw [scanDigits]
    cases digit : digitOf c with
    | none => rfl
    | some d =>
      have not : ¬ d < base := by
        rw [peek, headD_cons, valid_some digit] at stop
        exact of_decide_eq_false stop
      simp only
      rw [if_pos (by omega)]

theorem digits_stop (base : Nat) (stop : valid base (peek s) = false) :
    digits base s = [] ∧ s.dropWhile (valid base) = s := by
  cases s with
  | nil => exact ⟨rfl, rfl⟩
  | cons c cs =>
    have stop : valid base c = false := stop
    rw [digits, takeWhile_cons, stop, dropWhile_cons, stop]
    exact ⟨rfl, rfl⟩

theorem digits_cons (digit : digitOf c = some d) (lt : d < base) (cs : List Byte) :
    digits base (c :: cs) = d :: digits base cs ∧ (c :: cs).dropWhile (valid base) = cs.dropWhile (valid base) := by
  have here : valid base c = true := (valid_some digit).trans (decide_eq_true lt)
  rw [digits, takeWhile_cons, here, dropWhile_cons, here]
  exact ⟨filterMap_cons_some digit, rfl⟩

theorem digitOf_zero : digitOf (chr '0') = some 0 := by decide

/-- What is read after an overflow: the end pointer is not behind all digits, or no error is reported. -/
def Lost (base : Nat) (s : List Byte) {α : Type} (r : Read α) : Prop :=
  ¬ (r.erange = true ∧ r.endptr = some (s.dropWhile (valid base)))

theorem scanDigits_spec (pos : 0 < base) (s : List Byte) : ∀ v, v < 2 ^ w →
    ((digits base s).foldl (fun v d => v * base + d) v < 2 ^ w → scanDigits w base v s =
      ⟨(digits base s).foldl (fun v d => v * base + d) v, some (s.dropWhile (valid base)), false⟩) ∧
    (2 ^ w ≤ (digits base s).foldl (fun v d => v * base + d) v → Lost base s (scanDigits w base v s)) := by
  induction s with
  | nil => exact fun v lt => ⟨fun _ => rfl, fun ge => absurd ge (not_le.mpr lt)⟩
  | cons c cs ih =>
    intro v lt
    by_cases stop : valid base c = false
    · obtain ⟨none, rest⟩ := digits_stop base (s := c :: cs) stop
      rw [none, rest, scanDigits_stop stop]
      exact ⟨fun _ => rfl, fun ge => absurd ge (not_le.mpr lt)⟩
    obtain ⟨d, digit, small⟩ : ∃ d, digitOf c = some d ∧ d < base := by
      cases digit : digitOf c with
      | none => exact absurd (valid_none digit) stop
      | some d => exact ⟨d, rfl, by simpa [valid_some digit] using stop⟩
    obtain ⟨cons, rest⟩ := digits_cons digit small cs
    have grows := fold_le base (digits base cs) pos (v * base + d)
    rw [Lost, rest, cons, foldl_cons, scanDigits, digit]
    simp only
    rw [if_neg (by omega)]
    by_cases beyond : v * base % 2 ^ w / base ≠ v
    · rw [if_pos beyond]
      refine ⟨fun fits => ?_, fun _ both => ?_⟩
      · -- a product that fits is divided exactly
        rw [Nat.mod_eq_of_lt (by omega), Nat.mul_div_cancel _ pos] at beyond
        exact absurd rfl beyond
      · have here := congrArg length (some.inj both.2)
        have shorter := (dropWhile_sublist (valid base) (l := cs)).length_le
        rw [length_cons] at here
        omega
    rw [if_neg beyond]
    by_cases fits : v * base + d < 2 ^ w
    · rw [mod_eq_of_lt (show v * base < 2 ^ w by omega), mod_eq_of_lt fits]
      exact ih _ fits
    · refine ⟨fun small => absurd small (by omega), fun _ => ?_⟩
      obtain ⟨exact, lost⟩ := ih _ (Nat.mod_lt (v * base % 2 ^ w + d) (Nat.two_pow_pos w))
      by_cases again : (digits base cs).foldl (fun v d => v * base + d) ((v * base % 2 ^ w + d) % 2 ^ w) < 2 ^ w
      · rw [exact again]
        exact fun both => absurd both.1 false_ne_true
      · exact lost (not_lt.mp again)

end Scan

section Number
variable {w base : Nat}

variable {t : List Byte}

theorem startsHex_cons (hex : startsHex t = true) : ∃ x cs, t = chr '0' :: x :: cs ∧ (x = chr 'x' ∨ x = chr 'X') := by
  rw [startsHex, and_eq_true, or_eq_true] at hex
  obtain ⟨zero, x⟩ := hex
  rcases t with _ | ⟨c, _ | ⟨x', cs⟩⟩
  · simp at zero
  · simp at x
  · simp only [head?_cons, getElem?_cons_succ, getElem?_cons_zero, some.injEq, decide_eq_true_eq]
      at zero x
    exact ⟨x', cs, by rw [zero], x⟩

theorem peek_cons (nonzero : c ≠ 0) (here : peek t = c) : ∃ cs, t = c :: cs := by
  cases t with
  | nil => exact absurd here.symm nonzero
  | cons c' cs => exact ⟨cs, by rw [show c' = c from here]⟩

theorem basePrefix_eq (known : base = 0 ∨ 2 ≤ base) (other : ¬ BareHex base t) :
    ∃ b ptr, basePrefix base t = (b, ptr) ∧ 0 < b ∧ numberOf base t = (digits b ptr).foldl (fun v d => v * b + d) 0 ∧
      behindNumber base t = ptr.dropWhile (valid b) := by
  by_cases hex : (base = 0 ∨ base = 16) ∧ startsHex t = true
  · have follows : valid 16 (peek (t.drop 2)) = true := by
      cases follows : valid 16 (peek (t.drop 2)) with
      | true => rfl
      | false => exact absurd ⟨hex.1, hex.2, follows⟩ other
    have at' : numberAt base t = (16, t.drop 2) := if_pos ⟨hex.1, hex.2, follows⟩
    refine ⟨16, t.drop 2, ?_, by decide, by rw [numberOf, at']; rfl, by rw [behindNumber, at']⟩
    rw [basePrefix]
    rcases hex.1 with rfl | rfl
    · obtain ⟨x, cs, rfl, -⟩ := startsHex_cons hex.2
      rw [if_pos rfl, if_pos (by rfl), hex.2]
      rfl
    · rw [if_neg (by decide), if_pos ⟨rfl, hex.2⟩]
  have at' : numberAt base t = if base = 0 then (if peek t = chr '0' then 8 else 10, t) else (base, t) :=
    if_neg fun all => hex ⟨all.1, all.2.1⟩
  rw [numberOf, behindNumber, at', basePrefix]
  by_cases zero : base = 0
  · subst zero
    have plain : startsHex t = false := by simpa using hex
    simp only [if_true]
    by_cases octal : peek t = chr '0'
    · obtain ⟨cs, rfl⟩ := peek_cons (by decide) octal
      obtain ⟨cons, rest⟩ := digits_cons digitOf_zero (show 0 < 8 by decide) cs
      rw [if_pos octal, if_pos octal, plain, cons, rest]
      exact ⟨8, cs, rfl, by decide, rfl, rfl⟩
    · rw [if_neg octal, if_neg octal]
      exact ⟨10, t, rfl, by decide, rfl, rfl⟩
  · have two : 2 ≤ base := known.resolve_left zero
    rw [if_neg zero, if_neg zero, if_neg fun both => hex ⟨.inr both.1, both.2⟩]
    exact ⟨base, t, rfl, by omega, rfl, rfl⟩

variable {s : List Byte}

theorem strtou_bare (bare : BareHex base (s.dropWhile isspace)) :
    strtou w s base = ⟨0, some ((s.dropWhile isspace).drop 2), false⟩ ∧ numberOf base (s.dropWhile isspace) = 0 ∧
      behindNumber base (s.dropWhile isspace) ≠ (s.dropWhile isspace).drop 2 := by
  obtain ⟨known, hex, nothing⟩ := bare
  rw [strtou]
  generalize s.dropWhile isspace = t at *
  obtain ⟨x, cs, rfl, letter⟩ := startsHex_cons hex
  obtain ⟨b, at', some, not⟩ : ∃ b, numberAt base (chr '0' :: x :: cs) = (b, chr '0' :: x :: cs) ∧ 0 < b ∧
      valid b x = false := by
    rw [numberAt, if_neg fun all => by rw [nothing] at all; exact false_ne_true all.2.2]
    rcases known with rfl | rfl
    · exact ⟨8, rfl, by decide, by rcases letter with rfl | rfl <;> decide⟩
    · exact ⟨16, rfl, by decide, by rcases letter with rfl | rfl <;> decide⟩
  have code : basePrefix base (chr '0' :: x :: cs) = (16, cs) := by
    rw [basePrefix]
    rcases known with rfl | rfl
    · rw [if_pos rfl, if_pos (by rfl), hex]
      rfl
    · rw [if_neg (by decide), if_pos ⟨rfl, hex⟩]
      rfl
  obtain ⟨cons, rest⟩ := digits_cons digitOf_zero some (x :: cs)
  obtain ⟨none, rest'⟩ := digits_stop b (s := x :: cs) not
  rw [code, numberOf, behindNumber, at', cons, rest, none, rest']
  refine ⟨scanDigits_stop nothing 0, by simp [valueOf], fun eq => ?_⟩
  have length := congrArg length eq
  simp only [drop_succ_cons, drop_zero, length_cons] at length
  omega

theorem strtou_spec (known : base = 0 ∨ 2 ≤ base) (other : ¬ BareHex base (s.dropWhile isspace)) :
    (numberOf base (s.dropWhile isspace) < 2 ^ w → strtou w s base =
      ⟨numberOf base (s.dropWhile isspace), some (behindNumber base (s.dropWhile isspace)), false⟩) ∧
    (2 ^ w ≤ numberOf base (s.dropWhile isspace) → ¬ ((strtou w s base).erange = true ∧
      (strtou w s base).endptr = some (behindNumber base (s.dropWhile isspace)))) := by
  obtain ⟨b, ptr, code, pos, value, rest⟩ := basePrefix_eq known other
  rw [strtou, code, value, rest]
  exact scanDigits_spec pos ptr 0 (Nat.two_pow_pos w)

theorem strtou_exact_iff (w : Nat) (known : base = 0 ∨ 2 ≤ base) (s : List Byte) :
    Exact w (numberOf base (s.dropWhile isspace)) (behindNumber base (s.dropWhile isspace)) (strtou w s base) ↔
      numberOf base (s.dropWhile isspace) < 2 ^ w ∧ ¬ BareHex base (s.dropWhile isspace) := by
  by_cases bare : BareHex base (s.dropWhile isspace)
  · obtain ⟨read, zero, behind⟩ := strtou_bare (w := w) bare
    refine iff_of_false (fun exact => ?_) fun both => both.2 bare
    have endptr := (exact.fits (by rw [zero]; exact Nat.two_pow_pos w)).2
    rw [read] at endptr
    exact behind (some.inj endptr).symm
  · obtain ⟨fits, lost⟩ := strtou_spec (w := w) known bare
    by_cases lt : numberOf base (s.dropWhile isspace) < 2 ^ w
    · refine iff_of_true ⟨fun _ => ?_, fun ge => absurd lt (not_lt.mpr ge)⟩ ⟨lt, bare⟩
      rw [fits lt]
      exact ⟨rfl, rfl⟩
    · refine iff_of_false (fun exact => ?_) fun both => lt both.1
      obtain ⟨-, endptr, erange⟩ := exact.range (not_lt.mp lt)
      exact lost (not_lt.mp lt) ⟨erange, endptr⟩

theorem scanDigits_endptr (w base : Nat) (s : List Byte) : ∀ v,
    ∃ rest, (scanDigits w base v s).endptr = some rest ∧ rest.length ≤ s.length := by
  induction s with
  | nil => exact fun v => ⟨[], rfl, le_refl _⟩
  | cons c cs ih =>
    intro v
    rw [scanDigits]
    cases digitOf c with
    | none => exact ⟨c :: cs, rfl, le_refl _⟩
    | some d =>
      simp only
      split
      · exact ⟨c :: cs, rfl, le_refl _⟩
      · split
        · exact ⟨c :: cs, rfl, le_refl _⟩
        · obtain ⟨rest, eq, le⟩ := ih ((v * base % 2 ^ w + d) % 2 ^ w)
          exact ⟨rest, eq, le_succ_of_le le⟩

theorem basePrefix_length (base : Nat) (t : List Byte) : (basePrefix base t).2.length ≤ t.length := by
  rw [basePrefix]
  split_ifs <;> simp only [length_drop] <;> omega

theorem strtou_endptr (w base : Nat) (blank : isspace (peek s) = true) : (strtou w s base).endptr ≠ some s := by
  obtain ⟨rest, eq, le⟩ := scanDigits_endptr w (basePrefix base (s.dropWhile isspace)).1
    (basePrefix base (s.dropWhile isspace)).2 0
  have prefix' := basePrefix_length base (s.dropWhile isspace)
  rw [strtou, eq]
  intro same
  have same := some.inj same
  cases s with
  | nil => exact absurd blank (by decide)
  | cons c cs =>
    have shorter := (dropWhile_sublist isspace (l := cs)).length_le
    have blank : isspace c = true := blank
    rw [dropWhile_cons, blank, if_pos rfl] at le prefix'
    have length := congrArg length same
    rw [length_cons] at length
    omega

theorem digitOf_blank (blank : isspace c = true) : digitOf c = none := by
  simp only [isspace, or_eq_true, beq_iff_eq] at blank
  rcases blank with (((rfl | rfl) | rfl) | rfl) | rfl <;> decide

theorem number_blank (base : Nat) (blank : isspace (peek s) = true) :
    numberOf base s = 0 ∧ behindNumber base s = s := by
  have zero : peek s ≠ chr '0' := fun eq => by
    rw [eq] at blank
    exact absurd blank (by decide)
  have plain : ¬ startsHex s = true := fun hex => by
    obtain ⟨x, cs, rfl, -⟩ := startsHex_cons hex
    exact zero rfl
  obtain ⟨b, at'⟩ : ∃ b, numberAt base s = (b, s) := by
    rw [numberAt, if_neg fun all => plain all.2.1]
    split
    · exact ⟨_, rfl⟩
    · exact ⟨_, rfl⟩
  obtain ⟨none, rest⟩ := digits_stop b (s := s) (valid_none (digitOf_blank blank))
  rw [numberOf, behindNumber, at', none, rest]
  exact ⟨rfl, rfl⟩

def withSign (w : Nat) (neg : Prop) [Decidable neg] (uv : Read Nat) : Read Int :=
  if neg then
    if uv.value > maxOf w + 1 then ⟨-2 ^ (w - 1), none, true⟩ else ⟨signed w (-uv.value), uv.endptr, uv.erange⟩
  else if uv.value > maxOf 64 then ⟨maxOf w, none, true⟩
  else ⟨signed w uv.value, uv.endptr, uv.erange⟩

theorem withSign_endptr (w : Nat) (neg : Prop) [Decidable neg] (uv : Read Nat)
    (here : (withSign w neg uv).endptr = some rest) :
    uv.endptr = some rest ∧ (withSign w neg uv).erange = uv.erange := by
  unfold withSign at *
  split_ifs at * <;> exact ⟨here, rfl⟩

theorem withSign_exact (narrow : 0 < w) (wide : w ≤ 64) (neg : Prop) [Decidable neg] {v : Nat} (lt : v < 2 ^ w)
    (rest : List Byte) : ExactSigned w (if neg then -(v : Int) else v) rest (withSign w neg ⟨v, some rest, false⟩) ↔
      Fits w (if neg then -(v : Int) else v) := by
  have double := pow_split narrow
  have cast : (v : Int) < 2 ^ w := by exact_mod_cast lt
  have most : ((maxOf w : Nat) : Int) + 1 = 2 ^ (w - 1) := by
    have one := Nat.one_le_two_pow (n := w - 1)
    rw [maxOf, cast_sub one]
    push_cast
    omega
  have bound : (2 : Int) ^ (w - 1) ≤ 2 ^ 63 := pow_le_pow_right₀ (by decide) (by omega)
  constructor
  · intro exact
    by_contra not
    obtain ⟨value, endptr, erange⟩ := exact.range not
    have same := (withSign_endptr _ _ _ endptr).2
    rw [erange] at same
    cases same
  · refine fun fits => ⟨fun _ => ?_, fun not => absurd fits not⟩
    unfold withSign
    by_cases minus : neg
    · rw [if_pos minus] at fits ⊢
      rw [if_pos minus, if_neg (by have := fits.1; dsimp only; omega)]
      exact ⟨signed_eq narrow fits, rfl⟩
    · rw [if_neg minus] at fits ⊢
      rw [if_neg minus, if_neg (by have := fits.2; simp only [maxOf]; omega)]
      exact ⟨signed_eq narrow fits, rfl⟩

theorem strtos_exact_iff (narrow : 0 < w) (wide : w ≤ 64) (known : base = 0 ∨ 2 ≤ base) (s : List Byte) :
    ExactSigned w (signedNumber base s) (behindNumber base (unsignedPart s)) (strtos w s base) ↔
      Fits w (signedNumber base s) ∧ ¬ BareHex base (unsignedPart s) ∧ isspace (peek (unsignedPart s)) = false := by
  change ExactSigned w (signedNumber base s) _ (withSign w (peek (s.dropWhile isspace) = chr '-')
    (strtou w (unsignedPart s) base)) ↔ _
  rw [signedNumber]
  generalize peek (s.dropWhile isspace) = sign
  generalize unsignedPart s = u
  have half : (0 : Int) < 2 ^ (w - 1) := Int.pow_pos (by decide)
  have zero : Fits w (if sign = chr '-' then -((0 : Nat) : Int) else (0 : Nat)) := by
    split <;> constructor <;> omega
  by_cases blank : isspace (peek u) = true
  · obtain ⟨none, rest⟩ := number_blank base blank
    rw [none, rest]
    refine iff_of_false (fun exact => ?_) fun all => absurd all.2.2 (by rw [blank]; decide)
    exact strtou_endptr w base blank (withSign_endptr _ _ _ (exact.fits zero).2).1
  have start : u.dropWhile isspace = u := by
    cases u with
    | nil => rfl
    | cons c cs => exact dropWhile_cons_of_neg blank
  by_cases bare : BareHex base u
  · obtain ⟨read, none, behind⟩ := strtou_bare (w := w) (s := u) (by rwa [start])
    rw [start] at read none behind
    refine iff_of_false (fun exact => ?_) fun all => all.2.1 bare
    rw [none] at exact
    have endptr := (withSign_endptr _ _ _ (exact.fits zero).2).1
    rw [read] at endptr
    exact behind (some.inj endptr).symm
  obtain ⟨fits, lost⟩ := strtou_spec (w := w) known (s := u) (by rwa [start])
  rw [start] at fits lost
  have rest : ¬ BareHex base u ∧ isspace (peek u) = false := ⟨bare, by simpa using blank⟩
  rw [and_iff_left rest]
  by_cases lt : numberOf base u < 2 ^ w
  · rw [fits lt]
    exact withSign_exact narrow wide _ lt _
  · have large : ¬ Fits w (if sign = chr '-' then -(numberOf base u : Int) else numberOf base u) := by
      have double := pow_split narrow
      have ge : (2 : Int) ^ w ≤ numberOf base u := by exact_mod_cast not_lt.mp lt
      split <;> rintro ⟨lo, hi⟩ <;> omega
    refine iff_of_false (fun exact => ?_) large
    obtain ⟨-, endptr, erange⟩ := exact.range large
    obtain ⟨same, same'⟩ := withSign_endptr _ _ _ endptr
    exact lost (not_lt.mp lt) ⟨by rw [← same', erange], same⟩

end Number

/-- Numbers that fit are read exactly. One that does not is never reported with its limit and with the end pointer
    behind it. -/
theorem erange_iff (m : Machine) {base : Nat} (known : base = 0 ∨ 2 ≤ base ∧ base ≤ 36) (s : List Byte) :
    (Exact 64 (numberOf base (s.dropWhile isspace)) (behindNumber base (s.dropWhile isspace)) (strtoull s base) ↔
      numberOf base (s.dropWhile isspace) < 2 ^ 64 ∧ ¬ BareHex base (s.dropWhile isspace)) ∧
    (ExactSigned (longBits m) (signedNumber base s) (behindNumber base (unsignedPart s)) (strtol m s base) ↔
      Fits (longBits m) (signedNumber base s) ∧ ¬ BareHex base (unsignedPart s) ∧
        isspace (peek (unsignedPart s)) = false) := by
  have known : base = 0 ∨ 2 ≤ base := known.imp_right And.left
  have narrow : 0 < longBits m := by cases m <;> decide
  have wide : longBits m ≤ 64 := by cases m <;> decide
  exact ⟨strtou_exact_iff 64 known s, strtos_exact_iff narrow wide known s⟩

def bytes (s : String) : List Byte := s.toList.map chr

theorem erange_iff_decimal :
    (Exact 64 (numberOf 10 ((bytes " 12x").dropWhile isspace)) (behindNumber 10 ((bytes " 12x").dropWhile isspace))
        (strtoull (bytes " 12x") 10) ↔
      numberOf 10 ((bytes " 12x").dropWhile isspace) < 2 ^ 64 ∧ ¬ BareHex 10 ((bytes " 12x").dropWhile isspace)) ∧
    (ExactSigned (longBits .i386) (signedNumber 10 (bytes " 12x")) (behindNumber 10 (unsignedPart (bytes " 12x")))
        (strtol .i386 (bytes " 12x") 10) ↔
      Fits (longBits .i386) (signedNumber 10 (bytes " 12x")) ∧ ¬ BareHex 10 (unsignedPart (bytes " 12x")) ∧
        isspace (peek (unsignedPart (bytes " 12x"))) = false) :=
  erange_iff .i386 (.inr ⟨by decide, by decide⟩) (bytes " 12x")

/-- 2^64 + 1 is read as 1, and 2^31 as -2^31 by the `strtol` of the i386, both without an error. -/
theorem erange_not_reported : strtoull (bytes "18446744073709551617") 10 = ⟨1, some [], false⟩ ∧
    ¬ Exact 64 (numberOf 10 (bytes "18446744073709551617")) [] (strtoull (bytes "18446744073709551617") 10) ∧
    strtol .i386 (bytes "2147483648") 10 = ⟨-2147483648, some [], false⟩ ∧
    ¬ ExactSigned 32 (signedNumber 10 (bytes "2147483648")) [] (strtol .i386 (bytes "2147483648") 10) := by
  have unsigned : strtoull (bytes "18446744073709551617") 10 = ⟨1, some [], false⟩ := by decide +kernel
  have value : numberOf 10 (bytes "18446744073709551617") = 2 ^ 64 + 1 := by decide +kernel
  have signed : strtol .i386 (bytes "2147483648") 10 = ⟨-2147483648, some [], false⟩ := by decide +kernel
  have value' : signedNumber 10 (bytes "2147483648") = 2 ^ 31 := by decide +kernel
  refine ⟨unsigned, fun exact => ?_, signed, fun exact => ?_⟩
  · have erange := (exact.range (by rw [value]; decide)).2.2
    rw [unsigned] at erange
    cases erange
  · have erange := (exact.range (by rw [value']; exact fun fits => absurd fits.2 (by decide))).2.2
    rw [signed] at erange
    cases erange

end Libc
