import Newsys.Lib.Cmd
import Newsys.Libc.Strtol

/- Formatted output (lib/stdio/vfprintf.c). The stream is given by its `fputc`, a command that may fail; a failing
   command is a return of -1, and `crash` stands for `abort` and for reading behind the end of the format. -/
namespace Libc
open Bytes Ints Kern Cmds Cmd List

def sizeMax : Int := 3
def sizePtrdiff : Int := 4
def sizePtr : Int := 5

/-- `struct format`; `alt` is stored and never read. -/
structure Format where
  alt : Bool
  sign : Bool
  zero : Bool
  left : Bool
  spc : Bool
  signedval : Bool
  precision : Int
  width : Int
  size : Int
  base : Nat
  deriving DecidableEq

/-- An argument of a variadic call; one that is fetched under another type of the same kind is converted to it. -/
inductive Arg where
  | num (v : Int)
  | str (s : Option (List Byte))

abbrev PutM (σ : Type) := Cmd Unit σ

section Stream
variable {σ : Type} (fputc : Byte → PutM σ Unit)

def putMany (n : Int) (c : Byte) : PutM σ Unit := forEach (replicate n.toNat c) fputc

def divTimes (base : Nat) : Nat → Nat → Nat
  | 0, v => v
  | c + 1, v => divTimes base c (v / base)

def putnFrom (base v : Nat) : Nat → Bool → PutM σ Unit
  | 0, _ => pure ()
  | i + 1, z => do
    let digit := divTimes base i v % base
    if digit = 0 ∧ z = false then putnFrom base v i z
    else do
      fputc (digitChar digit)
      putnFrom base v i true

def putn (v base : Nat) : PutM σ Unit := putnFrom fputc base v 33 false

def nrDigits (base v : Nat) : Nat :=
  if h : 0 < v ∧ 1 < base then nrDigits base (v / base) + 1 else 0
termination_by v
decreasing_by exact Nat.div_lt_self h.1 h.2

/-- The length is an `int`; the loop does not come to its end where that is negative. -/
def fmtputs (fmt : Format) (str : Option (List Byte)) : PutM σ Unit := do
  let str := str.getD ("(null)".toList.map chr)
  let len := int str.length
  let len := if fmt.precision > 0 ∧ len > fmt.precision then fmt.precision else len
  let nspc := if len < fmt.width then int (fmt.width - len) else 0
  if len < 0 then crash
  else do
    if fmt.left = false then putMany fputc nspc (chr ' ') else pure ()
    forEach (str.take len.toNat) fputc
    if fmt.left then putMany fputc nspc (chr ' ') else pure ()

def signOf (fmt : Format) (neg : Bool) : List Byte :=
  if neg then [chr '-'] else if fmt.sign then [chr '+'] else if fmt.spc then [chr ' '] else []

/-- The result of `fputc` is not looked at for the zeros of the precision. -/
def fmtputn (fmt : Format) (v : Nat) (neg : Bool) : PutM σ Unit := do
  let prec := if fmt.precision ≥ 0 then fmt.precision else 1
  let sgn := signOf fmt neg
  let dcnt : Int := nrDigits fmt.base v
  let pcnt := if prec > dcnt then int (fmt.width - prec) else int (fmt.width - dcnt)
  let pcnt := if sgn = [] then pcnt else int (pcnt - 1)
  let pcnt := if pcnt < 0 then 0 else pcnt
  if fmt.left = false ∧ fmt.zero = false then putMany fputc pcnt (chr ' ') else pure ()
  forEach sgn fputc
  if fmt.left = false ∧ fmt.zero then putMany fputc pcnt (chr '0') else pure ()
  forEach (replicate (prec - dcnt).toNat (chr '0')) fun c => do
    let _ ← attempt (fputc c)
  putn fputc v fmt.base
  if fmt.left then putMany fputc pcnt (chr ' ') else pure ()

/- The parts of a conversion -/

def flags (fmt : Format) : List Byte → Format × List Byte
  | [] => (fmt, [])
  | c :: cs =>
    if c = chr '0' then flags { fmt with zero := true } cs
    else if c = chr '-' then flags { fmt with left := true } cs
    else if c = chr '#' then flags { fmt with alt := true } cs
    else if c = chr ' ' then flags { fmt with sign := false, spc := true } cs
    else if c = chr '+' then flags { fmt with sign := true, spc := false } cs
    else (fmt, c :: cs)

def number (n : Int) : List Byte → Int × List Byte
  | [] => (n, [])
  | c :: cs => if isdigit c then number (int (int (n * 10) + (c.toNat - (chr '0').toNat))) cs else (n, c :: cs)

def precisionOf (fmt : Format) : List Byte → Format × List Byte
  | [] => (fmt, [])
  | c :: cs =>
    if c ≠ chr '.' then (fmt, c :: cs)
    else if peek cs = chr '-' then ({ fmt with precision := 0 }, (cs.drop 1).dropWhile isdigit)
    else
      let (n, rest) := number 0 cs
      ({ fmt with precision := n }, rest)

def sizes (fmt : Format) : List Byte → Format × List Byte
  | [] => (fmt, [])
  | c :: cs =>
    if c = chr 'L' ∨ c = chr 'l' then sizes { fmt with size := fmt.size + 1 } cs
    else if c = chr 'h' then sizes { fmt with size := fmt.size - 1 } cs
    else if c = chr 't' then sizes { fmt with size := sizePtrdiff } cs
    else if c = chr 'j' then sizes { fmt with size := sizeMax } cs
    else (fmt, c :: cs)

def plainFormat : Format :=
  { alt := false, sign := false, zero := false, left := false, spc := false, signedval := true, precision := -1
    width := 0, size := 0, base := 10 }

def parseFormat (s : List Byte) : Format × List Byte :=
  let (fmt, s) := flags plainFormat s
  let (width, s) := number 0 s
  let (fmt, s) := precisionOf { fmt with width := width } s
  sizes fmt s

/-- The type that `va_arg` fetches; `intmax_t` has 64 bits, `ptrdiff_t` and pointers have those of a `long`. -/
def argBits (m : Machine) (size : Int) : Option Nat :=
  if size = -2 ∨ size = -1 ∨ size = 0 then some 32
  else if size = 1 ∨ size = sizePtrdiff ∨ size = sizePtr then some (longBits m)
  else if size = 2 ∨ size = sizeMax then some 64
  else none

def vaNum : List Arg → PutM σ (Int × List Arg)
  | .num v :: ap => pure (v, ap)
  | _ => crash

def vaStr : List Arg → PutM σ (Option (List Byte) × List Arg)
  | .str s :: ap => pure (s, ap)
  | _ => crash

/-- A conversion of a number. The negation of the least `intmax_t` is that number again. -/
def convertNum (m : Machine) (fmt : Format) (ap : List Arg) : PutM σ (List Arg) := do
  match argBits m fmt.size with
  | none => crash
  | some bits => do
    let (v, ap) ← vaNum ap
    if fmt.signedval then
      let arg := signed bits v
      if arg < 0 then fmtputn fputc fmt (unsigned 64 (signed 64 (-arg))).toNat true
      else fmtputn fputc fmt arg.toNat false
    else fmtputn fputc fmt (unsigned 64 (if fmt.size = sizePtrdiff then signed bits v else unsigned bits v)).toNat false
    pure ap

/-- `switch (*format)` behind `convert`; `strerror` is what `strerror(errno)` returns. -/
def convert (m : Machine) (strerror : List Byte) (fmt : Format) (c : Byte) (ap : List Arg) : PutM σ (List Arg) := do
  if c = chr 'm' then do
    fmtputs fputc fmt (some strerror)
    pure ap
  else if c = chr 's' then do
    let (s, ap) ← vaStr ap
    fmtputs fputc fmt s
    pure ap
  else if c = chr 'c' then do
    let (v, ap) ← vaNum ap
    fputc (BitVec.ofInt 8 v)
    pure ap
  else if c = chr 'd' ∨ c = chr 'i' then convertNum fputc m { fmt with base := 10, signedval := true } ap
  else if c = chr 'u' then convertNum fputc m { fmt with base := 10, signedval := false } ap
  else if c = chr 'o' then convertNum fputc m { fmt with base := 8, signedval := false } ap
  else if c = chr 'p' then convertNum fputc m { fmt with base := 16, signedval := false, size := sizePtr } ap
  else if c = chr 'x' ∨ c = chr 'X' then convertNum fputc m { fmt with base := 16, signedval := false } ap
  else do
    fputc (chr '%')
    fputc c
    pure ap

end Stream

theorem flags_length (fmt : Format) (s : List Byte) : (flags fmt s).2.length ≤ s.length := by
  induction s generalizing fmt with
  | nil => exact le_refl _
  | cons c cs ih =>
    have shorter : ∀ fmt, (flags fmt cs).2.length ≤ cs.length + 1 := fun fmt => Nat.le_succ_of_le (ih fmt)
    rw [flags]
    repeat' split
    all_goals first | exact shorter _ | exact le_refl _

theorem number_length (n : Int) (s : List Byte) : (number n s).2.length ≤ s.length := by
  induction s generalizing n with
  | nil => exact le_refl _
  | cons c cs ih =>
    rw [number]
    split
    · exact Nat.le_succ_of_le (ih _)
    · exact le_refl _

theorem precisionOf_length (fmt : Format) (s : List Byte) : (precisionOf fmt s).2.length ≤ s.length := by
  cases s with
  | nil => exact le_refl _
  | cons c cs =>
    rw [precisionOf]
    split
    · exact le_refl _
    · split
      · have left := (dropWhile_sublist isdigit (l := cs.drop 1)).length_le
        simp only [length_drop, length_cons] at left ⊢
        omega
      · exact Nat.le_succ_of_le (number_length 0 cs)

theorem sizes_length (fmt : Format) (s : List Byte) : (sizes fmt s).2.length ≤ s.length := by
  induction s generalizing fmt with
  | nil => exact le_refl _
  | cons c cs ih =>
    have shorter : ∀ fmt, (sizes fmt cs).2.length ≤ cs.length + 1 := fun fmt => Nat.le_succ_of_le (ih fmt)
    rw [sizes]
    repeat' split
    all_goals first | exact shorter _ | exact le_refl _

theorem parseFormat_length (s : List Byte) : (parseFormat s).2.length ≤ s.length :=
  (sizes_length _ _).trans ((precisionOf_length _ _).trans ((number_length _ _).trans (flags_length _ _)))

section Stream
variable {σ : Type} (fputc : Byte → PutM σ Unit)

def vfprintf (m : Machine) (strerror : List Byte) (format : List Byte) (ap : List Arg) : PutM σ Unit :=
  match format with
  | [] => pure ()
  | c :: cs =>
    if c ≠ chr '%' then do
      fputc c
      vfprintf m strerror cs ap
    else if cs.head? = some (chr '%') then do
      fputc (chr '%')
      vfprintf m strerror (cs.drop 1) ap
    else
      match _h : parseFormat cs with
      | (_, []) => do
        fputc (chr '%')
        fputc 0
        crash
      | (fmt, conv :: rest) => do
        let ap ← convert fputc m strerror fmt conv ap
        vfprintf m strerror rest ap
termination_by format.length
decreasing_by
  · simp
  · simp
  · have le := parseFormat_length cs
    rw [_h] at le
    simp only [length_cons] at le ⊢
    omega

end Stream

/- Streams whose fputc never fails -/

section Total
variable {σ : Type} {fputc : Byte → PutM σ Unit}

def emit (fputc : Byte → PutM σ Unit) (bs : List Byte) : PutM σ Unit := forEach bs fputc

def Total (fputc : Byte → PutM σ Unit) : Prop := ∀ c s, (fputc c s).1 = .ok ()

theorem emit_append (a b : List Byte) : emit fputc (a ++ b) = emit fputc a >>= fun _ => emit fputc b := by
  induction a with
  | nil => simp [emit, forEach]
  | cons c a ih =>
    simp only [emit, cons_append, forEach, bind_assoc] at ih ⊢
    rw [ih]

theorem attempt_fputc (total : Total fputc) (c : Byte) : (do let _ ← attempt (fputc c)) = fputc c := by
  funext s
  have ok := total c s
  show Cmd.bind (attempt (fputc c)) (fun _ => Cmd.pure ()) s = fputc c s
  rcases run : fputc c s with ⟨_ | _ | _, t⟩
  · simp [Cmd.bind, attempt, run, Cmd.pure]
  · rw [run] at ok
    cases ok
  · rw [run] at ok
    cases ok

theorem divTimes_eq (base c v : Nat) : divTimes base c v = v / base ^ c := by
  induction c generalizing v with
  | zero => simp [divTimes]
  | succ c ih => rw [divTimes, ih, Nat.div_div_eq_div_mul, Nat.pow_succ']

variable {base : Nat}

theorem nrDigits_eq (two : 1 < base) (v : Nat) : nrDigits base v = (numeral base v).length := by
  rw [numeral, length_reverse, length_map]
  induction v using Nat.strongRecOn with
  | ind v ih =>
    rw [nrDigits]
    by_cases pos : 0 < v
    · rw [dif_pos ⟨pos, two⟩, ih _ (Nat.div_lt_self pos two), Nat.digits_def' two pos, length_cons]
    · obtain rfl : v = 0 := by omega
      simp

def padded (base i v : Nat) : List Byte := replicate (i - (numeral base v).length) (chr '0') ++ numeral base v

variable {i v : Nat}

theorem numeral_length_le (two : 1 < base) (lt : v < base ^ i) : (numeral base v).length ≤ i := by
  rw [numeral, length_reverse, length_map]
  exact (Nat.digits_length_le_iff two v).mpr lt

theorem numeral_top (two : 1 < base) (pos : 0 < d) (lt : d < base) (low : r < base ^ i) :
    numeral base (base ^ i * d + r) = digitChar d :: padded base i r := by
  have le := (Nat.digits_length_le_iff two r).mpr low
  have parts := Nat.digits_append_zeroes_append_digits (b := base) (k := i - (Nat.digits base r).length) (m := d) (n := r)
    two pos
  rw [show (Nat.digits base r).length + (i - (Nat.digits base r).length) = i by omega, Nat.digits_of_lt base d (by omega) lt]
    at parts
  rw [padded, numeral, numeral, add_comm, ← parts]
  simp [digitChar]

theorem digit_parts (base i v : Nat) :
    v % base ^ (i + 1) = base ^ i * (v / base ^ i % base) + v % base ^ i := by
  rw [Nat.mod_pow_succ, add_comm]

theorem padded_succ (two : 1 < base) :
    padded base (i + 1) (v % base ^ (i + 1)) = digitChar (v / base ^ i % base) :: padded base i (v % base ^ i) := by
  have low : v % base ^ i < base ^ i := Nat.mod_lt _ (Nat.pow_pos (by omega))
  have le := numeral_length_le two low
  rw [digit_parts]
  by_cases zero : v / base ^ i % base = 0
  · rw [zero, Nat.mul_zero, Nat.zero_add, padded, padded, Nat.succ_sub le, replicate_succ]
    rfl
  · rw [padded, numeral_top two (pos_of_ne_zero zero) (Nat.mod_lt _ (by omega)) low]
    have full : (padded base i (v % base ^ i)).length = i := by
      rw [padded, length_append, length_replicate]
      omega
    rw [length_cons, full, Nat.sub_self]
    rfl

theorem putnFrom_eq (two : 1 < base) (i : Nat) :
    putnFrom fputc base v i true = emit fputc (padded base i (v % base ^ i)) ∧
      putnFrom fputc base v i false = emit fputc (numeral base (v % base ^ i)) := by
  induction i with
  | zero =>
    rw [Nat.pow_zero, Nat.mod_one]
    constructor <;> simp [putnFrom, padded, numeral, emit, forEach]
  | succ i ih =>
    have low : v % base ^ i < base ^ i := Nat.mod_lt _ (Nat.pow_pos (by omega))
    simp only [putnFrom, divTimes_eq, Bool.true_eq_false, and_false, if_false, and_true]
    constructor
    · rw [ih.1, padded_succ two]
      rfl
    · rw [digit_parts]
      split
      · rename_i zero
        rw [zero, mul_zero, zero_add]
        exact ih.2
      · rename_i more
        rw [numeral_top two (pos_of_ne_zero more) (Nat.mod_lt _ (by omega)) low, ih.1]
        rfl

theorem putn_eq (two : 1 < base) (lt : v < base ^ 33) : putn fputc v base = emit fputc (numeral base v) := by
  have all := (@putnFrom_eq _ fputc _ v two 33).2
  rwa [Nat.mod_eq_of_lt lt] at all

def textOf (fmt : Format) (v : Nat) (neg : Bool) : List Byte :=
  let prec := if fmt.precision ≥ 0 then fmt.precision.toNat else 1
  let sgn := signOf fmt neg
  let digits := padded fmt.base prec v
  let free := (int (fmt.width - (sgn.length + digits.length : Nat))).toNat
  if fmt.left then sgn ++ digits ++ replicate free (chr ' ')
  else if fmt.zero then sgn ++ replicate free (chr '0') ++ digits
  else replicate free (chr ' ') ++ sgn ++ digits

theorem free_eq (fmt : Format) (neg : Bool) (prec len : Nat) :
    (if (if signOf fmt neg = [] then if (prec : Int) > len then int (fmt.width - prec) else int (fmt.width - len)
        else int ((if (prec : Int) > len then int (fmt.width - prec) else int (fmt.width - len)) - 1)) < 0 then 0
      else if signOf fmt neg = [] then if (prec : Int) > len then int (fmt.width - prec) else int (fmt.width - len)
        else int ((if (prec : Int) > len then int (fmt.width - prec) else int (fmt.width - len)) - 1)).toNat =
      (int (fmt.width - ((signOf fmt neg).length + (if prec > len then prec else len) : Nat))).toNat := by
  have one : signOf fmt neg = [] ∧ (signOf fmt neg).length = 0 ∨ signOf fmt neg ≠ [] ∧ (signOf fmt neg).length = 1 := by
    rw [signOf]
    split_ifs <;> simp
  obtain ⟨nil, length⟩ | ⟨cons, length⟩ := one
  · simp only [if_pos nil, length, int, signed]
    split_ifs <;> omega
  · simp only [if_neg cons, length, int, signed]
    split_ifs <;> omega

theorem fmtputn_eq (total : Total fputc) (two : 1 < fmt.base) (lt : v < fmt.base ^ 33)
    (neg : Bool) : fmtputn fputc fmt v neg = emit fputc (textOf fmt v neg) := by
  obtain ⟨prec, eq⟩ : ∃ prec : Nat, (if fmt.precision ≥ 0 then fmt.precision else 1) = prec ∧
      (if fmt.precision ≥ 0 then fmt.precision.toNat else 1) = prec := by
    split
    · exact ⟨fmt.precision.toNat, by omega, rfl⟩
    · exact ⟨1, rfl, rfl⟩
  have count := nrDigits_eq two v
  have digits : (padded fmt.base prec v).length = if prec > (numeral fmt.base v).length then prec
      else (numeral fmt.base v).length := by
    rw [padded, length_append, length_replicate]
    split <;> omega
  have zeros : ((prec : Int) - (numeral fmt.base v).length).toNat = prec - (numeral fmt.base v).length := by omega
  have each : ∀ bs, forEach bs fputc = emit fputc bs := fun _ => rfl
  simp only [fmtputn, textOf, eq.1, eq.2, count, putMany, free_eq, ← digits, zeros, attempt_fputc total,
    putn_eq two lt, each]
  cases fmt.left <;> cases fmt.zero <;>
    simp only [Bool.false_eq_true, Bool.true_eq_false, and_self, and_false, false_and, if_true, if_false, emit_append,
      bind_assoc, padded, bind_pure_unit]

end Total

/- Formats of one conversion -/

inductive Size where
  | int
  | long
  | llong
  deriving DecidableEq

def Size.count : Size → Nat
  | .int => 0
  | .long => 1
  | .llong => 2

def Size.bits (m : Machine) : Size → Nat
  | .int => 32
  | .long => longBits m
  | .llong => 64

inductive Conv where
  | d
  | i
  | u
  | o
  | x
  | X
  deriving DecidableEq

def Conv.char : Conv → Byte
  | .d => chr 'd'
  | .i => chr 'i'
  | .u => chr 'u'
  | .o => chr 'o'
  | .x => chr 'x'
  | .X => chr 'X'

def Conv.base : Conv → Nat
  | .d | .i | .u => 10
  | .o => 8
  | .x | .X => 16

def Conv.isSigned : Conv → Bool
  | .d | .i => true
  | _ => false

/-- A conversion of a number: its flags, its width (0 where there is none), its precision, its type and its letter. -/
structure Spec where
  zero : Bool
  left : Bool
  width : Nat
  precision : Option Nat
  size : Size
  conv : Conv
  deriving DecidableEq

def decimal (n : Nat) : List Byte := if n = 0 then [chr '0'] else numeral 10 n

def Spec.tail (sp : Spec) : List Byte := replicate sp.size.count (chr 'l') ++ [sp.conv.char]

def Spec.precText (sp : Spec) : List Byte :=
  match sp.precision with
  | none => []
  | some p => chr '.' :: decimal p

def Spec.body (sp : Spec) : List Byte :=
  (if sp.zero then [chr '0'] else []) ++ (if sp.left then [chr '-'] else []) ++ numeral 10 sp.width ++ sp.precText ++ sp.tail

def Spec.text (sp : Spec) : List Byte := chr '%' :: sp.body

def asValue (isSigned : Bool) (bits : Nat) (v : Int) : Int := if isSigned then signed bits v else unsigned bits v

def Spec.value (m : Machine) (sp : Spec) (v : Int) : Int :=
  asValue sp.conv.isSigned (sp.size.bits m) v

def Spec.format (sp : Spec) : Format :=
  { plainFormat with zero := sp.zero, left := sp.left, width := int sp.width, size := sp.size.count
                     precision := match sp.precision with | none => -1 | some p => int p }

theorem int_int (a b : Int) : int (int (int a * 10) + b) = int (a * 10 + b) := by
  simp only [int, signed]
  omega

theorem number_map (n : Nat) {ds : List Nat} (small : ∀ d ∈ ds, d < 10) (rest : List Byte)
    (ends : ∀ c ∈ rest.head?, isdigit c = false) :
    number (int n) (ds.map digitChar ++ rest) = (int (ds.foldl (fun v d => v * 10 + d) n : Nat), rest) := by
  induction ds generalizing n with
  | nil =>
    cases rest with
    | nil => rfl
    | cons c cs =>
      rw [map_nil, nil_append, number, ends c rfl]
      rfl
  | cons d ds ih =>
    have lt := small d (mem_cons_self ..)
    have digit : isdigit (digitChar d) = true ∧ ((digitChar d).toNat : Int) - (chr '0').toNat = d := by
      interval_cases d <;> decide
    have step := ih (n * 10 + d) fun x mem => small x (mem_cons_of_mem d mem)
    rw [map_cons, cons_append, number, digit.1, if_pos rfl, digit.2, int_int, foldl_cons, ← step]
    push_cast
    rfl

theorem number_numeral (n : Nat) (rest : List Byte) (ends : ∀ c ∈ rest.head?, isdigit c = false) :
    number 0 (numeral 10 n ++ rest) = (int n, rest) := by
  have read := @number_map 0 (Nat.digits 10 n).reverse
    (fun d mem => Nat.digits_lt_base (by decide) (mem_reverse.mp mem)) rest ends
  rw [← valueOf, valueOf_digits, map_reverse] at read
  exact read

theorem tail_head (sp : Spec) : ∀ c ∈ sp.tail.head?, isdigit c = false ∧ c ≠ chr '.' ∧ c ≠ chr '-' ∧ c ≠ chr '#' ∧
    c ≠ chr ' ' ∧ c ≠ chr '+' ∧ c ≠ chr '%' := by
  obtain ⟨_, _, _, _, size, conv⟩ := sp
  cases size <;> cases conv <;> simp only [Spec.tail, Size.count, Conv.char] <;> decide

theorem numeral_head (n : Nat) : ∀ c ∈ (numeral 10 n).head?, isdigit c = true ∧ c ≠ chr '0' := by
  intro c mem
  have pos : n ≠ 0 := by
    rintro rfl
    simp [numeral] at mem
  have nonempty : Nat.digits 10 n ≠ [] := Nat.digits_ne_nil_iff_ne_zero.mpr pos
  have last := Nat.getLast_digit_ne_zero 10 pos
  have lt : (Nat.digits 10 n).getLast nonempty < 10 := Nat.digits_lt_base (by decide) (getLast_mem nonempty)
  rw [numeral, head?_reverse, getLast?_map, getLast?_eq_some_getLast nonempty] at mem
  obtain rfl : digitChar ((Nat.digits 10 n).getLast nonempty) = c := by simpa using mem
  generalize (Nat.digits 10 n).getLast nonempty = d at last lt
  interval_cases d <;> first | exact absurd rfl last | decide

def NoFlag (c : Byte) : Prop := c ≠ chr '0' ∧ c ≠ chr '-' ∧ c ≠ chr '#' ∧ c ≠ chr ' ' ∧ c ≠ chr '+'

theorem noFlag_of_digit (digit : isdigit c = true) (ne : c ≠ chr '0') : NoFlag c := by
  refine ⟨ne, ?_, ?_, ?_, ?_⟩ <;> (rintro rfl; revert digit; decide)

theorem precText_head (sp : Spec) : ∀ c ∈ (sp.precText ++ sp.tail).head?, isdigit c = false ∧ NoFlag c := by
  intro c mem
  rw [Spec.precText] at mem
  cases prec : sp.precision with
  | none =>
    rw [prec] at mem
    obtain ⟨digit, _, minus, sharp, space, plus⟩ := tail_head sp c mem
    refine ⟨digit, ?_, minus, sharp, space, plus.1⟩
    rintro rfl
    revert digit
    decide
  | some p =>
    rw [prec] at mem
    obtain rfl : chr '.' = c := by simpa using mem
    exact ⟨by decide, by decide, by decide, by decide, by decide, by decide⟩

theorem flags_end (fmt : Format) (ends : ∀ c ∈ s.head?, NoFlag c) : flags fmt s = (fmt, s) := by
  cases s with
  | nil => rfl
  | cons c cs =>
    obtain ⟨zero, minus, sharp, space, plus⟩ := ends c rfl
    rw [flags, if_neg zero, if_neg minus, if_neg sharp, if_neg space, if_neg plus]

theorem sizes_end (fmt : Format) (n : Nat) (conv : Conv) :
    sizes fmt (replicate n (chr 'l') ++ [conv.char]) = ({ fmt with size := fmt.size + n }, [conv.char]) := by
  induction n generalizing fmt with
  | zero => cases conv <;> simp [sizes, Conv.char, chr]
  | succ n ih =>
    rw [replicate_succ, cons_append, sizes, if_pos (by decide), ih]
    simp only [Prod.mk.injEq, Format.mk.injEq, true_and, and_true]
    push_cast
    omega

theorem decimal_read (p : Nat) (rest : List Byte) (ends : ∀ c ∈ rest.head?, isdigit c = false) :
    number 0 (decimal p ++ rest) = (int p, rest) ∧ peek (decimal p ++ rest) ≠ chr '-' := by
  rw [decimal]
  split
  · rename_i zero
    subst zero
    refine ⟨?_, show chr '0' ≠ chr '-' by decide⟩
    cases rest with
    | nil => rfl
    | cons c cs =>
      show number (int (int (0 * 10) + 0)) (c :: cs) = _
      rw [number, ends c rfl]
      rfl
  · rename_i pos
    refine ⟨number_numeral p rest ends, ?_⟩
    have digits : (numeral 10 p) ≠ [] := by simpa [numeral, Nat.digits_eq_nil_iff_eq_zero] using pos
    obtain ⟨c, cs, eq⟩ := exists_cons_of_ne_nil digits
    have head := numeral_head p c (by rw [eq]; rfl)
    rw [eq]
    exact (noFlag_of_digit head.1 head.2).2.1

theorem precisionOf_text (sp : Spec) (none : fmt.precision = -1) :
    precisionOf fmt (sp.precText ++ sp.tail) = ({ fmt with precision := match sp.precision with | .none => -1 | some p => int p }, sp.tail) := by
  rw [Spec.precText]
  cases sp.precision with
  | none =>
    simp only [nil_append, ← none]
    cases tail : sp.tail with
    | nil => rfl
    | cons c cs =>
      have head := tail_head sp c (by rw [tail]; rfl)
      rw [precisionOf, if_pos head.2.1]
  | some p =>
    obtain ⟨read, sign⟩ := decimal_read p sp.tail fun c mem => (tail_head sp c mem).1
    simp only [cons_append, precisionOf, ne_eq, not_true_eq_false, if_false, if_neg sign, read]

theorem parseFormat_body (sp : Spec) : parseFormat sp.body = (sp.format, [sp.conv.char]) := by
  obtain ⟨rest, eq⟩ : ∃ rest, rest = sp.precText ++ sp.tail := ⟨_, rfl⟩
  have head : ∀ c ∈ (numeral 10 sp.width ++ rest).head?, NoFlag c := by
    intro c mem
    cases digits : numeral 10 sp.width with
    | nil =>
      rw [digits, eq] at mem
      exact (precText_head sp c mem).2
    | cons d ds =>
      rw [digits] at mem
      have here := numeral_head sp.width d (by rw [digits]; rfl)
      obtain rfl : d = c := by simpa using mem
      exact noFlag_of_digit here.1 here.2
  have start : flags plainFormat sp.body =
      ({ plainFormat with zero := sp.zero, left := sp.left }, numeral 10 sp.width ++ rest) := by
    have zero : ∀ fmt s, flags fmt (chr '0' :: s) = flags { fmt with zero := true } s := fun _ _ => rfl
    have left : ∀ fmt s, flags fmt (chr '-' :: s) = flags { fmt with left := true } s := fun _ _ => rfl
    rw [Spec.body, append_assoc, ← eq]
    cases sp.zero <;> cases sp.left <;>
      simp only [Bool.false_eq_true, if_true, if_false, nil_append, cons_append, zero, left, flags_end _ head]
    all_goals rfl
  rw [parseFormat, start]
  simp only [number_numeral sp.width rest fun c mem => (precText_head sp c (by rw [← eq]; exact mem)).1]
  rw [eq, precisionOf_text sp rfl]
  simp only [Spec.tail, sizes_end, Spec.format, plainFormat, zero_add]

/- What a conversion prints -/

def Spec.output (m : Machine) (sp : Spec) (v : Int) : List Byte :=
  textOf { sp.format with base := sp.conv.base, signedval := sp.conv.isSigned } (sp.value m v).natAbs (sp.value m v < 0)

theorem argBits_size (m : Machine) (size : Size) : argBits m size.count = some (size.bits m) := by
  cases size <;> rfl

theorem bits_cases (m : Machine) (size : Size) : size.bits m = 32 ∨ size.bits m = 64 := by
  cases m <;> cases size <;> simp [Size.bits, longBits]

theorem asValue_bound (width : bits = 32 ∨ bits = 64) (isSigned : Bool) (v : Int) :
    -2 ^ 63 ≤ asValue isSigned bits v ∧ asValue isSigned bits v < 2 ^ 64 ∧
      (isSigned = false → 0 ≤ asValue isSigned bits v) := by
  rw [asValue]
  rcases width with rfl | rfl <;> cases isSigned <;>
    simp only [Bool.false_eq_true, Bool.true_eq_false, if_true, if_false, false_implies, true_implies, and_true,
      signed, unsigned, Nat.reduceSub] <;> omega

variable {σ : Type}

theorem convertNum_eq (total : Total fputc) (m : Machine)
    (size : argBits m fmt.size = some bits) (width : bits = 32 ∨ bits = 64) (plain : fmt.size ≠ sizePtrdiff)
    (base : 8 ≤ fmt.base) (v : Int) : convertNum fputc m fmt [.num v] =
      emit fputc (textOf fmt (asValue fmt.signedval bits v).natAbs (asValue fmt.signedval bits v < 0)) >>=
        fun _ => pure [] := by
  have bound := asValue_bound width fmt.signedval v
  have eight : 8 ^ 33 ≤ fmt.base ^ 33 := Nat.pow_le_pow_left base 33
  have print : ∀ n neg, n = (asValue fmt.signedval bits v).natAbs → neg = decide (asValue fmt.signedval bits v < 0) →
      fmtputn fputc fmt n neg =
        emit fputc (textOf fmt (asValue fmt.signedval bits v).natAbs (asValue fmt.signedval bits v < 0)) := by
    rintro n neg rfl rfl
    exact fmtputn_eq total (by omega) (by omega) _
  simp only [convertNum, size, vaNum, pure_bind, if_neg plain]
  by_cases sign : fmt.signedval
  · have value : signed bits v = asValue fmt.signedval bits v := by rw [asValue, if_pos sign]
    rw [if_pos sign, value]
    split
    · rename_i neg
      have least : unsigned 64 (signed 64 (-asValue fmt.signedval bits v)) = -asValue fmt.signedval bits v := by
        simp only [unsigned, signed]
        omega
      rw [print _ true (by rw [least]; omega) (by simp [neg])]
    · rename_i pos
      rw [print _ false (by omega) (by simp [pos])]
  · have value : unsigned bits v = asValue fmt.signedval bits v := by rw [asValue, if_neg sign]
    have pos := bound.2.2 (Bool.eq_false_iff.mpr sign)
    rw [if_neg sign, value, unsigned_eq pos bound.2.1, print _ false (by omega) (by simp; omega)]

theorem two_lt_base (c : Conv) : 1 < c.base ∧ 0 < c.base ∧ c.base ≤ 16 := by
  cases c <;> decide

theorem convert_conv (fputc : Byte → PutM σ Unit) (m : Machine) (strerror : List Byte) (fmt : Format)
    (c : Conv) (ap : List Arg) : convert fputc m strerror fmt c.char ap =
      convertNum fputc m { fmt with base := c.base, signedval := c.isSigned } ap := by
  cases c <;> rfl

theorem body_head (sp : Spec) : sp.body.head? ≠ some (chr '%') := by
  intro percent
  rw [Spec.body] at percent
  cases zero : sp.zero with
  | true => simp [zero, chr] at percent
  | false =>
    cases left : sp.left with
    | true => simp [zero, left, chr] at percent
    | false =>
      simp only [zero, left, Bool.false_eq_true, if_false, nil_append] at percent
      cases digits : numeral 10 sp.width with
      | cons c cs =>
        rw [digits] at percent
        have digit := (numeral_head sp.width c (by rw [digits]; rfl)).1
        obtain rfl : c = chr '%' := by simpa using percent
        revert digit
        decide
      | nil =>
        rw [digits, Spec.precText] at percent
        cases prec : sp.precision with
        | none =>
          rw [prec] at percent
          exact (tail_head sp _ percent).2.2.2.2.2.2 rfl
        | some p => simp [prec, chr] at percent

theorem vfprintf_eq (total : Total fputc) (m : Machine) (strerror : List Byte)
    (sp : Spec) (v : Int) : vfprintf fputc m strerror sp.text [.num v] = emit fputc (sp.output m v) := by
  rw [Spec.text, vfprintf, if_neg (by simp), if_neg (body_head sp)]
  split
  · rename_i eq
    rw [parseFormat_body] at eq
    cases eq
  · rename_i fmt conv rest eq
    rw [parseFormat_body] at eq
    cases eq
    rw [convert_conv, convertNum_eq total m (argBits_size m sp.size) (bits_cases m sp.size)
      (by cases size : sp.size <;> simp [Spec.format, size, Size.count, sizePtrdiff])
      (by cases conv : sp.conv <;> simp [Conv.base])]
    simp only [bind_assoc, pure_bind, vfprintf, bind_pure_unit]
    rfl

/- Printing and reading back -/

def collect (c : Byte) : PutM (List Byte) Unit := modify (· ++ [c])

theorem total_collect : Total collect := fun _ _ => rfl

theorem emit_collect (bs s : List Byte) : emit collect bs s = (.ok (), s ++ bs) := by
  induction bs generalizing s with
  | nil => rw [append_nil]; rfl
  | cons c bs ih =>
    refine (ih (s ++ [c])).trans ?_
    rw [append_assoc]
    rfl

def Spec.read (m : Machine) (sp : Spec) (s : List Byte) : Int :=
  match sp.conv.isSigned, sp.size with
  | true, .llong => (strtoll s sp.conv.base).value
  | true, _ => (strtol m s sp.conv.base).value
  | false, .llong => (strtoull s sp.conv.base).value
  | false, _ => (strtoul m s sp.conv.base).value

def Spec.digits (sp : Spec) : Nat := sp.precision.getD 1

def Spec.sign (m : Machine) (sp : Spec) (v : Int) : List Byte := if sp.value m v < 0 then [chr '-'] else []

/-- A text is padding, a sign, and the digits of the value, is as long as asked for, and is read as the value. -/
structure Good (m : Machine) (sp : Spec) (v : Int) (out : List Byte) : Prop where
  shape : ∃ l z r, out = replicate l (chr ' ') ++ (sp.sign m v ++ (replicate z (chr '0') ++
      padded sp.conv.base sp.digits (sp.value m v).natAbs ++ replicate r (chr ' '))) ∧
    (sp.left = true → l = 0 ∧ z = 0) ∧ (sp.left = false → r = 0 ∧ (if sp.zero then l = 0 else z = 0))
  width : sp.width ≤ out.length
  read : sp.read m out = sp.value m v

theorem padded_length (base i v : Nat) : (padded base i v).length = max i (numeral base v).length := by
  rw [padded, length_append, length_replicate]
  omega

def Spec.written (sp : Spec) : Nat := if 0 ≤ sp.format.precision then sp.format.precision.toNat else 1

theorem written_cases (sp : Spec) : sp.written < 2 ^ 31 ∧ (sp.digits < 2 ^ 31 → sp.written = sp.digits) ∧
    (2 ^ 31 ≤ sp.digits → sp.digits < 2 ^ 32 → sp.written = 1) := by
  have prec : sp.format.precision = -1 ∧ sp.digits = 1 ∨ sp.format.precision = int sp.digits := by
    obtain ⟨_, _, _, prec, _, _⟩ := sp
    cases prec with
    | none => exact Or.inl ⟨rfl, rfl⟩
    | some p => exact Or.inr rfl
  simp only [int, signed] at prec
  rw [Spec.written]
  split <;> omega

def Spec.free (m : Machine) (sp : Spec) (v : Int) : Nat :=
  (int (sp.width - ((sp.sign m v).length + (padded sp.conv.base sp.written (sp.value m v).natAbs).length : Nat))).toNat

theorem output_shape (m : Machine) (sp : Spec) (v : Int) :
    ∃ l z r, sp.output m v = replicate l (chr ' ') ++ (sp.sign m v ++ (replicate z (chr '0') ++
        padded sp.conv.base sp.written (sp.value m v).natAbs ++ replicate r (chr ' '))) ∧
      (sp.left = true → l = 0 ∧ z = 0) ∧ (sp.left = false → r = 0 ∧ (if sp.zero then l = 0 else z = 0)) ∧
      l + z + r = sp.free m v := by
  obtain ⟨fmt, eq⟩ : ∃ fmt : Format, fmt = { sp.format with base := sp.conv.base, signedval := sp.conv.isSigned } := ⟨_, rfl⟩
  have sign : signOf fmt (sp.value m v < 0) = sp.sign m v := by
    rw [eq, signOf, Spec.sign]
    simp [Spec.format, plainFormat]
  have written : (if fmt.precision ≥ 0 then fmt.precision.toNat else 1) = sp.written := by rw [eq]; rfl
  have free : (int (fmt.width - ((sp.sign m v).length +
      (padded sp.conv.base sp.written (sp.value m v).natAbs).length : Nat))).toNat = sp.free m v := by
    rw [Spec.free, eq]
    simp only [Spec.format, int, signed]
    omega
  have base : fmt.base = sp.conv.base := by rw [eq]
  have left : fmt.left = sp.left := by rw [eq]; rfl
  have zero : fmt.zero = sp.zero := by rw [eq]; rfl
  rw [Spec.output, ← eq, textOf]
  simp only [sign, written, base, left, zero, free]
  cases sp.left with
  | true => exact ⟨0, 0, sp.free m v, by simp, by simp, by simp, by omega⟩
  | false =>
    cases sp.zero with
    | true => exact ⟨0, sp.free m v, 0, by simp, by simp, by simp, by omega⟩
    | false => exact ⟨sp.free m v, 0, 0, by simp, by simp, by simp, by omega⟩

theorem padded_zeros (base i v z : Nat) : replicate z (chr '0') ++ padded base i v =
    (replicate (z + (i - (numeral base v).length)) 0 ++ (Nat.digits base v).reverse).map digitChar := by
  rw [padded, map_append, map_replicate, map_reverse, ← append_assoc, replicate_append_replicate]
  rfl

theorem small_digits (two : 1 < base) (z v : Nat) :
    ∀ d ∈ replicate z 0 ++ (Nat.digits base v).reverse, d < base := by
  intro d mem
  rcases mem_append.mp mem with zero | digit
  · rw [eq_of_mem_replicate zero]
    omega
  · exact Nat.digits_lt_base two (mem_reverse.mp digit)

theorem read_text (m : Machine) (sp : Spec) (v : Int) (l z r i : Nat) :
    sp.read m (replicate l (chr ' ') ++ (sp.sign m v ++ (replicate z (chr '0') ++
      padded sp.conv.base i (sp.value m v).natAbs ++ replicate r (chr ' ')))) = sp.value m v := by
  obtain ⟨two, pos, le⟩ := two_lt_base sp.conv
  have small := small_digits two (z + (i - (numeral sp.conv.base (sp.value m v).natAbs).length)) (sp.value m v).natAbs
  have value := valueOf_zeros sp.conv.base (z + (i - (numeral sp.conv.base (sp.value m v).natAbs).length))
    (Nat.digits sp.conv.base (sp.value m v).natAbs).reverse
  rw [valueOf_digits] at value
  rw [padded_zeros]
  generalize replicate _ 0 ++ (Nat.digits sp.conv.base (sp.value m v).natAbs).reverse = ds at small value
  have bits := bits_cases m sp.size
  cases sign : sp.conv.isSigned with
  | true =>
    have number : (if decide (sp.value m v < 0) then -(valueOf sp.conv.base ds : Int) else valueOf sp.conv.base ds) =
        sp.value m v := by
      rw [value]
      split <;> simp only [decide_eq_true_eq] at * <;> omega
    have text : sp.sign m v = if decide (sp.value m v < 0) then [chr '-'] else [] := by
      simp only [Spec.sign, decide_eq_true_eq]
    have read : ∀ w, 0 < w → w ≤ 64 → Fits w (sp.value m v) → (strtos w (replicate l (chr ' ') ++ (sp.sign m v ++
        (ds.map digitChar ++ replicate r (chr ' ')))) sp.conv.base).value = sp.value m v := by
      intro w wide narrow fits
      have read := strtos_digits l r (decide (sp.value m v < 0)) narrow wide pos le small (by rwa [number])
      rwa [number, ← text] at read
    have fits : Fits (sp.size.bits m) (sp.value m v) := by
      rw [Spec.value, asValue, sign, if_pos rfl]
      exact fits_signed (by omega) v
    cases size : sp.size <;> rw [size] at fits
    · have wider : Fits (longBits m) (sp.value m v) := by
        cases m
        · exact fits
        · simp only [Fits, Size.bits, longBits] at fits ⊢
          omega
      simp only [Spec.read, sign, size]
      exact read _ (by cases m <;> decide) (by cases m <;> decide) wider
    · simp only [Spec.read, sign, size]
      exact read _ (by cases m <;> decide) (by cases m <;> decide) fits
    · simp only [Spec.read, sign, size]
      exact read 64 (by decide) (by decide) fits
  | false =>
    have value' := asValue_bound bits sp.conv.isSigned v
    rw [← Spec.value] at value'
    have nonneg := value'.2.2 sign
    have text : sp.sign m v = [] := by
      rw [Spec.sign, if_neg (by omega)]
    have read : ∀ w, sp.value m v < 2 ^ w → ((strtou w (replicate l (chr ' ') ++ (sp.sign m v ++
        (ds.map digitChar ++ replicate r (chr ' ')))) sp.conv.base).value : Int) = sp.value m v := by
      intro w lt
      have fits : (valueOf sp.conv.base ds : Int) < (2 ^ w : Nat) := by
        push_cast
        omega
      rw [text, nil_append, strtou_digits l r pos le small (by exact_mod_cast fits)]
      simp only [value]
      omega
    have lt : sp.value m v < 2 ^ sp.size.bits m := by
      rw [Spec.value, asValue, sign, if_neg Bool.false_ne_true, unsigned]
      exact Int.emod_lt_of_pos _ (by positivity)
    cases size : sp.size <;> rw [size] at lt
    · have wider : sp.value m v < 2 ^ longBits m := by
        cases m
        · exact lt
        · simp only [Size.bits, longBits] at lt ⊢
          omega
      simp only [Spec.read, sign, size]
      exact read _ wider
    · simp only [Spec.read, sign, size]
      exact read _ lt
    · simp only [Spec.read, sign, size]
      exact read 64 lt

def visible (out : List Byte) : Nat := out.countP (· ≠ chr ' ')

theorem visible_text (m : Machine) (sp : Spec) (v : Int) (l z r i : Nat) :
    visible (replicate l (chr ' ') ++ (sp.sign m v ++ (replicate z (chr '0') ++
      padded sp.conv.base i (sp.value m v).natAbs ++ replicate r (chr ' ')))) =
      (sp.sign m v).length + (z + max i (numeral sp.conv.base (sp.value m v).natAbs).length) := by
  obtain ⟨two, _, le⟩ := two_lt_base sp.conv
  have blanks : ∀ n, visible (replicate n (chr ' ')) = 0 := by simp [visible]
  have sign : visible (sp.sign m v) = (sp.sign m v).length := by
    rw [Spec.sign]
    split <;> decide
  have digits : visible (replicate z (chr '0') ++ padded sp.conv.base i (sp.value m v).natAbs) =
      z + max i (numeral sp.conv.base (sp.value m v).natAbs).length := by
    have small := small_digits two (z + (i - (numeral sp.conv.base (sp.value m v).natAbs).length)) (sp.value m v).natAbs
    have all : visible (replicate z (chr '0') ++ padded sp.conv.base i (sp.value m v).natAbs) =
        (replicate z (chr '0') ++ padded sp.conv.base i (sp.value m v).natAbs).length := by
      rw [padded_zeros, visible, countP_eq_length]
      intro c mem
      obtain ⟨d, here, rfl⟩ := mem_map.mp mem
      have not := not_space_digitChar (lt_of_lt_of_le (small d here) le)
      simp only [ne_eq, decide_eq_true_eq]
      intro eq
      rw [eq] at not
      exact absurd not (by decide)
    rw [all, length_append, length_replicate, padded_length]
  have parts : ∀ a b, visible (a ++ b) = visible a + visible b := fun _ _ => countP_append
  rw [parts, parts, parts, blanks, blanks, sign, digits]
  omega

/-- The condition under which `int` holds the precision and the padding. Where zeros pad a number without its precision,
    they may stand for the digits that the precision asks for. -/
def Spec.Fits (m : Machine) (sp : Spec) (v : Int) : Prop :=
  (sp.digits < 2 ^ 31 ∨ sp.zero = true ∧ sp.left = false ∧ (sp.sign m v).length + sp.digits ≤ sp.width) ∧
    sp.width < 2 ^ 31 + ((sp.sign m v).length +
      max (if sp.digits < 2 ^ 31 then sp.digits else 1) (numeral sp.conv.base (sp.value m v).natAbs).length)

theorem read_output (m : Machine) (sp : Spec) (v : Int) : sp.read m (sp.output m v) = sp.value m v := by
  obtain ⟨l, z, r, out, _⟩ := output_shape m sp v
  rw [out, read_text]

theorem good_output (m : Machine) (sp : Spec) (v : Int) : Good m sp v (sp.output m v) ↔ sp.Fits m v := by
  obtain ⟨l, z, r, out, left, right, total⟩ := output_shape m sp v
  obtain ⟨small, same, wrapped⟩ := written_cases sp
  have sign : (sp.sign m v).length ≤ 1 := by
    rw [Spec.sign]
    split <;> simp
  have digits : (numeral sp.conv.base (sp.value m v).natAbs).length ≤ 64 := by
    have bound := asValue_bound (bits_cases m sp.size) sp.conv.isSigned v
    rw [← Spec.value] at bound
    have eight : 8 ^ 64 ≤ sp.conv.base ^ 64 := Nat.pow_le_pow_left (by cases sp.conv <;> decide) 64
    exact numeral_length_le (two_lt_base sp.conv).1 (by omega)
  have length : (sp.output m v).length = (sp.sign m v).length +
      max sp.written (numeral sp.conv.base (sp.value m v).natAbs).length + sp.free m v := by
    rw [out]
    simp only [length_append, length_replicate, padded_length]
    omega
  have free : sp.free m v = (int (sp.width - ((sp.sign m v).length +
      max sp.written (numeral sp.conv.base (sp.value m v).natAbs).length : Nat))).toNat := by
    rw [Spec.free, padded_length]
  simp only [int, signed] at free
  rw [Spec.Fits]
  constructor
  · rintro ⟨⟨l', z', r', out', left', right'⟩, width, _⟩
    have count := visible_text m sp v l' z' r' sp.digits
    rw [← out', out, visible_text] at count
    rw [length] at width
    cases hl : sp.left with
    | true =>
      have here := left hl
      have there := left' hl
      have fits : sp.digits < 2 ^ 31 := by omega
      rw [if_pos fits]
      have eq := same fits
      omega
    | false =>
      obtain ⟨rfl, here⟩ := right hl
      obtain ⟨rfl, there⟩ := right' hl
      cases hz : sp.zero with
      | false =>
        rw [hz, if_neg Bool.false_ne_true] at here there
        have fits : sp.digits < 2 ^ 31 := by omega
        rw [if_pos fits]
        have eq := same fits
        omega
      | true =>
        rw [hz, if_pos rfl] at here there
        by_cases fits : sp.digits < 2 ^ 31
        · rw [if_pos fits]
          have eq := same fits
          omega
        · rw [if_neg fits]
          have eq := wrapped (by omega) (by omega)
          refine ⟨Or.inr ⟨rfl, rfl, ?_⟩, ?_⟩ <;> omega
  · rintro ⟨precision, width⟩
    have read := read_output m sp v
    by_cases fits : sp.digits < 2 ^ 31
    · rw [if_pos fits] at width
      have eq := same fits
      refine ⟨⟨l, z, r, by rw [← eq, out], left, right⟩, ?_, read⟩
      rw [length]
      omega
    · obtain ⟨hz, hl, supplied⟩ := precision.resolve_left fits
      rw [if_neg fits] at width
      have eq := wrapped (by omega) (by omega)
      obtain ⟨rfl, here⟩ := right hl
      rw [hz, if_pos rfl] at here
      subst here
      -- the zeros of the padding are as many as the precision lacks, and more
      have zeros : replicate z (chr '0') ++ padded sp.conv.base sp.written (sp.value m v).natAbs =
          replicate (z + max 1 (numeral sp.conv.base (sp.value m v).natAbs).length - sp.digits) (chr '0') ++
            padded sp.conv.base sp.digits (sp.value m v).natAbs := by
        rw [padded, padded, ← append_assoc, ← append_assoc, replicate_append_replicate,
          replicate_append_replicate]
        congr 2
        omega
      refine ⟨⟨0, z + max 1 (numeral sp.conv.base (sp.value m v).natAbs).length - sp.digits, 0, by rw [← zeros, out],
        by simp [hl], by simp [hz]⟩, ?_, read⟩
      rw [length]
      omega

/-- A conversion of a number prints a text from which the number is read back. The text is of the width and has the
    digits asked for if and only if `int` holds the precision and the padding. -/
theorem print_read (m : Machine) (strerror : List Byte) (sp : Spec) (v : Int) :
    ∃ out, vfprintf collect m strerror sp.text [.num v] [] = (.ok (), out) ∧ sp.read m out = sp.value m v ∧
      (Good m sp v out ↔ sp.Fits m v) :=
  ⟨sp.output m v, by rw [vfprintf_eq total_collect, emit_collect, nil_append], read_output m sp v,
    good_output m sp v⟩

def wideSpec : Spec := { zero := false, left := false, width := 2 ^ 32 + 1, precision := none, size := .int, conv := .d }

theorem wide_is_narrow : wideSpec.text = "%4294967297d".toList.map chr ∧
    vfprintf collect .i386 [] wideSpec.text [.num 5] [] = (.ok (), [chr '5']) ∧
    ¬ Good .i386 wideSpec 5 [chr '5'] := by
  refine ⟨by decide +kernel, ?_, fun good => absurd good.width (by decide)⟩
  rw [vfprintf_eq total_collect, emit_collect]
  decide +kernel

end Libc
