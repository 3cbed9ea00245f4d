import Newsys.Libc.Vsnprintf

/- Formats that end inside a conversion (lib/stdio/vfprintf.c). The NUL is taken for the conversion character, and the
   pointer is moved behind it. -/
namespace Libc
open Bytes Ints Kern Cmds Cmd

def isFlag (c : Byte) : Bool := c = chr '0' ∨ c = chr '-' ∨ c = chr '#' ∨ c = chr ' ' ∨ c = chr '+'

def isSize (c : Byte) : Bool := c = chr 'L' ∨ c = chr 'l' ∨ c = chr 'h' ∨ c = chr 't' ∨ c = chr 'j'

def skipPrecision (s : List Byte) : List Byte :=
  if peek s = chr '.' then
    if peek (s.drop 1) = chr '-' then (s.drop 2).dropWhile isdigit else (s.drop 1).dropWhile isdigit
  else s

def conversion (s : List Byte) : List Byte :=
  (skipPrecision ((s.dropWhile isFlag).dropWhile isdigit)).dropWhile isSize

/-- The format does not end inside a conversion. -/
inductive Complete : List Byte → Prop
  | nil : Complete []
  | char {c : Byte} {cs : List Byte} (plain : c ≠ chr '%') (rest : Complete cs) : Complete (c :: cs)
  | percent {cs : List Byte} (rest : Complete cs) : Complete (chr '%' :: chr '%' :: cs)
  | conv {cs cs' : List Byte} {c : Byte} (once : cs.head? ≠ some (chr '%')) (letter : conversion cs = c :: cs')
      (rest : Complete cs') : Complete (chr '%' :: cs)

/-- The arguments behind those that a conversion fetches, if they are there and have its type. There is none for a size
    that `vfprintf` does not know, and a string has to have a length. -/
def fetch (m : Machine) (strerror : List Byte) (fmt : Format) (c : Byte) (ap : List Arg) : Option (List Arg) :=
  if c = chr 'm' then if 0 ≤ int strerror.length then some ap else none
  else if c = chr 's' then
    match ap with
    | .str s :: ap => if 0 ≤ int (s.getD ("(null)".toList.map chr)).length then some ap else none
    | _ => none
  else if c = chr 'c' then
    match ap with
    | .num _ :: ap => some ap
    | _ => none
  else if c = chr 'd' ∨ c = chr 'i' ∨ c = chr 'u' ∨ c = chr 'o' ∨ c = chr 'p' ∨ c = chr 'x' ∨ c = chr 'X' then
    match argBits m (if c = chr 'p' then sizePtr else fmt.size), ap with
    | some _, .num _ :: ap => some ap
    | _, _ => none
  else some ap

/-- Every conversion of the format has its arguments. -/
inductive Matching (m : Machine) (strerror : List Byte) : List Byte → List Arg → Prop
  | nil {ap : List Arg} : Matching m strerror [] ap
  | char {c : Byte} {cs : List Byte} {ap : List Arg} (plain : c ≠ chr '%') (rest : Matching m strerror cs ap) :
      Matching m strerror (c :: cs) ap
  | percent {cs : List Byte} {ap : List Arg} (rest : Matching m strerror cs ap) :
      Matching m strerror (chr '%' :: chr '%' :: cs) ap
  | conv {cs cs' : List Byte} {c : Byte} {fmt : Format} {ap ap' : List Arg} (once : cs.head? ≠ some (chr '%'))
      (parse : parseFormat cs = (fmt, c :: cs')) (here : fetch m strerror fmt c ap = some ap')
      (rest : Matching m strerror cs' ap') : Matching m strerror (chr '%' :: cs) ap
  | ends {cs : List Byte} {ap : List Arg} (once : cs.head? ≠ some (chr '%')) (nothing : conversion cs = []) :
      Matching m strerror (chr '%' :: cs) ap

/- The parts of a conversion -/

theorem flags_rest (fmt : Format) (s : List Byte) : (flags fmt s).2 = s.dropWhile isFlag := by
  induction s generalizing fmt with
  | nil => rfl
  | cons c cs ih =>
    rw [flags, List.dropWhile_cons]
    split_ifs with zero is minus is space is <;> simp_all [isFlag]

theorem number_rest (n : Int) (s : List Byte) : (number n s).2 = s.dropWhile isdigit := by
  induction s generalizing n with
  | nil => rfl
  | cons c cs ih =>
    rw [number, List.dropWhile_cons]
    split
    · exact ih _
    · rfl

theorem precisionOf_rest (fmt : Format) (s : List Byte) : (precisionOf fmt s).2 = skipPrecision s := by
  cases s with
  | nil => rfl
  | cons c cs =>
    rw [precisionOf]
    change _ = if c = chr '.' then if peek cs = chr '-' then (cs.drop 1).dropWhile isdigit else cs.dropWhile isdigit
      else c :: cs
    by_cases dot : c = chr '.'
    · rw [if_neg (not_not.mpr dot), if_pos dot]
      by_cases minus : peek cs = chr '-'
      · rw [if_pos minus, if_pos minus]
      · rw [if_neg minus, if_neg minus]
        exact number_rest 0 cs
    · rw [if_pos dot, if_neg dot]

theorem sizes_rest (fmt : Format) (s : List Byte) : (sizes fmt s).2 = s.dropWhile isSize := by
  induction s generalizing fmt with
  | nil => rfl
  | cons c cs ih =>
    rw [sizes, List.dropWhile_cons]
    split_ifs <;> simp_all [isSize]

theorem parseFormat_rest (s : List Byte) : (parseFormat s).2 = conversion s := by
  simp only [parseFormat, sizes_rest, precisionOf_rest, number_rest, flags_rest]
  rfl

/- Commands that do not crash -/

section Runs
variable {σ α β ι : Type} {fputc : Byte → PutM σ Unit}

/-- The behaviour of the command is defined, and what it returns has the property `P`. -/
def Runs (P : α → Prop) (m : PutM σ α) : Prop := ∀ s, (m s).1 ≠ .crash ∧ ∀ a, (m s).1 = .ok a → P a

variable {P : α → Prop}

theorem runs_pure (known : P a) : Runs P (pure a : PutM σ α) := by
  intro s
  refine ⟨fun eq => ?_, fun b eq => ?_⟩
  · cases eq
  · cases eq
    exact known

variable {m : PutM σ α}

theorem runs_bind (first : Runs P m) (next : ∀ a, P a → Runs R (f a)) : Runs R (m >>= f) := by
  intro s
  obtain ⟨fine, known⟩ := first s
  change (Cmd.bind m f s).1 ≠ _ ∧ ∀ b, (Cmd.bind m f s).1 = _ → R b
  unfold Cmd.bind
  rcases run : m s with ⟨a | e | _, t⟩ <;> rw [run] at fine known
  · exact next a (known a rfl) t
  · refine ⟨fun eq => ?_, fun b eq => ?_⟩ <;> cases eq
  · exact absurd rfl fine

theorem runs_forEach (is : List ι) (round : ∀ i, Runs (fun _ => True) (g i)) :
    Runs (fun _ => True) (forEach is g) := by
  induction is with
  | nil => exact runs_pure trivial
  | cons i rest ih => exact runs_bind (round i) fun _ _ => ih

theorem runs_attempt (all : Runs (fun _ => True) m) : Runs (fun _ => True) (attempt m) := by
  intro s
  obtain ⟨fine, -⟩ := all s
  refine ⟨fun eq => fine ?_, fun _ _ => trivial⟩
  unfold attempt at eq
  rcases run : m s with ⟨_ | _ | _, t⟩
  · rw [run] at eq
    cases eq
  · rw [run] at eq
    cases eq
  · rfl

variable {p : Prop}

theorem runs_ite {_ : Decidable p} {m' : PutM σ α} (yes : p → Runs P m)
    (no : ¬ p → Runs P m') : Runs P (if p then m else m') := by
  split
  · exact yes ‹p›
  · exact no ‹¬ p›

/-- A stream whose `fputc` may return EOF and does nothing else wrong. -/
def Safe (fputc : Byte → PutM σ Unit) : Prop := ∀ c, Runs (fun _ => True) (fputc c)

theorem safe_collect : Safe collect := by
  intro c s
  refine ⟨fun eq => ?_, fun _ _ => trivial⟩
  cases eq

theorem runs_putMany (safe : Safe fputc) (n : Int) (c : Byte) : Runs (fun _ => True) (putMany fputc n c) :=
  runs_forEach _ safe

variable {c : Byte}

theorem runs_pad (safe : Safe fputc) {R : α → Prop} {_ : Decidable p} {n : Int}
    {k : PUnit → PutM σ α} (rest : ∀ u, Runs R (k u)) : Runs R (if p then putMany fputc n c >>= k else k ⟨⟩) :=
  runs_ite (fun _ => runs_bind (runs_putMany safe n c) fun u _ => rest u) fun _ => rest ⟨⟩

theorem runs_blanks (safe : Safe fputc) {_ : Decidable p} (n : Int) (c : Byte) :
    Runs (fun _ => True) (if p then putMany fputc n c else pure ()) :=
  runs_ite (fun _ => runs_putMany safe n c) fun _ => runs_pure trivial

theorem runs_putnFrom (safe : Safe fputc) (base v i : Nat) : ∀ z, Runs (fun _ => True) (putnFrom fputc base v i z) := by
  induction i with
  | zero => exact fun _ => runs_pure trivial
  | succ i ih =>
    intro z
    rw [putnFrom]
    exact runs_ite (fun _ => ih z) fun _ => runs_bind (safe _) fun _ _ => ih true

theorem runs_fmtputs (safe : Safe fputc) (fmt : Format) (str : Option (List Byte))
    (short : 0 ≤ int (str.getD ("(null)".toList.map chr)).length) : Runs (fun _ => True) (fmtputs fputc fmt str) := by
  unfold fmtputs
  refine runs_ite (fun negative => ?_) fun _ => ?_
  · split at negative <;> omega
  · refine runs_pad safe fun _ => runs_bind (runs_forEach _ safe) fun _ _ => ?_
    exact runs_blanks safe _ _

theorem runs_fmtputn (safe : Safe fputc) (fmt : Format) (v : Nat) (neg : Bool) :
    Runs (fun _ => True) (fmtputn fputc fmt v neg) := by
  unfold fmtputn
  refine runs_pad safe fun _ => runs_bind (runs_forEach _ safe) fun _ _ => ?_
  refine runs_pad safe fun _ => runs_bind (runs_forEach _ fun c => ?_) fun _ _ => ?_
  · exact runs_bind (runs_attempt (safe c)) fun _ _ => runs_pure trivial
  refine runs_bind (runs_putnFrom safe _ _ _ _) fun _ _ => ?_
  exact runs_blanks safe _ _

theorem runs_convertNum (safe : Safe fputc) (m : Machine) (fmt : Format)
    (known : argBits m fmt.size = some bits) (v : Int) (ap : List Arg) : Runs (· = ap) (convertNum fputc m fmt (.num v :: ap)) := by
  have one : ∀ v neg, Runs (· = ap) (fmtputn fputc fmt v neg >>= fun _ => pure ap) := fun v neg =>
    runs_bind (runs_fmtputn safe fmt v neg) fun _ _ => runs_pure rfl
  unfold convertNum
  rw [known]
  refine runs_bind (P := (· = (v, ap))) (runs_pure rfl) ?_
  rintro _ rfl
  exact runs_ite (fun _ => runs_ite (fun _ => one _ _) fun _ => one _ _) fun _ => one _ _

variable {strerror : List Byte} {ap : List Arg}

theorem runs_number (safe : Safe fputc) {m : Machine} {fmt : Format} {ap' : List Arg}
    (letter : c = chr 'd' ∨ c = chr 'i' ∨ c = chr 'u' ∨ c = chr 'o' ∨ c = chr 'p' ∨ c = chr 'x' ∨ c = chr 'X')
    (here : fetch m strerror fmt c ap = some ap') : Runs (· = ap') (convert fputc m strerror fmt c ap) := by
  have not : c ≠ chr 'm' ∧ c ≠ chr 's' ∧ c ≠ chr 'c' := by
    rcases letter with rfl | rfl | rfl | rfl | rfl | rfl | rfl <;> decide
  unfold fetch at here
  rw [if_neg not.1, if_neg not.2.1, if_neg not.2.2, if_pos letter] at here
  rw [convert, if_neg not.1, if_neg not.2.1, if_neg not.2.2]
  split at here
  · rename_i bits v rest known
    cases here
    have num : c ≠ chr 'p' → ∀ base isSigned, Runs (· = ap')
        (convertNum fputc m { fmt with base := base, signedval := isSigned } (.num v :: ap')) := fun other _ _ =>
      runs_convertNum safe m _ (by rwa [if_neg other] at known) v ap'
    refine runs_ite (fun is => num (by rcases is with rfl | rfl <;> decide) _ _) fun di => ?_
    refine runs_ite (fun is => num (by rw [is]; decide) _ _) fun u => ?_
    refine runs_ite (fun is => num (by rw [is]; decide) _ _) fun o => ?_
    refine runs_ite (fun is => runs_convertNum safe m _ (by rwa [if_pos is] at known) v ap') fun p => ?_
    refine runs_ite (fun is => num (by rcases is with rfl | rfl <;> decide) _ _) fun x => ?_
    simp_all
  · cases here

theorem runs_convert (safe : Safe fputc) {m : Machine} {fmt : Format}
    {ap' : List Arg} (here : fetch m strerror fmt c ap = some ap') :
    Runs (· = ap') (convert fputc m strerror fmt c ap) := by
  by_cases number : c = chr 'd' ∨ c = chr 'i' ∨ c = chr 'u' ∨ c = chr 'o' ∨ c = chr 'p' ∨ c = chr 'x' ∨ c = chr 'X'
  · exact runs_number safe number here
  unfold fetch at here
  rw [if_neg number] at here
  rw [convert]
  by_cases error : c = chr 'm'
  · rw [if_pos error] at here ⊢
    split at here
    · cases here
      exact runs_bind (runs_fmtputs safe fmt (some strerror) ‹_›) fun _ _ => runs_pure rfl
    · cases here
  rw [if_neg error] at here ⊢
  by_cases string : c = chr 's'
  · rw [if_pos string] at here ⊢
    split at here
    · rename_i s rest
      split at here
      · cases here
        refine runs_bind (P := (· = (s, ap'))) (runs_pure rfl) ?_
        rintro _ rfl
        exact runs_bind (runs_fmtputs safe fmt s ‹_›) fun _ _ => runs_pure rfl
      · cases here
    · cases here
  rw [if_neg string] at here ⊢
  by_cases char : c = chr 'c'
  · rw [if_pos char] at here ⊢
    split at here
    · rename_i v rest
      cases here
      refine runs_bind (P := (· = (v, ap'))) (runs_pure rfl) ?_
      rintro _ rfl
      exact runs_bind (safe _) fun _ _ => runs_pure rfl
    · cases here
  rw [if_neg char] at here ⊢
  cases here
  simp only [not_or] at number
  obtain ⟨d, i, u, o, p, x, X⟩ := number
  rw [if_neg (by simp [d, i]), if_neg u, if_neg o, if_neg p, if_neg (by simp [x, X])]
  exact runs_bind (safe _) fun _ _ => runs_bind (safe _) fun _ _ => runs_pure rfl

theorem vfprintf_percent (fputc : Byte → PutM σ Unit) (m : Machine) (strerror cs : List Byte) (ap : List Arg) :
    vfprintf fputc m strerror (chr '%' :: chr '%' :: cs) ap =
      fputc (chr '%') >>= fun _ => vfprintf fputc m strerror cs ap := by
  rw [vfprintf, if_neg (by simp), if_pos (by rfl)]
  rfl

theorem vfprintf_ends (fputc : Byte → PutM σ Unit) (m : Machine) (strerror : List Byte) {cs : List Byte} (ap : List Arg)
    (once : cs.head? ≠ some (chr '%')) (nothing : conversion cs = []) : vfprintf fputc m strerror (chr '%' :: cs) ap =
      fputc (chr '%') >>= fun _ => fputc 0 >>= fun _ => crash := by
  rw [← parseFormat_rest] at nothing
  rw [vfprintf, if_neg (by simp), if_neg once]
  split
  · rfl
  · rename_i eq
    rw [eq] at nothing
    cases nothing

theorem vfprintf_runs (safe : Safe fputc) {m : Machine} {format : List Byte}
    (matching : Matching m strerror format ap) (complete : Complete format) :
    Runs (fun _ => True) (vfprintf fputc m strerror format ap) := by
  induction matching with
  | nil =>
    rw [vfprintf]
    exact runs_pure trivial
  | @char c cs ap plain rest ih =>
    rw [vfprintf, if_pos plain]
    refine runs_bind (safe _) fun _ _ => ih ?_
    cases complete with
    | char _ rest => exact rest
    | percent => exact absurd rfl plain
    | conv => exact absurd rfl plain
  | @percent cs ap rest ih =>
    rw [vfprintf_percent]
    refine runs_bind (safe _) fun _ _ => ih ?_
    cases complete with
    | char plain => exact absurd rfl plain
    | percent rest => exact rest
    | conv once => exact absurd rfl once
  | @conv cs cs' c fmt ap ap' once parse here rest ih =>
    rw [vfprintf_conv fputc m strerror ap once parse]
    refine runs_bind (runs_convert safe here) ?_
    rintro _ rfl
    refine ih ?_
    cases complete with
    | char plain => exact absurd rfl plain
    | percent => exact absurd rfl once
    | conv _ letter rest =>
      rw [← parseFormat_rest, parse] at letter
      cases letter
      exact rest
  | @ends cs ap once nothing =>
    cases complete with
    | char plain => exact absurd rfl plain
    | percent => exact absurd rfl once
    | conv _ letter =>
      rw [nothing] at letter
      cases letter

end Runs

theorem collect_bind {α β : Type} {m : PutM (List Byte) α} {f : α → PutM (List Byte) β} {P : α → Prop}
    (first : Runs P m) (fine : ∀ out, (m out).1 ≠ .err ()) (out : List Byte) :
    ∃ a out', P a ∧ (m >>= f) out = f a out' := by
  obtain ⟨defined, known⟩ := first out
  have fine := fine out
  change ∃ a out', P a ∧ Cmd.bind m f out = _
  unfold Cmd.bind
  rcases run : m out with ⟨a | ⟨⟩ | _, t⟩ <;> rw [run] at defined known fine
  · exact ⟨a, t, known a rfl, rfl⟩
  · exact absurd rfl fine
  · exact absurd rfl defined

theorem complete_of_runs {m : Machine} {strerror format : List Byte} {ap : List Arg}
    (matching : Matching m strerror format ap) (out : List Byte)
    (fine : (vfprintf collect m strerror format ap out).1 ≠ .crash) : Complete format := by
  induction matching generalizing out with
  | nil => exact .nil
  | @char c cs ap plain rest ih =>
    rw [vfprintf, if_pos plain] at fine
    exact .char plain (ih _ fine)
  | @percent cs ap rest ih =>
    rw [vfprintf_percent] at fine
    exact .percent (ih _ fine)
  | @conv cs cs' c fmt ap ap' once parse here rest ih =>
    have letter : conversion cs = c :: cs' := by rw [← parseFormat_rest, parse]
    refine .conv once letter ?_
    rw [vfprintf_conv collect m strerror ap once parse] at fine
    obtain ⟨a, out', rfl, eq⟩ := collect_bind (f := fun ap => vfprintf collect m strerror cs' ap)
      (runs_convert safe_collect here) (fun out => (emits_convert total_collect m strerror fmt c ap out out).1) out
    rw [eq] at fine
    exact ih _ fine
  | @ends cs ap once nothing =>
    rw [vfprintf_ends collect m strerror ap once nothing] at fine
    exact absurd rfl fine

/-- Nothing behind the NUL of the format is read, on any stream, if and only if the format does not end inside a
    conversion. -/
theorem vfprintf_inside_iff
    (matching : Matching m strerror format ap) : (∀ (σ : Type) (fputc : Byte → PutM σ Unit), Safe fputc →
      ∀ s, (vfprintf fputc m strerror format ap s).1 ≠ .crash) ↔ Complete format := by
  constructor
  · intro all
    exact complete_of_runs matching [] (all _ collect safe_collect [])
  · intro complete σ fputc safe s
    exact (vfprintf_runs safe matching complete s).1

end Libc
