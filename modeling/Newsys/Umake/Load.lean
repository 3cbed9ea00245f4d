import Newsys.Lib.Splice
import Newsys.Lib.Text

/- The variables of a makefile (cmd/umake/load.c). A text is a list of characters, as in `umake.c`, but the buffer of
   `substvars` has the size that it has. -/
namespace Umake.Load
open Splice Text List

abbrev Str := List Char

structure Var where
  name : Str
  val : Str
  deriving DecidableEq

/-- `vars`: the variable that was set first is the last one. -/
abbrev Vars := List Var

def assign (name value : Str) : Vars → Option Vars
  | [] => none
  | var :: vars =>
    if var.name = name then some ({ var with val := value } :: vars) else (assign name value vars).map (var :: ·)

def setvar (vars : Vars) (name value : Str) : Vars :=
  match assign name value vars with
  | some vars => vars
  | none => ⟨name, value⟩ :: vars

/-- `nlen` characters are the same and the name of the variable ends behind them. -/
def getvar (vars : Vars) (name : Str) : Option Str :=
  let nlen := (name.takeWhile (· ≠ ')')).length
  (vars.find? fun var => var.name.take nlen = name.take nlen && var.name[nlen]? = none).map Var.val

/-- `strstr(s, "$(")`: what stands before, and what stands behind. -/
def strstr : Str → Option (Str × Str)
  | [] => none
  | c :: cs =>
    if c = '$' ∧ cs.head? = some '(' then some ([], cs.tail)
    else (strstr cs).map fun (pre, body) => (c :: pre, body)

def bufSize : Nat := 4096

/-- The loop of `substvars`: `buf` up to `p`, and from there on. It ends with the text in `buf` and `mffail`, or with
    a copy that runs past the end of `buf`. -/
def substLoop (vars : Vars) : Nat → Str → Str → Option (Halt Char)
  | 0, _, _ => none
  | n + 1, buf, p =>
    match strstr p with
    | none => some (.done (buf ++ p) false)
    | some (pre, body) =>
      match cut ')' body with
      | none => some (.done (buf ++ p) true)
      | some (name, sp) =>
        match getvar vars body with
        | none => substLoop vars n (buf ++ pre ++ ('$' :: '(' :: name ++ [')'])) sp
        | some v =>
          if (buf ++ pre ++ v ++ sp).length + 1 > bufSize then some .full
          else substLoop vars n buf (pre ++ v ++ sp)

def substvars (n : Nat) (vars : Vars) (s : Str) : Option (Halt Char) :=
  if s.length + 1 > bufSize then some .full else substLoop vars n [] s

def lookup (vars : Vars) (name : Str) : Option Str := (vars.find? (·.name = name)).map Var.val

theorem takeWhile_free (free : ')' ∉ name) (sp : Str) :
    (name ++ ')' :: sp).takeWhile (· ≠ ')') = name := by
  have inside : ∀ c ∈ name, decide (c ≠ ')') = true := by
    intro c mem
    exact decide_eq_true (ne_of_mem_of_not_mem mem free)
  rw [takeWhile_append_of_pos inside]
  simp

theorem getvar_name (free : ')' ∉ name) (vars : Vars) (sp : Str) :
    getvar vars (name ++ ')' :: sp) = lookup vars name := by
  have same : ∀ var : Var, (var.name.take name.length = name ∧ var.name[name.length]? = none) ↔ var.name = name := by
    intro var
    constructor
    · rintro ⟨begins, ends⟩
      rw [getElem?_eq_none_iff] at ends
      rwa [take_of_length_le ends] at begins
    · rintro rfl
      simp
  simp only [getvar, takeWhile_free free, take_left, lookup, ← Bool.decide_and, same]

theorem strstr_some (found : strstr s = some (pre, body)) :
    s = pre ++ '$' :: '(' :: body ∧ strstr pre = none := by
  induction s generalizing pre with
  | nil => cases found
  | cons c cs ih =>
    rw [strstr] at found
    split at found
    · next here =>
      cases found
      obtain ⟨rfl, opens⟩ := here
      obtain ⟨tail, rfl⟩ := head?_eq_some_iff.1 opens
      exact ⟨rfl, rfl⟩
    · next away =>
      obtain ⟨⟨pre', body'⟩, later, eq⟩ := Option.map_eq_some_iff.1 found
      cases eq
      obtain ⟨rfl, none⟩ := ih later
      have here : ¬(c = '$' ∧ pre'.head? = some '(') := by
        rintro ⟨rfl, opens⟩
        obtain ⟨tail, rfl⟩ := head?_eq_some_iff.1 opens
        exact away ⟨rfl, rfl⟩
      simp [strstr, here, none]

theorem cut_some (cuts : cut ')' s = some (name, sp)) : s = name ++ ')' :: sp ∧ ')' ∉ name := by
  induction s generalizing name with
  | nil => cases cuts
  | cons c cs ih =>
    rw [cut] at cuts
    split at cuts
    · next is =>
      cases cuts
      exact ⟨by rw [is]; rfl, not_mem_nil⟩
    · next other =>
      obtain ⟨⟨name', sp'⟩, later, eq⟩ := Option.map_eq_some_iff.1 cuts
      cases eq
      obtain ⟨rfl, free⟩ := ih later
      exact ⟨rfl, by simp [Ne.symm other, free]⟩

def refTo (name : Str) : Str := '$' :: '(' :: name ++ [')']

def reference (s : Str) : Found Char :=
  match strstr s with
  | none => .none
  | some (pre, body) =>
    match cut ')' body with
    | none => .unclosed
    | some (name, sp) => .ref pre (refTo name) sp

def value (vars : Vars) (r : Str) : Option Str := lookup vars (r.drop 2).dropLast

theorem value_refTo (vars : Vars) (name : Str) : value vars (refTo name) = lookup vars name := by
  simp [value, refTo]

theorem leftmost_reference : Leftmost reference := by
  intro t pre r post here
  rw [reference] at here
  split at here
  · cases here
  · next found =>
    obtain ⟨rfl, none⟩ := strstr_some found
    split at here
    · cases here
    · next cuts =>
      cases here
      obtain ⟨rfl, -⟩ := cut_some cuts
      exact ⟨by simp [refTo], by rw [reference, none]⟩

theorem substLoop_eq_run (vars : Vars) (n : Nat) (buf p : Str) :
    substLoop vars n buf p = run reference (value vars) bufSize n buf p := by
  induction n generalizing buf p with
  | zero => rfl
  | succ n ih =>
    rw [substLoop, run, reference]
    cases found : strstr p with
    | none => rfl
    | some parts =>
      obtain ⟨pre, body⟩ := parts
      cases cuts : cut ')' body with
      | none => simp only [cuts]
      | some names =>
        obtain ⟨name, sp⟩ := names
        obtain ⟨rfl, free⟩ := cut_some cuts
        simp only [cuts, getvar_name free, value_refTo]
        cases lookup vars name with
        | none => exact ih ..
        | some v =>
          dsimp only
          by_cases room : (buf ++ pre ++ v ++ sp).length < bufSize
          · rw [if_pos room, if_neg (by omega)]
            exact ih ..
          · rw [if_neg room, if_pos (by omega)]

/-- `out` is the line with every reference to a variable replaced by its value, which is expanded in turn; `fail` if a
    reference is met that is not closed. -/
def Expanded (vars : Vars) (line out : Str) (fail : Bool) : Prop := Expands reference (value vars) line out fail

/-- `substvars` comes to an end inside its buffer and returns the expansion. -/
def Meets (vars : Vars) (line : Str) : Prop :=
  ∃ n out fail, substvars n vars line = some (.done out fail) ∧ Expanded vars line out fail

def Reaches (vars : Vars) (line : Str) : Splice.State Char → Prop := Reached reference (value vars) ([], [line])

/-- No reference is put together from a value and the text beside it. -/
def Whole (vars : Vars) (line : Str) : Prop := ∀ s, Reaches vars line s → Aligned reference s

/-- The expansion in which each value is a text of its own comes to an end. -/
def Terminates (vars : Vars) (line : Str) : Prop := Ends reference (value vars) ([], [line])

def Short (vars : Vars) (line : Str) : Prop := ∀ s, Reaches vars line s → Fits bufSize s

theorem substvars_expands (vars : Vars) (line : Str) (short : line.length < bufSize) (whole : Whole vars line) :
    Meets vars line ↔ Terminates vars line ∧ Short vars line := by
  have copied : ∀ n, substvars n vars line = run reference (value vars) bufSize n [] [line].flatten := by
    intro n
    rw [substvars, if_neg (by omega), substLoop_eq_run, flatten_singleton]
  constructor
  · rintro ⟨n, out, fail, returns, -⟩
    rw [copied] at returns
    exact ends_of_run leftmost_reference (s := ([], [line])) (by simpa [Fits] using short) whole returns
  · rintro ⟨ends, fits⟩
    obtain ⟨n, out, fail, ran, all⟩ := run_of_ends leftmost_reference ends fun s reached =>
      ⟨whole s reached, fits s reached⟩
    exact ⟨n, out, fail, (copied n).trans ran, expandsAll_single all⟩

/-- `C = cc` and the line `$(C) -c`. -/
theorem substvars_expands_cc : Meets [⟨['C'], ['c', 'c']⟩] ['$', '(', 'C', ')', ' ', '-', 'c'] := by
  have turns : ∀ s, Turn reference (value [⟨['C'], ['c', 'c']⟩]) ([], [['$', '(', 'C', ')', ' ', '-', 'c']]) s →
      s = ([], [[], ['c', 'c'], [' ', '-', 'c']]) := by
    intro s turn
    cases turn with
    | kept here undefined =>
      cases here
      cases undefined
    | put here is =>
      cases here
      cases is
      rfl
  have last : ∀ s, ¬Turn reference (value [⟨['C'], ['c', 'c']⟩]) ([], [[], ['c', 'c'], [' ', '-', 'c']]) s := by
    intro s turn
    cases turn with
    | kept here => cases here
    | put here => cases here
  have reached : ∀ s, Reaches [⟨['C'], ['c', 'c']⟩] ['$', '(', 'C', ')', ' ', '-', 'c'] s →
      s = ([], [['$', '(', 'C', ')', ' ', '-', 'c']]) ∨ s = ([], [[], ['c', 'c'], [' ', '-', 'c']]) := by
    intro s reached
    rcases Relation.ReflTransGen.cases_head reached with rfl | ⟨s', turn, later⟩
    · exact .inl rfl
    · cases turns s' turn
      rcases Relation.ReflTransGen.cases_head later with rfl | ⟨s'', turn', -⟩
      · exact .inr rfl
      · exact absurd turn' (last s'')
  refine (substvars_expands _ _ (by decide) ?_).mpr ⟨?_, ?_⟩
  · intro s reaches
    rcases reached s reaches with rfl | rfl <;> rfl
  · refine .intro _ fun s turn => ?_
    cases turns s turn
    exact .intro _ fun s' turn' => absurd turn' (last s')
  · intro s reaches
    rcases reached s reaches with rfl | rfl <;> unfold Fits <;> decide

/-- `A = $(A)` and the line `$(A)`: the loop does not end. -/
theorem substvars_endless : ['$', '(', 'A', ')'].length < bufSize ∧
    ¬Meets [⟨['A'], ['$', '(', 'A', ')']⟩] ['$', '(', 'A', ')'] := by
  refine ⟨by decide, ?_⟩
  rintro ⟨n, out, fail, returns, -⟩
  change substLoop _ n [] _ = _ at returns
  induction n with
  | zero => cases returns
  | succ n ih => exact ih returns

end Umake.Load
