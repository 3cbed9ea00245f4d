import Mathlib.Data.List.TakeWhile
import Newsys.Kern.Names

/- Member names as the archiver extracts them (spath of cmd/bin/tar.c, strtok of lib/string/strtok.c). `rpath` is static:
   what one call leaves in it is there in the next. A write outside a buffer has no result. -/
namespace Spath
open Bytes Lexical List
open Vfs (slash period pathMax)

abbrev Str := List Byte

def str (r : Str) : Str := r.takeWhile (· ≠ 0)

def strcat (r s : Str) : Option Str :=
  let n := (str r).length
  if n + s.length < r.length then some (r.take n ++ (s ++ 0 :: r.drop (n + s.length + 1))) else none

def strtok (p : Str) : Option (Str × Str) :=
  match p.dropWhile (· = slash) with
  | [] => none
  | c :: p => some ((c :: p).takeWhile (· ≠ slash), ((c :: p).dropWhile (· ≠ slash)).drop 1)

theorem strtok_shorter (token : strtok p = some (name, rest)) : rest.length < p.length := by
  have le := (dropWhile_suffix (l := p) fun x => decide (x = slash)).length_le
  unfold strtok at token
  split at token
  · cases token
  · rename_i c q eq
    have first : c ≠ slash := by
      have stops := head?_dropWhile_not (fun x => decide (x = slash)) p
      rw [eq] at stops
      simpa using stops
    have le' := (dropWhile_suffix (l := q) fun x => decide (x ≠ slash)).length_le
    cases token
    rw [eq, length_cons] at le
    rw [dropWhile_cons_of_pos (p := fun x => decide (x ≠ slash)) (decide_eq_true first), length_drop]
    omega

def back (r : Str) : Nat → Nat
  | 0 => 0
  | dp + 1 => if r.getD dp 0 = slash then dp else back r dp

def spathLoop (r : Str) (dp : Nat) (p : Str) : Option Str :=
  match _token : strtok p with
  | none => some r
  | some (name, rest) =>
    if name = [period] then spathLoop r dp rest
    else if name = [period, period] then spathLoop r (back r dp) rest
    else do
      let r ← strcat r [slash]
      let r ← strcat r name
      spathLoop r dp rest
termination_by p.length
decreasing_by all_goals exact strtok_shorter (by assumption)

def spath (r pathname : Str) : Option (Str × Str) := do
  let pathname := pathname.dropWhile (· = slash)
  -- `strcpy` into `cpath`
  if pathMax ≤ pathname.length then none
  else
    let r ← spathLoop (r.set 0 0) 0 pathname
    return (if r.getD 1 0 = 0 then [period] else str (r.drop 1), r)

def start : Str := replicate (pathMax + 1) 0

structure PathName where
  bytes : Str
  noNul : 0 ∉ bytes
  short : bytes.length < pathMax

def after (r : Str) : List PathName → Option Str
  | [] => some r
  | p :: ps => do
    let (_, r) ← spath r p.bytes
    after r ps

def relative (p : Str) : Str :=
  let stack := pushes period [] (p.splitOn slash)
  if stack = [] then [period] else (spell slash stack).drop 1

/-- After any calls the normal form of the name is returned, and it has only components that stand for themselves. -/
def Normalises (earlier : List PathName) (p : PathName) : Prop :=
  ∃ r r', after start earlier = some r ∧ spath r p.bytes = some (relative p.bytes, r') ∧
    (relative p.bytes = [period] ∨ ∀ c ∈ (relative p.bytes).splitOn slash, Plain slash period c)

def names (cs : List Str) : List Str := cs.filter fun c => decide (c ≠ [] ∧ c ≠ [period] ∧ c ≠ [period, period])

/-- No double dot stands behind a name. -/
def Level (cs : List Str) : Prop := ∀ before behind, cs = before ++ [period, period] :: behind → names before = []

section Components
variable {cs stack : List Str} {c p name rest : Str}

theorem names_cons_skip (skip : c = [] ∨ c = [period] ∨ c = [period, period]) : names (c :: cs) = names cs := by
  unfold names
  rw [filter_cons_of_neg]
  simp
  tauto

theorem plain_names (noSep : ∀ c ∈ cs, slash ∉ c) : ∀ c ∈ names cs, Plain slash period c := by
  intro c mem
  obtain ⟨mem, named⟩ := mem_filter.mp mem
  have named := of_decide_eq_true named
  exact ⟨named.1, noSep c mem, named.2.1, named.2.2⟩

theorem pushes_length_le (stack cs : List Str) : (pushes period stack cs).length ≤ stack.length + (names cs).length := by
  induction cs generalizing stack with
  | nil => simp [pushes]
  | cons c cs ih =>
    have rest := ih (push period stack c)
    rw [pushes_cons]
    by_cases skip : c = [] ∨ c = [period] ∨ c = [period, period]
    · have le : (push period stack c).length ≤ stack.length := by
        unfold push
        split
        · exact le_refl _
        · split
          · simp
          · tauto
      rw [names_cons_skip skip]
      omega
    · rw [not_or, not_or] at skip
      have grown : push period stack c = stack ++ [c] := by simp [push, skip]
      have more : names (c :: cs) = c :: names cs := by simp [names, skip]
      rw [grown, length_append, length_singleton] at rest
      rw [grown, more, length_cons]
      omega

theorem pushes_names_iff (stack cs : List Str) : pushes period stack cs = stack ++ names cs ↔
    ∀ before behind, cs = before ++ [period, period] :: behind → stack = [] ∧ names before = [] := by
  induction cs generalizing stack with
  | nil => simp [pushes, names]
  | cons c cs ih =>
    rw [pushes_cons]
    by_cases dots : c = [period, period]
    · rw [names_cons_skip (.inr (.inr dots))]
      cases stack with
      | nil =>
        have popped : push period [] c = [] := by simp [push, dots]
        rw [popped, ih]
        constructor
        · intro level before behind split
          cases before with
          | nil => exact ⟨rfl, rfl⟩
          | cons d before =>
            obtain ⟨rfl, tail⟩ := cons.inj split
            rw [names_cons_skip (.inr (.inr dots))]
            exact level before behind tail
        · intro level before behind split
          have whole := level (c :: before) behind (by rw [split]; rfl)
          rwa [names_cons_skip (.inr (.inr dots))] at whole
      | cons d stack =>
        constructor
        · intro same
          have le := pushes_length_le (push period (d :: stack) c) cs
          have popped : push period (d :: stack) c = (d :: stack).dropLast := by simp [push, dots, period]
          rw [same, popped, length_append, length_dropLast, length_cons] at le
          omega
        · intro level
          obtain ⟨empty, _⟩ := level [] cs (by rw [dots]; rfl)
          cases empty
    · by_cases skip : c = [] ∨ c = [period]
      · have kept : push period stack c = stack := by simp [push, skip]
        have skip' : c = [] ∨ c = [period] ∨ c = [period, period] := by tauto
        rw [kept, names_cons_skip skip', ih]
        constructor
        · intro level before behind split
          cases before with
          | nil => exact absurd (cons.inj split).1 dots
          | cons d before =>
            obtain ⟨rfl, tail⟩ := cons.inj split
            rw [names_cons_skip skip']
            exact level before behind tail
        · intro level before behind split
          have whole := level (c :: before) behind (by rw [split]; rfl)
          rwa [names_cons_skip skip'] at whole
      · have grown : push period stack c = stack ++ [c] := by simp [push, skip, dots]
        have more : ∀ cs, names (c :: cs) = c :: names cs := by
          rw [not_or] at skip
          intro cs
          simp [names, skip, dots]
        have shape : stack ++ c :: names cs = (stack ++ [c]) ++ names cs := by simp
        rw [grown, more, shape, ih]
        constructor
        · intro level before behind split
          cases before with
          | nil => exact absurd (cons.inj split).1 dots
          | cons d before =>
            obtain ⟨empty, _⟩ := level before behind (cons.inj split).2
            simp at empty
        · intro level before behind split
          obtain ⟨_, none⟩ := level (c :: before) behind (by rw [split]; rfl)
          simp [more] at none

theorem pushes_level_iff : pushes period [] cs = names cs ↔ Level cs := by
  have both := pushes_names_iff [] cs
  rw [nil_append] at both
  rw [both]
  constructor
  · exact fun level before behind split => (level before behind split).2
  · exact fun level before behind split => ⟨rfl, level before behind split⟩

theorem spell_inj (plainA : ∀ c ∈ a, slash ∉ c) (plainB : ∀ c ∈ b, slash ∉ c)
    (same : spell slash a = spell slash b) : a = b := by
  have splitA := splitOn_spell (c := []) plainA (by simp)
  have splitB := splitOn_spell (c := []) plainB (by simp)
  rw [same, splitB] at splitA
  exact (cons.inj splitA).2.symm

theorem words_slash (p : Str) : names ((slash :: p).splitOn slash) = names (p.splitOn slash) := by
  rw [splitOn_sep]
  exact names_cons_skip (.inl rfl)

theorem words_dropWhile (p : Str) : names ((p.dropWhile (· = slash)).splitOn slash) = names (p.splitOn slash) := by
  induction p with
  | nil => rfl
  | cons c p ih =>
    by_cases sep : c = slash
    · rw [dropWhile_cons_of_pos (by simpa using sep), ih, sep, words_slash]
    · rw [dropWhile_cons_of_neg (by simpa using sep)]

theorem strtok_none (done : strtok p = none) : names (p.splitOn slash) = [] := by
  unfold strtok at done
  split at done
  · rename_i empty
    rw [← words_dropWhile, empty]
    rfl
  · cases done

theorem strtok_some (token : strtok p = some (name, rest)) : name ≠ [] ∧
    names (p.splitOn slash) = names (name :: rest.splitOn slash) := by
  unfold strtok at token
  split at token
  · cases token
  · rename_i c q eq
    have first : c ≠ slash := by
      have stops := head?_dropWhile_not (fun x => decide (x = slash)) p
      rw [eq] at stops
      simpa using stops
    rw [← words_dropWhile, eq]
    have split := takeWhile_append_dropWhile (p := fun x => decide (x ≠ slash)) (l := c :: q)
    have free : slash ∉ (c :: q).takeWhile fun x => decide (x ≠ slash) := by
      intro mem
      have kept := mem_takeWhile_imp mem
      simp at kept
    have some : (c :: q).takeWhile (fun x => decide (x ≠ slash)) ≠ [] := by
      rw [takeWhile_cons_of_pos (p := fun x => decide (x ≠ slash)) (decide_eq_true first)]
      exact cons_ne_nil _ _
    have stop := head?_dropWhile_not (fun x => decide (x ≠ slash)) (c :: q)
    cases token
    refine ⟨some, ?_⟩
    generalize (c :: q).takeWhile (fun x => decide (x ≠ slash)) = a at split free
    generalize (c :: q).dropWhile (fun x => decide (x ≠ slash)) = b at split stop
    rw [← split]
    cases b with
    | nil =>
      rw [append_nil, splitOn_eq_singleton free, drop_nil, splitOn_nil]
      simp [names, filter_cons]
    | cons d r =>
      have sep : d = slash := by simpa using stop
      rw [sep, splitOn_append_cons_self_of_not_mem free]
      rfl

theorem spell_names_le (cs : List Str) : (spell slash (names cs)).length ≤ (spell slash cs).length := by
  induction cs with
  | nil => exact le_refl _
  | cons c cs ih =>
    unfold names spell at *
    rw [filter_cons]
    split <;> simp only [flatMap_cons, length_append] <;> omega

theorem spell_splitOn (p : Str) : spell slash (p.splitOn slash) = slash :: p := by
  induction p with
  | nil => rfl
  | cons c p ih =>
    by_cases sep : c = slash
    · rw [sep, splitOn_sep, spell, flatMap_cons]
      exact congrArg (slash :: ·) ih
    · rw [splitOn_cons_eq_if_modifyHead, if_neg (by simpa using sep)]
      cases split : p.splitOn slash with
      | nil => exact absurd split (splitOn_ne_nil slash p)
      | cons d ds =>
        rw [split] at ih
        simpa [spell] using ih

end Components

theorem strtok_subset (token : strtok p = some (name, rest)) : name ⊆ p ∧ rest ⊆ p := by
  have part := (dropWhile_suffix (l := p) fun x => decide (x = slash)).subset
  unfold strtok at token
  split at token
  · cases token
  · rename_i c q eq
    rw [eq] at part
    cases token
    constructor
    · exact List.Subset.trans (List.takeWhile_prefix _).subset part
    · exact List.Subset.trans ((drop_suffix 1 _).trans (dropWhile_suffix _)).subset part

section Buffer
variable {r s t u : Str} {dp : Nat} {p : Str}

theorem str_append (noNul : 0 ∉ s) (t : Str) : str (s ++ 0 :: t) = s := by
  have all : ∀ c ∈ s, decide (c ≠ 0) = true := fun c mem => decide_eq_true fun zero => noNul (by rwa [← zero])
  unfold str
  rw [takeWhile_append_of_pos all, takeWhile_cons_of_neg (by simp), append_nil]

theorem strcat_fits (noNul : 0 ∉ s) (fits : u.length ≤ t.length) :
    strcat (s ++ 0 :: t) u = some (s ++ u ++ 0 :: t.drop u.length) := by
  unfold strcat
  rw [str_append noNul]
  have room : s.length + u.length < (s ++ 0 :: t).length := by
    rw [length_append, length_cons]
    omega
  rw [if_pos room, add_assoc, drop_append]
  simp

theorem back_zero (r : Str) : back r 0 = 0 := rfl

/-- The names of the rest are put behind what is in the buffer. `dp` stays where it is, so a double dot takes nothing
    away. -/
theorem spathLoop_names (noNul : 0 ∉ s) (noNul' : 0 ∉ p)
    (fits : (spell slash (names (p.splitOn slash))).length ≤ t.length) :
    spathLoop (s ++ 0 :: t) 0 p = some (s ++ spell slash (names (p.splitOn slash)) ++
      0 :: t.drop (spell slash (names (p.splitOn slash))).length) := by
  induction len : p.length using Nat.strong_induction_on generalizing s t p with
  | _ n ih =>
    rw [spathLoop]
    cases token : strtok p with
    | none =>
      rw [strtok_none token]
      simp [spell]
    | some pair =>
      obtain ⟨name, rest⟩ := pair
      obtain ⟨some, words⟩ := strtok_some token
      obtain ⟨nameIn, restIn⟩ := strtok_subset token
      have less : rest.length < n := len ▸ strtok_shorter token
      have noNulRest : 0 ∉ rest := fun mem => noNul' (restIn mem)
      have noNulName : 0 ∉ name := fun mem => noNul' (nameIn mem)
      rw [words] at fits ⊢
      dsimp only
      by_cases one : name = [period]
      · rw [if_pos one]
        rw [names_cons_skip (.inr (.inl one))] at fits ⊢
        exact ih rest.length less noNul noNulRest fits rfl
      · rw [if_neg one]
        by_cases two : name = [period, period]
        · rw [if_pos two, back_zero]
          rw [names_cons_skip (.inr (.inr two))] at fits ⊢
          exact ih rest.length less noNul noNulRest fits rfl
        · have more : names (name :: rest.splitOn slash) = name :: names (rest.splitOn slash) := by
            simp [names, some, one, two]
          rw [if_neg two]
          rw [more] at fits ⊢
          have width : (spell slash (name :: names (rest.splitOn slash))).length =
              1 + name.length + (spell slash (names (rest.splitOn slash))).length := by
            simp [spell]
            omega
          rw [width] at fits
          have noNul₁ : 0 ∉ s ++ [slash] := by
            rw [mem_append, not_or]
            exact ⟨noNul, by decide⟩
          have noNul₂ : 0 ∉ s ++ [slash] ++ name := by
            rw [mem_append, not_or]
            exact ⟨noNul₁, noNulName⟩
          have first := strcat_fits (u := [slash]) (t := t) noNul (by simp; omega)
          have second := strcat_fits (u := name) (t := t.drop 1) noNul₁ (by rw [length_drop]; omega)
          have last := ih rest.length less noNul₂ noNulRest (t := (t.drop 1).drop name.length)
            (by rw [length_drop, length_drop]; omega) rfl
          rw [length_singleton] at first
          simp only [Option.bind_eq_bind, first, second, Option.bind_some]
          rw [last, width]
          simp [spell, add_assoc]
          omega

end Buffer

theorem str_spell (some : cs ≠ []) (plain : ∀ c ∈ cs, Plain slash period c) (noNul : ∀ c ∈ cs, 0 ∉ c) (t : Str) :
    (spell slash cs ++ 0 :: t).getD 1 0 ≠ 0 ∧ str ((spell slash cs ++ 0 :: t).drop 1) = (spell slash cs).drop 1 ∧
      (spell slash cs).drop 1 ≠ [period] := by
  obtain ⟨c, cs, rfl⟩ := exists_cons_of_ne_nil some
  obtain ⟨x, c, rfl⟩ := exists_cons_of_ne_nil (plain c mem_cons_self).nonempty
  have clean : (0 : Byte) ∉ x :: c ++ spell slash cs := by
    rw [mem_append, not_or]
    refine ⟨noNul _ mem_cons_self, ?_⟩
    intro mem
    obtain ⟨d, inside, mem⟩ := mem_flatMap.mp mem
    rcases mem_cons.mp mem with zero | mem
    · exact absurd zero (by decide)
    · exact noNul d (mem_cons_of_mem _ inside) mem
  have shape : spell slash ((x :: c) :: cs) = slash :: (x :: c ++ spell slash cs) := rfl
  rw [shape]
  refine ⟨?_, str_append clean t, ?_⟩
  · intro zero
    exact noNul _ mem_cons_self (by rw [← show x = 0 from zero]; exact mem_cons_self)
  · intro same
    have one : x :: c ++ spell slash cs = [period] := same
    obtain ⟨rfl, rest⟩ := cons.inj one
    have tail := (append_eq_nil_iff.mp rest).1
    exact (plain _ mem_cons_self).notDot (by rw [tail])

section Calls
variable {r : Str} {ps : List PathName}

theorem noNul_names (p : PathName) : ∀ c ∈ names (p.bytes.splitOn slash), 0 ∉ c := by
  intro c mem zero
  obtain ⟨mem, _⟩ := mem_filter.mp mem
  have whole := spell_splitOn p.bytes
  have inside : (0 : Byte) ∈ spell slash (p.bytes.splitOn slash) :=
    mem_flatMap.mpr ⟨c, mem, mem_cons_of_mem _ zero⟩
  rw [whole] at inside
  rcases mem_cons.mp inside with sep | mem
  · exact absurd sep (by decide)
  · exact p.noNul mem

theorem plain_components (p : PathName) : ∀ c ∈ names (p.bytes.splitOn slash), Plain slash period c :=
  plain_names fun _ mem => sep_notMem_splitOn _ mem

theorem spath_eq (length : r.length = pathMax + 1) (p : PathName) :
    let cs := names (p.bytes.splitOn slash)
    let r' := spell slash cs ++ 0 :: (r.drop 1).drop (spell slash cs).length
    spath r p.bytes = some (if r'.getD 1 0 = 0 then [period] else str (r'.drop 1), r') ∧ r'.length = pathMax + 1 := by
  have le := (dropWhile_suffix (l := p.bytes) fun x => decide (x = slash)).length_le
  have short := p.short
  have reset : r.set 0 0 = [] ++ 0 :: r.drop 1 := by
    cases r with
    | nil => cases length
    | cons c r => rfl
  have noNul : 0 ∉ p.bytes.dropWhile fun x => decide (x = slash) :=
    fun mem => p.noNul ((dropWhile_suffix _).subset mem)
  have fits := spell_names_le ((p.bytes.dropWhile fun x => decide (x = slash)).splitOn slash)
  rw [spell_splitOn, length_cons] at fits
  have run := spathLoop_names (s := []) (t := r.drop 1) (by simp) noNul (by rw [length_drop, length]; omega)
  rw [words_dropWhile] at run fits
  constructor
  · unfold spath
    rw [reset]
    have inside : ¬ pathMax ≤ (p.bytes.dropWhile fun x => decide (x = slash)).length := by omega
    simp only [run, if_neg inside]
    rfl
  · simp only [length_append, length_cons, length_drop, length]
    omega

/-- What earlier calls have left: zeros, or the last string that had names in it. -/
structure Left (r : Str) (ps : List PathName) : Prop where
  length : r.length = pathMax + 1
  stale : (r.getD 1 0 = 0 ∧ ∀ p ∈ ps, names (p.bytes.splitOn slash) = []) ∨
    (r.getD 1 0 ≠ 0 ∧ str (r.drop 1) ≠ [period] ∧ ∃ p ∈ ps, names (p.bytes.splitOn slash) ≠ [])

theorem nameless {p : PathName} (none : names (p.bytes.splitOn slash) = []) (r : Str) :
    spell slash (names (p.bytes.splitOn slash)) ++ 0 :: (r.drop 1).drop (spell slash (names (p.bytes.splitOn slash))).length =
        0 :: r.drop 1 ∧ (0 :: r.drop 1).getD 1 0 = r.getD 1 0 := by
  constructor
  · rw [none]
    rfl
  · cases r <;> rfl

theorem spath_left (left : Left r ps) (p : PathName) :
    ∃ s r', spath r p.bytes = some (s, r') ∧ Left r' (ps ++ [p]) := by
  obtain ⟨run, length⟩ := spath_eq left.length p
  refine ⟨_, _, run, length, ?_⟩
  by_cases none : names (p.bytes.splitOn slash) = []
  · obtain ⟨kept, same⟩ := nameless none r
    rw [kept, same]
    rcases left.stale with ⟨zero, all⟩ | ⟨some, string, q, mem, named⟩
    · left
      refine ⟨zero, ?_⟩
      intro q mem
      rcases mem_append.mp mem with mem | mem
      · exact all q mem
      · rw [mem_singleton.mp mem]
        exact none
    · right
      exact ⟨some, string, q, mem_append_left _ mem, named⟩
  · right
    obtain ⟨first, string, other⟩ := str_spell none (plain_components p) (noNul_names p)
      ((r.drop 1).drop (spell slash (names (p.bytes.splitOn slash))).length)
    exact ⟨first, by rwa [string], p, by simp, none⟩

theorem spath_named (length : r.length = pathMax + 1) (p : PathName) (some : names (p.bytes.splitOn slash) ≠ []) :
    ∃ r', spath r p.bytes = .some ((spell slash (names (p.bytes.splitOn slash))).drop 1, r') := by
  obtain ⟨run, _⟩ := spath_eq length p
  obtain ⟨first, string, _⟩ := str_spell some (plain_components p) (noNul_names p)
    ((r.drop 1).drop (spell slash (names (p.bytes.splitOn slash))).length)
  rw [if_neg first, string] at run
  exact ⟨_, run⟩

theorem after_left (left : Left r ps) (qs : List PathName) : ∃ r', after r qs = some r' ∧ Left r' (ps ++ qs) := by
  induction qs generalizing r ps with
  | nil => exact ⟨r, rfl, by simpa using left⟩
  | cons q qs ih =>
    obtain ⟨s, r₁, run, left₁⟩ := spath_left left q
    obtain ⟨r₂, rest, left₂⟩ := ih left₁
    refine ⟨r₂, ?_, by simpa using left₂⟩
    simp [after, run, rest]

theorem left_start : Left start [] := ⟨length_replicate, .inl ⟨rfl, by simp⟩⟩

theorem relative_plain (p : Str) :
    relative p = [period] ∨ ∀ c ∈ (relative p).splitOn slash, Plain slash period c := by
  have plain : ∀ c ∈ pushes period [] (p.splitOn slash), Plain slash period c :=
    plain_pushes (by simp) fun c mem => sep_notMem_splitOn c mem
  unfold relative
  cases stack : pushes period [] (p.splitOn slash) with
  | nil => exact .inl rfl
  | cons c cs =>
    right
    rw [stack] at plain
    have split := splitOn_spell (fun d mem => (plain d (mem_cons_of_mem c mem)).noSep) (plain c mem_cons_self).noSep
    have shape : (spell slash (c :: cs)).drop 1 = c ++ spell slash cs := rfl
    rw [if_neg (cons_ne_nil c cs), shape, split]
    exact plain

theorem relative_spell_iff (p : PathName) (some : names (p.bytes.splitOn slash) ≠ []) :
    (spell slash (names (p.bytes.splitOn slash))).drop 1 = relative p.bytes ↔ Level (p.bytes.splitOn slash) := by
  have plain : ∀ c ∈ pushes period [] (p.bytes.splitOn slash), Plain slash period c :=
    plain_pushes (by simp) fun c mem => sep_notMem_splitOn c mem
  have other := (str_spell some (plain_components p) (noNul_names p) []).2.2
  rw [← pushes_level_iff]
  unfold relative
  by_cases empty : pushes period [] (p.bytes.splitOn slash) = []
  · rw [if_pos empty, empty]
    exact iff_of_false other (Ne.symm some)
  · rw [if_neg empty]
    constructor
    · intro same
      have spelled : ∀ {cs : List Str}, cs ≠ [] → spell slash cs = slash :: (spell slash cs).drop 1 := by
        intro cs some
        cases cs with
        | nil => exact absurd rfl some
        | cons c cs => rfl
      have whole : spell slash (pushes period [] (p.bytes.splitOn slash)) = spell slash (names (p.bytes.splitOn slash)) := by
        rw [spelled empty, spelled some, same]
      exact spell_inj (fun c mem => (plain c mem).noSep) (fun c mem => (plain_components p c mem).noSep) whole
    · intro same
      rw [same]

end Calls

/-- A double dot is skipped, and a name that has no components is what an earlier call has left. -/
theorem normalises_iff (earlier : List PathName) (p : PathName) : Normalises earlier p ↔
    Level (p.bytes.splitOn slash) ∧
      (names (p.bytes.splitOn slash) ≠ [] ∨ ∀ q ∈ earlier, names (q.bytes.splitOn slash) = []) := by
  obtain ⟨r, ran, left⟩ := after_left left_start earlier
  rw [nil_append] at left
  obtain ⟨run, _⟩ := spath_eq left.length p
  have result : Normalises earlier p ↔ ∃ s r', spath r p.bytes = some (s, r') ∧ s = relative p.bytes := by
    constructor
    · rintro ⟨r₁, r', ran₁, run₁, _⟩
      cases ran.symm.trans ran₁
      exact ⟨_, r', run₁, rfl⟩
    · rintro ⟨s, r', run₁, rfl⟩
      exact ⟨r, r', ran, run₁, relative_plain p.bytes⟩
  rw [result]
  by_cases none : names (p.bytes.splitOn slash) = []
  · obtain ⟨kept, same⟩ := nameless none r
    have le := pushes_length_le [] (p.bytes.splitOn slash)
    rw [none] at le
    replace le := length_eq_zero_iff.mp (Nat.le_zero.mp le)
    have level : Level (p.bytes.splitOn slash) := pushes_level_iff.mp (le.trans none.symm)
    have normal : relative p.bytes = [period] := by rw [relative, le]; rfl
    rw [run, kept, same, normal]
    rcases left.stale with ⟨zero, all⟩ | ⟨some, string, q, mem, named⟩
    · rw [if_pos zero]
      exact iff_of_true ⟨_, _, rfl, rfl⟩ ⟨level, .inr all⟩
    · rw [if_neg some]
      refine iff_of_false ?_ ?_
      · rintro ⟨s, r', eq, dot⟩
        cases eq
        exact string dot
      · rintro ⟨_, some' | all⟩
        · exact some' none
        · exact named (all q mem)
  · obtain ⟨r', named⟩ := spath_named left.length p none
    rw [named]
    constructor
    · rintro ⟨s, r', eq, same⟩
      cases eq
      exact ⟨(relative_spell_iff p none).mp same, .inl none⟩
    · rintro ⟨level, _⟩
      exact ⟨_, _, rfl, (relative_spell_iff p none).mpr level⟩

/-- "a/.." is extracted as "a". -/
theorem not_normalises : ¬ Normalises [] ⟨[97, 47, 46, 46], by decide, by decide⟩ := by
  rintro ⟨r, r', ran, run, _⟩
  cases ran
  have some : names ([97, 47, 46, 46].splitOn slash) ≠ [] := by decide
  obtain ⟨r'', named⟩ := spath_named left_start.length ⟨[97, 47, 46, 46], by decide, by decide⟩ some
  rw [named] at run
  have level := (relative_spell_iff ⟨[97, 47, 46, 46], by decide, by decide⟩ some).mp (congrArg Prod.fst (Option.some.inj run))
  exact absurd (level [[97]] [] (by decide)) (by decide)

end Spath
