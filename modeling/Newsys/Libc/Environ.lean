import Newsys.Lib.Text
import Newsys.Libc.Strtol

/- The environment of a program (lib/environ/environ.c, strncmp of lib/string/strncmp.c), where `malloc` and `realloc`
   do not fail. Strings have no NUL. A function that reads or writes outside an array has no result. -/
namespace Environ
open Bytes Ints Kern Text Function List Int
open Libc (chr longBits)

abbrev Str := List Byte

def eq : Byte := chr '='

/-- `environ`: NULL, or the slots that are allocated for it, of which an empty one is NULL. -/
abbrev Vars := Option (List (Option Str))

def strncmp : Str → Str → Nat → Int
  | _, _, 0 => 0
  | s1, s2, n + 1 =>
    let u1 := s1.headD 0
    let u2 := s2.headD 0
    if u1 < u2 then -1
    else if u1 > u2 then 1
    else if u1 = 0 then 0
    else strncmp s1.tail s2.tail n

def charAt (e : Str) (l : Int) : Option Byte := if 0 ≤ l then (e ++ [0])[l.toNat]? else none

def envFindLoop (m : Machine) (n : Str) (l : Int) : List (Option Str) → Nat → Option Int
  | [], _ => none
  | none :: _, _ => some (-1)
  | some e :: env, i =>
    if strncmp e n (unsigned (longBits m) l).toNat = 0 then
      match charAt e l with
      | none => none
      | some c => if c = eq then some i else envFindLoop m n l env (i + 1)
    else envFindLoop m n l env (i + 1)

def envFind (m : Machine) (env : Vars) (n : Str) (p : Bool) : Option Int :=
  let l : Nat := if p then n.idxOf eq else n.length
  match env with
  | none => some (-1)
  | some env => envFindLoop m n (int l) env 0

/-- What stands behind the first equals sign that is not the first character. -/
def getenv (m : Machine) (env : Vars) (n : Str) : Option (Option Str) := do
  let i ← envFind m env n false
  if i < 0 then return none
  else
    let e ← (← (env.getD [])[i.toNat]?)
    let (_, v) ← cut eq (e.drop 1)
    return some v

def shiftLoop : List (Option Str) → Option (List (Option Str))
  | [] => none
  | none :: env => some (none :: env)
  | [some _] => none
  | some _ :: next :: env => (shiftLoop (next :: env)).map (next :: ·)

def unsetenv (m : Machine) (env : Vars) (n : Str) : Option Vars := do
  let i ← envFind m env n false
  if i < 0 then return env
  else return some ((env.getD []).take i.toNat ++ (← shiftLoop ((env.getD []).drop i.toNat)))

def countLoop : List (Option Str) → Nat → Option Nat
  | [], _ => none
  | none :: _, i => some (i + 1)
  | some _ :: env, i => countLoop env (i + 1)

def store (env : List (Option Str)) (i : Int) (s : Option Str) : Option (List (Option Str)) :=
  if 0 ≤ i ∧ i < env.length then some (env.set i.toNat s) else none

def realloc (fresh : Option Str) (env : Vars) (slots : Nat) : List (Option Str) :=
  (env.getD []).take slots ++ replicate (slots - (env.getD []).length) fresh

/-- `putenv` returns 0, as memory does not run out. -/
def putenv (m : Machine) (fresh : Option Str) (env : Vars) (s : Str) : Option Vars :=
  if eq ∉ s then unsetenv m env s
  else do
    let i ← envFind m env s true
    if i < 0 then
      let i ← match env with
        | none => some 0
        | some env => countLoop env 0
      let env ← store (realloc fresh env (i + 1)) i none
      let env ← store env (i - 1) (some s)
      return some env
    else return some (← store (env.getD []) i (some s))

/-- `setenv` returns 0, as memory does not run out. -/
def setenv (m : Machine) (fresh : Option Str) (env : Vars) (n v : Str) (o : Bool) : Option Vars := do
  let i ← envFind m env n false
  if i ≥ 0 ∧ o = false then return env
  else putenv m fresh env (n ++ eq :: v)

def clearenv : Vars := none

inductive Op where
  | getenv (n : Str)
  | setenv (n v : Str) (o : Bool)
  | unsetenv (n : Str)
  | putenv (s : Str)
  | clearenv
  deriving DecidableEq

def step (m : Machine) (fresh : Option Str) (env : Vars) : Op → Option (Vars × Option Str)
  | .getenv n => (getenv m env n).map fun v => (env, v)
  | .setenv n v o => (setenv m fresh env n v o).map fun env => (env, none)
  | .unsetenv n => (unsetenv m env n).map fun env => (env, none)
  | .putenv s => (putenv m fresh env s).map fun env => (env, none)
  | .clearenv => some (clearenv, none)

/-- The calls of a program one after the other, each with what a slot holds that is new, and what they return. -/
def run (m : Machine) (env : Vars) : List (Op × Option Str) → Option (Vars × List (Option Str))
  | [] => some (env, [])
  | (op, fresh) :: calls => do
    let (env, r) ← step m fresh env op
    let (env, rs) ← run m env calls
    return (env, r :: rs)

/- Finite maps -/

abbrev Map := Str → Option Str

def mapOf (vars : List (Str × Str)) : Map := fun n => vars.lookup n

def spec (V : Map) : Op → Map × Option Str
  | .getenv n => (V, V n)
  | .setenv n v o => (if o = false ∧ V n ≠ none then V else update V n (some v), none)
  | .unsetenv n => (update V n none, none)
  | .putenv s =>
    match cut eq s with
    | some (n, v) => (update V n (some v), none)
    | none => (update V s none, none)
  | .clearenv => (fun _ => none, none)

def specRun (V : Map) : List Op → Map × List (Option Str)
  | [] => (V, [])
  | op :: ops =>
    let (V, r) := spec V op
    let (V, rs) := specRun V ops
    (V, r :: rs)

structure Name (n : Str) : Prop where
  nonempty : n ≠ []
  noNul : 0 ∉ n
  noEq : eq ∉ n

def entry (v : Str × Str) : Str := v.1 ++ eq :: v.2

def array (vars : List (Str × Str)) (rest : List (Option Str)) : List (Option Str) :=
  vars.map (fun v => some (entry v)) ++ none :: rest

/-- `environ` ends with a NULL, and no name has two entries. -/
structure Tidy (env : Vars) (vars : List (Str × Str)) : Prop where
  slots : env = none ∧ vars = [] ∨ ∃ rest, env = some (array vars rest)
  named : ∀ v ∈ vars, Name v.1
  distinct : (vars.map Prod.fst).Nodup

/-- The calls stay inside the array, and do to it what they do to the map. -/
def Refines (m : Machine) (env : Vars) (calls : List (Op × Option Str)) : Prop :=
  ∀ vars, Tidy env vars → ∃ env' vars',
    run m env calls = some (env', (specRun (mapOf vars) (calls.map Prod.fst)).2) ∧ Tidy env' vars' ∧
      mapOf vars' = (specRun (mapOf vars) (calls.map Prod.fst)).1

def Op.name : Op → Option Str
  | .getenv n => some n
  | .setenv n _ _ => some n
  | .unsetenv n => some n
  | .putenv s => some (s.takeWhile (· ≠ eq))
  | .clearenv => none

def Op.sets : Op → Prop
  | .setenv .. => True
  | .putenv s => eq ∈ s
  | _ => False

def Op.Valid (op : Op) : Prop := ∀ n ∈ op.name, Name n

/-- No name has 2^31 characters, and none gets a value while `environ` is NULL. -/
def Meets (env : Vars) (op : Op) : Prop := (∀ n ∈ op.name, n.length < 2 ^ 31) ∧ (op.sets → env ≠ none)

def MeetsAll (m : Machine) : Vars → List (Op × Option Str) → Prop
  | _, [] => True
  | env, (op, fresh) :: calls =>
    Meets env op ∧ ∀ env' r, step m fresh env op = some (env', r) → MeetsAll m env' calls

section Lookup
variable {n k v w : Str} {vars before after : List (Str × Str)}

theorem lookup_none (absent : n ∉ vars.map Prod.fst) : lookup n vars = none := by
  rw [lookup_eq_none_iff]
  intro p mem
  have other : n ≠ p.1 := fun eq => absent (by rw [eq]; exact mem_map_of_mem mem)
  simpa using other

theorem lookup_add (absent : n ∉ vars.map Prod.fst) :
    mapOf (vars ++ [(n, v)]) = update (mapOf vars) n (some v) := by
  funext k
  simp only [update_apply, mapOf, lookup_append]
  by_cases same : k = n
  · simp [same, lookup_none absent]
  · simp [same]

section
variable (absent : n ∉ before.map Prod.fst)
include absent

theorem lookup_replace :
    mapOf (before ++ (n, v) :: after) = update (mapOf (before ++ (n, w) :: after)) n (some v) := by
  funext k
  simp only [update_apply, mapOf, lookup_append]
  by_cases same : k = n
  · simp [same, lookup_none absent]
  · have other : (k == n) = false := by simpa using same
    simp [same, lookup_cons, other]

theorem lookup_remove (gone : n ∉ after.map Prod.fst) :
    mapOf (before ++ after) = update (mapOf (before ++ (n, w) :: after)) n none := by
  funext k
  simp only [update_apply, mapOf, lookup_append]
  by_cases same : k = n
  · simp [same, lookup_none absent, lookup_none gone]
  · have other : (k == n) = false := by simpa using same
    simp [same, lookup_cons, other]

theorem lookup_here : mapOf (before ++ (n, v) :: after) n = some v := by
  simp [mapOf, lookup_append, lookup_none absent]

end

end Lookup

theorem strncmp_eq (noNul : 0 ∉ n) (e s : Str) : strncmp e (n ++ s) n.length = 0 ↔ n <+: e := by
  induction n generalizing e with
  | nil => simp [strncmp]
  | cons c n ih =>
    rw [mem_cons, not_or] at noNul
    rw [cons_append, length_cons, strncmp]
    cases e with
    | nil =>
      have less : (0 : Byte) < c := by
        have nonzero := noNul.1
        bv_omega
      simp only [headD_nil, headD_cons]
      rw [if_pos less]
      simp
    | cons d e =>
      show (if d < c then (-1 : Int) else if c < d then 1 else if d = 0 then 0 else strncmp e (n ++ s) n.length) = 0 ↔ _
      rw [cons_prefix_cons]
      by_cases same : d = c
      · subst same
        rw [if_neg (BitVec.lt_irrefl d), if_neg (BitVec.lt_irrefl d), if_neg (Ne.symm noNul.1), ih noNul.2]
        simp
      · have order : d < c ∨ c < d := by bv_omega
        rcases order with less | less
        · rw [if_pos less]
          simp [Ne.symm same]
        · rw [if_neg (by bv_omega), if_pos less]
          simp [Ne.symm same]

section Find
variable {m : Machine} {n s : Str} {v : Str × Str} {vars : List (Str × Str)} {rest : List (Option Str)}

theorem length_kept (m : Machine) (small : n.length < 2 ^ 31) :
    (unsigned (longBits m) (int n.length)).toNat = n.length := by
  have whole : int n.length = n.length := int_eq (by omega) (by omega)
  have fits : unsigned (longBits m) n.length = n.length :=
    unsigned_eq (by omega) (by cases m <;> simp only [longBits] <;> omega)
  rw [whole, fits, toNat_natCast]

theorem entry_hit (name : Name n) (other : Name v.1) :
    n <+: entry v ∧ charAt (entry v) n.length = some eq ↔ v.1 = n := by
  constructor
  · rintro ⟨⟨t, whole⟩, ends⟩
    unfold charAt at ends
    simp only [← whole, natCast_nonneg, if_true, toNat_natCast, append_assoc] at ends
    rw [getElem?_append_right (Nat.le_refl _), Nat.sub_self] at ends
    cases t with
    | nil => simp [eq, chr] at ends
    | cons c t =>
      simp only [cons_append, getElem?_cons_zero, Option.some.injEq] at ends
      subst ends
      exact (split_unique name.noEq other.noEq whole).1.symm
  · intro same
    subst same
    unfold charAt entry
    simp

theorem envFindLoop_entry (m : Machine) (name : Name n) (small : n.length < 2 ^ 31) (starts : n <+: s) (other : Name v.1)
    (env : List (Option Str)) (i : Nat) :
    envFindLoop m s (int n.length) (some (entry v) :: env) i =
      if v.1 = n then some (i : Int) else envFindLoop m s (int n.length) env (i + 1) := by
  have whole : int n.length = n.length := int_eq (by omega) (by omega)
  obtain ⟨t, rfl⟩ := starts
  rw [envFindLoop, length_kept m small, whole]
  by_cases same : v.1 = n
  · obtain ⟨starts, ends⟩ := (entry_hit name other).mpr same
    rw [if_pos ((strncmp_eq name.noNul _ _).mpr starts), ends]
    simp [same]
  · rw [if_neg same]
    by_cases starts : n <+: entry v
    · rw [if_pos ((strncmp_eq name.noNul _ _).mpr starts)]
      have inside : ∃ c, charAt (entry v) n.length = some c := by
        obtain ⟨t, eq⟩ := starts
        have pos : n.length < (entry v ++ [0]).length := by
          rw [← eq]
          simp
        exact ⟨_, by rw [charAt, if_pos (natCast_nonneg _), toNat_natCast, getElem?_eq_getElem pos]⟩
      obtain ⟨c, here⟩ := inside
      have ends : c ≠ eq := fun ends => same ((entry_hit name other).mp ⟨starts, by rw [here, ends]⟩)
      simp [here, ends]
    · rw [if_neg fun zero => starts ((strncmp_eq name.noNul _ _).mp zero)]

theorem envFindLoop_cases (m : Machine) (name : Name n) (small : n.length < 2 ^ 31) (starts : n <+: s)
    (named : ∀ v ∈ vars, Name v.1) (i : Nat) :
    (n ∉ vars.map Prod.fst ∧ envFindLoop m s (int n.length) (array vars rest) i = some (-1)) ∨
      ∃ before v after, vars = before ++ (n, v) :: after ∧ n ∉ before.map Prod.fst ∧
        envFindLoop m s (int n.length) (array vars rest) i = some ((i + before.length : Nat) : Int) := by
  induction vars generalizing i with
  | nil =>
    left
    simp [array, envFindLoop]
  | cons v vars ih =>
    obtain ⟨first, others⟩ := forall_mem_cons.mp named
    have found := envFindLoop_entry m name small starts first (array vars rest) i
    by_cases same : v.1 = n
    · right
      subst same
      exact ⟨[], v.2, vars, rfl, by simp, by simpa [array] using found⟩
    · rw [if_neg same] at found
      rcases ih others (i + 1) with ⟨absent, none⟩ | ⟨before, w, after, split, absent, place⟩
      · left
        exact ⟨by simp [absent, Ne.symm same], by simpa [array] using found.trans none⟩
      · right
        refine ⟨v :: before, w, after, by rw [split]; rfl, by simp [absent, Ne.symm same], ?_⟩
        have next : i + 1 + before.length = i + (v :: before).length := by
          rw [length_cons]
          omega
        rw [← next, ← place]
        exact found

theorem envFind_cases (m : Machine) (tidy : Tidy env vars) (name : Name n) (small : n.length < 2 ^ 31)
    (p : Bool) (starts : n <+: s) (length : (if p then s.idxOf eq else s.length) = n.length) :
    (n ∉ vars.map Prod.fst ∧ envFind m env s p = some (-1)) ∨
      ∃ before v after rest, vars = before ++ (n, v) :: after ∧ n ∉ before.map Prod.fst ∧
        env = some (array vars rest) ∧ envFind m env s p = some (before.length : Int) := by
  unfold envFind
  rw [length]
  rcases tidy.slots with ⟨rfl, rfl⟩ | ⟨rest, rfl⟩
  · left
    simp
  · rcases envFindLoop_cases m name small starts tidy.named 0 with ⟨absent, none⟩ | ⟨before, v, after, split, absent, place⟩
    · left
      exact ⟨absent, none⟩
    · right
      exact ⟨before, v, after, rest, split, absent, rfl, by rwa [zero_add] at place⟩

end Find

section Calls
variable {m : Machine} {env : Vars} {vars : List (Str × Str)} {n v : Str}

theorem getenv_map (tidy : Tidy env vars) (name : Name n) (small : n.length < 2 ^ 31) :
    getenv m env n = some (mapOf vars n) := by
  rcases envFind_cases m tidy name small false (prefix_refl n) rfl with
    ⟨absent, none⟩ | ⟨before, v, after, rest, split, absent, array_eq, place⟩
  · simp [getenv, none, mapOf, lookup_none absent]
  · subst split array_eq
    have stored : (array (before ++ (n, v) :: after) rest)[before.length]? = some (some (entry (n, v))) := by
      simp [array]
    have cuts : cut eq (entry (n, v)).tail = some (n.drop 1, v) := by
      obtain ⟨c, t, rfl⟩ := exists_cons_of_ne_nil name.nonempty
      have free : eq ∉ t := fun mem => name.noEq (mem_cons_of_mem c mem)
      simpa [entry] using cut_append v free
    rw [lookup_here absent]
    simp [getenv, place, stored, cuts]

theorem shiftLoop_array (e : Str) (after : List (Str × Str)) (rest : List (Option Str)) :
    shiftLoop (some e :: array after rest) = some (array after (none :: rest)) := by
  induction after generalizing e with
  | nil => rfl
  | cons v after ih => simpa [array, shiftLoop] using ih (entry v)

theorem array_append (before after : List (Str × Str)) (rest : List (Option Str)) :
    array (before ++ after) rest = before.map (fun v => some (entry v)) ++ array after rest := by
  simp [array]

theorem unsetenv_map (tidy : Tidy env vars) (name : Name n) (small : n.length < 2 ^ 31) :
    ∃ env' vars', unsetenv m env n = some env' ∧ Tidy env' vars' ∧ mapOf vars' = update (mapOf vars) n none := by
  rcases envFind_cases m tidy name small false (prefix_refl n) rfl with
    ⟨absent, none⟩ | ⟨before, v, after, rest, split, absent, array_eq, place⟩
  · refine ⟨env, vars, by simp [unsetenv, none], tidy, ?_⟩
    have empty : mapOf vars n = Option.none := lookup_none absent
    rw [← empty, update_eq_self]
  · subst split array_eq
    have distinct := tidy.distinct
    rw [map_append, map_cons, nodup_append, nodup_cons] at distinct
    obtain ⟨first, ⟨gone, last⟩, apart⟩ := distinct
    refine ⟨_, before ++ after, ?_, ⟨.inr ⟨Option.none :: rest, rfl⟩, ?_, ?_⟩, lookup_remove absent gone⟩
    · have front : (array (before ++ (n, v) :: after) rest).take before.length = before.map fun v => some (entry v) := by
        rw [array_append]
        exact take_left' (length_map _)
      have back : (array (before ++ (n, v) :: after) rest).drop before.length = some (entry (n, v)) :: array after rest := by
        rw [array_append]
        exact drop_left' (length_map _)
      simp [unsetenv, place, front, back, shiftLoop_array, array_append before after]
    · intro w mem
      apply tidy.named w
      rcases mem_append.mp mem with mem | mem
      · exact mem_append_left _ mem
      · exact mem_append_right _ (mem_cons_of_mem _ mem)
    · rw [map_append, nodup_append]
      exact ⟨first, last, fun a memA b memB => apart a memA b (mem_cons_of_mem _ memB)⟩

theorem countLoop_array (vars : List (Str × Str)) (rest : List (Option Str)) (i : Nat) :
    countLoop (array vars rest) i = some (i + vars.length + 1) := by
  induction vars generalizing i with
  | nil => rfl
  | cons v vars ih =>
    have next := ih (i + 1)
    rw [length_cons, ← add_assoc, add_right_comm i]
    simpa [array, countLoop] using next

theorem realloc_array (fresh : Option Str) (vars : List (Str × Str)) (rest : List (Option Str)) :
    ∃ a b, realloc fresh (some (array vars rest)) (vars.length + 2) = vars.map (fun v => some (entry v)) ++ [a, b] := by
  cases rest with
  | nil =>
    refine ⟨none, fresh, ?_⟩
    simp [realloc, array, take_append]
  | cons r rest =>
    refine ⟨none, r, ?_⟩
    have none : vars.length + 2 - (vars.length + (rest.length + 1 + 1)) = 0 := by omega
    simp [realloc, array, take_append, none]

theorem store_end (vars : List (Str × Str)) (a b : Option Str) :
    store (vars.map (fun v => some (entry v)) ++ [a, b]) (vars.length + 1) none =
      some (vars.map (fun v => some (entry v)) ++ [a, none]) := by
  have place : ((vars.length : Int) + 1).toNat = vars.length + 1 := by omega
  have inside : 0 ≤ (vars.length : Int) + 1 := by omega
  simp [store, place, inside]

theorem store_last (vars : List (Str × Str)) (a : Option Str) :
    store (vars.map (fun v => some (entry v)) ++ [a, none]) vars.length (some (n ++ eq :: v)) =
      some (array (vars ++ [(n, v)]) []) := by
  simp [store, array, entry]

theorem store_place (before after : List (Str × Str)) (w : Str) (rest : List (Option Str)) :
    store (array (before ++ (n, w) :: after) rest) before.length (some (n ++ eq :: v)) =
      some (array (before ++ (n, v) :: after) rest) := by
  have inside : (before.length : Int) < before.length + (after.length + (rest.length + 1) + 1) := by omega
  simp [store, array, entry, inside]

theorem putenv_map (fresh : Option Str) (tidy : Tidy env vars) (name : Name n) (small : n.length < 2 ^ 31)
    (some : env ≠ none) :
    ∃ env' vars', putenv m fresh env (n ++ eq :: v) = .some env' ∧ Tidy env' vars' ∧
      mapOf vars' = update (mapOf vars) n (.some v) := by
  have ends : (n ++ eq :: v).idxOf eq = n.length := by
    rw [idxOf_append_of_notMem name.noEq, idxOf_cons_self, add_zero]
  unfold putenv
  rw [if_neg (by simp)]
  rcases envFind_cases m tidy name small true (prefix_append n _) ends with
    ⟨absent, none⟩ | ⟨before, w, after, rest, split, absent, array_eq, place⟩
  · rcases tidy.slots with ⟨null, _⟩ | ⟨rest, array_eq⟩
    · exact absurd null some
    · subst array_eq
      refine ⟨.some (array (vars ++ [(n, v)]) []), vars ++ [(n, v)], ?_, ⟨.inr ⟨[], rfl⟩, ?_, ?_⟩, lookup_add absent⟩
      · obtain ⟨a, b, grown⟩ := realloc_array fresh vars rest
        rw [none]
        simp [countLoop_array, grown, store_end, store_last]
      · intro u mem
        rcases mem_append.mp mem with mem | mem
        · exact tidy.named u mem
        · rw [mem_singleton.mp mem]
          exact name
      · rw [map_append, nodup_append]
        refine ⟨tidy.distinct, by simp, ?_⟩
        intro a memA b memB same
        simp at memB
        exact absent (by rw [← memB, ← same]; exact memA)
  · subst split array_eq
    refine ⟨.some (array (before ++ (n, v) :: after) rest), before ++ (n, v) :: after, ?_, ⟨.inr ⟨rest, rfl⟩, ?_, ?_⟩,
      lookup_replace absent⟩
    · have inside : ¬ (before.length : Int) < 0 := by omega
      rw [place]
      simp [inside, store_place]
    · intro u mem
      rcases mem_append.mp mem with mem | mem
      · exact tidy.named u (mem_append_left _ mem)
      · rcases mem_cons.mp mem with rfl | mem
        · exact name
        · exact tidy.named u (mem_append_right _ (mem_cons_of_mem _ mem))
    · have distinct := tidy.distinct
      simpa using distinct

theorem setenv_map (fresh : Option Str) (tidy : Tidy env vars) (name : Name n) (small : n.length < 2 ^ 31)
    (some : env ≠ none) (o : Bool) :
    ∃ env' vars', setenv m fresh env n v o = .some env' ∧ Tidy env' vars' ∧
      mapOf vars' = (spec (mapOf vars) (.setenv n v o)).1 := by
  obtain ⟨env', vars', put, tidy', same⟩ := putenv_map (m := m) (v := v) fresh tidy name small some
  rcases envFind_cases m tidy name small false (prefix_refl n) rfl with
    ⟨absent, none⟩ | ⟨before, w, after, rest, split, absent, _, place⟩
  · have empty : mapOf vars n = .none := lookup_none absent
    refine ⟨env', vars', ?_, tidy', ?_⟩
    · simp [setenv, none, put]
    · simp [spec, empty, same]
  · have here : mapOf vars n = .some w := by
      rw [split]
      exact lookup_here absent
    cases o with
    | false =>
      refine ⟨env, vars, ?_, tidy, ?_⟩
      · simp [setenv, place]
      · simp [spec, here]
    | true =>
      refine ⟨env', vars', ?_, tidy', ?_⟩
      · simp [setenv, place, put]
      · simp [spec, same]

theorem cut_none (free : eq ∉ s) : cut eq s = none := by
  induction s with
  | nil => rfl
  | cons c s ih =>
    rw [mem_cons, not_or] at free
    rw [cut, if_neg (Ne.symm free.1), ih free.2]
    rfl

theorem takeWhile_free (free : eq ∉ n) (s : Str) : (n ++ eq :: s).takeWhile (· ≠ eq) = n := by
  have all : ∀ c ∈ n, decide (c ≠ eq) = true := fun c mem => decide_eq_true fun same => free (by rwa [← same])
  rw [takeWhile_append_of_pos all, takeWhile_cons_of_neg (by simp), append_nil]

theorem step_map (fresh : Option Str) (tidy : Tidy env vars) (valid : op.Valid) (meets : Meets env op) :
    ∃ env' vars', step m fresh env op = some (env', (spec (mapOf vars) op).2) ∧ Tidy env' vars' ∧
      mapOf vars' = (spec (mapOf vars) op).1 := by
  obtain ⟨small, room⟩ := meets
  cases op with
  | getenv n =>
    refine ⟨env, vars, ?_, tidy, rfl⟩
    rw [step, getenv_map tidy (valid n rfl) (small n rfl)]
    rfl
  | setenv n v o =>
    obtain ⟨env', vars', put, tidy', same⟩ :=
      setenv_map (m := m) (v := v) fresh tidy (valid n rfl) (small n rfl) (room trivial) o
    refine ⟨env', vars', ?_, tidy', same⟩
    rw [step, put]
    rfl
  | unsetenv n =>
    obtain ⟨env', vars', unset, tidy', same⟩ := unsetenv_map (m := m) tidy (valid n rfl) (small n rfl)
    refine ⟨env', vars', ?_, tidy', same⟩
    rw [step, unset]
    rfl
  | putenv s =>
    by_cases some : eq ∈ s
    · obtain ⟨n, v, split, free⟩ := eq_append_cons_of_mem some
      have named : (Op.putenv s).name = .some n := by rw [Op.name, split, takeWhile_free free]
      obtain ⟨env', vars', put, tidy', same⟩ :=
        putenv_map (m := m) (v := v) fresh tidy (valid n named) (small n named) (room some)
      have cuts := cut_append v free
      rw [← split] at put cuts
      refine ⟨env', vars', ?_, tidy', ?_⟩
      · simp [step, put, spec, cuts]
      · simpa [spec, cuts] using same
    · have whole : s.takeWhile (· ≠ eq) = s :=
        takeWhile_eq_self_iff.mpr fun c mem => decide_eq_true fun same => some (by rwa [← same])
      have named : (Op.putenv s).name = .some s := by rw [Op.name, whole]
      obtain ⟨env', vars', unset, tidy', same⟩ := unsetenv_map (m := m) tidy (valid s named) (small s named)
      have cuts := cut_none some
      refine ⟨env', vars', ?_, tidy', ?_⟩
      · simp [step, putenv, some, unset, spec, cuts]
      · simpa [spec, cuts] using same
  | clearenv => exact ⟨none, [], rfl, ⟨.inl ⟨rfl, rfl⟩, by simp, by simp⟩, rfl⟩

end Calls

/-- The environment is a map while no name gets a value that `environ` has no array for. -/
theorem environ_refines (m : Machine) (env : Vars) (calls : List (Op × Option Str)) (valid : ∀ c ∈ calls, c.1.Valid)
    (meets : MeetsAll m env calls) : Refines m env calls := by
  unfold Refines
  induction calls generalizing env with
  | nil =>
    intro vars tidy
    exact ⟨env, vars, rfl, tidy, rfl⟩
  | cons call calls ih =>
    intro vars tidy
    obtain ⟨op, fresh⟩ := call
    rw [forall_mem_cons] at valid
    obtain ⟨first, others⟩ := meets
    obtain ⟨env₁, vars₁, stepped, tidy₁, same₁⟩ := step_map (m := m) fresh tidy valid.1 first
    obtain ⟨env₂, vars₂, ran, tidy₂, same₂⟩ := ih env₁ valid.2 (others _ _ stepped) vars₁ tidy₁
    rw [same₁] at ran same₂
    refine ⟨env₂, vars₂, ?_, tidy₂, ?_⟩
    · simp [run, stepped, ran, specRun]
    · simpa [specRun] using same₂

theorem environ_refines_path : Refines .i386 (some [none]) [(.setenv [65] [49] true, none), (.getenv [65], none)] := by
  have name : Name [65] := ⟨by decide, by decide, by decide⟩
  apply environ_refines .i386 (some [none])
  · intro c mem n about
    simp only [mem_cons, not_mem_nil, or_false] at mem
    rcases mem with rfl | rfl <;> cases about <;> exact name
  · refine ⟨⟨?_, fun _ => by simp⟩, fun _ _ _ => ⟨⟨?_, fun sets => sets.elim⟩, fun _ _ _ => trivial⟩⟩ <;>
      simp [Op.name]

/-- After `clearenv` a value is stored in front of the array. -/
theorem not_refines : ¬ Refines .i386 (some [none]) [(.clearenv, none), (.setenv [65] [49] true, none)] := by
  intro all
  obtain ⟨env', vars', ran, _⟩ := all [] ⟨.inr ⟨[], rfl⟩, by simp, by simp⟩
  cases ran

end Environ
