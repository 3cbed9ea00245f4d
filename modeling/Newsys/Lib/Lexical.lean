import Mathlib.Data.List.Basic

/- Lexical normal forms of path names. The components between separators are pushed on a stack of names,
   where a double dot pops one; the stack is spelled with a separator in front of each name. -/
namespace Lexical
open List

variable {α : Type} {sep dot : α}

structure Plain (sep dot : α) (c : List α) : Prop where
  nonempty : c ≠ []
  noSep : sep ∉ c
  notDot : c ≠ [dot]
  notDots : c ≠ [dot, dot]

def spell (sep : α) (stack : List (List α)) : List α := stack.flatMap (sep :: ·)

def render (sep : α) (stack : List (List α)) : List α := if stack = [] then [sep] else spell sep stack

theorem spell_append : spell sep (stack ++ ds) = spell sep stack ++ spell sep ds :=
  flatMap_append

theorem spell_single : spell sep [c] = sep :: c := by
  simp [spell]

theorem spell_eq_nil : spell sep stack = [] ↔ stack = [] := by
  cases stack <;> simp [spell]

theorem spell_le_render (sep : α) (stack : List (List α)) : (spell sep stack).length ≤ (render sep stack).length := by
  unfold render
  split
  · rename_i empty
    simp [empty, spell]
  · exact Nat.le_refl _

theorem render_le (sep : α) (stack : List (List α)) : (render sep stack).length ≤ (spell sep stack).length + 1 := by
  unfold render
  split
  · simp
  · exact Nat.le_succ _

variable [DecidableEq α]

def push (dot : α) (stack : List (List α)) (c : List α) : List (List α) :=
  if c = [] ∨ c = [dot] then stack
  else if c = [dot, dot] then stack.dropLast
  else stack ++ [c]

def pushes (dot : α) (stack cs : List (List α)) : List (List α) := cs.foldl (push dot) stack

def normal (sep dot : α) (p : List α) : List α := render sep (pushes dot [] (p.splitOn sep))

def Canonical (sep dot : α) (p : List α) : Prop :=
  p = [sep] ∨ ∃ q, p = sep :: q ∧ ∀ c ∈ q.splitOn sep, Plain sep dot c

def climb (sep dot : α) (limit : Nat) (stack : List (List α)) : List (List α) → Option (List (List α))
  | [] => some stack
  | c :: cs =>
    if limit ≤ (spell sep (push dot stack c)).length then none else climb sep dot limit (push dot stack c) cs

/-- The stack comes to be spelled in exactly as many places as the limit, and a double dot or the end is next. -/
def Brims (sep dot : α) (limit : Nat) (stack : List (List α)) : List (List α) → Prop
  | [] => (spell sep stack).length = limit
  | c :: cs => ((spell sep stack).length = limit ∧ c = [dot, dot]) ∨
      ((spell sep (push dot stack c)).length ≤ limit ∧ Brims sep dot limit (push dot stack c) cs)

variable {stack cs top : List (List α)} {c p : List α} {limit : Nat}

theorem pushes_cons : pushes dot stack (c :: cs) = pushes dot (push dot stack c) cs := rfl

theorem pushes_append : pushes dot stack (cs ++ ds) = pushes dot (pushes dot stack cs) ds := by
  simp only [pushes, foldl_append]

theorem push_nil : push dot stack [] = stack := by
  simp [push]

theorem push_plain (plain : Plain sep dot c) : push dot stack c = stack ++ [c] := by
  simp [push, plain.nonempty, plain.notDot, plain.notDots]

theorem pushes_plain (plain : ∀ c ∈ cs, Plain sep dot c) : pushes dot stack cs = stack ++ cs := by
  induction cs generalizing stack with
  | nil => simp [pushes]
  | cons c cs ih =>
    have here := plain c mem_cons_self
    rw [pushes_cons, push_plain here, ih fun d mem => plain d (mem_cons_of_mem c mem), append_assoc,
      singleton_append]

theorem plain_push (plain : ∀ d ∈ stack, Plain sep dot d) (noSep : sep ∉ c) :
    ∀ d ∈ push dot stack c, Plain sep dot d := by
  intro d mem
  unfold push at mem
  split at mem
  · exact plain d mem
  · rename_i some
    split at mem
    · exact plain d (dropLast_subset stack mem)
    · rename_i notDots
      rcases mem_append.mp mem with old | new
      · exact plain d old
      · rw [mem_singleton.mp new]
        exact ⟨fun empty => some (.inl empty), noSep, fun one => some (.inr one), notDots⟩

theorem plain_pushes (plain : ∀ d ∈ stack, Plain sep dot d) (noSep : ∀ c ∈ cs, sep ∉ c) :
    ∀ d ∈ pushes dot stack cs, Plain sep dot d := by
  induction cs generalizing stack with
  | nil => exact plain
  | cons c cs ih =>
    exact ih (plain_push plain (noSep c mem_cons_self)) fun d mem => noSep d (mem_cons_of_mem c mem)

theorem splitOn_sep : (sep :: p).splitOn sep = [] :: p.splitOn sep :=
  splitOn_append_cons_self_of_not_mem not_mem_nil p

theorem sep_notMem_splitOn : ∀ c ∈ p.splitOn sep, sep ∉ c := by
  induction p with
  | nil => simp
  | cons x p ih =>
    by_cases eq : x = sep
    · rw [eq, splitOn_sep]
      intro c mem
      rcases mem_cons.mp mem with rfl | rest
      · simp
      · exact ih c rest
    · rw [splitOn_cons_eq_if_modifyHead, if_neg (by simpa using eq)]
      cases split : p.splitOn sep with
      | nil => exact absurd split (splitOn_ne_nil sep p)
      | cons d ds =>
        rw [split] at ih
        intro c mem
        rcases mem_cons.mp mem with rfl | rest
        · have tail := ih d mem_cons_self
          simp [tail, Ne.symm eq]
        · exact ih c (mem_cons_of_mem d rest)

theorem splitOn_spell (noSep : ∀ d ∈ stack, sep ∉ d) (first : sep ∉ c) :
    (c ++ spell sep stack).splitOn sep = c :: stack := by
  induction stack generalizing c with
  | nil =>
    rw [spell, flatMap_nil, append_nil]
    exact splitOn_eq_singleton first
  | cons d stack ih =>
    have rest := ih (fun e mem => noSep e (mem_cons_of_mem d mem)) (noSep d mem_cons_self)
    rw [spell, flatMap_cons, cons_append, splitOn_append_cons_self_of_not_mem first]
    exact congrArg _ rest

section
variable (plain : ∀ d ∈ stack, Plain sep dot d)
include plain

theorem splitOn_render :
    pushes dot [] ((render sep stack).splitOn sep) = stack := by
  unfold render
  split
  · rename_i empty
    simp [empty, splitOn_sep, pushes, push_nil]
  · have split := splitOn_spell (c := []) (fun d mem => (plain d mem).noSep) (by simp)
    rw [nil_append] at split
    rw [split, pushes_cons, push_nil, pushes_plain plain, nil_append]

theorem canonical_render : Canonical sep dot (render sep stack) := by
  unfold render
  split
  · exact .inl rfl
  · rename_i some
    cases stack with
    | nil => exact absurd rfl some
    | cons d stack =>
      have split := splitOn_spell (fun e mem => (plain e (mem_cons_of_mem d mem)).noSep)
        (plain d mem_cons_self).noSep
      refine .inr ⟨d ++ spell sep stack, rfl, ?_⟩
      rw [split]
      exact plain

theorem normal_join :
    normal sep dot (render sep stack ++ sep :: p) = render sep (pushes dot stack (p.splitOn sep)) := by
  rw [normal, splitOn_append_cons_self, pushes_append, splitOn_render plain]

end

/- Pushing below the limit -/

theorem climb_some (climbed : climb sep dot limit stack cs = some top) : top = pushes dot stack cs ∧
    ∀ ds, ds <+: cs → ds ≠ [] → (spell sep (pushes dot stack ds)).length < limit := by
  induction cs generalizing stack with
  | nil =>
    refine ⟨(Option.some.inj climbed).symm, fun ds begins some => ?_⟩
    exact absurd (prefix_nil.mp begins) some
  | cons c cs ih =>
    unfold climb at climbed
    split at climbed
    · cases climbed
    · rename_i short
      obtain ⟨eq, fits⟩ := ih climbed
      refine ⟨eq, fun ds begins some => ?_⟩
      rcases prefix_cons_iff.mp begins with rfl | ⟨es, rfl, rest⟩
      · exact absurd rfl some
      · by_cases last : es = []
        · rw [last]
          exact Nat.lt_of_not_le short
        · exact fits es rest last

theorem climb_none (climbed : climb sep dot limit stack cs = none) :
    ∃ ds, ds <+: cs ∧ limit ≤ (spell sep (pushes dot stack ds)).length := by
  induction cs generalizing stack with
  | nil => cases climbed
  | cons c cs ih =>
    unfold climb at climbed
    split at climbed
    · exact ⟨[c], prefix_cons_iff.mpr (.inr ⟨[], rfl, nil_prefix⟩), ‹_›⟩
    · obtain ⟨ds, begins, long⟩ := ih climbed
      exact ⟨c :: ds, prefix_cons_iff.mpr (.inr ⟨ds, rfl, begins⟩), long⟩

theorem climb_nil (short : (spell sep stack).length < limit) :
    climb sep dot limit stack ([] :: cs) = climb sep dot limit stack cs := by
  rw [climb, push_nil, if_neg (by omega)]

theorem climb_some_iff (short : (spell sep stack).length < limit) : climb sep dot limit stack cs = some top ↔
    top = pushes dot stack cs ∧ ∀ ds, ds <+: cs → (spell sep (pushes dot stack ds)).length < limit := by
  constructor
  · intro climbed
    obtain ⟨eq, fits⟩ := climb_some climbed
    refine ⟨eq, fun ds begins => ?_⟩
    by_cases none : ds = []
    · rw [none]
      exact short
    · exact fits ds begins none
  · rintro ⟨eq, fits⟩
    cases climbed : climb sep dot limit stack cs with
    | none =>
      obtain ⟨ds, begins, long⟩ := climb_none climbed
      exact absurd (fits ds begins) (by omega)
    | some top' => rw [eq, (climb_some climbed).1]

theorem brims_append (fits : ∀ es, es <+: cs → (spell sep (pushes dot stack es)).length < limit) :
    Brims sep dot limit stack (cs ++ ds) ↔ Brims sep dot limit (pushes dot stack cs) ds := by
  induction cs generalizing stack with
  | nil => rfl
  | cons c cs ih =>
    have here : (spell sep stack).length < limit := fits [] nil_prefix
    have next : (spell sep (push dot stack c)).length < limit := fits [c] (prefix_append [c] cs)
    have rest := ih fun es begins => fits (c :: es) (cons_prefix_cons.mpr ⟨rfl, begins⟩)
    rw [cons_append, Brims, pushes_cons, rest]
    constructor
    · rintro (⟨full, -⟩ | ⟨-, brims⟩)
      · omega
      · exact brims
    · exact fun brims => .inr ⟨Nat.le_of_lt next, brims⟩

theorem render_part_le (plain : ∀ d ∈ stack, Plain sep dot d) (begins : cs <+: (render sep stack).splitOn sep) :
    (spell sep (pushes dot [] cs)).length ≤ (spell sep stack).length := by
  have parts : ∃ ds, ds <+: stack ∧ pushes dot [] cs = ds := by
    unfold render at begins
    split at begins
    · rename_i empty
      refine ⟨[], nil_prefix, ?_⟩
      have all : ∀ c ∈ cs, c = [] := by
        intro c mem
        simpa [splitOn_sep] using begins.subset mem
      clear begins
      induction cs with
      | nil => rfl
      | cons c cs ih =>
        rw [all c mem_cons_self, pushes_cons, push_nil]
        exact ih fun d mem => all d (mem_cons_of_mem c mem)
    · have split := splitOn_spell (c := []) (fun d mem => (plain d mem).noSep) (by simp)
      rw [nil_append] at split
      rw [split] at begins
      rcases prefix_cons_iff.mp begins with rfl | ⟨ds, rfl, rest⟩
      · exact ⟨[], nil_prefix, rfl⟩
      · refine ⟨ds, rest, ?_⟩
        rw [pushes_cons, push_nil, pushes_plain fun d mem => plain d (rest.subset mem), nil_append]
  obtain ⟨ds, ⟨rest, whole⟩, eq⟩ := parts
  rw [eq, ← whole, spell_append, length_append]
  exact Nat.le_add_right _ _

end Lexical
