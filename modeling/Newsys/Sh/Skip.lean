import Newsys.Lib.Brackets
import Newsys.Sh.Tokenize

/- The tokens that belong to a bracket (`skip_over` of cmd/sh/sh.c). -/
namespace Sh
open Bytes Brackets List Option

/-- How `skip_over` ends without a pointer: `abort`, a token at `e` or behind it is read, or the steps of the model
    do not suffice. -/
inductive Halt where
  | abort
  | outside
  | fuel
  deriving DecidableEq

/-- The loop of `skip_over`, at `tk`; the tokens are the ones in front of `e`, and `none` is the null pointer. -/
def skipLoop : Nat → List Token → Tk → Tk → Nat → Nat → Except Halt (Option Nat)
  | 0, _, _, _, _, _ => .error .fuel
  | n + 1, toks, r, l, tk, nest =>
    if nest = 0 then .ok (some (tk - 1))
    else if tk ≥ toks.length then .ok none
    else match toks[tk]? with
      | none => .error .outside
      | some t =>
        if t.type = l then skipLoop n toks r l (tk + 1) (nest - 1)
        else if t.type = r then skipLoop n toks r l (tk + 1) (nest + 1)
        else match t.par with
          | none => skipLoop n toks r l (tk + 1) nest
          | some l' =>
            -- `skip_over` at this token
            match skipLoop n toks t.type l' (tk + 1) 1 with
            | .ok (some tk) => skipLoop n toks r l (tk + 1) nest
            | .ok none => .ok none
            | .error halt => .error halt

def skipOver (n : Nat) (toks : List Token) (tk : Nat) : Except Halt (Option Nat) :=
  match toks[tk]? with
  | none => .error .outside
  | some t =>
    match t.par with
    | none => .error .abort
    | some l => skipLoop n toks t.type l (tk + 1) 1

def Tk.par (t : Tk) : Option Tk := (specChars.find? (·.token = t)).bind (·.parity)

/-- The parity of a token is the one that goes with its type, as in all tokens of `tokenize`. -/
def Regular (toks : List Token) : Prop := ∀ t ∈ toks, t.par = t.type.par

theorem par_closing (o c : Tk) (opens : o.par = some c) : c.par = none := by
  revert c
  cases o <;> decide

theorem regular_specChars : ∀ sc ∈ specChars, sc.tk.par = sc.tk.type.par := by decide

theorem wordLoop_sc
    (ends : wordLoop n m d e vas pquot = .ok cut) (here : cut.sc = some sc) : sc ∈ specChars := by
  induction n generalizing m d e vas pquot with
  | zero => cases ends
  | succ n ih =>
    rw [wordLoop] at ends
    split at ends
    · cases ends
      cases here
    · split at ends
      · next found =>
        cases ends
        cases here
        exact mem_of_find?_eq_some found
      · split at ends
        · split at ends
          · cases ends
          · exact ih ends
        · split at ends
          · split at ends
            · cases ends
            · split at ends
              · cases ends
              · exact ih ends
          · exact ih ends

theorem regular_tokenizeFrom (regular : Regular tk)
    (ends : tokenizeFrom n m p tk = .ok (m', tks)) : Regular tks := by
  have added : ∀ {old new : List Token}, Regular old → Regular new → Regular (old ++ new) := fun old new =>
    forall_mem_append.mpr ⟨old, new⟩
  induction n generalizing m p tk with
  | zero => cases ends
  | succ n ih =>
    rw [tokenizeFrom] at ends
    split at ends
    · cases ends
      exact regular
    · split at ends
      · cases ends
      · split at ends
        · cases ends
          exact regular
        · split at ends
          · next found =>
            have special := regular_specChars _ (mem_of_find?_eq_some found)
            exact ih (added regular (forall_mem_singleton.mpr special)) ends
          · split at ends
            · cases ends
            · next d e vas sc cut =>
              have word : ∀ a, Regular [⟨.string, none, .buf a, vas⟩] := fun a => forall_mem_singleton.mpr rfl
              have special : Regular (sc.map SpecChar.tk).toList := by
                intro t mem
                obtain ⟨sc', rfl, rfl⟩ : ∃ sc', sc = some sc' ∧ sc'.tk = t := by simpa using mem
                exact regular_specChars _ (wordLoop_sc cut rfl)
              have grown := fun a => added (added regular (word a)) special
              dsimp only at ends
              split at ends
              · cases ends
                exact grown _
              · exact ih (grown _) ends

theorem regular_tokenize (ends : tokenize n m cmd = .ok (m', tks)) : Regular tks :=
  regular_tokenizeFrom (forall_mem_nil _) ends

section Skipping
variable {toks : List Token}

theorem skipLoop_eq (regular : Regular toks) (opens : r.par = some l) (tk nest : Nat)
    (enough : toks.length < n + tk) (inside : tk ≤ toks.length) :
    skipLoop n toks r l tk nest = .ok ((closeAt Tk.par (replicate nest l) ((toks.drop tk).map Token.type)).map
      fun rest => toks.length - rest.length - 1) := by
  induction n generalizing r l tk nest with
  | zero => omega
  | succ n ih =>
    rw [skipLoop]
    have next : tk < toks.length → toks.length < n + (tk + 1) := by omega
    cases nest with
    | zero =>
      have left : toks.length - (toks.length - tk) - 1 = tk - 1 := by omega
      rw [if_pos rfl, replicate_zero, closeAt_nil, map_some, length_map, length_drop, left]
    | succ nest =>
      rw [if_neg (Nat.succ_ne_zero nest)]
      by_cases past : tk ≥ toks.length
      · rw [if_pos past, drop_eq_nil_of_le past]
        rfl
      · rw [if_neg past]
        have lt : tk < toks.length := Nat.lt_of_not_ge past
        have par := regular _ (getElem_mem lt)
        rw [getElem?_eq_getElem lt, drop_eq_getElem_cons lt]
        generalize toks[tk] = t at par
        simp only [map_cons, replicate_succ, closeAt]
        by_cases closes : t.type = l
        · rw [if_pos closes, if_pos closes]
          exact ih opens _ _ (next lt) lt
        · rw [if_neg closes, if_neg closes]
          by_cases same : t.type = r
          · rw [if_pos same, same, opens]
            exact ih opens _ (nest + 2) (next lt) lt
          · rw [if_neg same, ← par]
            cases other : t.par with
            | none => exact ih opens _ (nest + 1) (next lt) lt
            | some l' =>
              have inner := ih (par.symm.trans other) (tk + 1) 1 (next lt) lt
              have cut : closeAt Tk.par (l' :: l :: replicate nest l) ((toks.drop (tk + 1)).map Token.type) = _ :=
                closeAt_append [l'] (l :: replicate nest l) _
              rw [replicate_one] at inner
              simp only [inner, cut]
              cases closed : closeAt Tk.par [l'] ((toks.drop (tk + 1)).map Token.type) with
              | none => rfl
              | some rest =>
                -- the loop goes on behind the bracket
                obtain ⟨front, split, long⟩ := closeAt_suffix closed
                have total := congrArg length split
                rw [length_map, length_drop, length_append] at total
                have behind : toks.length - rest.length - 1 + 1 = tk + 1 + front.length := by
                  rw [length_singleton] at long
                  omega
                have left : (toks.drop (tk + 1 + front.length)).map Token.type = rest := by
                  rw [← drop_drop, map_drop, split, drop_left]
                have outer := ih opens (tk + 1 + front.length) (nest + 1) (by omega) (by omega)
                simp only [map_some, behind, outer, left, replicate_succ, bind_some]

/-- At a bracket in a part of a line `skip_over` does not abort, reads nothing behind the part, and returns where the
    bracket is closed, if it is. -/
theorem skipOver_tokenize {n : Nat} {m m' : Mem} {cmd : Nat} {tks : List Token} (ends : tokenize n m cmd = .ok (m', tks))
    (part : toks <:+: tks) {i : Nat} {tk : Token} {c : Tk} (here : toks[i]? = some tk) (opens : tk.type.par = some c)
    {k : Nat} (enough : toks.length ≤ k) : skipOver k toks i =
      .ok ((closeAt Tk.par [c] ((toks.drop (i + 1)).map Token.type)).map fun rest => toks.length - rest.length - 1) := by
  have regular : Regular toks := fun t mem => regular_tokenize ends t (part.subset mem)
  obtain ⟨lt, rfl⟩ := List.getElem?_eq_some_iff.mp here
  have par := regular _ (getElem_mem lt)
  rw [opens] at par
  simp only [skipOver, here, par]
  exact skipLoop_eq regular opens (i + 1) 1 (by omega) lt

/-- The tokens of `(a{b})`. -/
def groupTokens : List Token :=
  [⟨.lparen, some .rparen, .lit [40], false⟩, ⟨.string, none, .buf 1, false⟩, ⟨.lbrace, some .rbrace, .lit [123], false⟩,
    ⟨.string, none, .buf 3, false⟩, ⟨.rbrace, none, .lit [125], false⟩, ⟨.rparen, none, .lit [41], false⟩]

theorem skipOver_tokenize_group : skipOver 6 groupTokens 0 = .ok (some 5) :=
  @skipOver_tokenize groupTokens 7 (blit zero 0 [40, 97, 123, 98, 125, 41]) _ 0 _ (by rfl) infix_rfl 0 _ .rparen rfl rfl 6
    (le_refl 6)

/-- `skip_over` ends without reading at `e` or behind it. It returns the token that closes the bracket, if closing
    tokens of another kind than the innermost open bracket are passed over, and the null pointer if there is none. -/
theorem skipOver_matches (regular : Regular toks) {i : Nat} {tk : Token} {c : Tk} (here : toks[i]? = some tk)
    (opens : tk.par = some c) {n : Nat} (enough : toks.length ≤ n) : ∃ found, skipOver n toks i = .ok found ∧
      (∀ j, found = some j ↔ ∃ stray, Matches Tk.par (toks.map Token.type) i j stray) ∧
      (∀ j, Pairs Tk.par (toks.map Token.type) i j → found = some j) := by
  obtain ⟨lt, rfl⟩ := List.getElem?_eq_some_iff.mp here
  have kind : toks[i].type.par = some c := (regular _ (getElem_mem lt)).symm.trans opens
  have result := skipLoop_eq regular kind (n := n) (i + 1) 1 (by omega) lt
  have split : toks.map Token.type =
      (toks.take i).map Token.type ++ toks[i].type :: (toks.drop (i + 1)).map Token.type := by
    rw [← map_cons, ← drop_eq_getElem_cons lt, ← map_append, take_append_drop]
  have front : ((toks.take i).map Token.type).length = i := by
    rw [length_map, length_take, min_eq_left (le_of_lt lt)]
  have found : ∀ j, ((closeAt Tk.par [c] ((toks.drop (i + 1)).map Token.type)).map
      fun rest => toks.length - rest.length - 1) = some j ↔
        ∃ stray, Matches Tk.par (toks.map Token.type) i j stray := by
    intro j
    have scan := matches_iff par_closing ((toks.take i).map Token.type) ((toks.drop (i + 1)).map Token.type) kind j
    rw [← split, front, length_map] at scan
    rw [scan, map_eq_some_iff]
    refine exists_congr fun rest => and_congr_right fun closed => ?_
    obtain ⟨tokens, tail, long⟩ := closeAt_suffix closed
    have total := congrArg length tail
    rw [length_map, length_drop, length_append] at total
    rw [length_singleton] at long
    omega
  refine ⟨_, ?_, found, fun j pairs => (found j).mpr ⟨[], pairs_iff.mp pairs⟩⟩
  simp only [skipOver, here, opens]
  exact result

def Tk.token (t : Tk) : Token := ⟨t, t.par, .lit [], false⟩

theorem skipOver_matches_group : ∃ found,
    skipOver 4 ([.lparen, .lbrace, .rbrace, .rparen].map Tk.token) 0 = .ok found ∧
    (∀ j, found = some j ↔ ∃ stray, Matches Tk.par [.lparen, .lbrace, .rbrace, .rparen] 0 j stray) ∧
    (∀ j, Pairs Tk.par [.lparen, .lbrace, .rbrace, .rparen] 0 j → found = some j) := by
  have regular : Regular ([.lparen, .lbrace, .rbrace, .rparen].map Tk.token) := by
    intro t mem
    obtain ⟨k, _, rfl⟩ := mem_map.mp mem
    rfl
  exact skipOver_matches regular rfl rfl (le_refl 4)

/-- A closing brace that has not been opened does not keep `skip_over` from the parenthesis behind it. -/
theorem skipOver_stray : skipOver 3 ([.lparen, .rbrace, .rparen].map Tk.token) 0 = .ok (some 2) ∧
    ∀ j, ¬ Pairs Tk.par [.lparen, .rbrace, .rparen] 0 j := by
  refine ⟨rfl, ?_⟩
  rintro j ⟨front, o, a, c, back, split, opens, nested, first, -⟩
  obtain rfl := eq_nil_of_length_eq_zero first
  obtain ⟨rfl, inner⟩ := cons_eq_cons.mp split
  cases nested with
  | nil =>
    obtain ⟨rfl, _⟩ := cons_eq_cons.mp inner
    cases opens
  | plain _ closing =>
    obtain ⟨rfl, _⟩ := cons_eq_cons.mp inner
    exact closing ⟨.lbrace, rfl⟩
  | group opens =>
    obtain ⟨rfl, _⟩ := cons_eq_cons.mp inner
    cases opens

end Skipping
end Sh
