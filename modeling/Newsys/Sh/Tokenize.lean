import Newsys.Lib.Cstr
import Newsys.Libc.Strtol

/- The tokens of a command line (cmd/sh/sh.c). `tokenize` works in the buffer of the line: it cuts the words out and
   takes their quotes away in place. Memory for the tokens is taken to be there. -/
namespace Sh
open Bytes Libc Cstr List Nat

inductive Tk where
  | string
  | semicolon
  | pipe
  | oredir
  | iredir
  | background
  | lparen
  | rparen
  | lbrace
  | rbrace
  deriving DecidableEq

structure SpecChar where
  token : Tk
  parity : Option Tk
  ch : Byte
  deriving DecidableEq

def specChars : List SpecChar :=
  [⟨.semicolon, none, chr ';'⟩,
   ⟨.pipe, none, chr '|'⟩,
   ⟨.pipe, none, chr '^'⟩,
   ⟨.oredir, none, chr '>'⟩,
   ⟨.iredir, none, chr '<'⟩,
   ⟨.background, none, chr '&'⟩,
   ⟨.lparen, some .rparen, chr '('⟩,
   ⟨.rparen, none, chr ')'⟩,
   ⟨.lbrace, some .rbrace, chr '{'⟩,
   ⟨.rbrace, none, chr '}'⟩]

def specChar (c : Byte) : Option SpecChar := specChars.find? (·.ch == c)

/-- Where the string of a token is: in the buffer of the line, or with the special characters. -/
inductive Str where
  | buf (a : Nat)
  | lit (s : List Byte)
  deriving DecidableEq

structure Token where
  type : Tk
  par : Option Tk
  str : Str
  vas : Bool
  deriving DecidableEq

/-- The ways in which `tokenize` ends without tokens; that the steps of the model do not suffice is none of the
    source's. -/
inductive Stop where
  | synErr
  | fuel
  deriving DecidableEq

def backslash : Byte := chr '\\'
def apostrophe : Byte := chr '\''
def dquote : Byte := chr '"'

def skipSpace : Nat → Mem → Nat → Except Stop Nat
  | 0, _, _ => .error .fuel
  | n + 1, m, p => if isspace (m p) then skipSpace n m (p + 1) else .ok p

def copyQuoted (quot : Byte) : Nat → Mem → Nat → Nat → Except Stop (Mem × Nat × Nat)
  | 0, _, _, _ => .error .fuel
  | n + 1, m, d, e =>
    if m e ≠ 0 ∧ m e ≠ quot then copyQuoted quot n (put m d (m e)) (d + 1) (e + 1) else .ok (m, d, e)

structure Cut where
  mem : Mem
  d : Nat
  e : Nat
  vas : Bool
  sc : Option SpecChar

def wordLoop : Nat → Mem → Nat → Nat → Bool → Bool → Except Stop Cut
  | 0, _, _, _, _, _ => .error .fuel
  | n + 1, m, d, e, vas, pquot =>
    -- `sc` is still the NULL of the character before
    if m e = 0 ∨ isspace (m e) then .ok ⟨m, d, e, vas, none⟩
    else match specChar (m e) with
      | some sc => .ok ⟨m, d, e, vas, some sc⟩
      | none =>
        if m e = backslash then
          if m (e + 1) = 0 then .error .synErr
          else wordLoop n (put m d (m (e + 1))) (d + 1) (e + 2) vas pquot
        else if m e = apostrophe ∨ m e = dquote then
          match copyQuoted (m e) n m d (e + 1) with
          | .error stop => .error stop
          | .ok (m, d, e) => if m e = 0 then .error .synErr else wordLoop n m d (e + 1) vas true
        else wordLoop n (put m d (m e)) (d + 1) (e + 1) (vas || (m e = chr '=' && !pquot)) pquot

def SpecChar.tk (sc : SpecChar) : Token := ⟨sc.token, sc.parity, .lit [sc.ch], false⟩

def tokenizeFrom : Nat → Mem → Nat → List Token → Except Stop (Mem × List Token)
  | 0, _, _, _ => .error .fuel
  | n + 1, m, p, tk =>
    if m p = 0 then .ok (m, tk)
    else match skipSpace (n + 1) m p with
      | .error stop => .error stop
      | .ok p =>
        if m p = 0 then .ok (m, tk)
        else match specChar (m p) with
          | some sc => tokenizeFrom n m (p + 1) (tk ++ [sc.tk])
          | none =>
            match wordLoop (n + 1) m p p false false with
            | .error stop => .error stop
            | .ok ⟨m, d, e, vas, sc⟩ =>
              let tk := tk ++ [⟨.string, none, .buf p, vas⟩] ++ (sc.map SpecChar.tk).toList
              if m e = 0 then .ok (put m d 0, tk) else tokenizeFrom n (put m d 0) (e + 1) tk

def tokenize (n : Nat) (m : Mem) (cmd : Nat) : Except Stop (Mem × List Token) := tokenizeFrom n m cmd []

/- The same, one character of the line at a time -/

inductive Mode where
  | bare
  | escaped
  | quoted (quot : Byte)
  deriving DecidableEq

structure Word where
  text : List Byte
  vas : Bool
  pquot : Bool
  deriving DecidableEq

inductive Lexeme where
  | word (text : List Byte) (vas : Bool)
  | op (sc : SpecChar)
  deriving DecidableEq

/-- A reader of a line: how it reads the next character, the word it is in and what it has read before that. -/
structure Reader where
  mode : Mode
  word : Option Word
  lexemes : List Lexeme
  deriving DecidableEq

def Word.lexeme (w : Word) : Lexeme := .word w.text w.vas

def Word.push (w : Word) (c : Byte) : Word := { w with text := w.text ++ [c] }

def Word.empty : Word := ⟨[], false, false⟩

def Reader.start : Reader := ⟨.bare, none, []⟩

def Reader.cur (r : Reader) : Word := r.word.getD .empty

def Reader.closed (r : Reader) : List Lexeme := r.lexemes ++ (r.word.map Word.lexeme).toList

def Reader.readBare (r : Reader) (c : Byte) : Reader :=
  if isspace c then ⟨.bare, none, r.closed⟩
  else match specChar c with
    | some sc => ⟨.bare, none, r.closed ++ [.op sc]⟩
    | none =>
      if c = backslash then ⟨.escaped, some r.cur, r.lexemes⟩
      else if c = apostrophe ∨ c = dquote then ⟨.quoted c, some { r.cur with pquot := true }, r.lexemes⟩
      else ⟨.bare, some { r.cur.push c with vas := r.cur.vas || (c = chr '=' && !r.cur.pquot) }, r.lexemes⟩

def Reader.read (r : Reader) (c : Byte) : Reader :=
  match r.mode with
  | .bare => r.readBare c
  | .escaped => ⟨.bare, some (r.cur.push c), r.lexemes⟩
  | .quoted quot =>
    if c = quot then { r with mode := .bare } else { r with word := some (r.cur.push c) }

def Reader.reads (r : Reader) (s : List Byte) : Reader := s.foldl Reader.read r

/-- The lexemes of a line, unless it ends within quotes or behind a backslash. -/
def Reader.finish (r : Reader) : Option (List Lexeme) := if r.mode = .bare then some r.closed else none

def lex (line : List Byte) : Option (List Lexeme) := (Reader.start.reads line).finish

/- The buffer and the reader -/

theorem reads_cons (r : Reader) (c : Byte) (s : List Byte) : r.reads (c :: s) = (r.read c).reads s := rfl

theorem reads_append (r : Reader) (s t : List Byte) : r.reads (s ++ t) = (r.reads s).reads t := foldl_append

variable {w : Option Word} {ls : List Lexeme} {c : Byte}

theorem read_quoted (ne : c ≠ quot) :
    (Reader.mk (.quoted quot) w ls).read c = ⟨.quoted quot, some ((w.getD .empty).push c), ls⟩ := if_neg ne

theorem read_quot : (Reader.mk (.quoted c) w ls).read c = ⟨.bare, w, ls⟩ := if_pos rfl

theorem read_space (space : isspace c = true) :
    (Reader.mk .bare w ls).read c = ⟨.bare, none, ls ++ (w.map Word.lexeme).toList⟩ := if_pos space

theorem read_special (solid : isspace c = false) (special : specChar c = some sc) :
    (Reader.mk .bare w ls).read c = ⟨.bare, none, ls ++ (w.map Word.lexeme).toList ++ [.op sc]⟩ := by
  rw [Reader.read, Reader.readBare, solid, special]
  rfl

theorem read_quote (quote : c = apostrophe ∨ c = dquote) :
    (Reader.mk .bare w ls).read c = ⟨.quoted c, some { w.getD .empty with pquot := true }, ls⟩ := by
  obtain rfl | rfl := quote <;> rfl

/-- A character that stands for itself where it is not quoted. -/
structure Plain (c : Byte) : Prop where
  solid : isspace c = false
  ordinary : specChar c = none
  unescaped : c ≠ backslash
  unquoted : ¬ (c = apostrophe ∨ c = dquote)

theorem read_plain (plain : Plain c) : (Reader.mk .bare w ls).read c =
    ⟨.bare, some { (w.getD .empty).push c with
      vas := (w.getD .empty).vas || (c = chr '=' && !(w.getD .empty).pquot) }, ls⟩ := by
  rw [Reader.read, Reader.readBare, plain.solid, plain.ordinary]
  dsimp only
  rw [if_neg nofun, if_neg plain.unescaped, if_neg plain.unquoted]
  rfl

theorem reads_quoted {quot : Byte} {s : List Byte} (free : quot ∉ s) (w : Word) (ls : List Lexeme) :
    (Reader.mk (.quoted quot) (some w) ls).reads s = ⟨.quoted quot, some { w with text := w.text ++ s }, ls⟩ := by
  induction s generalizing w with
  | nil => simp [Reader.reads]
  | cons c cs ih =>
    rw [mem_cons, not_or] at free
    rw [reads_cons, read_quoted (Ne.symm free.1), ih free.2]
    simp [Word.push]

theorem copyQuoted_eq {quot : Byte} {n : Nat} {m : Mem} {d e : Nat} {s rest : List Byte} (held : Holds m e (s ++ rest))
    (free : quot ∉ s) (stops : rest.head?.getD quot = quot) (le : d ≤ e) (enough : s.length < n) :
    copyQuoted quot n m d e = .ok (blit m d s, d + s.length, e + s.length) := by
  induction s generalizing n m d e with
  | nil =>
    obtain _ | n := n
    · omega
    · have stop : ¬ (m e ≠ 0 ∧ m e ≠ quot) := by
        cases rest with
        | nil => exact fun more => more.1 held
        | cons c cs => exact fun more => more.2 (held.1.1.trans stops)
      rw [copyQuoted, if_neg stop, blit_nil]
      rfl
  | cons c cs ih =>
    obtain _ | n := n
    · omega
    · obtain ⟨⟨here, nonzero⟩, next⟩ := held
      rw [mem_cons, not_or] at free
      rw [copyQuoted, here, if_pos ⟨nonzero, Ne.symm free.1⟩,
        ih (next.put (by omega) c) free.2 (by omega) (lt_of_succ_lt_succ enough), blit_cons, length_cons]
      simp only [add_assoc, add_comm 1]

/-- Where a word ends: at the end of the line, a space or a special character. -/
def Ends (sc : Option SpecChar) : List Byte → Prop
  | [] => sc = none
  | c :: _ => if isspace c then sc = none else sc.isSome ∧ specChar c = sc

/-- What the loop does with the rest of the line, next to a reader that is in the word. -/
inductive Follows (m : Mem) (d : Nat) (vas pquot : Bool) (cs : List Byte) : Except Stop Cut → Prop where
  | failed (bad : ∀ t ls, ((Reader.mk .bare (some ⟨t, vas, pquot⟩) ls).reads cs).mode ≠ .bare) :
      Follows m d vas pquot cs (.error .synErr)
  | cut {w rest : List Byte} {e : Nat} {vas' pquot' : Bool} {sc : Option SpecChar} (noNul : (0 : Byte) ∉ w)
      (held : Holds (blit m d w) e rest) (le : d + w.length ≤ e) (fewer : rest.length ≤ cs.length)
      (ends : Ends sc rest)
      (same : ∀ t ls, (Reader.mk .bare (some ⟨t, vas, pquot⟩) ls).reads cs =
        (Reader.mk .bare (some ⟨t ++ w, vas', pquot'⟩) ls).reads rest) :
      Follows m d vas pquot cs (.ok ⟨blit m d w, d + w.length, e, vas', sc⟩)

theorem Follows.after {m : Mem} {d : Nat} {vas pquot vas' pquot' : Bool} {s cs rest : List Byte} {r : Except Stop Cut}
    (noNul : (0 : Byte) ∉ s) (fewer : rest.length ≤ cs.length)
    (taken : ∀ t ls, (Reader.mk .bare (some ⟨t, vas, pquot⟩) ls).reads cs =
      (Reader.mk .bare (some ⟨t ++ s, vas', pquot'⟩) ls).reads rest)
    (follows : Follows (blit m d s) (d + s.length) vas' pquot' rest r) : Follows m d vas pquot cs r := by
  cases follows with
  | failed bad =>
    apply failed
    intro t ls
    rw [taken]
    exact bad (t ++ s) ls
  | @cut w _ e vas'' pquot'' sc noNul' held le fewer' ends same =>
    rw [blit_blit, add_assoc, ← length_append] at *
    have noNul'' : (0 : Byte) ∉ s ++ w := by
      simp only [mem_append, not_or]
      exact ⟨noNul, noNul'⟩
    have same' : ∀ t ls, (Reader.mk .bare (some ⟨t, vas, pquot⟩) ls).reads cs =
        (Reader.mk .bare (some ⟨t ++ (s ++ w), vas'', pquot''⟩) ls).reads _ := fun t ls => by
      rw [taken, same, append_assoc]
    exact cut noNul'' held le (fewer'.trans fewer) ends same'

theorem Follows.stop {m : Mem} {d e : Nat} {vas pquot : Bool} {cs : List Byte} {sc : Option SpecChar}
    (held : Holds m e cs) (le : d ≤ e) (ends : Ends sc cs) : Follows m d vas pquot cs (.ok ⟨m, d, e, vas, sc⟩) := by
  have still : Holds (blit m d []) e cs := by rwa [blit_nil]
  have follows := @cut m d vas pquot cs [] cs e vas pquot sc not_mem_nil still le (le_refl _) ends
    fun t ls => by rw [append_nil]
  rwa [blit_nil] at follows

def Enough (n : Nat) : Prop :=
  ∀ {m : Mem} {d e : Nat} {vas pquot : Bool} {cs : List Byte}, Holds m e cs → d ≤ e → cs.length < n →
    Follows m d vas pquot cs (wordLoop n m d e vas pquot)

variable {n : Nat} {m : Mem} {d e : Nat} {vas pquot : Bool} {cs : List Byte}

theorem Enough.backslash (loop : Enough n) (next : Holds m (e + 1) cs) (le : d ≤ e) (enough : cs.length < n) :
    Follows m d vas pquot (backslash :: cs)
      (if m (e + 1) = 0 then .error .synErr else wordLoop n (put m d (m (e + 1))) (d + 1) (e + 2) vas pquot) := by
  cases cs with
  | nil =>
    have zero : m (e + 1) = 0 := next
    rw [if_pos zero]
    exact .failed fun t ls => nofun
  | cons x xs =>
    obtain ⟨⟨here, nonzero⟩, after⟩ := next
    rw [here, if_neg nonzero]
    rw [length_cons] at enough
    refine .after (s := [x]) ?_ ?_ (fun t ls => rfl) ?_
    · simpa using nonzero.symm
    · simp only [length_cons]
      omega
    · rw [blit_cons, blit_nil]
      exact loop (after.put (by omega) x) (by simp only [length_singleton]; omega) (by omega)

theorem Enough.quote (loop : Enough n) (quote : c = apostrophe ∨ c = dquote) (nonzero : c ≠ 0)
    (next : Holds m (e + 1) cs) (le : d ≤ e) (enough : cs.length < n) :
    Follows m d vas pquot (c :: cs)
      (match copyQuoted c n m d (e + 1) with
      | .error stop => .error stop
      | .ok (m, d, e) => if m e = 0 then .error .synErr else wordLoop n m d (e + 1) vas true) := by
  have opened : ∀ t ls, (Reader.mk .bare (some ⟨t, vas, pquot⟩) ls).reads (c :: cs) =
      (Reader.mk (.quoted c) (some ⟨t, vas, true⟩) ls).reads cs := fun t ls => by
    rw [reads_cons, read_quote quote]
    rfl
  by_cases closed : c ∈ cs
  · obtain ⟨s, rest, rfl, free⟩ := eq_append_cons_of_mem closed
    rw [length_append, length_cons] at enough
    have after := next.append.blit (d := d) (t := s) (by omega)
    rw [copyQuoted_eq next free rfl (by omega) (by omega)]
    dsimp only
    rw [if_neg (by rw [after.1.1]; exact nonzero)]
    refine @Follows.after _ _ _ _ vas true s _ rest _ ?_ ?_ (fun t ls => ?_) ?_
    · exact fun mem => next.noNul (mem_append_left _ mem)
    · simp only [length_cons, length_append]
      omega
    · rw [opened, reads_append, reads_quoted free, reads_cons, read_quot]
    · exact loop after.2 (by omega) (by omega)
  · have whole : Holds m (e + 1) (cs ++ []) := by rwa [append_nil]
    have zero : blit m d cs (e + 1 + cs.length) = 0 := whole.append.blit (by omega)
    rw [copyQuoted_eq whole closed rfl (by omega) (by omega)]
    dsimp only
    rw [if_pos zero]
    exact .failed fun t ls => by rw [opened, reads_quoted closed]; nofun

theorem wordLoop_follows (n : Nat) : Enough n := by
  induction n with
  | zero => intro m d e vas pquot cs held le enough; omega
  | succ n ih =>
    intro m d e vas pquot cs held le enough
    cases cs with
    | nil =>
      have zero : m e = 0 := held
      rw [wordLoop, if_pos (Or.inl zero)]
      exact .stop held le rfl
    | cons c cs =>
      obtain ⟨⟨here, nonzero⟩, next⟩ := id held
      have enough' : cs.length < n := lt_of_succ_lt_succ enough
      rw [wordLoop, here]
      by_cases space : isspace c = true
      · rw [if_pos (Or.inr space)]
        exact .stop held le (by rw [Ends, if_pos space])
      rw [if_neg (not_or.mpr ⟨nonzero, space⟩)]
      cases special : specChar c with
      | some sc => exact .stop held le (by rw [Ends, if_neg space]; exact ⟨rfl, special⟩)
      | none =>
        dsimp only
        by_cases escape : c = Sh.backslash
        · rw [if_pos escape, escape]
          exact ih.backslash next le enough'
        rw [if_neg escape]
        by_cases quote : c = apostrophe ∨ c = dquote
        · rw [if_pos quote]
          exact ih.quote quote nonzero next le enough'
        · rw [if_neg quote]
          have plain : Plain c := ⟨by simpa using space, special, escape, quote⟩
          refine @Follows.after _ _ _ _ (vas || (c = chr '=' && !pquot)) pquot [c] _ cs _ ?_ ?_
            (fun t ls => by rw [reads_cons, read_plain plain]; rfl) ?_
          · simpa using nonzero.symm
          · simp
          · rw [blit_cons, blit_nil]
            exact ih (next.put (by omega) c) (by simp only [length_singleton]; omega) (by omega)

/- The whole line -/

def Spells (m : Mem) (tk : Token) : Lexeme → Prop
  | .word text vas => ∃ a, tk = ⟨.string, none, .buf a, vas⟩ ∧ Holds m a text
  | .op sc => tk = sc.tk

def SpellsBelow (m : Mem) (p : Nat) (tk : Token) : Lexeme → Prop
  | .word text vas => ∃ a, tk = ⟨.string, none, .buf a, vas⟩ ∧ Holds m a text ∧ a + text.length < p
  | .op sc => tk = sc.tk

theorem SpellsBelow.spells (below : SpellsBelow m p tk l) : Spells m tk l := by
  cases l with
  | word text vas =>
    obtain ⟨a, eq, held, _⟩ := below
    exact ⟨a, eq, held⟩
  | op sc => exact below

theorem SpellsBelow.later (below : SpellsBelow m p tk l)
    (le : p ≤ p') (same : ∀ k < p, m' k = m k) : SpellsBelow m' p' tk l := by
  cases l with
  | word text vas =>
    obtain ⟨a, eq, held, lt⟩ := below
    exact ⟨a, eq, held.congr fun k _ hi => same k (by omega), by omega⟩
  | op sc => exact below

theorem skipSpace_eq (held : Holds m e cs) (enough : cs.length < n) :
    ∃ p, skipSpace n m e = .ok p ∧ e ≤ p ∧ Holds m p (cs.dropWhile isspace) := by
  induction n generalizing e cs with
  | zero => omega
  | succ n ih =>
    cases cs with
    | nil =>
      have zero : m e = 0 := held
      exact ⟨e, by rw [skipSpace, zero]; rfl, le_refl _, held⟩
    | cons c cs =>
      rw [skipSpace, held.1.1, dropWhile_cons]
      by_cases space : isspace c = true
      · rw [if_pos space, if_pos space]
        obtain ⟨p, eq, le, rest⟩ := ih held.2 (lt_of_succ_lt_succ enough)
        exact ⟨p, eq, by omega, rest⟩
      · rw [if_neg space, if_neg space]
        exact ⟨e, rfl, le_refl _, held⟩

theorem reads_dropWhile (cs : List Byte) (ls : List Lexeme) :
    (Reader.mk .bare none ls).reads cs = (Reader.mk .bare none ls).reads (cs.dropWhile isspace) := by
  induction cs with
  | nil => rfl
  | cons c cs ih =>
    rw [dropWhile_cons]
    by_cases space : isspace c = true
    · rw [if_pos space, ← ih, reads_cons, read_space space]
      simp
    · rw [if_neg space]

def Completes (r : Reader) : Except Stop (Mem × List Token) → Prop
  | .ok (m, tk) => ∃ ls, r.finish = some ls ∧ List.Forall₂ (Spells m) tk ls
  | .error stop => stop = .synErr ∧ r.finish = none

theorem reads_begin (solid : isspace c = false) (ordinary : specChar c = none) :
    (Reader.mk .bare none ls).reads (c :: cs) = (Reader.mk .bare (some .empty) ls).reads (c :: cs) := by
  simp only [reads_cons, Reader.read, Reader.readBare, solid, ordinary]
  rfl

theorem completes_end
    (spelled : List.Forall₂ (SpellsBelow m p) tk (ls ++ (w.map Word.lexeme).toList)) :
    Completes ⟨.bare, w, ls⟩ (.ok (m, tk)) := by
  refine ⟨ls ++ (w.map Word.lexeme).toList, rfl, ?_⟩
  exact spelled.imp fun _ _ => SpellsBelow.spells

theorem spells_cut {p e : Nat} {tk : List Token} {ls : List Lexeme} {w : List Byte} {vas pquot : Bool}
    {sc : Option SpecChar} (spelled : List.Forall₂ (SpellsBelow m p) tk ls) (noNul : (0 : Byte) ∉ w) (le : p + w.length ≤ e) :
    List.Forall₂ (SpellsBelow (put (blit m p w) (p + w.length) 0) (e + 1))
      (tk ++ [⟨.string, none, .buf p, vas⟩] ++ (sc.map SpecChar.tk).toList)
      (ls ++ [(Word.mk w vas pquot).lexeme] ++ (sc.map Lexeme.op).toList) := by
  have earlier : List.Forall₂ (SpellsBelow (put (blit m p w) (p + w.length) 0) (e + 1)) tk ls := by
    apply spelled.imp
    intro tk l below
    apply below.later (by omega)
    intro k lt
    rw [put, if_neg (by omega), blit_outside _ _ _ _ (Or.inl lt)]
  have word : SpellsBelow (put (blit m p w) (p + w.length) 0) (e + 1) ⟨.string, none, .buf p, vas⟩
      (Word.mk w vas pquot).lexeme := ⟨p, rfl, holds_written m p noNul, lt_succ_of_le le⟩
  refine rel_append (rel_append earlier (.cons word .nil)) ?_
  cases sc with
  | none => exact .nil
  | some sc => exact .cons rfl .nil

theorem reads_ended {sc : Option SpecChar} {w : Word} {ls : List Lexeme} (ends : Ends sc (c :: cs)) :
    (Reader.mk .bare (some w) ls).reads (c :: cs) =
      (Reader.mk .bare none (ls ++ [w.lexeme] ++ (sc.map Lexeme.op).toList)).reads cs := by
  rw [Ends] at ends
  rw [reads_cons]
  by_cases space : isspace c = true
  · rw [if_pos space] at ends
    rw [read_space space, ends]
    simp
  · rw [if_neg space] at ends
    obtain ⟨sc, rfl⟩ := Option.isSome_iff_exists.mp ends.1
    rw [read_special (by simpa using space) ends.2]
    rfl

theorem tokenizeFrom_completes (held : Holds m p cs)
    (enough : cs.length < n) (spelled : List.Forall₂ (SpellsBelow m p) tk ls) :
    Completes ((Reader.mk .bare none ls).reads cs) (tokenizeFrom n m p tk) := by
  induction n generalizing m p cs tk ls with
  | zero => omega
  | succ n ih =>
    have empty : Completes ((Reader.mk .bare none ls).reads []) (.ok (m, tk)) :=
      completes_end (by simpa using spelled)
    cases cs with
    | nil =>
      have zero : m p = 0 := held
      rw [tokenizeFrom, if_pos zero]
      exact empty
    | cons c cs =>
      obtain ⟨q, skipped, le, rest⟩ := skipSpace_eq held enough
      rw [tokenizeFrom, if_neg (by rw [held.1.1]; exact held.1.2), skipped, reads_dropWhile]
      have fewer := length_dropWhile_le isspace (c :: cs)
      have solid := List.head?_dropWhile_not isspace (c :: cs)
      generalize (c :: cs).dropWhile isspace = text at *
      have spelled' : List.Forall₂ (SpellsBelow m q) tk ls :=
        spelled.imp fun _ _ below => below.later le fun _ _ => rfl
      dsimp only
      cases text with
      | nil =>
        have zero : m q = 0 := rest
        rw [if_pos zero]
        exact empty
      | cons x xs =>
        obtain ⟨⟨here, nonzero⟩, next⟩ := id rest
        rw [here, if_neg nonzero]
        have solid : isspace x = false := solid
        rw [length_cons] at fewer
        cases special : specChar x with
        | some sc =>
          rw [reads_cons, read_special solid special]
          apply ih next (by omega)
          refine rel_append ?_ (.cons rfl .nil)
          simpa using spelled'.imp fun _ _ below => below.later (le_succ q) fun _ _ => rfl
        | none =>
          rw [reads_begin solid special]
          have follows := @wordLoop_follows (n + 1) m q q false false _ rest (le_refl q) (by
            rw [length_cons]; omega)
          dsimp only
          generalize wordLoop (n + 1) m q q false false = result at follows
          cases follows with
          | failed bad => exact ⟨rfl, if_neg (bad [] ls)⟩
          | @cut w tail e vas pquot sc noNul held' le' fewer' ends same =>
            have spelled'' := @spells_cut _ _ _ _ _ _ vas pquot sc spelled' noNul le'
            rw [Word.empty, same, nil_append]
            dsimp only
            cases tail with
            | nil =>
              have zero : blit m q w e = 0 := held'
              have none : sc = none := ends
              subst none
              rw [if_pos zero]
              exact completes_end (by simpa using spelled'')
            | cons y ys =>
              rw [if_neg (by rw [held'.1.1]; exact held'.1.2), reads_ended ends]
              rw [length_cons] at fewer'
              exact ih (held'.2.put (by omega) 0) (by simp only [length_cons] at *; omega) spelled''

theorem tokenize_completes (held : Holds m cmd line) (enough : line.length < n) :
    Completes (Reader.start.reads line) (tokenize n m cmd) :=
  tokenizeFrom_completes held enough .nil

end Sh
