import Newsys.Sh.Tokenize

/- What the tokens of a line of quoted words are (`tokenize` of cmd/sh/sh.c). -/
namespace Sh
open Bytes Libc Cstr List Option

inductive Form where
  | backslash
  | single
  | double

/-- The strings that can be quoted so. -/
def Form.Takes : Form → List Byte → Prop
  | .backslash, s => s ≠ []
  | .single, s => apostrophe ∉ s
  | .double, s => dquote ∉ s

instance : (f : Form) → (s : List Byte) → Decidable (f.Takes s)
  | .backslash, s => inferInstanceAs (Decidable (s ≠ []))
  | .single, s => inferInstanceAs (Decidable (apostrophe ∉ s))
  | .double, s => inferInstanceAs (Decidable (dquote ∉ s))

structure Quoted where
  form : Form
  text : List Byte
  noNul : (0 : Byte) ∉ text := by decide
  takes : form.Takes text := by decide

def Quoted.bytes (q : Quoted) : List Byte :=
  match q.form with
  | .backslash => q.text.flatMap fun c => [backslash, c]
  | .single => apostrophe :: q.text ++ [apostrophe]
  | .double => dquote :: q.text ++ [dquote]

inductive Piece where
  | plain (c : Byte) (plain : Plain c)
  | quoted (q : Quoted)

def Piece.bytes : Piece → List Byte
  | .plain c _ => [c]
  | .quoted q => q.bytes

def Piece.text : Piece → List Byte
  | .plain c _ => [c]
  | .quoted q => q.text

inductive Item where
  | blank (c : Byte) (space : isspace c = true)
  | op (sc : SpecChar) (special : sc ∈ specChars)
  | word (ps : List Piece) (some : ps ≠ [])

def Item.bytes : Item → List Byte
  | .blank c _ => [c]
  | .op sc _ => [sc.ch]
  | .word ps _ => ps.flatMap Piece.bytes

/-- Two words do not stand side by side. -/
def Item.Apart : Item → Item → Prop
  | .word _ _, .word _ _ => False
  | _, _ => True

/-- What the token of a part of the line has to be, if it has one. -/
inductive Item.Gives (m : Mem) (tk : Token) : Item → Prop where
  | op {sc : SpecChar} {special : sc ∈ specChars} (eq : tk = ⟨sc.token, sc.parity, .lit [sc.ch], false⟩) :
      Item.Gives m tk (.op sc special)
  | word {ps : List Piece} {some : ps ≠ []} {a : Nat} (type : tk.type = .string) (str : tk.str = .buf a)
      (held : Holds m a (ps.flatMap Piece.text)) : Item.Gives m tk (.word ps some)

def Item.isToken : Item → Bool
  | .blank _ _ => false
  | _ => true

def Word.add (w : Word) : Piece → Word
  | .plain c _ => { w.push c with vas := w.vas || (c = chr '=' && !w.pquot) }
  | .quoted q => ⟨w.text ++ q.text, w.vas, w.pquot || match q.form with | .backslash => false | _ => true⟩

variable {w : Option Word} {ls : List Lexeme}

theorem reads_escape (c : Byte) (s : List Byte) : (Reader.mk .bare w ls).reads (backslash :: c :: s) =
    (Reader.mk .bare (some ((w.getD .empty).push c)) ls).reads s := rfl

theorem reads_escapes (s : List Byte) (v : Word) :
    (Reader.mk .bare (some v) ls).reads (s.flatMap fun c => [backslash, c]) =
      ⟨.bare, some { v with text := v.text ++ s }, ls⟩ := by
  induction s generalizing v with
  | nil => simp [Reader.reads]
  | cons c cs ih =>
    rw [flatMap_cons, cons_append, singleton_append, reads_escape, getD_some, ih]
    simp [Word.push]

theorem reads_between (quote : quot = apostrophe ∨ quot = dquote) (free : quot ∉ s) :
    (Reader.mk .bare w ls).reads (quot :: s ++ [quot]) =
      ⟨.bare, some ⟨(w.getD .empty).text ++ s, (w.getD .empty).vas, true⟩, ls⟩ := by
  rw [cons_append, reads_cons, read_quote quote, reads_append, reads_quoted free, reads_cons, read_quot]
  rfl

theorem reads_piece (p : Piece) :
    (Reader.mk .bare w ls).reads p.bytes = ⟨.bare, some ((w.getD .empty).add p), ls⟩ := by
  cases p with
  | plain c plain => exact read_plain plain
  | quoted q =>
    obtain ⟨form, text, noNul, takes⟩ := q
    cases form with
    | backslash =>
      obtain ⟨c, cs, rfl⟩ := exists_cons_of_ne_nil takes
      have rest := @reads_escapes ls cs ((w.getD .empty).push c)
      rw [Piece.bytes, Quoted.bytes, flatMap_cons, cons_append, singleton_append, reads_escape, rest]
      simp [Word.add, Word.push]
    | single => simpa [Piece.bytes, Quoted.bytes, Word.add] using reads_between (w := w) (Or.inl rfl) takes
    | double => simpa [Piece.bytes, Quoted.bytes, Word.add] using reads_between (w := w) (Or.inr rfl) takes

theorem reads_pieces (ps : List Piece) (v : Word) :
    (Reader.mk .bare (some v) ls).reads (ps.flatMap Piece.bytes) = ⟨.bare, some (ps.foldl Word.add v), ls⟩ := by
  induction ps generalizing v with
  | nil => rfl
  | cons p ps ih => rw [flatMap_cons, reads_append, reads_piece, getD_some, ih, foldl_cons]

theorem add_text (p : Piece) (v : Word) : (v.add p).text = v.text ++ p.text := by
  cases p <;> rfl

theorem adds_text (ps : List Piece) (v : Word) : (ps.foldl Word.add v).text = v.text ++ ps.flatMap Piece.text := by
  induction ps generalizing v with
  | nil => simp
  | cons p ps ih => rw [foldl_cons, ih, add_text, flatMap_cons, append_assoc]

theorem special_found : ∀ sc ∈ specChars, specChar sc.ch = some sc ∧ isspace sc.ch = false := by decide

def Item.lexeme : Item → Option Lexeme
  | .blank _ _ => none
  | .op sc _ => some (.op sc)
  | .word ps _ => some (ps.foldl Word.add .empty).lexeme

theorem reads_single (r : Reader) (c : Byte) : r.reads [c] = r.read c := rfl

theorem Item.gives_of_spells {m : Mem} {tk : Token} {it : Item} {l : Lexeme} (eq : it.lexeme = some l)
    (spells : Spells m tk l) : it.Gives m tk := by
  cases it with
  | blank => nomatch eq
  | op sc special =>
    obtain rfl := some.inj eq
    exact .op spells
  | word ps nonempty =>
    obtain rfl := some.inj eq
    obtain ⟨a, rfl, held⟩ := spells
    refine .word rfl rfl ?_
    rwa [adds_text] at held

theorem Item.all_give {m : Mem} {items : List Item} {tk : List Token}
    (spelled : List.Forall₂ (Spells m) tk (items.filterMap Item.lexeme)) :
    List.Forall₂ (fun tk it => it.Gives m tk) tk (items.filter Item.isToken) := by
  induction items generalizing tk with
  | nil => simpa using spelled
  | cons it items ih =>
    rw [filterMap_cons] at spelled
    cases eq : it.lexeme with
    | none =>
      rw [eq] at spelled
      have skipped : it.isToken = false := by cases it <;> first | rfl | nomatch eq
      rw [filter_cons, skipped]
      exact ih spelled
    | some l =>
      rw [eq] at spelled
      have kept : it.isToken = true := by cases it <;> first | rfl | nomatch eq
      rw [filter_cons, kept]
      cases spelled with
      | cons first rest => exact .cons (gives_of_spells eq first) (ih rest)

theorem finish_items {items : List Item} {r : Reader} (bare : r.mode = .bare) (apart : items.IsChain Item.Apart)
    (between : ∀ ps nonempty, items.head? = some (.word ps nonempty) → r.word = none) :
    (r.reads (items.flatMap Item.bytes)).finish = some (r.closed ++ items.filterMap Item.lexeme) := by
  induction items generalizing r with
  | nil =>
    rw [flatMap_nil, Reader.reads, foldl_nil, Reader.finish, if_pos bare]
    simp
  | cons it items ih =>
    obtain ⟨mode, w, ls⟩ := r
    obtain rfl : mode = .bare := bare
    have apart' := apart.tail
    rw [flatMap_cons, reads_append]
    cases it with
    | blank c space =>
      rw [Item.bytes, reads_single, read_space space, ih rfl apart' fun _ _ _ => rfl,
        filterMap_cons_none rfl]
      simp [Reader.closed]
    | op sc special =>
      obtain ⟨found, solid⟩ := special_found sc special
      rw [Item.bytes, reads_single, read_special solid found,
        ih rfl apart' fun _ _ _ => rfl]
      simp [Reader.closed, Item.lexeme]
    | word ps nonempty =>
      obtain rfl : w = none := between ps nonempty rfl
      obtain ⟨p, ps, rfl⟩ := exists_cons_of_ne_nil nonempty
      have next : ∀ qs more, items.head? = some (.word qs more) → False := by
        intro qs more head
        obtain ⟨items, rfl⟩ := head?_eq_some_iff.mp head
        exact (isChain_cons_cons.mp apart).1
      rw [Item.bytes, flatMap_cons, reads_append, reads_piece, reads_pieces,
        ih rfl apart' fun qs more head => (next qs more head).elim]
      simp [Reader.closed, Item.lexeme]

theorem reads_spaces (blank : ∀ c ∈ sep, isspace c = true) (nonempty : sep ≠ []) :
    (Reader.mk .bare w ls).reads sep = ⟨.bare, none, ls ++ (w.map Word.lexeme).toList⟩ := by
  obtain ⟨c, cs, rfl⟩ := exists_cons_of_ne_nil nonempty
  have gone : cs.dropWhile isspace = [] :=
    dropWhile_eq_nil_iff.mpr fun c mem => blank c (mem_cons_of_mem _ mem)
  rw [reads_cons, read_space (blank c mem_cons_self), reads_dropWhile, gone]
  rfl

theorem reads_words (blank : ∀ c ∈ sep, isspace c = true) (nonempty : sep ≠ [])
    (words : List Quoted) : ((Reader.mk .bare none ls).reads (sep.intercalate (words.map Quoted.bytes))).finish =
      some (ls ++ words.map fun q => .word q.text false) := by
  induction words generalizing ls with
  | nil => simp [Reader.reads, Reader.finish, Reader.closed]
  | cons q words ih =>
    have first := @reads_piece none ls (.quoted q)
    cases words with
    | nil =>
      rw [map_singleton, intercalate_singleton]
      rw [show q.bytes = Piece.bytes (.quoted q) from rfl, first]
      rfl
    | cons q' words =>
      rw [map_cons, map_cons, intercalate_cons_cons, reads_append, reads_append]
      rw [show q.bytes = Piece.bytes (.quoted q) from rfl, first, reads_spaces blank nonempty]
      have rest := @ih (ls ++ [.word q.text false])
      rw [map_cons] at rest
      rw [show ((some ((none : Option Word).getD .empty |>.add (.quoted q))).map Word.lexeme).toList =
        [Lexeme.word q.text false] from rfl, rest]
      simp

/-- A line of quoted words gives one token a word, with the text of the word; and in every line that is put together
    from blanks, special characters and words, each special character and each word gives one token, in their order. -/
theorem tokenize_quoted (n : Nat) (m : Mem) (cmd : Nat) :
    (∀ (words : List Quoted) (sep : List Byte), (∀ c ∈ sep, isspace c = true) → sep ≠ [] →
      Holds m cmd (sep.intercalate (words.map Quoted.bytes)) →
      (sep.intercalate (words.map Quoted.bytes)).length < n →
      ∃ m' tk, tokenize n m cmd = .ok (m', tk) ∧
        List.Forall₂ (fun tk q => ∃ a, tk = ⟨.string, none, .buf a, false⟩ ∧ Holds m' a q.text) tk words) ∧
    (∀ items : List Item, items.IsChain Item.Apart →
      Holds m cmd (items.flatMap Item.bytes) → (items.flatMap Item.bytes).length < n →
      ∃ m' tk, tokenize n m cmd = .ok (m', tk) ∧
        List.Forall₂ (fun tk it => it.Gives m' tk) tk (items.filter Item.isToken)) := by
  have completed : ∀ line ls, Holds m cmd line → line.length < n → (Reader.start.reads line).finish = some ls →
      ∃ m' tk, tokenize n m cmd = .ok (m', tk) ∧ List.Forall₂ (Spells m') tk ls := by
    intro line ls held enough finish
    have completes := tokenize_completes held enough
    cases result : tokenize n m cmd with
    | error stop =>
      rw [result] at completes
      rw [completes.2] at finish
      nomatch finish
    | ok out =>
      obtain ⟨m', tk⟩ := out
      rw [result] at completes
      obtain ⟨ls', finish', spelled⟩ := completes
      rw [finish, some.injEq] at finish'
      exact ⟨m', tk, rfl, finish' ▸ spelled⟩
  constructor
  · intro words sep blank nonempty held enough
    obtain ⟨m', tk, eq, spelled⟩ := completed _ _ held enough (reads_words blank nonempty words)
    rw [nil_append, forall₂_map_right_iff] at spelled
    exact ⟨m', tk, eq, spelled⟩
  · intro items apart held enough
    obtain ⟨m', tk, eq, spelled⟩ := completed _ _ held enough (finish_items rfl apart fun _ _ _ => rfl)
    exact ⟨m', tk, eq, Item.all_give spelled⟩

def buffer (line : List Byte) : Mem := put (blit Bytes.zero 0 line) (0 + line.length) 0

/-- `"it's;"  ''  \\\ \"` with two blanks between the words, and `a='|'b|\&<c` -/
theorem tokenize_quoted_sample :
    let words : List Quoted := [{ form := .double, text := ['i', 't', '\'', 's', ';'].map chr },
      { form := .single, text := [] }, { form := .backslash, text := ['\\', ' ', '"'].map chr }]
    let sep := [chr ' ', chr '\t']
    let items : List Item := [.word [.plain (chr 'a') ⟨rfl, rfl, by decide, by decide⟩,
        .plain (chr '=') ⟨rfl, rfl, by decide, by decide⟩, .quoted { form := .single, text := [chr '|'] },
        .plain (chr 'b') ⟨rfl, rfl, by decide, by decide⟩] (by simp),
      .op ⟨.pipe, none, chr '|'⟩ (by decide), .word [.quoted { form := .backslash, text := [chr '&'] }] (by simp),
      .op ⟨.iredir, none, chr '<'⟩ (by decide), .blank (chr ' ') rfl,
      .word [.plain (chr 'c') ⟨rfl, rfl, by decide, by decide⟩] (by simp)]
    (∃ m' tk, tokenize 40 (buffer (sep.intercalate (words.map Quoted.bytes))) 0 = .ok (m', tk) ∧
      List.Forall₂ (fun tk q => ∃ a, tk = ⟨.string, none, .buf a, false⟩ ∧ Holds m' a q.text) tk words) ∧
    ∃ m' tk, tokenize 40 (buffer (items.flatMap Item.bytes)) 0 = .ok (m', tk) ∧
      List.Forall₂ (fun tk it => it.Gives m' tk) tk (items.filter Item.isToken) := by
  intro words sep items
  constructor
  · have held := holds_written Bytes.zero 0 (s := sep.intercalate (words.map Quoted.bytes)) (by decide)
    exact (tokenize_quoted 40 _ 0).1 words sep (by decide) (by decide) held (by decide)
  · have apart : items.IsChain Item.Apart := by simp [items, Item.Apart]
    exact (tokenize_quoted 40 _ 0).2 items apart (holds_written Bytes.zero 0 (by decide)) (by decide)

end Sh
