import Newsys.Sh.Tokenize

/- The references of a command line (cmd/sh/sh.c). `do_subst` puts values in place of them before `tokenize` reads the
   line. `v6_flag` is 0 here. A line is given without its NUL. -/
namespace Sh
open Bytes Libc List Option

structure Shell where
  vars : List (List Byte × List Byte)
  name : List Byte
  sargv : List (List Byte)
  pid : Nat
  lastst : Int

def varGet (sh : Shell) (name : List Byte) : Option (List Byte) :=
  if chr '=' ∈ name then none else (sh.vars.find? (·.1 == name)).map (·.2)

def decimal (n : Nat) : List Byte := if n = 0 then [chr '0'] else numeral 10 n

def isalnum (c : Byte) : Bool := islower c || isupper c || isdigit c

def vnameChar (c : Byte) : Bool := isalnum c || c == chr '_'

/-- `do_subst_1`: the value of the reference whose `$` is followed by `s`, and `*rlen`. -/
def doSubst1 (sh : Shell) (s : List Byte) : List Byte × Nat :=
  let c := peek s
  if isdigit c then
    let i := c.toNat - (chr '0').toNat
    (if i = 0 then sh.name else sh.sargv.getD i [], 2)
  else if c = chr '$' then (decimal sh.pid, 2)
  else if c = chr '?' then
    (if sh.lastst < 0 then chr '-' :: decimal sh.lastst.natAbs else decimal sh.lastst.natAbs, 2)
  else if c = chr '{' then
    let name := s.tail.takeWhile (· ≠ chr '}')
    ((varGet sh name).getD [], name.length + 3)
  else
    let name := s.takeWhile vnameChar
    ((varGet sh name).getD [], name.length + 1)

inductive Part where
  | copied (s : List Byte)
  | replaced (ref value : List Byte)
  deriving DecidableEq

def Part.source : Part → List Byte
  | .copied s => s
  | .replaced ref _ => ref

def Part.out : Part → List Byte
  | .copied s => s
  | .replaced _ value => value

/-- The loop of `do_subst` from `sp` on; there is no result when `sp` runs past the NUL. -/
def substLoop (sh : Shell) (quot : Byte) : List Byte → Option (List Part)
  | [] => some []
  | c :: cs =>
    let quot := if quot = 0 ∧ c = apostrophe then c else if c = quot then 0 else quot
    if c = backslash ∧ cs ≠ [] then
      (substLoop sh quot cs.tail).map (.copied [c, peek cs] :: ·)
    else if quot = 0 ∧ c = chr '$' then
      let (value, rlen) := doSubst1 sh cs
      if rlen ≤ (c :: cs).length then
        -- `rlen` is not 0
        (substLoop sh quot (cs.drop (rlen - 1))).map (.replaced ((c :: cs).take rlen) value :: ·)
      else none
    else (substLoop sh quot cs).map (.copied [c] :: ·)
  termination_by s => s.length
  decreasing_by all_goals simp only [length_cons, length_tail, length_drop]; omega

def doSubst (sh : Shell) (src : List Byte) : Option (List Byte) :=
  (substLoop sh 0 src).map fun parts => parts.flatMap Part.out

example : doSubst ⟨[([chr 'x'], [chr '1', chr '2'])], [], [], 0, 0⟩ [chr 'a', chr '$', chr 'x', chr ' '] =
    some [chr 'a', chr '1', chr '2', chr ' '] := by decide +kernel

/- How `tokenize` reads the same line -/

/-- A `$` that is read so stands outside single quotes and not after an escaping backslash. -/
def Mode.live : Mode → Bool
  | .bare => true
  | .escaped => false
  | .quoted quot => quot != apostrophe

def Passed (r : Reader) : List Byte → Prop
  | [] => True
  | c :: cs => (c = chr '$' → r.mode.live = false) ∧ Passed (r.read c) cs

/-- A reference is replaced where the reader reads the `$` so, and is not passed by elsewhere. -/
def Part.Agrees (r : Reader) : Part → Prop
  | .copied s => Passed r s
  | .replaced _ _ => r.mode.live = true

def Agree (r : Reader) : List Part → Prop
  | [] => True
  | p :: ps => p.Agrees r ∧ Agree (r.reads p.source) ps

/-- `do_subst` and `tokenize` agree on the line: what is not replaced reaches the result as it is, and each `$` outside
    the references that are replaced is one that `tokenize` reads within single quotes or after a backslash. -/
def PassesAgree (sh : Shell) (line : List Byte) : Prop :=
  ∃ parts, substLoop sh 0 line = some parts ∧ parts.flatMap Part.source = line ∧ Agree .start parts

def Mode.single (m : Mode) : Bool := m = .quoted apostrophe

def Mode.next (m : Mode) (c : Byte) : Mode :=
  match m with
  | .bare => if c = backslash then .escaped else if c = apostrophe ∨ c = dquote then .quoted c else .bare
  | .escaped => .bare
  | .quoted quot => if c = quot then .bare else m

def refLength (s : List Byte) : Nat :=
  let c := peek s
  if isdigit c ∨ c = chr '$' ∨ c = chr '?' then 2
  else if c = chr '{' then (s.tail.takeWhile (· ≠ chr '}')).length + 3
  else (s.takeWhile vnameChar).length + 1

/-- The line is read with the quotes of `tokenize`. `do_subst` takes a backslash and the next character together, also
    within quotes. It misreads an apostrophe between double quotes that is not taken so, and one that ends single quotes
    and is; whether that has happened an odd number of times is carried along. Then there must be no `$`, and between
    double quotes no `$` is taken together with a backslash. A reference outside single quotes comes to its end; the
    quotes in its name are read by `tokenize` only. -/
def InStep (m : Mode) (odd : Bool) : List Byte → Prop
  | [] => True
  | c :: cs =>
    if c = backslash ∧ cs ≠ [] then
      (m = .quoted dquote → peek cs ≠ chr '$') ∧
        InStep ((m.next c).next (peek cs)) (odd ^^ (m.single && peek cs = apostrophe)) cs.tail
    else if c = chr '$' then
      odd = false ∧
        if m.single then InStep m odd cs
        else
          let after := ((c :: cs).take (refLength cs)).foldl Mode.next m
          refLength cs ≤ (c :: cs).length ∧ InStep after after.single (cs.drop (refLength cs - 1))
    else InStep (m.next c) (odd ^^ (m = .quoted dquote && c = apostrophe)) cs
  termination_by s => s.length
  decreasing_by all_goals simp only [length_cons, length_tail, length_drop]; omega

theorem doSubst1_length (sh : Shell) (s : List Byte) : (doSubst1 sh s).2 = refLength s := by
  simp only [doSubst1, refLength]
  split
  · simp_all
  · split
    · simp_all
    · split
      · simp_all
      · split <;> simp_all

theorem refLength_pos (s : List Byte) : 0 < refLength s := by
  simp only [refLength]
  split
  · omega
  · split <;> omega

theorem mode_read (r : Reader) (c : Byte) : (r.read c).mode = r.mode.next c := by
  obtain ⟨mode, w, ls⟩ := r
  cases mode with
  | bare =>
    by_cases escape : c = backslash
    · subst escape
      rfl
    by_cases quote : c = apostrophe ∨ c = dquote
    · obtain rfl | rfl := quote <;> rfl
    simp only [Reader.read, Reader.readBare, Mode.next, if_neg escape, if_neg quote]
    split
    · rfl
    · split <;> rfl
  | escaped => rfl
  | quoted quot =>
    simp only [Reader.read, Mode.next]
    split <;> rfl

theorem mode_reads (r : Reader) (s : List Byte) : (r.reads s).mode = s.foldl Mode.next r.mode := by
  induction s generalizing r with
  | nil => rfl
  | cons c cs ih => rw [reads_cons, ih, mode_read, foldl_cons]

def Mode.Steady (m : Mode) : Prop := m = .bare ∨ m = .quoted apostrophe ∨ m = .quoted dquote

def Mode.Possible (m : Mode) : Prop := m.Steady ∨ m = .escaped

theorem Mode.Possible.next {m : Mode} (possible : m.Possible) (c : Byte) :
    (m.next c).Possible ∧ (c ≠ backslash → (m.next c).Steady) := by
  obtain (rfl | rfl | rfl) | rfl := possible
  · by_cases escape : c = backslash
    · exact ⟨Or.inr (by rw [Mode.next, if_pos escape]), fun ne => (ne escape).elim⟩
    · have steady : (Mode.bare.next c).Steady := by
        rw [Mode.next, if_neg escape]
        by_cases quote : c = apostrophe ∨ c = dquote
        · rw [if_pos quote]
          obtain rfl | rfl := quote
          · exact Or.inr (Or.inl rfl)
          · exact Or.inr (Or.inr rfl)
        · rw [if_neg quote]
          exact Or.inl rfl
      exact ⟨Or.inl steady, fun _ => steady⟩
  · have steady : ((Mode.quoted apostrophe).next c).Steady := by
      rw [Mode.next]
      split
      · exact Or.inl rfl
      · exact Or.inr (Or.inl rfl)
    exact ⟨Or.inl steady, fun _ => steady⟩
  · have steady : ((Mode.quoted dquote).next c).Steady := by
      rw [Mode.next]
      split
      · exact Or.inl rfl
      · exact Or.inr (Or.inr rfl)
    exact ⟨Or.inl steady, fun _ => steady⟩
  · exact ⟨Or.inl (Or.inl rfl), fun _ => Or.inl rfl⟩

theorem Mode.Possible.nexts {m : Mode} (possible : m.Possible) (s : List Byte) : (s.foldl Mode.next m).Possible := by
  induction s generalizing m with
  | nil => exact possible
  | cons c cs ih => exact ih (possible.next c).1

theorem steady_append {m : Mode} (possible : m.Possible) (s : List Byte) (ne : c ≠ backslash) :
    ((s ++ [c]).foldl Mode.next m).Steady := by
  rw [foldl_append]
  exact ((possible.nexts s).next c).2 ne

theorem refLength_brace (cs : List Byte) :
    refLength (chr '{' :: cs) = (cs.takeWhile (· ≠ chr '}')).length + 3 := rfl

theorem refLength_name (other : ¬ (isdigit (peek s) ∨ peek s = chr '$' ∨ peek s = chr '?'))
    (noBrace : peek s ≠ chr '{') : refLength s = (s.takeWhile vnameChar).length + 1 := by
  simp only [refLength]
  rw [if_neg other, if_neg noBrace]

theorem reference_last (ends : refLength s ≤ s.length + 1) :
    ∃ front c, (chr '$' :: s).take (refLength s) = front ++ [c] ∧ c ≠ backslash := by
  by_cases two : isdigit (peek s) ∨ peek s = chr '$' ∨ peek s = chr '?'
  · cases s with
    | nil => exact absurd two (by decide)
    | cons c cs =>
      have length : refLength (c :: cs) = 2 := if_pos two
      refine ⟨[chr '$'], c, by rw [length]; rfl, ?_⟩
      rintro rfl
      have other : ¬ (isdigit backslash ∨ backslash = chr '$' ∨ backslash = chr '?') := by decide
      exact other two
  by_cases brace : peek s = chr '{'
  · cases s with
    | nil => nomatch brace
    | cons c cs =>
      obtain rfl : c = chr '{' := brace
      rw [refLength_brace] at ends ⊢
      rw [length_cons] at ends
      have split := takeWhile_append_dropWhile (p := (· ≠ chr '}')) (l := cs)
      have stop := List.head?_dropWhile_not (· ≠ chr '}') cs
      generalize cs.takeWhile (· ≠ chr '}') = name at *
      generalize cs.dropWhile (· ≠ chr '}') = rest at *
      subst split
      cases rest with
      | nil => simp at ends
      | cons x rest =>
        have close : x = chr '}' := by simpa using stop
        refine ⟨chr '$' :: chr '{' :: name, x, ?_, by rw [close]; decide⟩
        simp [take_append]
  · rw [refLength_name two brace]
    have split := takeWhile_append_dropWhile (p := vnameChar) (l := s)
    have named : ∀ c ∈ s.takeWhile vnameChar, vnameChar c = true := fun c mem => mem_takeWhile_imp mem
    generalize s.takeWhile vnameChar = name at *
    generalize s.dropWhile vnameChar = rest at *
    subst split
    have taken : (chr '$' :: (name ++ rest)).take (name.length + 1) = chr '$' :: name := by simp
    rw [taken]
    obtain rfl | ⟨front, c, rfl⟩ := eq_nil_or_concat name
    · exact ⟨[], chr '$', rfl, by decide⟩
    · refine ⟨chr '$' :: front, c, by simp, ?_⟩
      rintro rfl
      have other : vnameChar backslash = false := by decide
      exact absurd (named backslash (by simp)) (by rw [other]; decide)

def quotOf (m : Mode) (odd : Bool) : Byte := if m.single ^^ odd then apostrophe else 0

theorem quotOf_next (m : Mode) (odd : Bool) (c : Byte) :
    (if quotOf m odd = 0 ∧ c = apostrophe then c else if c = quotOf m odd then 0 else quotOf m odd) =
      if m.single ^^ odd ^^ (c = apostrophe : Bool) then apostrophe else 0 := by
  have nonzero : ¬ apostrophe = 0 := by decide
  unfold quotOf
  cases m.single ^^ odd with
  | false =>
    by_cases same : c = apostrophe
    · simp [same]
    · simp [same]
  | true =>
    rw [if_pos rfl, if_neg fun both => nonzero both.1]
    by_cases same : c = apostrophe
    · simp [same]
    · simp [same]

theorem quote_eq_zero : (if b then apostrophe else 0) = 0 ↔ b = false := by
  cases b <;> decide

theorem live_eq {m : Mode} (steady : m.Steady) : m.live = !m.single := by
  obtain rfl | rfl | rfl := steady <;> rfl

theorem pair_mode {m : Mode} (steady : m.Steady) (x : Byte) : ((m.next backslash).next x).Steady ∧
    ((m.next backslash).next x).single = (m.single ^^ (m.single && x = apostrophe)) ∧
    ((m.next backslash).live = false ↔ m ≠ .quoted dquote) := by
  obtain rfl | rfl | rfl := steady
  · exact ⟨Or.inl rfl, rfl, by decide⟩
  · have still : (Mode.quoted apostrophe).next backslash = .quoted apostrophe := rfl
    rw [still]
    by_cases close : x = apostrophe
    · subst close
      exact ⟨Or.inl rfl, rfl, by decide⟩
    · rw [Mode.next, if_neg close]
      exact ⟨Or.inr (Or.inl rfl), by simp [close], by decide⟩
  · have still : (Mode.quoted dquote).next backslash = .quoted dquote := rfl
    rw [still]
    by_cases close : x = dquote
    · subst close
      exact ⟨Or.inl rfl, rfl, by decide⟩
    · rw [Mode.next, if_neg close]
      exact ⟨Or.inr (Or.inr rfl), rfl, by decide⟩

theorem single_next {m : Mode} (steady : m.Steady) (c : Byte) :
    (m.next c).single = (m.single ^^ c = apostrophe ^^ (m = .quoted dquote && c = apostrophe)) := by
  obtain rfl | rfl | rfl := steady
  · by_cases escape : c = backslash
    · subst escape
      rfl
    · by_cases quote : c = apostrophe ∨ c = dquote
      · obtain rfl | rfl := quote <;> rfl
      · rw [Mode.next, if_neg escape, if_neg quote]
        rw [not_or] at quote
        simp [Mode.single, quote.1]
  · by_cases close : c = apostrophe
    · subst close
      rfl
    · simp [Mode.next, Mode.single, close]
  · by_cases close : c = dquote
    · subst close
      rfl
    · simp [Mode.next, Mode.single, close]

theorem next_dollar {m : Mode} (steady : m.Steady) : m.next (chr '$') = m := by
  obtain rfl | rfl | rfl := steady <;> rfl

theorem agree_cons : (∃ parts, o.map (p :: ·) = some parts ∧ Agree r parts) ↔
      p.Agrees r ∧ ∃ ps, o = some ps ∧ Agree (r.reads p.source) ps := by
  constructor
  · rintro ⟨parts, eq, agree⟩
    obtain ⟨ps, rfl, rfl⟩ := map_eq_some_iff.mp eq
    exact ⟨agree.1, ps, rfl, agree.2⟩
  · rintro ⟨first, ps, rfl, agree⟩
    exact ⟨p :: ps, rfl, first, agree⟩

theorem quotOf_eq (eq : b = (m.single ^^ odd)) : (if b then apostrophe else 0) = quotOf m odd := by
  rw [eq, quotOf]

theorem agree_iff (sh : Shell) {s : List Byte} {quot : Byte} {odd : Bool} {r : Reader} (steady : r.mode.Steady)
    (same : quot = quotOf r.mode odd) :
    (∃ parts, substLoop sh quot s = some parts ∧ Agree r parts) ↔ InStep r.mode odd s := by
  induction len : s.length using Nat.strong_induction_on generalizing s quot odd r with
  | _ n ih =>
    subst len same
    cases s with
    | nil =>
      rw [substLoop, InStep]
      exact ⟨fun _ => trivial, fun _ => ⟨[], rfl, trivial⟩⟩
    | cons c cs =>
      rw [substLoop, InStep]
      dsimp only
      rw [quotOf_next]
      by_cases pair : c = backslash ∧ cs ≠ []
      · rw [if_pos pair, if_pos pair, agree_cons]
        obtain ⟨rfl, more⟩ := pair
        obtain ⟨x, xs, rfl⟩ := exists_cons_of_ne_nil more
        obtain ⟨steady', single, live⟩ := pair_mode steady x
        have mode : (r.reads [backslash, x]).mode = (r.mode.next backslash).next x := mode_reads r _
        have passed : (Part.copied [backslash, x]).Agrees r ↔ (r.mode = .quoted dquote → x ≠ chr '$') := by
          have other : backslash ≠ chr '$' := by decide
          simp only [Part.Agrees, Passed, mode_read, live]
          grind
        have quot : (if r.mode.single ^^ odd ^^ (backslash = apostrophe : Bool) then apostrophe else 0) =
            quotOf (r.reads [backslash, x]).mode (odd ^^ (r.mode.single && x = apostrophe)) := by
          have other : (backslash = apostrophe : Bool) = false := by decide
          apply quotOf_eq
          rw [mode, single, other]
          cases r.mode.single <;> cases odd <;> simp
        have rest := ih xs.length (by simp) (by rwa [mode]) quot rfl
        rw [mode] at rest
        exact and_congr passed rest
      rw [if_neg pair, if_neg pair]
      by_cases dollar : c = chr '$'
      · rw [if_pos dollar]
        subst dollar
        have other : (chr '$' = apostrophe : Bool) = false := by decide
        rw [other, Bool.xor_false]
        by_cases bare : (r.mode.single ^^ odd) = false
        · rw [if_pos ⟨quote_eq_zero.mpr bare, rfl⟩, doSubst1_length]
          by_cases ends : refLength cs ≤ (chr '$' :: cs).length
          · rw [if_pos ends, agree_cons]
            obtain ⟨front, last, eq, ne⟩ := reference_last ends
            have mode : (r.reads ((chr '$' :: cs).take (refLength cs))).mode =
                ((chr '$' :: cs).take (refLength cs)).foldl Mode.next r.mode := mode_reads r _
            have steady' : (((chr '$' :: cs).take (refLength cs)).foldl Mode.next r.mode).Steady := by
              rw [eq]
              exact steady_append (Or.inl steady) front ne
            have quot : (if r.mode.single ^^ odd then apostrophe else 0) =
                quotOf (r.reads ((chr '$' :: cs).take (refLength cs))).mode
                  (((chr '$' :: cs).take (refLength cs)).foldl Mode.next r.mode).single := by
              apply quotOf_eq
              rw [mode, bare, Bool.xor_self]
            have rest := ih (cs.drop (refLength cs - 1)).length (by simp) (by rwa [mode]) quot rfl
            rw [mode] at rest
            have live : (Part.replaced ((chr '$' :: cs).take (refLength cs)) (doSubst1 sh cs).1).Agrees r ↔
                r.mode.single = false := by
              rw [Part.Agrees, live_eq steady, Bool.not_eq_true']
            rw [live, Part.source, rest]
            cases single : r.mode.single <;> cases odd <;> simp_all
          · rw [if_neg ends]
            cases single : r.mode.single <;> cases odd <;> simp_all
        · rw [if_neg (fun both => bare (quote_eq_zero.mp both.1)), agree_cons]
          have mode : (r.reads [chr '$']).mode = r.mode := (mode_reads r _).trans (next_dollar steady)
          have rest := ih cs.length (by simp) (by rwa [mode]) (@quotOf_eq _ odd _ (by rw [mode])) rfl
          have passed : (Part.copied [chr '$']).Agrees r ↔ r.mode.single = true := by
            rw [Part.Agrees, Passed, live_eq steady]
            simp [Passed]
          rw [passed, Part.source, rest, mode]
          cases single : r.mode.single <;> cases odd <;> simp_all
      · rw [if_neg dollar, if_neg (fun both => dollar both.2), agree_cons]
        have passed : (Part.copied [c]).Agrees r := ⟨fun eq => (dollar eq).elim, trivial⟩
        rw [and_iff_right passed]
        by_cases last : cs = []
        · subst last
          rw [substLoop, InStep]
          exact ⟨fun _ => trivial, fun _ => ⟨[], rfl, trivial⟩⟩
        · have mode : (r.reads [c]).mode = r.mode.next c := mode_reads r _
          have steady' := (Mode.Possible.next (Or.inl steady) c).2 fun escape => pair ⟨escape, last⟩
          have quot : (if r.mode.single ^^ odd ^^ (c = apostrophe : Bool) then apostrophe else 0) =
              quotOf (r.reads [c]).mode (odd ^^ (r.mode = .quoted dquote && c = apostrophe)) := by
            apply quotOf_eq
            rw [mode, single_next steady]
            cases r.mode.single <;> cases odd <;> cases decide (c = apostrophe) <;> simp
          have rest := ih cs.length (by simp) (by rwa [mode]) quot rfl
          rwa [mode] at rest

theorem substLoop_source (sh : Shell)
    (done : substLoop sh quot s = some parts) : parts.flatMap Part.source = s := by
  induction len : s.length using Nat.strong_induction_on generalizing s quot parts with
  | _ n ih =>
    subst len
    cases s with
    | nil =>
      rw [substLoop] at done
      obtain rfl := some.inj done
      rfl
    | cons c cs =>
      rw [substLoop] at done
      dsimp only at done
      generalize (if quot = 0 ∧ c = apostrophe then c else if c = quot then 0 else quot) = quot' at done
      split at done
      · rename_i pair
        obtain ⟨x, xs, rfl⟩ := exists_cons_of_ne_nil pair.2
        obtain ⟨ps, rest, rfl⟩ := map_eq_some_iff.mp done
        rw [flatMap_cons, ih xs.length (by simp) rest rfl]
        rfl
      · split at done
        · split at done
          · obtain ⟨ps, rest, rfl⟩ := map_eq_some_iff.mp done
            rw [flatMap_cons, ih (cs.drop _).length (by simp) rest rfl, Part.source, doSubst1_length]
            obtain ⟨k, eq⟩ := Nat.exists_eq_succ_of_ne_zero (refLength_pos cs).ne'
            rw [eq, take_succ_cons, Nat.succ_sub_one, cons_append, take_append_drop]
          · nomatch done
        · obtain ⟨ps, rest, rfl⟩ := map_eq_some_iff.mp done
          rw [flatMap_cons, ih cs.length (by simp) rest rfl]
          rfl

/-- When the two passes agree on a line. -/
theorem passes_agree_iff (sh : Shell) (line : List Byte) : PassesAgree sh line ↔ InStep .bare false line := by
  have iff := @agree_iff sh line 0 false .start (Or.inl rfl) rfl
  constructor
  · rintro ⟨parts, done, _, agree⟩
    exact iff.mp ⟨parts, done, agree⟩
  · intro inStep
    obtain ⟨parts, done, agree⟩ := iff.mpr inStep
    exact ⟨parts, done, substLoop_source sh done, agree⟩

/-- `"it's $x"` -/
theorem passes_not_agree :
    ¬ PassesAgree ⟨[], [], [], 1, 0⟩ (['"', 'i', 't', '\'', 's', ' ', '$', 'x', '"'].map chr) := by
  rintro ⟨parts, done, _, agree⟩
  have copied : substLoop ⟨[], [], [], 1, 0⟩ 0 (['"', 'i', 't', '\'', 's', ' ', '$', 'x', '"'].map chr) =
      some (['"', 'i', 't', '\'', 's', ' ', '$', 'x', '"'].map fun c => .copied [chr c]) := by decide +kernel
  obtain rfl := some.inj (done.symm.trans copied)
  have hidden := agree.2.2.2.2.2.2.1.1 rfl
  revert hidden
  decide

end Sh
