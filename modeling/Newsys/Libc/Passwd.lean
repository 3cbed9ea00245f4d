import Newsys.Lib.Text
import Newsys.Libc.Vfprintf

/- The user database (lib/passwd/passwd.c, fgets of lib/stdio/putget.c). File operations do not fail: the new file is
   written and then takes the place of the old one by two renames. -/
namespace Passwd
open Bytes Text Ints Kern List Nat
open Libc (chr peek decimal strtoul)

def nl : Byte := chr '\n'

def colon : Byte := chr ':'

abbrev passwdBuf : Nat := 4096

/-- The loop of `fgets` with room for that many characters more; a NUL is skipped. -/
def fgetsFrom : Nat → List Byte → List Byte → Option (List Byte) × List Byte
  | 0, _, f => (none, f)
  | _ + 1, s, [] => (if s = [] then none else some s, [])
  | n + 1, s, c :: f =>
    if c = 0 then fgetsFrom (n + 1) s f
    else if c = nl then (some (s ++ [c]), f)
    else fgetsFrom n (s ++ [c]) f

def fgets (size : Nat) (f : List Byte) : Option (List Byte) × List Byte := fgetsFrom (size - 1) [] f

/-- What `while (get_line(buf, sizeof buf, f))` goes through; `get_line` skips empty lines. -/
def linesFrom : Nat → List Byte → List (List Byte)
  | 0, _ => []
  | n + 1, f =>
    match fgets passwdBuf f with
    | (none, _) => []
    | (some buf, f) =>
      let buf := buf.takeWhile (· ≠ nl)
      if buf = [] then linesFrom n f else buf :: linesFrom n f

def lines (f : List Byte) : List (List Byte) := linesFrom (f.length + 1) f

/-- `struct passwd`; the password is not kept. -/
structure Pwent where
  name : List Byte
  uid : Int
  gid : Int
  gecos : List Byte
  dir : List Byte
  shell : List Byte
  deriving DecidableEq

def idField (m : Machine) (p : List Byte) : Option (Int × List Byte) :=
  let id := strtoul m p 0
  match id.endptr with
  | some (c :: p) => if c = colon then some (int id.value, p) else none
  | _ => none

def parseFields (m : Machine) (s : List Byte) : Option Pwent := do
  let (name, p) ← cut colon s
  let (_, p) ← cut colon p
  let (uid, p) ← idField m p
  let (gid, p) ← idField m p
  let (gecos, p) ← cut colon p
  let (dir, shell) ← cut colon p
  pure { name := name, uid := uid, gid := gid, gecos := gecos, dir := dir, shell := shell }

inductive Stop where
  | fault
  | fail

/-- `p = strchr(p, '\n')` reads `p` before it is set; whether nothing comes of it depends on what was there. -/
def parsePwent (m : Machine) (harmless : Bool) (s : List Byte) : Except Stop Pwent :=
  if harmless then
    match parseFields m s with
    | none => .error .fail
    | some pw => .ok pw
  else .error .fault

def li (n : Int) : List Byte := if n < 0 then chr '-' :: decimal n.natAbs else decimal n.natAbs

def Pwent.line (pw : Pwent) : List Byte :=
  pw.name ++ colon :: (chr 'x' :: colon :: (li pw.uid ++ colon :: (li pw.gid ++ colon :: (pw.gecos ++ colon ::
    (pw.dir ++ colon :: pw.shell)))))

/-- The loop of `USER_MOD_FUNC` from the call of `parse_pwent` with that number on: what is in the new file, and
    whether the user was found. -/
def userModLoop (m : Machine) (harmless : Nat → Bool) (set : Pwent → Pwent) (name : List Byte) :
    Nat → List (List Byte) → List Byte × Bool → Except Stop (List Byte × Bool)
  | _, [], s => .ok s
  | k, buf :: bufs, (fo, found) =>
    match parsePwent m (harmless k) buf with
    | .error stop => .error stop
    | .ok pw =>
      if pw.name = name then userModLoop m harmless set name (k + 1) bufs (fo ++ ((set pw).line ++ [nl]), true)
      else userModLoop m harmless set name (k + 1) bufs (fo ++ (pw.line ++ [nl]), found)

/-- `USER_MOD_FUNC`: the contents of PASSWD_PATH and the value that is returned, or nothing if the behaviour is
    undefined. -/
def userMod (m : Machine) (euid : Int) (harmless : Nat → Bool) (set : Pwent → Pwent) (name passwd : List Byte) :
    Option (List Byte × Int) :=
  if euid ≠ 0 then some (passwd, -1)
  else
    match userModLoop m harmless set name 0 (lines passwd) ([], false) with
    | .error .fault => none
    | .error .fail => some (passwd, -1)
    | .ok (fo, found) => some (fo, if found then 0 else -1)

def entryOf (name buf : List Byte) : Bool := (name ++ [colon]).isPrefixOf buf

def withoutEntry (name f : List Byte) : List Byte := unlines nl ((lines f).filter fun buf => !entryOf name buf)

/-- A line that `get_line` can return, but for its length. -/
structure Clean (l : List Byte) : Prop where
  nonempty : l ≠ []
  noNul : 0 ∉ l
  noNl : nl ∉ l

/-- A line that fits in the buffer, with the newline and the NUL. -/
def Short (l : List Byte) : Prop := l.length + 2 ≤ passwdBuf

instance (l : List Byte) : Decidable (Short l) := inferInstanceAs (Decidable (_ ≤ _))

variable {s : List Byte}

theorem not_mem_snoc (absent : x ∉ s) (other : c ≠ x) : x ∉ s ++ [c] := by
  intro mem
  rcases mem_append.1 mem with mem | mem
  · exact absent mem
  · exact other (mem_singleton.1 mem).symm

theorem takeWhile_nl (noNl : nl ∉ s) : (s ++ [nl]).takeWhile (· ≠ nl) = s := by
  have all : ∀ x ∈ s, decide (x ≠ nl) = true := fun x mem => decide_eq_true fun eq => noNl (eq ▸ mem)
  rw [takeWhile_append_of_pos all, takeWhile_cons_of_neg (by simp), append_nil]

variable {l : List Byte} {n : Nat}

theorem fgetsFrom_line (noNul : 0 ∉ l) (noNl : nl ∉ l) (room : l.length < n) (s f : List Byte) :
    fgetsFrom n s (l ++ nl :: f) = (some (s ++ l ++ [nl]), f) := by
  induction l generalizing n s with
  | nil =>
    obtain ⟨n, rfl⟩ := exists_eq_succ_of_ne_zero (ne_zero_of_lt room)
    rw [nil_append, fgetsFrom, if_neg (by decide), if_pos rfl, append_nil]
  | cons c l ih =>
    rw [mem_cons, not_or] at noNul noNl
    obtain ⟨n, rfl⟩ := exists_eq_succ_of_ne_zero (ne_zero_of_lt room)
    rw [cons_append, fgetsFrom, if_neg (Ne.symm noNul.1), if_neg (Ne.symm noNl.1),
      ih noNul.2 noNl.2 (lt_of_succ_lt_succ room), append_assoc s [c] l]
    rfl

theorem fgetsFrom_long (noNul : 0 ∉ l) (noNl : nl ∉ l) (long : n ≤ l.length) (s f : List Byte) :
    (fgetsFrom n s (l ++ f)).1 = none := by
  induction l generalizing n s with
  | nil =>
    rw [le_zero.1 long, fgetsFrom]
  | cons c l ih =>
    rw [mem_cons, not_or] at noNul noNl
    cases n with
    | zero => rw [fgetsFrom]
    | succ n =>
      rw [cons_append, fgetsFrom, if_neg (Ne.symm noNul.1), if_neg (Ne.symm noNl.1)]
      exact ih noNul.2 noNl.2 (le_of_succ_le_succ long) _

variable {f : List Byte}

theorem fgetsFrom_some (noNul : 0 ∉ s) (noNl : nl ∉ s) (run : fgetsFrom n s f = (some l, rest)) :
    0 ∉ l ∧ (l.takeWhile (· ≠ nl)).length < s.length + n ∧ rest.length < f.length + s.length := by
  induction f generalizing n s with
  | nil =>
    cases n with
    | zero => cases run
    | succ n =>
      rw [fgetsFrom] at run
      by_cases empty : s = []
      · rw [if_pos empty] at run
        cases run
      · rw [if_neg empty] at run
        cases run
        have le := (takeWhile_sublist (l := l) fun x => decide (x ≠ nl)).length_le
        have pos := length_pos_of_ne_nil empty
        exact ⟨noNul, by omega, by simpa using pos⟩
  | cons c f ih =>
    cases n with
    | zero => cases run
    | succ n =>
      rw [fgetsFrom] at run
      rw [length_cons]
      by_cases nul : c = 0
      · rw [if_pos nul] at run
        obtain ⟨clean, fits, read⟩ := ih noNul noNl run
        exact ⟨clean, fits, by omega⟩
      · rw [if_neg nul] at run
        by_cases isNl : c = nl
        · rw [if_pos isNl] at run
          cases run
          rw [isNl, takeWhile_nl noNl]
          exact ⟨not_mem_snoc noNul (by decide), by omega, by omega⟩
        · rw [if_neg isNl] at run
          obtain ⟨clean, fits, read⟩ := ih (not_mem_snoc noNul nul) (not_mem_snoc noNl isNl) run
          rw [length_append, length_singleton] at fits read
          exact ⟨clean, by omega, by omega⟩

theorem fgets_some (run : fgets passwdBuf f = (some l, rest)) :
    0 ∉ l ∧ Short (l.takeWhile (· ≠ nl)) ∧ rest.length < f.length := by
  obtain ⟨clean, fits, read⟩ := fgetsFrom_some not_mem_nil not_mem_nil run
  rw [length_nil] at fits read
  exact ⟨clean, by rw [Short]; omega, by omega⟩

theorem linesFrom_eq (enough : f.length < n) : linesFrom n f = lines f := by
  suffices both : ∀ (m n : Nat) (f : List Byte), f.length < m → f.length < n → linesFrom m f = linesFrom n f from
    both _ _ f enough (lt_succ_self _)
  intro m
  induction m with
  | zero => exact fun _ f lt => absurd lt (not_lt_zero _)
  | succ m ih =>
    intro n f _ lt
    obtain ⟨n, rfl⟩ := exists_eq_succ_of_ne_zero (ne_zero_of_lt lt)
    rw [linesFrom, linesFrom]
    cases run : fgets passwdBuf f with
    | mk got rest =>
      cases got with
      | none => rfl
      | some buf =>
        obtain ⟨_, _, read⟩ := fgets_some run
        dsimp only
        rw [ih n rest (by omega) (by omega)]

theorem lines_line (clean : Clean l) (short : Short l) (f : List Byte) : lines (l ++ nl :: f) = l :: lines f := by
  have run : fgets passwdBuf (l ++ nl :: f) = (some (l ++ [nl]), f) := by
    rw [Short] at short
    exact fgetsFrom_line clean.noNul clean.noNl (by omega) [] f
  rw [lines, linesFrom, run]
  dsimp only
  rw [takeWhile_nl clean.noNl, if_neg clean.nonempty, linesFrom_eq (by simp; omega)]

theorem lines_long (clean : Clean l) (long : ¬ Short l) (f : List Byte) : lines (l ++ f) = [] := by
  have run : (fgets passwdBuf (l ++ f)).1 = none := by
    rw [Short] at long
    exact fgetsFrom_long clean.noNul clean.noNl (by omega) [] f
  rw [lines, linesFrom]
  cases got : fgets passwdBuf (l ++ f) with
  | mk line rest =>
    rw [got] at run
    dsimp only at run
    rw [run]

theorem lines_append (clean : ∀ l ∈ ls, Clean l ∧ Short l) (f : List Byte) :
    lines (unlines nl ls ++ f) = ls ++ lines f := by
  induction ls with
  | nil => rfl
  | cons l ls ih =>
    obtain ⟨first, short⟩ := clean l (mem_cons_self ..)
    rw [unlines_cons, append_assoc, cons_append, lines_line first short,
      ih fun x mem => clean x (mem_cons_of_mem l mem)]
    rfl

theorem lines_clean (mem : l ∈ lines f) : Clean l ∧ Short l := by
  suffices all : ∀ (n : Nat) (f : List Byte), l ∈ linesFrom n f → Clean l ∧ Short l from all _ f mem
  intro n
  induction n with
  | zero => exact fun f mem => absurd mem not_mem_nil
  | succ n ih =>
    intro f mem
    rw [linesFrom] at mem
    cases run : fgets passwdBuf f with
    | mk got rest =>
      cases got with
      | none =>
        rw [run] at mem
        cases mem
      | some buf =>
        obtain ⟨noNul, short, _⟩ := fgets_some run
        rw [run] at mem
        dsimp only at mem
        by_cases empty : buf.takeWhile (· ≠ nl) = []
        · rw [if_pos empty] at mem
          exact ih rest mem
        · rw [if_neg empty] at mem
          rcases mem_cons.1 mem with rfl | mem
          · refine ⟨⟨empty, fun nul => noNul ((takeWhile_sublist _).subset nul), fun here => ?_⟩, short⟩
            have other := mem_takeWhile_imp here
            exact absurd rfl (of_decide_eq_true other)
          · exact ih rest mem

theorem lines_unlines (clean : ∀ l ∈ ls, Clean l) :
    lines (unlines nl ls) = ls.takeWhile fun l => decide (Short l) := by
  induction ls with
  | nil => rfl
  | cons l ls ih =>
    have first := clean l (mem_cons_self ..)
    rw [unlines_cons]
    by_cases short : Short l
    · rw [lines_line first short, ih fun x mem => clean x (mem_cons_of_mem l mem),
        takeWhile_cons_of_pos (by simpa using short)]
    · rw [lines_long first short, takeWhile_cons_of_neg (by simpa using short)]

theorem digit_chars : ∀ c : Byte, Libc.isdigit c = true → Libc.isspace c = false ∧ c ≠ 0 ∧ c ≠ nl ∧ c ≠ colon := by
  decide

theorem strtoul_decimal (m : Machine) (lt : n < 2 ^ 31) (p : List Byte) :
    strtoul m (decimal n ++ colon :: p) 0 = ⟨n, some (colon :: p), false⟩ := by
  have wide : n < 2 ^ Libc.longBits m := by cases m <;> simp only [Libc.longBits] <;> omega
  have ends : ∀ base, Libc.Ends base (colon :: p) := by
    intro base c mem d digit
    cases mem
    cases digit
  rw [strtoul, Libc.strtou, decimal]
  by_cases zero : n = 0
  · rw [if_pos zero, zero]
    have front : ([chr '0'] ++ colon :: p).dropWhile Libc.isspace = chr '0' :: colon :: p :=
      dropWhile_cons_of_neg (by decide)
    have octal : Libc.basePrefix 0 (chr '0' :: colon :: p) = (8, colon :: p) := by
      have plain : Libc.startsHex (chr '0' :: colon :: p) = false := by
        rw [Libc.startsHex]
        simp
        decide
      rw [Libc.basePrefix, if_pos rfl, if_pos (show peek (chr '0' :: colon :: p) = chr '0' from rfl), plain]
      rfl
    rw [front, octal]
    exact Libc.scanDigits_ends (ends 8)
  · rw [if_neg zero]
    have small : ∀ d ∈ (Nat.digits 10 n).reverse, d < 10 :=
      fun d mem => digits_lt_base (by decide) (mem_reverse.1 mem)
    have value : (Nat.digits 10 n).reverse.foldl (fun v d => v * 10 + d) 0 = n := Libc.valueOf_digits 10 n
    have digits : Libc.numeral 10 n ≠ [] := by simpa [Libc.numeral, digits_eq_nil_iff_eq_zero] using zero
    obtain ⟨c, cs, eq⟩ := exists_cons_of_ne_nil digits
    obtain ⟨digit, other⟩ := Libc.numeral_head n c (by rw [eq]; rfl)
    have front : (Libc.numeral 10 n ++ colon :: p).dropWhile Libc.isspace = Libc.numeral 10 n ++ colon :: p := by
      rw [eq, cons_append]
      exact dropWhile_cons_of_neg (by simp [digit_chars c digit])
    have base : Libc.basePrefix 0 (Libc.numeral 10 n ++ colon :: p) = (10, Libc.numeral 10 n ++ colon :: p) := by
      rw [Libc.basePrefix, if_pos rfl, eq, cons_append,
        if_neg (show peek (c :: (cs ++ colon :: p)) ≠ chr '0' from other)]
    rw [front, base]
    dsimp only
    rw [Libc.numeral, ← map_reverse, Libc.scanDigits_fold (by decide) (by decide) small (by rw [value]; exact wide),
      value]
    exact Libc.scanDigits_ends (ends 10)

theorem idField_li (m : Machine) {id : Int} (fits : Fits 32 id) (p : List Byte) :
    idField m (li id ++ colon :: p) = if id < 0 then none else some (id, p) := by
  rw [idField, li]
  by_cases neg : id < 0
  · rw [if_pos neg, if_pos neg, cons_append]
    have front : ∀ s, (chr '-' :: s).dropWhile Libc.isspace = chr '-' :: s :=
      fun s => dropWhile_cons_of_neg (by decide)
    have stop : ∀ s, strtoul m (chr '-' :: s) 0 = ⟨0, some (chr '-' :: s), false⟩ := by
      intro s
      rw [strtoul, Libc.strtou, front, Libc.basePrefix, if_pos rfl,
        if_neg (show peek (chr '-' :: s) ≠ chr '0' from by change chr '-' ≠ chr '0'; decide)]
      rfl
    rw [stop]
    exact if_neg (by decide)
  · rw [if_neg neg, if_neg neg, strtoul_decimal m (by obtain ⟨_, _⟩ := fits; omega)]
    have whole : int (id.natAbs : Nat) = id := by
      obtain ⟨_, _⟩ := fits
      rw [int_eq (by omega) (by omega)]
      omega
    dsimp only
    rw [if_pos rfl, whole]

structure Field (s : List Byte) : Prop where
  noNul : 0 ∉ s
  noNl : nl ∉ s
  noColon : colon ∉ s

instance (s : List Byte) : Decidable (Field s) :=
  decidable_of_iff (0 ∉ s ∧ nl ∉ s ∧ colon ∉ s) ⟨fun h => ⟨h.1, h.2.1, h.2.2⟩, fun h => ⟨h.1, h.2, h.3⟩⟩

theorem field_li (id : Int) : Field (li id) := by
  have decimal : ∀ n, ∀ c ∈ decimal n, Libc.isdigit c = true := by
    intro n c mem
    rw [Libc.decimal] at mem
    by_cases zero : n = 0
    · rw [if_pos zero, mem_singleton] at mem
      rw [mem]
      decide
    · rw [if_neg zero, Libc.numeral, mem_reverse, mem_map] at mem
      obtain ⟨d, mem, rfl⟩ := mem
      have lt : d < 10 := digits_lt_base (by decide) mem
      interval_cases d <;> decide
  have chars : ∀ c ∈ li id, c ≠ 0 ∧ c ≠ nl ∧ c ≠ colon := by
    intro c mem
    rw [li] at mem
    split at mem
    · rcases mem_cons.1 mem with rfl | mem
      · decide
      · exact (digit_chars c (decimal _ c mem)).2
    · exact (digit_chars c (decimal _ c mem)).2
  exact ⟨fun mem => (chars 0 mem).1 rfl, fun mem => (chars nl mem).2.1 rfl, fun mem => (chars colon mem).2.2 rfl⟩

structure Pwent.Good (pw : Pwent) : Prop where
  name : Field pw.name
  uid : Fits 32 pw.uid
  gid : Fits 32 pw.gid
  gecos : Field pw.gecos
  dir : Field pw.dir
  shell : Field pw.shell

def Pwent.Natural (pw : Pwent) : Prop := 0 ≤ pw.uid ∧ 0 ≤ pw.gid

instance (pw : Pwent) : Decidable pw.Natural := inferInstanceAs (Decidable (_ ∧ _))

variable {pw : Pwent}

theorem parseFields_line (m : Machine) (good : pw.Good) :
    parseFields m pw.line = if pw.Natural then some pw else none := by
  have password : colon ∉ [chr 'x'] := by decide
  rw [parseFields, Pwent.line, cut_append _ good.name.noColon]
  simp only [Option.bind_eq_bind, Option.bind_some]
  rw [show chr 'x' :: colon :: (li pw.uid ++ colon :: (li pw.gid ++ colon :: (pw.gecos ++ colon ::
    (pw.dir ++ colon :: pw.shell)))) = [chr 'x'] ++ colon :: _ from rfl, cut_append _ password]
  simp only [Option.bind_some]
  rw [idField_li m good.uid]
  by_cases uid : pw.uid < 0
  · rw [if_pos uid, if_neg fun natural => absurd natural.1 (not_le.2 uid)]
    rfl
  · rw [if_neg uid]
    simp only [Option.bind_some]
    rw [idField_li m good.gid]
    by_cases gid : pw.gid < 0
    · rw [if_pos gid, if_neg fun natural => absurd natural.2 (not_le.2 gid)]
      rfl
    · rw [if_neg gid, if_pos ⟨not_lt.1 uid, not_lt.1 gid⟩]
      simp only [Option.bind_some]
      rw [cut_append _ good.gecos.noColon]
      simp only [Option.bind_some]
      rw [cut_append _ good.dir.noColon]
      rfl

theorem not_mem_line (plain : x ≠ colon ∧ x ≠ chr 'x') (absent : ∀ s, Field s → x ∉ s)
    (good : pw.Good) : x ∉ pw.line := by
  have fields := And.intro (absent _ good.name) (absent _ good.shell)
  simp only [Pwent.line, mem_append, mem_cons, not_or]
  exact ⟨fields.1, plain.1, plain.2, plain.1, absent _ (field_li _), plain.1, absent _ (field_li _), plain.1,
    absent _ good.gecos, plain.1, absent _ good.dir, plain.1, fields.2⟩

theorem clean_line (good : pw.Good) : Clean pw.line where
  nonempty := by simp [Pwent.line]
  noNul := not_mem_line (by decide) (fun _ field => field.noNul) good
  noNl := not_mem_line (by decide) (fun _ field => field.noNl) good

inductive Edit where
  | home (s : List Byte)
  | shell (s : List Byte)
  | group (gid : Int)

def Edit.set : Edit → Pwent → Pwent
  | .home s, pw => { pw with dir := s }
  | .shell s, pw => { pw with shell := s }
  | .group gid, pw => { pw with gid := gid }

/-- A value of the parameter's type: a string ends at its NUL, and a `gid_t` has 32 bits. -/
def Edit.Typed : Edit → Prop
  | .home s => 0 ∉ s
  | .shell s => 0 ∉ s
  | .group gid => Fits 32 gid

def Edit.Plain : Edit → Prop
  | .home s => nl ∉ s ∧ colon ∉ s
  | .shell s => nl ∉ s ∧ colon ∉ s
  | .group _ => True

structure Etc where
  passwd : List Byte
  secret : List Byte

inductive Call where
  | set (name : List Byte) (edit : Edit)
  | deluser (name : List Byte)

def setUser (m : Machine) (euid : Int) (harmless : Nat → Bool) (name : List Byte) (edit : Edit) (etc : Etc) :
    Option (Etc × Int) :=
  (userMod m euid harmless edit.set name etc.passwd).map fun (passwd, r) => ({ etc with passwd := passwd }, r)

def deluser (euid : Int) (name : List Byte) (etc : Etc) : Etc × Int :=
  if euid ≠ 0 then (etc, -1)
  else ({ secret := withoutEntry name etc.secret, passwd := withoutEntry name etc.passwd }, 0)

def run (m : Machine) (euid : Int) (harmless : Nat → Bool) (etc : Etc) : Call → Option (Etc × Int)
  | .set name edit => setUser m euid harmless name edit etc
  | .deluser name => some (deluser euid name etc)

def render (recs : List Pwent) : List Byte := unlines nl (recs.map Pwent.line)

def Call.result (recs : List Pwent) : Call → List Pwent
  | .set name edit => recs.map fun pw => if pw.name = name then edit.set pw else pw
  | .deluser name => recs.filter fun pw => pw.name ≠ name

/-- The call refuses, or only the target has changed, in the field that was named. -/
def Kept (recs : List Pwent) (call : Call) (passwd : List Byte) (r : Int) : Prop :=
  (r = -1 ∧ passwd = render recs) ∨ (r = 0 ∧ (∀ pw ∈ call.result recs, pw.Good) ∧ passwd = render (call.result recs))

/-- When a call keeps what it is not about. Setting a field: every record up to the first that is refused fits in the
    buffer and is parsed without harm; and unless one is refused, a user who is there gets a value that is one field.
    Deleting a user: no record of another user starts with the name and a colon, and every record fits in the buffer
    but those behind the last one of another user. -/
def Safe (harmless : Nat → Bool) (recs : List Pwent) : Call → Prop
  | .set name edit =>
    (∀ i pw, recs[i]? = some pw → (∀ j q, j < i → recs[j]? = some q → q.Natural) → Short pw.line ∧ harmless i = true) ∧
      ((∀ pw ∈ recs, pw.Natural) → (∃ pw ∈ recs, pw.name = name) → edit.Plain)
  | .deluser name =>
    (∀ pw ∈ recs, pw.name ≠ name → entryOf name pw.line = false) ∧
      ∀ pw behind, (pw :: behind) <:+ recs → (∃ q ∈ pw :: behind, q.name ≠ name) → Short pw.line

section Frame
variable {m : Machine} {harmless : Nat → Bool} {recs : List Pwent}

theorem lines_render (good : ∀ pw ∈ recs, pw.Good) :
    lines (render recs) = (recs.takeWhile fun pw => decide (Short pw.line)).map Pwent.line := by
  rw [render, lines_unlines, takeWhile_map]
  · rfl
  · intro l mem
    obtain ⟨pw, inside, rfl⟩ := mem_map.1 mem
    exact clean_line (good pw inside)

theorem render_inj (goodA : ∀ pw ∈ a, pw.Good) (goodB : ∀ pw ∈ b, pw.Good)
    (eq : render a = render b) : a.map Pwent.line = b.map Pwent.line := by
  refine unlines_inj (fun l mem => ?_) (fun l mem => ?_) eq
  · obtain ⟨pw, inside, rfl⟩ := mem_map.1 mem
    exact (clean_line (goodA pw inside)).noNl
  · obtain ⟨pw, inside, rfl⟩ := mem_map.1 mem
    exact (clean_line (goodB pw inside)).noNl

def printed (set : Pwent → Pwent) (name : List Byte) (pw : Pwent) : Pwent := if pw.name = name then set pw else pw

variable {set : Pwent → Pwent} {name : List Byte} {pre : List Pwent}

theorem loop_append (good : ∀ pw ∈ pre, pw.Good)
    (fine : ∀ i pw, pre[i]? = some pw → pw.Natural ∧ harmless (k + i) = true) :
    userModLoop m harmless set name k (pre.map Pwent.line ++ bufs) (fo, found) =
      userModLoop m harmless set name (k + pre.length) bufs
        (fo ++ render (pre.map (printed set name)), found || pre.any fun pw => decide (pw.name = name)) := by
  induction pre generalizing k fo found with
  | nil => simp [render]
  | cons pw pre ih =>
    obtain ⟨natural, here⟩ := fine 0 pw rfl
    rw [add_zero] at here
    have parsed : parsePwent m (harmless k) pw.line = .ok pw := by
      rw [parsePwent, here, if_pos rfl, parseFields_line m (good pw (mem_cons_self ..)), if_pos natural]
    have rest := fun fo found => @ih (k + 1) fo found
      (fun x mem => good x (mem_cons_of_mem pw mem))
      (fun i x at_i => by
        have := fine (i + 1) x at_i
        rwa [← add_assoc, add_right_comm] at this)
    rw [map_cons, cons_append, userModLoop, parsed]
    dsimp only
    rw [rest, rest, length_cons, add_right_comm k 1, ← add_assoc]
    by_cases target : pw.name = name
    · rw [if_pos target]
      simp [render, printed, target]
    · rw [if_neg target]
      simp [render, printed, target]

def Passes (harmless : Nat → Bool) (i : Nat) (pw : Pwent) : Prop :=
  pw.Natural ∧ Short pw.line ∧ harmless i = true

theorem scan (harmless : Nat → Bool) (recs : List Pwent) (k : Nat) :
    (∀ i pw, recs[i]? = some pw → Passes harmless (k + i) pw) ∨
      ∃ pre pw behind, recs = pre ++ pw :: behind ∧ (∀ i q, pre[i]? = some q → Passes harmless (k + i) q) ∧
        ¬ Passes harmless (k + pre.length) pw := by
  induction recs generalizing k with
  | nil => exact .inl nofun
  | cons pw recs ih =>
    by_cases passes : Passes harmless k pw
    · have shift : ∀ l : List Pwent, (∀ i q, l[i]? = some q → Passes harmless (k + 1 + i) q) →
          ∀ i q, (pw :: l)[i]? = some q → Passes harmless (k + i) q := by
        intro l all i q at_i
        cases i with
        | zero =>
          cases at_i
          exact passes
        | succ i =>
          have := all i q at_i
          rwa [add_assoc, add_comm 1 i] at this
      rcases ih (k + 1) with all | ⟨pre, q, behind, rfl, all, not⟩
      · exact .inl (shift recs all)
      · refine .inr ⟨pw :: pre, q, behind, rfl, shift pre all, ?_⟩
        rwa [length_cons, add_comm pre.length 1, ← add_assoc]
    · exact .inr ⟨[], pw, recs, rfl, nofun, passes⟩

variable {edit : Edit} {pw : Pwent}

theorem good_set (good : pw.Good) (typed : edit.Typed) : (edit.set pw).Good ↔ edit.Plain := by
  cases edit with
  | home s =>
    refine ⟨fun new => ⟨new.dir.noNl, new.dir.noColon⟩, fun plain => { good with dir := ⟨typed, plain.1, plain.2⟩ }⟩
  | shell s =>
    refine ⟨fun new => ⟨new.shell.noNl, new.shell.noColon⟩, fun plain => { good with shell := ⟨typed, plain.1, plain.2⟩ }⟩
  | group gid => exact ⟨fun _ => trivial, fun _ => { good with gid := typed }⟩

theorem good_printed (good : ∀ pw ∈ recs, pw.Good) (typed : edit.Typed) :
    (∀ pw ∈ recs.map (printed edit.set name), pw.Good) ↔ ((∃ pw ∈ recs, pw.name = name) → edit.Plain) := by
  constructor
  · rintro all ⟨pw, mem, target⟩
    have new := all _ (mem_map_of_mem mem)
    rw [printed, if_pos target] at new
    exact (good_set (good pw mem) typed).1 new
  · intro plain q mem
    obtain ⟨pw, inside, rfl⟩ := mem_map.1 mem
    rw [printed]
    split
    · rename_i target
      exact (good_set (good pw inside) typed).2 (plain ⟨pw, inside, target⟩)
    · exact good pw inside

theorem printed_absent (absent : ¬ ∃ pw ∈ recs, pw.name = name) : recs.map (printed set name) = recs := by
  refine (map_congr_left fun pw mem => ?_).trans (map_id recs)
  exact if_neg fun target => absent ⟨pw, mem, target⟩

theorem userMod_passes
    (good : ∀ pw ∈ pre, pw.Good) (passes : ∀ i pw, pre[i]? = some pw → Passes harmless (0 + i) pw)
    (read : lines f = pre.map Pwent.line) : userMod m 0 harmless set name f =
      some (render (pre.map (printed set name)), if ∃ pw ∈ pre, pw.name = name then 0 else -1) := by
  have run := @loop_append m harmless set name pre 0 [] [] false good
    fun i pw at_i => ⟨(passes i pw at_i).1, (passes i pw at_i).2.2⟩
  rw [append_nil] at run
  rw [userMod, if_neg (by decide), read, run, userModLoop]
  simp

section
variable (good : ∀ pw ∈ recs, pw.Good)
include good

theorem lines_before (eq : recs = pre ++ pw :: behind)
    (short : ∀ q ∈ pre, Short q.line) :
    lines (render recs) = pre.map Pwent.line ++ (if Short pw.line then pw.line :: lines (render behind) else []) := by
  have goodBehind : ∀ q ∈ behind, q.Good := fun q mem => good q (by rw [eq]; simp [mem])
  have all : ∀ q ∈ pre, decide (Short q.line) = true := fun q mem => decide_eq_true (short q mem)
  rw [lines_render good, lines_render goodBehind, eq, takeWhile_append_of_pos all, map_append]
  congr 1
  by_cases fits : Short pw.line
  · rw [takeWhile_cons_of_pos (by simpa using fits), if_pos fits, map_cons]
  · rw [takeWhile_cons_of_neg (by simpa using fits), if_neg fits]
    rfl

theorem not_kept
    (typed : edit.Typed) (eq : recs = pre ++ pw :: behind) :
    ¬ Kept recs (.set name edit) (render (pre.map (printed edit.set name)))
      (if ∃ pw ∈ pre, pw.name = name then 0 else -1) := by
  have goodPre : ∀ q ∈ pre, q.Good := fun q mem => good q (by rw [eq]; simp [mem])
  rintro (⟨r, same⟩ | ⟨_, goodNew, same⟩)
  · by_cases target : ∃ pw ∈ pre, pw.name = name
    · rw [if_pos target] at r
      cases r
    · rw [printed_absent target] at same
      have lengths := congrArg length (render_inj goodPre good same)
      rw [eq] at lengths
      simp at lengths
  · have goodNew : ∀ q ∈ recs.map (printed edit.set name), q.Good := goodNew
    have plain := (good_printed good typed).1 goodNew
    have goodPrinted := (good_printed goodPre typed).2 fun ⟨q, mem, target⟩ => plain ⟨q, by rw [eq]; simp [mem], target⟩
    have lengths := congrArg length (render_inj goodPrinted goodNew same)
    rw [eq] at lengths
    simp at lengths

theorem set_frame (typed : edit.Typed) (name : List Byte) :
    (∃ f r, userMod m 0 harmless edit.set name (render recs) = some (f, r) ∧ Kept recs (.set name edit) f r) ↔
      Safe harmless recs (.set name edit) := by
  rcases scan harmless recs 0 with all | ⟨pre, pw, behind, eq, passes, stops⟩
  · have short : ∀ pw ∈ recs, decide (Short pw.line) = true := by
      intro pw mem
      obtain ⟨i, at_i⟩ := getElem?_of_mem mem
      exact decide_eq_true (all i pw at_i).2.1
    have natural : ∀ pw ∈ recs, pw.Natural := by
      intro pw mem
      obtain ⟨i, at_i⟩ := getElem?_of_mem mem
      exact (all i pw at_i).1
    have read : lines (render recs) = recs.map Pwent.line := by
      rw [lines_render good, takeWhile_eq_self_iff.2 short]
    rw [userMod_passes good all read]
    have first : ∀ i pw, recs[i]? = some pw → (∀ j q, j < i → recs[j]? = some q → q.Natural) →
        Short pw.line ∧ harmless i = true := by
      intro i pw at_i _
      have := (all i pw at_i).2
      rwa [zero_add] at this
    constructor
    · rintro ⟨f, r, value, kept⟩
      cases value
      refine ⟨first, fun _ present => ?_⟩
      rw [if_pos present] at kept
      rcases kept with ⟨r, _⟩ | ⟨_, goodNew, _⟩
      · cases r
      · exact (good_printed good typed).1 goodNew present
    · rintro ⟨_, plain⟩
      refine ⟨_, _, rfl, ?_⟩
      by_cases present : ∃ pw ∈ recs, pw.name = name
      · rw [if_pos present]
        exact .inr ⟨rfl, (good_printed good typed).2 (plain natural), rfl⟩
      · rw [if_neg present, printed_absent present]
        exact .inl ⟨rfl, rfl⟩
  · have goodPre : ∀ q ∈ pre, q.Good := fun q mem => good q (by rw [eq]; simp [mem])
    have goodPw : pw.Good := good pw (by rw [eq]; simp)
    have shortPre : ∀ q ∈ pre, Short q.line := by
      intro q mem
      obtain ⟨i, at_i⟩ := getElem?_of_mem mem
      exact (passes i q at_i).2.1
    have here : recs[pre.length]? = some pw := by
      rw [eq, getElem?_append_right (Nat.le_refl _), Nat.sub_self]
      rfl
    have before : ∀ j q, j < pre.length → recs[j]? = some q → Passes harmless j q := by
      intro j q lt at_j
      rw [eq, getElem?_append_left lt] at at_j
      have := passes j q at_j
      rwa [zero_add] at this
    have naturalBefore : ∀ j q, j < pre.length → recs[j]? = some q → q.Natural :=
      fun j q lt at_j => (before j q lt at_j).1
    rw [zero_add] at stops
    by_cases fits : Short pw.line
    · have read := lines_before good eq shortPre
      rw [if_pos fits] at read
      have run := @loop_append m harmless edit.set name pre 0 (pw.line :: lines (render behind)) [] false
        goodPre fun i q at_i => ⟨(passes i q at_i).1, (passes i q at_i).2.2⟩
      rw [zero_add, userModLoop, parsePwent] at run
      cases harm : harmless pre.length with
      | false =>
        -- the pointer that was not set is followed
        rw [harm, if_neg Bool.false_ne_true] at run
        have value : userMod m 0 harmless edit.set name (render recs) = none := by
          rw [userMod, if_neg (by decide), read, run]
        rw [value]
        refine iff_of_false ?_ ?_
        · rintro ⟨_, _, no, _⟩
          cases no
        · rintro ⟨first, _⟩
          have := (first _ pw here naturalBefore).2
          rw [harm] at this
          cases this
      | true =>
        have refused : ¬ pw.Natural := fun natural => stops ⟨natural, fits, harm⟩
        rw [harm, if_pos rfl, parseFields_line m goodPw, if_neg refused] at run
        have value : userMod m 0 harmless edit.set name (render recs) = some (render recs, -1) := by
          rw [userMod, if_neg (by decide), read, run]
        rw [value]
        refine iff_of_true ⟨_, _, rfl, .inl ⟨rfl, rfl⟩⟩ ⟨?_, fun natural => absurd (natural pw (by rw [eq]; simp)) refused⟩
        intro i q at_i natural
        rcases lt_trichotomy i pre.length with lt | rfl | gt
        · exact (before i q lt at_i).2
        · cases here.symm.trans at_i
          exact ⟨fits, harm⟩
        · exact absurd (natural _ pw gt here) refused
    · have read := lines_before good eq shortPre
      rw [if_neg fits, append_nil] at read
      rw [userMod_passes goodPre passes read]
      refine iff_of_false ?_ fun ⟨first, _⟩ => fits (first _ pw here naturalBefore).1
      rintro ⟨_, _, value, kept⟩
      cases value
      exact not_kept good typed eq kept

end

theorem entryOf_self (pw : Pwent) : entryOf pw.name pw.line = true := by
  rw [entryOf, isPrefixOf_iff_prefix, Pwent.line]
  exact ⟨_, by rw [append_assoc]; rfl⟩

def left (name : List Byte) (recs : List Pwent) : List Pwent :=
  (recs.takeWhile fun pw => decide (Short pw.line)).filter fun pw => !entryOf name pw.line

theorem withoutEntry_render (good : ∀ pw ∈ recs, pw.Good) (name : List Byte) :
    withoutEntry name (render recs) = render (left name recs) := by
  rw [withoutEntry, lines_render good, filter_map]
  rfl

theorem left_sublist (name : List Byte) (recs : List Pwent) :
    (left name recs).Sublist (recs.filter fun pw => decide (pw.name ≠ name)) := by
  have other : ∀ pw : Pwent, (!entryOf name pw.line) = true → decide (pw.name ≠ name) = true := by
    intro pw no
    refine decide_eq_true fun target => ?_
    rw [← target, entryOf_self] at no
    cases no
  exact ((takeWhile_sublist _).filter _).trans (monotone_filter_right recs other)

theorem left_eq (name : List Byte) (recs : List Pwent) :
    left name recs = (recs.filter fun pw => decide (pw.name ≠ name)) ↔
      (∀ pw ∈ recs, pw.name ≠ name → entryOf name pw.line = false) ∧
        ∀ pw behind, (pw :: behind) <:+ recs → (∃ q ∈ pw :: behind, q.name ≠ name) → Short pw.line := by
  induction recs with
  | nil => simp [left]
  | cons r recs ih =>
    by_cases short : Short r.line
    · -- a first record that fits adds nothing to the second condition
      have suffixes : (∀ pw behind, (pw :: behind) <:+ r :: recs → (∃ q ∈ pw :: behind, q.name ≠ name) → Short pw.line) ↔
          ∀ pw behind, (pw :: behind) <:+ recs → (∃ q ∈ pw :: behind, q.name ≠ name) → Short pw.line := by
        constructor
        · exact fun all pw behind suffix => all pw behind (suffix.trans (suffix_cons r recs))
        · intro all pw behind suffix other
          rcases suffix_cons_iff.1 suffix with same | suffix
          · cases same
            exact short
          · exact all pw behind suffix other
      have kept : left name (r :: recs) = if entryOf name r.line then left name recs else r :: left name recs := by
        rw [left, takeWhile_cons_of_pos (by simpa using short)]
        cases entry : entryOf name r.line with
        | true =>
          rw [filter_cons_of_neg (by simp [entry])]
          rfl
        | false =>
          rw [filter_cons_of_pos (by simp [entry])]
          rfl
      rw [suffixes, kept, forall_mem_cons]
      by_cases target : r.name = name
      · have entry : entryOf name r.line = true := by rw [← target, entryOf_self]
        rw [entry, if_pos rfl, filter_cons_of_neg (by simp [target]), ih]
        simp [target]
      · rw [filter_cons_of_pos (by simpa using target)]
        cases entry : entryOf name r.line with
        | true =>
          rw [if_pos rfl]
          refine iff_of_false (fun same => ?_) fun ⟨⟨no, _⟩, _⟩ => absurd (no target) nofun
          have fewer := (left_sublist name recs).length_le
          rw [same, length_cons] at fewer
          omega
        | false =>
          rw [if_neg Bool.false_ne_true, cons.injEq, ih]
          simp
    · have nothing : left name (r :: recs) = [] := by
        rw [left, takeWhile_cons_of_neg (by simpa using short)]
        rfl
      rw [nothing, eq_comm, filter_eq_nil_iff]
      constructor
      · intro all
        have none : ∀ q ∈ r :: recs, q.name = name := by simpa using all
        refine ⟨fun q mem other => absurd (none q mem) other, fun pw behind suffix ⟨q, mem, other⟩ => ?_⟩
        exact absurd (none q (suffix.subset mem)) other
      · rintro ⟨_, fits⟩ q mem other
        exact short (fits r recs (suffix_refl _) ⟨q, mem, by simpa using other⟩)

theorem deluser_frame (good : ∀ pw ∈ recs, pw.Good) (name : List Byte) :
    Kept recs (.deluser name) (withoutEntry name (render recs)) 0 ↔ Safe harmless recs (.deluser name) := by
  have goodFilter : ∀ pw ∈ recs.filter fun pw => decide (pw.name ≠ name), pw.Good :=
    fun pw mem => good pw (mem_of_mem_filter mem)
  have goodLeft : ∀ pw ∈ left name recs, pw.Good :=
    fun pw mem => goodFilter pw ((left_sublist name recs).subset mem)
  rw [withoutEntry_render good, Safe, ← left_eq name recs]
  constructor
  · rintro (⟨no, _⟩ | ⟨_, _, same⟩)
    · cases no
    · have lengths := congrArg length (render_inj goodLeft goodFilter same)
      rw [length_map, length_map] at lengths
      exact (left_sublist name recs).eq_of_length lengths
  · intro same
    exact .inr ⟨rfl, goodFilter, congrArg render same⟩

end Frame

def Call.Typed : Call → Prop
  | .set _ edit => edit.Typed
  | .deluser _ => True

def Frames (m : Machine) (harmless : Nat → Bool) (recs : List Pwent) (secret : List Byte) (call : Call) : Prop :=
  ∃ etc r, run m 0 harmless ⟨render recs, secret⟩ call = some (etc, r) ∧ Kept recs call etc.passwd r

theorem edit_frame (m : Machine) (harmless : Nat → Bool) (recs : List Pwent) (secret : List Byte) (call : Call)
    (good : ∀ pw ∈ recs, pw.Good) (typed : call.Typed) :
    Frames m harmless recs secret call ↔ Safe harmless recs call := by
  cases call with
  | set name edit =>
    rw [← set_frame (m := m) good typed name, Frames, run, setUser]
    constructor
    · rintro ⟨etc, r, value, kept⟩
      obtain ⟨⟨f, r⟩, run, eq⟩ := Option.map_eq_some_iff.1 value
      cases eq
      exact ⟨f, _, run, kept⟩
    · rintro ⟨f, r, value, kept⟩
      exact ⟨⟨f, secret⟩, r, by rw [value]; rfl, kept⟩
  | deluser name =>
    rw [← deluser_frame good name, Frames]
    constructor
    · rintro ⟨etc, r, value, kept⟩
      cases value
      exact kept
    · exact fun kept => ⟨_, _, rfl, kept⟩

def admin : Pwent := { name := "a".toList.map chr, uid := 0, gid := 0, gecos := [], dir := [], shell := [] }

def guest : Pwent := { name := "g".toList.map chr, uid := 0, gid := 0, gecos := [], dir := [], shell := [] }

theorem good_examples : ∀ pw ∈ [admin, guest], pw.Good := by
  intro pw mem
  have cases : pw = admin ∨ pw = guest := by simpa using mem
  rcases cases with rfl | rfl <;>
    exact ⟨by decide, ⟨by decide, by decide⟩, ⟨by decide, by decide⟩, by decide, by decide, by decide⟩

theorem edit_frame_guest : Frames .i386 (fun _ => true) [admin, guest] [] (.set guest.name (.home [chr 'h'])) := by
  refine (edit_frame .i386 (fun _ => true) [admin, guest] [] (.set guest.name (.home [chr 'h'])) good_examples
    (show 0 ∉ [chr 'h'] by decide)).2 ⟨fun i pw at_i _ => ?_, fun _ _ => ⟨by decide, by decide⟩⟩
  have all : ∀ pw ∈ [admin, guest], Short pw.line := by decide
  exact ⟨all pw (mem_of_getElem? at_i), rfl⟩

def intruder : List Byte := "\ne:x:0:0:::".toList.map chr

/-- A shell that holds a newline adds a record. -/
theorem edit_no_frame : ¬ ∀ (m : Machine) (recs : List Pwent) (secret : List Byte) (call : Call), (∀ pw ∈ recs, pw.Good) →
    (recs.map Pwent.name).Nodup → call.Typed → Frames m (fun _ => true) recs secret call := by
  intro all
  obtain ⟨etc, r, value, kept⟩ := all .i386 [admin, guest] [] (.set guest.name (.shell intruder)) good_examples (by decide)
    (show 0 ∉ intruder by decide)
  have returned : ((run .i386 0 (fun _ => true) ⟨render [admin, guest], []⟩ (.set guest.name (.shell intruder))).map
      Prod.snd) = some 0 := by decide
  rw [value] at returned
  cases returned
  rcases kept with ⟨no, _⟩ | ⟨_, good, _⟩
  · cases no
  · have new := (good { guest with shell := intruder } (by decide)).shell.noNl
    exact new (by decide)

end Passwd
