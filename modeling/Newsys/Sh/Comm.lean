import Newsys.Lib.TwoEnds
import Newsys.Sh.Tokenize

/- How the vectors of a simple command are built (do_comm1 of cmd/sh/sh.c). The number of the tokens is an `int` of
   `tokenize` already. -/
namespace Sh
open Bytes Libc TwoEnds List Option

structure Com where
  name : List Byte
  v6 : Bool
  deriving DecidableEq

def comms : List Com :=
  [⟨[chr ':'], true⟩,
   ⟨['e', 'x', 'i', 't'].map chr, true⟩,
   ⟨['c', 'h', 'd', 'i', 'r'].map chr, true⟩,
   ⟨['c', 'd'].map chr, true⟩,
   ⟨['p', 'w', 'd'].map chr, false⟩,
   ⟨['g', 'o', 't', 'o'].map chr, true⟩,
   ⟨['u', 'm', 'a', 's', 'k'].map chr, false⟩,
   ⟨['w', 'a', 'i', 't'].map chr, true⟩,
   ⟨['s', 'h', 'i', 'f', 't'].map chr, true⟩,
   ⟨['l', 'o', 'g', 'i', 'n'].map chr, true⟩,
   ⟨['n', 'e', 'w', 'g', 'r', 'p'].map chr, true⟩,
   ⟨[chr '.'], false⟩,
   ⟨['e', 'x', 'p', 'o', 'r', 't'].map chr, false⟩,
   ⟨['u', 'n', 's', 'e', 't'].map chr, false⟩,
   ⟨['e', 'x', 'e', 'c'].map chr, false⟩,
   ⟨['r', 't', 'r', 'a', 'p'].map chr, false⟩]

def builtin (v6 : Bool) (name : List Byte) : Option Com := comms.find? fun com => (!v6 || com.v6) && com.name == name

def globChrs : List Byte := ['*', '?', '['].map chr

def pathBGlob : List Byte := ['/', 'b', 'i', 'n', '/', 'g', 'l', 'o', 'b'].map chr

section Loops
variable {β : Type} (strings : Nat → List Byte) (step : β → Token → β)

/-- The characters of a string; `strings` says what is in the buffer. -/
def Str.text : Str → List Byte
  | .buf a => strings a
  | .lit s => s

def Token.globs (tk : Token) : Bool := (tk.str.text strings).any fun c => globChrs.contains c

def Token.redirects (tk : Token) : Bool := tk.type = .iredir || tk.type = .oredir

def eachToken : β → List Token → β
  | b, [] => b
  | b, [tk] => if tk.redirects then b else step b tk
  | b, tk :: next :: rest =>
    if tk.redirects then eachToken b rest else eachToken (step b tk) (next :: rest)

end Loops

structure Scan where
  argc : Nat
  doGlob : Bool
  coms : Bool
  vas : Bool

/-- A round of the first loop, of which `isWord` says that the token is no assignment. -/
def scanToken (strings : Nat → List Byte) (st : Scan) (tk : Token) : Scan :=
  if tk.type = .string ∧ (!st.vas || !tk.vas) then
    { argc := st.argc + 1, doGlob := st.doGlob || tk.globs strings, coms := true, vas := false }
  else { st with argc := st.argc + 1 }

structure Vectors where
  slots : List (Option Str)
  i : Nat
  tpev : Nat
  vas : Bool

def pushArg (v : Vectors) (str : Str) : Option Vectors :=
  if v.i + 1 ≥ v.tpev then none else some { v with slots := v.slots.set v.i (some str), i := v.i + 1 }

def pushEnv (v : Vectors) (str : Str) : Option Vectors :=
  if v.tpev ≤ v.i + 1 then none
  else some { v with slots := v.slots.set (v.tpev - 1) (some str), tpev := v.tpev - 1 }

/-- A round of the second loop; `none` is a call of `abort`. -/
def fillToken (v : Option Vectors) (tk : Token) : Option Vectors := do
  let v ← v
  if tk.type = .string then
    if !v.vas || !tk.vas then pushArg { v with vas := false } tk.str else pushEnv v tk.str
  else pushArg v tk.str

def endArgs (v : Vectors) : Vectors := { v with slots := v.slots.set v.i none }

/-- What the calls of the system say: whether the files of the redirections are opened, whether there is memory, and
    whether the standard files can be put aside. -/
structure Calls where
  opened : Bool
  calloc : Bool
  dups : Bool

inductive Outcome where
  | nothing
  | group
  | assigns
  | aborts
  | nullName (v : Vectors)
  | dupErr (v : Vectors)
  | runs (com : Com) (argc : Nat) (v : Vectors)
  | forks (v : Vectors)

def dispatch (strings : Nat → List Byte) (v6 : Bool) (calls : Calls) (argc : Nat) (v : Vectors) : Outcome :=
  let v := endArgs v
  match v.slots.headD none with
  | none => .nullName v
  | some name =>
    match builtin v6 (name.text strings) with
    | some com => if calls.dups then .runs com argc v else .dupErr v
    | none => .forks v

def grouped (tks : List Token) : Bool := tks.head?.any fun tk => tk.type = .lbrace || tk.type = .lparen

/-- `do_comm1`, without what it does with a command in braces or in parentheses. -/
def doComm1 (strings : Nat → List Byte) (v6 : Bool) (calls : Calls) (tks : List Token) : Outcome :=
  let st := eachToken (scanToken strings) ⟨0, false, false, true⟩ tks
  if !calls.opened then .nothing
  else if grouped tks then .group
  else if st.argc = 0 then .nothing
  else if !v6 && !st.coms then .assigns
  else if !calls.calloc then .nothing
  else
    let slots := replicate (st.argc + 3) none
    let v : Vectors :=
      if st.doGlob then ⟨slots.set 0 (some (.lit pathBGlob)), 1, st.argc + 2, true⟩ else ⟨slots, 0, st.argc + 2, true⟩
    match eachToken fillToken (some v) tks with
    | none => .aborts
    | some v => dispatch strings v6 calls st.argc v

/- What the vectors are for -/

def items : List Token → List Token
  | [] => []
  | [tk] => if tk.redirects then [] else [tk]
  | tk :: next :: rest => if tk.redirects then items rest else tk :: items (next :: rest)

def Token.assigns (tk : Token) : Bool := tk.type = .string && tk.vas

def leading (tks : List Token) : List Token := (items tks).takeWhile Token.assigns

def words (tks : List Token) : List Token := (items tks).dropWhile Token.assigns

def globs (strings : Nat → List Byte) (tks : List Token) : Bool :=
  (words tks).any fun tk => tk.type = .string && tk.globs strings

structure Built (strings : Nat → List Byte) (tks : List Token) (v : Vectors) : Prop where
  apart : v.i < v.tpev
  argv : entries v.slots 0 = (if globs strings tks then [.lit pathBGlob] else []) ++ (words tks).map Token.str
  tpev : entries v.slots v.tpev = ((leading tks).map Token.str).reverse

/-- What is run gets the right vectors, and a built-in the right count. -/
def Consistent (strings : Nat → List Byte) (tks : List Token) : Outcome → Prop
  | .aborts => False
  | .nullName v => Built strings tks v
  | .dupErr v => Built strings tks v
  | .runs _ argc v => Built strings tks v ∧ argc = (entries v.slots 0).length
  | .forks v => Built strings tks v
  | _ => True

def Token.plain (tk : Token) : Bool := tk.type = .string && !tk.vas

def Made (v6 : Bool) (calls : Calls) (tks : List Token) : Prop :=
  calls.opened = true ∧ calls.calloc = true ∧ grouped tks = false ∧ items tks ≠ [] ∧
    (v6 = true ∨ (items tks).any Token.plain = true)

def Straight (tks : List Token) : Prop := ∀ tk ∈ (words tks).takeWhile fun tk => !tk.plain, tk.assigns = false

/-- No built-in comes after assignments. -/
def Right (strings : Nat → List Byte) (v6 : Bool) (calls : Calls) (tks : List Token) : Prop :=
  Made v6 calls tks → Straight tks ∧ (leading tks = [] ∨ globs strings tks = true ∨ calls.dups = false ∨
    ∀ tk ∈ (words tks).head?, builtin v6 (tk.str.text strings) = none)

theorem eachToken_eq {β : Type} (step : β → Token → β) (b : β) (tks : List Token) :
    eachToken step b tks = (items tks).foldl step b := by
  fun_induction items tks generalizing b with
  | case1 => rfl
  | case2 tk redirects => rw [eachToken, if_pos redirects, foldl_nil]
  | case3 tk word => rw [eachToken, if_neg word, foldl_cons, foldl_nil]
  | case4 tk next rest redirects ih => rw [eachToken, if_pos redirects, ih]
  | case5 tk next rest word ih => rw [eachToken, if_neg word, ih, foldl_cons]

/-- What the loops take for assignments; `vas` says that there was no plain string yet. -/
def assigned : Bool → List Token → List Token
  | _, [] => []
  | vas, tk :: rest =>
    if vas && tk.assigns then tk :: assigned vas rest else assigned (vas && !tk.plain) rest

def kept : Bool → List Token → List Token
  | _, [] => []
  | vas, tk :: rest =>
    if vas && tk.assigns then kept vas rest else tk :: kept (vas && !tk.plain) rest

theorem assigned_false (tks : List Token) : assigned false tks = [] := by
  induction tks with
  | nil => rfl
  | cons tk rest ih => simpa [assigned] using ih

theorem assigned_kept_length (vas : Bool) (tks : List Token) :
    (assigned vas tks).length + (kept vas tks).length = tks.length := by
  induction tks generalizing vas with
  | nil => rfl
  | cons tk rest ih =>
    unfold assigned kept
    split
    · rw [length_cons, length_cons, ← ih vas]
      omega
    · rw [length_cons, length_cons, ← ih (vas && !tk.plain)]
      omega

theorem assigned_leading (tks : List Token) :
    assigned true tks = tks.takeWhile Token.assigns ++ assigned true (tks.dropWhile Token.assigns) := by
  induction tks with
  | nil => rfl
  | cons tk rest ih =>
    by_cases assigns : tk.assigns = true
    · rw [assigned, if_pos (by simpa using assigns), takeWhile_cons_of_pos assigns,
        dropWhile_cons_of_pos assigns, ih, cons_append]
    · rw [takeWhile_cons_of_neg assigns, dropWhile_cons_of_neg assigns, nil_append]

theorem kept_leading (tks : List Token) : kept true tks = kept true (tks.dropWhile Token.assigns) := by
  induction tks with
  | nil => rfl
  | cons tk rest ih =>
    by_cases assigns : tk.assigns = true
    · rw [kept, if_pos (by simpa using assigns), dropWhile_cons_of_pos assigns, ih]
    · rw [dropWhile_cons_of_neg assigns]

theorem kept_of_assigned (vas : Bool) (none : assigned vas tks = []) : kept vas tks = tks := by
  induction tks generalizing vas with
  | nil => rfl
  | cons tk rest ih =>
    unfold assigned at none
    unfold kept
    split at none
    · cases none
    · rename_i other
      rw [if_neg other, ih _ none]

theorem assigned_nil (tks : List Token) :
    assigned true tks = [] ↔ ∀ tk ∈ tks.takeWhile fun tk => !tk.plain, tk.assigns = false := by
  induction tks with
  | nil => simp [assigned]
  | cons tk rest ih =>
    unfold assigned
    by_cases plain : tk.plain = true
    · have word : tk.assigns = false := by
        simp only [Token.plain, Token.assigns, Bool.and_eq_true, Bool.not_eq_true'] at plain ⊢
        simp [plain.2]
      simp [plain, word, assigned_false]
    · by_cases assigns : tk.assigns = true
      · simp [plain, assigns]
      · simp [plain, assigns, ih]

theorem straight_iff (tks : List Token) : Straight tks ↔ assigned true (words tks) = [] :=
  (assigned_nil (words tks)).symm

theorem straight_split {tks : List Token} (straight : Straight tks) :
    assigned true (items tks) = leading tks ∧ kept true (items tks) = words tks := by
  have none := (straight_iff tks).mp straight
  constructor
  · rw [assigned_leading, show (items tks).dropWhile Token.assigns = words tks from rfl, none, append_nil]
    rfl
  · rw [kept_leading]
    exact kept_of_assigned true none

theorem scan_run (strings : Nat → List Byte) (st : Scan) (tracks : st.vas = !st.coms) (tks : List Token) :
    tks.foldl (scanToken strings) st =
      ⟨st.argc + tks.length, st.doGlob || (kept st.vas tks).any fun tk => tk.type = .string && tk.globs strings,
        st.coms || tks.any Token.plain, st.vas && !tks.any Token.plain⟩ := by
  induction tks generalizing st with
  | nil => simp [kept]
  | cons tk rest ih =>
    obtain ⟨argc, doGlob, coms, vas⟩ := st
    obtain rfl : vas = !coms := tracks
    have step : scanToken strings ⟨argc, doGlob, coms, !coms⟩ tk =
        ⟨argc + 1, doGlob || (!(!coms && tk.assigns) && (tk.type = .string && tk.globs strings)), coms || tk.plain,
          !(coms || tk.plain)⟩ := by
      unfold scanToken
      by_cases isString : tk.type = .string
      · cases coms <;> cases shape : tk.vas <;> simp [isString, shape, Token.assigns, Token.plain]
      · simp [isString, Token.plain]
    rw [foldl_cons, step, ih _ rfl, kept]
    by_cases takes : (!coms && tk.assigns) = true
    · have word : tk.plain = false := by
        simp only [Bool.and_eq_true, Token.assigns] at takes
        simp [Token.plain, takes]
      simp [takes, word, add_comm, add_left_comm]
    · simp [takes, Bool.or_assoc, Bool.and_assoc, add_comm, add_left_comm]

theorem fill_run (tks : List Token) (front back : List Str) (extra : Nat) (vas : Bool) :
    ∃ vas', tks.foldl fillToken (some ⟨slots front (tks.length + (extra + 1)) back, front.length,
        front.length + (tks.length + (extra + 1)), vas⟩) =
      some ⟨slots (front ++ (kept vas tks).map Token.str) (extra + 1)
          (((assigned vas tks).map Token.str).reverse ++ back),
        (front ++ (kept vas tks).map Token.str).length,
        (front ++ (kept vas tks).map Token.str).length + (extra + 1), vas'⟩ := by
  induction tks generalizing front back vas with
  | nil => exact ⟨vas, by simp [kept, assigned]⟩
  | cons tk rest ih =>
    have more : rest.length + 1 + (extra + 1) = rest.length + (extra + 1) + 1 := by omega
    by_cases takes : (vas && tk.assigns) = true
    · have put : fillToken (some ⟨slots front ((tk :: rest).length + (extra + 1)) back, front.length,
          front.length + ((tk :: rest).length + (extra + 1)), vas⟩) tk =
          some ⟨slots front (rest.length + (extra + 1)) (tk.str :: back), front.length,
            front.length + (rest.length + (extra + 1)), vas⟩ := by
        rw [Bool.and_eq_true, Token.assigns, Bool.and_eq_true, decide_eq_true_eq] at takes
        simp only [fillToken, bind_eq_bind, bind_some, takes, if_true, Bool.not_true, Bool.or_self,
          Bool.false_eq_true, if_false, pushEnv, length_cons, more]
        rw [if_neg (by omega), show front.length + (rest.length + (extra + 1) + 1) - 1 =
          front.length + (rest.length + (extra + 1)) by omega, set_back]
      obtain ⟨vas', ran⟩ := ih front (tk.str :: back) vas
      refine ⟨vas', ?_⟩
      rw [foldl_cons, put, ran, kept, if_pos takes, assigned, if_pos takes]
      simp
    · have put : fillToken (some ⟨slots front ((tk :: rest).length + (extra + 1)) back, front.length,
          front.length + ((tk :: rest).length + (extra + 1)), vas⟩) tk =
          some ⟨slots (front ++ [tk.str]) (rest.length + (extra + 1)) back, (front ++ [tk.str]).length,
            (front ++ [tk.str]).length + (rest.length + (extra + 1)), vas && !tk.plain⟩ := by
        have push : ∀ vas, pushArg ⟨slots front (rest.length + (extra + 1) + 1) back, front.length,
            front.length + (rest.length + (extra + 1) + 1), vas⟩ tk.str =
            some ⟨slots (front ++ [tk.str]) (rest.length + (extra + 1)) back, (front ++ [tk.str]).length,
              (front ++ [tk.str]).length + (rest.length + (extra + 1)), vas⟩ := by
          intro vas
          simp only [pushArg]
          rw [if_neg (by omega), set_front, length_append, length_singleton]
          congr 2
          omega
        rw [length_cons, more]
        by_cases isString : tk.type = .string
        · have word : (!vas || !tk.vas) = true := by
            cases vas <;> simp_all [Token.assigns]
          simp only [fillToken, bind_eq_bind, bind_some, isString, if_true, word, push]
          cases vas <;> simp_all [Token.plain]
        · simp only [fillToken, bind_eq_bind, bind_some, isString, if_false, push]
          simp [Token.plain, isString]
      obtain ⟨vas', ran⟩ := ih (front ++ [tk.str]) back (vas && !tk.plain)
      refine ⟨vas', ?_⟩
      rw [foldl_cons, put, ran, kept, if_neg takes, assigned, if_neg takes]
      simp

def helper (glob : Bool) : List Str := if glob then [.lit pathBGlob] else []

def filled (strings : Nat → List Byte) (tks : List Token) (extra : Nat) (vas : Bool) : Vectors :=
  let front := helper ((kept true (items tks)).any fun tk => tk.type = .string && tk.globs strings) ++
    (kept true (items tks)).map Token.str
  ⟨slots front (extra + 1) ((assigned true (items tks)).map Token.str).reverse, front.length,
    front.length + (extra + 1), vas⟩

theorem doComm1_made {strings : Nat → List Byte} {v6 : Bool} {calls : Calls} {tks : List Token}
    (made : Made v6 calls tks) :
    ∃ extra vas, doComm1 strings v6 calls tks =
      dispatch strings v6 calls (items tks).length (filled strings tks extra vas) := by
  obtain ⟨opened, memory, simple, more, words⟩ := made
  have scan := scan_run strings ⟨0, false, false, true⟩ rfl (items tks)
  have count : (items tks).length ≠ 0 := fun none => more (eq_nil_of_length_eq_zero none)
  have new : (!v6 && !(items tks).any Token.plain) = false := by
    cases v6 <;> simp_all
  unfold doComm1
  rw [eachToken_eq, scan]
  simp only [opened, memory, simple, Bool.not_true, Bool.false_eq_true, if_false, zero_add, count, Bool.false_or, new,
    eachToken_eq]
  unfold filled
  cases glob : (kept true (items tks)).any fun tk => tk.type = .string && tk.globs strings
  · obtain ⟨vas, ran⟩ := fill_run (items tks) [] [] 1 true
    refine ⟨1, vas, ?_⟩
    have start : replicate ((items tks).length + 3) none = slots ([] : List Str) ((items tks).length + (1 + 1)) [] :=
      slots_empty _
    rw [if_neg (by simp), start]
    simp only [length_nil, zero_add] at ran
    rw [ran]
    simp [helper]
  · obtain ⟨vas, ran⟩ := fill_run (items tks) [.lit pathBGlob] [] 0 true
    refine ⟨0, vas, ?_⟩
    have start : (replicate ((items tks).length + 3) none).set 0 (some (Str.lit pathBGlob)) =
        slots [Str.lit pathBGlob] ((items tks).length + (0 + 1)) [] := by
      rw [show (items tks).length + 3 = (items tks).length + 2 + 1 from rfl, slots_empty]
      exact set_front [] ((items tks).length + 1) [] _
    have begun : (⟨(replicate ((items tks).length + 3) none).set 0 (some (Str.lit pathBGlob)), 1,
        (items tks).length + 2, true⟩ : Vectors) =
        ⟨slots [Str.lit pathBGlob] ((items tks).length + (0 + 1)) [], [Str.lit pathBGlob].length,
          [Str.lit pathBGlob].length + ((items tks).length + (0 + 1)), true⟩ := by
      rw [start, length_singleton]
      congr 1
      omega
    rw [if_pos rfl, begun, ran]
    simp [helper]

theorem filled_built (strings : Nat → List Byte) (tks : List Token) (extra : Nat) (vas : Bool) :
    Built strings tks (endArgs (filled strings tks extra vas)) ↔ Straight tks := by
  unfold endArgs filled
  simp only [set_none]
  constructor
  · intro built
    have env := built.tpev
    rw [entries_back] at env
    have count := congrArg length env
    rw [length_reverse, length_reverse, length_map, length_map, assigned_leading,
      length_append] at count
    exact (straight_iff tks).mpr (eq_nil_of_length_eq_zero (Nat.left_eq_add.mp count.symm))
  · intro straight
    obtain ⟨assigns, keeps⟩ := straight_split straight
    refine ⟨by dsimp only; omega, ?_, ?_⟩
    · rw [entries_front, keeps]
      rfl
    · rw [entries_back, assigns]

theorem consistent_dispatch (strings : Nat → List Byte) (v6 : Bool) (calls : Calls) (tks : List Token) (argc : Nat)
    (v : Vectors) :
    Consistent strings tks (dispatch strings v6 calls argc v) ↔ Built strings tks (endArgs v) ∧
      ∀ name, (endArgs v).slots.headD none = some name → builtin v6 (name.text strings) ≠ none → calls.dups = true →
        argc = (entries (endArgs v).slots 0).length := by
  unfold dispatch
  cases named : (endArgs v).slots.headD none with
  | none =>
    simp only [named]
    exact ⟨fun built => ⟨built, fun _ is => by cases is⟩, And.left⟩
  | some name =>
    cases found : builtin v6 (name.text strings) with
    | none =>
      simp only [named, found]
      refine ⟨fun built => ⟨built, fun _ is runs => ?_⟩, And.left⟩
      cases is
      exact absurd found runs
    | some com =>
      simp only [named, found]
      cases dups : calls.dups
      · exact ⟨fun built => ⟨built, fun _ _ _ is => by cases is⟩, And.left⟩
      · refine and_congr_right fun _ => ⟨fun count _ _ _ _ => count, fun count => count name rfl ?_ rfl⟩
        rw [found]
        rintro ⟨⟩

theorem builtin_helper (v6 : Bool) : builtin v6 pathBGlob = none := by
  cases v6 <;> decide

/-- The vectors are right, and the count is, unless a built-in comes after assignments. -/
theorem consistent_iff (strings : Nat → List Byte) (v6 : Bool) (calls : Calls) (tks : List Token) :
    Consistent strings tks (doComm1 strings v6 calls tks) ↔ Right strings v6 calls tks := by
  by_cases made : Made v6 calls tks
  · obtain ⟨extra, vas, ran⟩ := @doComm1_made strings v6 calls tks made
    rw [ran, consistent_dispatch, filled_built, Right, forall_prop_of_true made]
    refine and_congr_right fun straight => ?_
    obtain ⟨assigns, keeps⟩ := straight_split straight
    have whole := assigned_kept_length true (items tks)
    rw [assigns, keeps] at whole
    unfold endArgs filled
    simp only [set_none, first, entries_front, keeps]
    rw [show ((words tks).any fun tk => decide (tk.type = .string) && tk.globs strings) = globs strings tks from rfl]
    cases glob : globs strings tks
    · simp only [helper, Bool.false_eq_true, if_false, nil_append, length_map, head?_map, false_or]
      cases left : words tks with
      | nil => simp
      | cons w rest =>
        rw [left] at whole
        have count : (items tks).length = (w :: rest).length ↔ leading tks = [] := by
          rw [← length_eq_zero_iff]
          omega
        simp only [head?_cons, map_some, some.injEq, forall_eq', count, mem_some_iff]
        cases builtin v6 (w.str.text strings) <;> cases calls.dups <;> simp
    · refine iff_of_true ?_ (.inr (.inl rfl))
      intro name is runs
      simp only [helper, if_true, cons_append, head?_cons, some.injEq] at is
      rw [← is] at runs
      exact absurd (builtin_helper v6) runs
  · refine iff_of_true ?_ fun is => absurd is made
    unfold doComm1
    rw [eachToken_eq, scan_run strings ⟨0, false, false, true⟩ rfl]
    simp only [Bool.false_or, zero_add]
    split
    · trivial
    split
    · trivial
    split
    · trivial
    split
    · trivial
    split
    · trivial
    · rename_i opened simple count words memory
      refine absurd ⟨by simpa using opened, by simpa using memory, by simpa using simple, ?_, ?_⟩ made
      · intro none
        exact count (by rw [none]; rfl)
      · cases v6 <;> simp_all

/- The leading assignments of "A=1 cd x" are counted with its words -/

def strings : Nat → List Byte
  | 0 => ['A', '=', '1'].map chr
  | 4 => ['c', 'd'].map chr
  | _ => [chr 'x']

def assignCd : List Token :=
  [⟨.string, none, .buf 0, true⟩, ⟨.string, none, .buf 4, false⟩, ⟨.string, none, .buf 7, false⟩]

theorem not_consistent : ¬ Consistent strings assignCd (doComm1 strings false ⟨true, true, true⟩ assignCd) := by
  have counted : doComm1 strings false ⟨true, true, true⟩ assignCd =
      .runs ⟨['c', 'd'].map chr, true⟩ 3 ⟨[some (.buf 4), some (.buf 7), none, none, some (.buf 0), none], 2, 4, false⟩ := by
    rfl
  rw [counted]
  rintro ⟨_, count⟩
  exact absurd count (by decide)

end Sh
