import Newsys.Lib.Lexical
import Newsys.Kern.Prefixes

/- The names of files (kern/fs/main.c): a name from a program becomes a full one, with the working
   directory of the task in front of it, and the working directory is such a name itself
   (kern/fs/misc.c). A buffer that holds a string is the string; `dst` always is its end. -/
namespace Vfs
open Bytes Kern Lexical List

def pathMax : Nat := 256

def period : Byte := 46

structure Task where
  cwd : CString
  tty : CString

def strchr (s : List Byte) (ch : Byte) : Option Nat := s.findIdx? (· = ch)

def strrchr (ch : Byte) : List Byte → Option Nat
  | [] => none
  | x :: s =>
    match strrchr ch s with
    | some i => some (i + 1)
    | none => if x = ch then some 0 else none

def skipSeps (src : List Byte) : List Byte := src.dropWhile (· = slash)

def compLen (src : List Byte) : Nat := (strchr src slash).getD src.length

def fqnameComp (buf comp : List Byte) : Except Errno (List Byte) :=
  if comp.length = 0 then .ok buf
  else if comp = [period] then .ok buf
  else if comp = [period, period] then
    match strrchr slash buf with
    | none => .ok buf
    | some prev => .ok (buf.take prev)
  else if pathMax ≤ buf.length + comp.length + 1 then .error .ENAMETOOLONG
  else .ok (buf ++ slash :: comp)

theorem skipSeps_le (src : List Byte) : (skipSeps src).length ≤ src.length :=
  (dropWhile_sublist _).length_le

theorem fqname_shorter :
    ((skipSeps (c :: s)).drop (compLen (skipSeps (c :: s)))).length < (c :: s).length := by
  rw [length_drop]
  by_cases sep : c = slash
  · have le := skipSeps_le s
    have eq : skipSeps (c :: s) = skipSeps s := by simp [skipSeps, sep]
    rw [eq, length_cons]
    omega
  · have eq : skipSeps (c :: s) = c :: s := by simp [skipSeps, sep]
    have pos : 0 < compLen (c :: s) := by
      unfold compLen strchr
      rw [findIdx?_cons]
      simp only [sep, decide_false, Bool.false_eq_true, if_false]
      cases s.findIdx? (· = slash) <;> simp
    rw [eq, length_cons]
    omega

def fqnameLoop (buf src : List Byte) : Except Errno (List Byte) :=
  match src with
  | [] => .ok buf
  | c :: s =>
    match fqnameComp buf ((skipSeps (c :: s)).take (compLen (skipSeps (c :: s)))) with
    | .error e => .error e
    | .ok buf => fqnameLoop buf ((skipSeps (c :: s)).drop (compLen (skipSeps (c :: s))))
termination_by src.length
decreasing_by exact fqname_shorter

def fqname (cwd path : List Byte) : Except Errno (List Byte) :=
  let buf := if path.head? ≠ some slash then (if cwd.getD 1 0 ≠ 0 then cwd else []) else []
  let src := if path.head? ≠ some slash then path else path.drop 1
  match fqnameLoop buf src with
  | .error e => .error e
  | .ok buf => .ok (if buf = [] then [slash] else buf)

variable {buf : List Byte}

theorem fqnameComp_noNul (noNul : (0 : Byte) ∉ buf) (noNul' : (0 : Byte) ∉ comp)
    (done : fqnameComp buf comp = .ok res) : (0 : Byte) ∉ res := by
  unfold fqnameComp at done
  split at done
  · cases done
    exact noNul
  · split at done
    · cases done
      exact noNul
    · split at done
      · split at done
        · cases done
          exact noNul
        · cases done
          exact fun mem => noNul (mem_of_mem_take mem)
      · split at done
        · cases done
        · cases done
          intro mem
          rcases mem_append.mp mem with old | new
          · exact noNul old
          · rcases mem_cons.mp new with sep | new
            · exact absurd sep (by decide)
            · exact noNul' new

theorem fqnameLoop_noNul (noNul : (0 : Byte) ∉ buf) (noNul' : (0 : Byte) ∉ src)
    (done : fqnameLoop buf src = .ok res) : (0 : Byte) ∉ res := by
  induction buf, src using fqnameLoop.induct with
  | case1 buf =>
    unfold fqnameLoop at done
    cases done
    exact noNul
  | case2 buf c s e failed =>
    unfold fqnameLoop at done
    rw [failed] at done
    cases done
  | case3 buf c s buf' put ih =>
    have rest : (0 : Byte) ∉ skipSeps (c :: s) := fun mem => noNul' ((dropWhile_sublist _).subset mem)
    unfold fqnameLoop at done
    rw [put] at done
    refine ih (fqnameComp_noNul noNul (fun mem => rest (mem_of_mem_take mem)) put) ?_ done
    exact fun mem => rest (mem_of_mem_drop mem)

variable {cwd path : CString}

theorem fqname_noNul (done : fqname cwd.1 path.1 = .ok buf) : (0 : Byte) ∉ buf := by
  unfold fqname at done
  dsimp only at done
  split at done
  · cases done
  · rename_i buf' loop
    have noNul : (0 : Byte) ∉ buf' := by
      refine fqnameLoop_noNul ?_ ?_ loop
      · split
        · split
          · exact cwd.2
          · exact not_mem_nil
        · exact not_mem_nil
      · split
        · exact path.2
        · exact fun mem => path.2 (mem_of_mem_drop mem)
    cases done
    split
    · decide
    · exact noNul

def devTty : List Byte := [47, 100, 101, 118, 47, 116, 116, 121]

def fsFqname (task : Task) (path : CString) : Except Errno CString :=
  match done : fqname task.cwd.1 path.1 with
  | .error e => .error e
  | .ok buf => .ok (if buf = devTty ∧ task.tty.1 ≠ [] then task.tty else ⟨buf, fqname_noNul done⟩)

/-- `fs_parsename`: the file system, and the name in it. `activate` is what `fs_activate` returns. -/
def fsParsename (tab : Table) (activate : Option Errno) (task : Task) (path : CString) :
    Except Errno (Fin fsMaxfs × List Byte) :=
  match fsFqname task path with
  | .error e => .error e
  | .ok fqname =>
    match fsPathfs tab fqname with
    | .error e => .error e
    | .ok (fs, prefixL) =>
      match activate with
      | some e => .error e
      | none => .ok (fs, fqname.1.drop prefixL)

def fsChdir (tab : Table) (activate : Option Errno) (chdir : Fin fsMaxfs → List Byte → Option Errno) (task : Task)
    (path : CString) : Except Errno Task :=
  match fsFqname task path with
  | .error e => .error e
  | .ok fqname =>
    if pathMax ≤ fqname.1.length then .error .ENAMETOOLONG
    else match fsParsename tab activate task path with
      | .error e => .error e
      | .ok (fs, dname) =>
        match chdir fs dname with
        | some e => .error e
        | none => .ok { task with cwd := fqname }

/- The loop climbs -/

section Loop
variable {stack : List (List Byte)} {comp src : List Byte}

theorem strrchr_none : strrchr ch s = none ↔ ch ∉ s := by
  induction s with
  | nil => simp [strrchr]
  | cons x s ih =>
    unfold strrchr
    cases found : strrchr ch s with
    | none =>
      rw [found] at ih
      by_cases eq : x = ch
      · simp [eq]
      · simp [eq, Ne.symm eq, ih.mp rfl]
    | some i =>
      rw [found] at ih
      have mem : ch ∈ s := by simpa using ih
      simp [mem]

theorem strrchr_last (last : ch ∉ t) : strrchr ch (s ++ ch :: t) = some s.length := by
  induction s with
  | nil =>
    rw [nil_append, strrchr, strrchr_none.mpr last]
    simp
  | cons x s ih =>
    rw [cons_append, strrchr, ih]
    rfl

theorem fqnameComp_eq (plain : ∀ c ∈ stack, Plain slash period c) (short : (spell slash stack).length < pathMax) :
    fqnameComp (spell slash stack) comp = if pathMax ≤ (spell slash (push period stack comp)).length then
      .error .ENAMETOOLONG else .ok (spell slash (push period stack comp)) := by
  unfold fqnameComp push
  by_cases empty : comp = []
  · simp [empty, Nat.not_le_of_lt short]
  · by_cases dot : comp = [period]
    · simp [dot, Nat.not_le_of_lt short]
    · by_cases dots : comp = [period, period]
      · simp only [dots]
        cases stack using reverseRecOn with
        | nil =>
          have small : ¬ pathMax ≤ 0 := by decide
          simp [spell, strrchr, small]
        | append_singleton stack c =>
          have last := strrchr_last (s := spell slash stack) (plain c (by simp)).noSep
          have fits : ¬ pathMax ≤ (spell slash stack).length := by
            rw [spell_append, length_append] at short
            omega
          rw [spell_append, spell_single, last]
          simp [fits]
      · have len : comp.length ≠ 0 := by simpa using empty
        simp only [empty, dot, dots, len, if_false, or_self, spell_append, spell_single]
        congr 1
        simp [add_assoc]

theorem splitOn_first {β : Type} {f : List (List Byte) → β} (skips : ∀ cs, f ([] :: cs) = f cs)
    (skips' : ∀ d cs, f (d :: [] :: cs) = f (d :: cs)) (c : Byte) (s : List Byte) :
    f ((c :: s).splitOn slash) = f ((skipSeps (c :: s)).take (compLen (skipSeps (c :: s))) ::
      ((skipSeps (c :: s)).drop (compLen (skipSeps (c :: s)))).splitOn slash) := by
  have skip : ∀ src : List Byte, f (src.splitOn slash) = f ((skipSeps src).splitOn slash) := by
    intro src
    induction src with
    | nil => rfl
    | cons x src ih =>
      by_cases sep : x = slash
      · have eq : skipSeps (x :: src) = skipSeps src := by simp [skipSeps, sep]
        rw [eq, sep, splitOn_sep, skips]
        exact ih
      · have eq : skipSeps (x :: src) = x :: src := by simp [skipSeps, sep]
        rw [eq]
  rw [skip]
  generalize skipSeps (c :: s) = src
  unfold compLen strchr
  cases found : src.findIdx? (· = slash) with
  | none =>
    have alone : slash ∉ src := by
      intro mem
      have no := findIdx?_eq_none_iff.mp found slash mem
      simp at no
    rw [splitOn_eq_singleton alone]
    simp only [Option.getD_none, take_length, drop_length, splitOn_nil]
    rw [skips']
  | some i =>
    obtain ⟨lt, idx⟩ := findIdx?_eq_some_iff_findIdx_eq.mp found
    have here : src.drop i = slash :: src.drop (i + 1) := by
      have at' : src[i] = slash := by
        have sat := @findIdx_getElem _ (fun x : Byte => decide (x = slash)) src (by rw [idx]; exact lt)
        simpa [idx] using sat
      rw [drop_eq_getElem_cons lt, at']
    have before : slash ∉ src.take i := by
      intro mem
      obtain ⟨k, hk, eq⟩ := mem_take_iff_getElem.mp mem
      have before : k < src.findIdx (· = slash) := by omega
      have no := not_of_lt_findIdx before
      simp [eq] at no
    have parts : src = src.take i ++ slash :: src.drop (i + 1) := by
      rw [← here, take_append_drop]
    have split : src.splitOn slash = src.take i :: (src.drop (i + 1)).splitOn slash := by
      conv => lhs; rw [parts]
      exact splitOn_append_cons_self_of_not_mem before _
    rw [split, Option.getD_some, here, splitOn_sep, skips']

theorem climb_src (c : Byte) (s : List Byte) (short : (spell slash stack).length < pathMax) :
    climb slash period pathMax stack ((c :: s).splitOn slash) =
      if pathMax ≤ (spell slash (push period stack ((skipSeps (c :: s)).take (compLen (skipSeps (c :: s)))))).length then none
      else climb slash period pathMax (push period stack ((skipSeps (c :: s)).take (compLen (skipSeps (c :: s)))))
        (((skipSeps (c :: s)).drop (compLen (skipSeps (c :: s)))).splitOn slash) := by
  rw [splitOn_first (fun cs => climb_nil short) _ c s, climb]
  intro d cs
  unfold climb
  split
  · rfl
  · rename_i fits
    exact climb_nil (Nat.lt_of_not_le fits)

theorem skipSeps_noSep (c : Byte) (s : List Byte) :
    slash ∉ (skipSeps (c :: s)).take (compLen (skipSeps (c :: s))) := by
  generalize skipSeps (c :: s) = src
  intro mem
  obtain ⟨k, hk, eq⟩ := mem_take_iff_getElem.mp mem
  unfold compLen strchr at hk
  cases found : src.findIdx? (· = slash) with
  | none =>
    have no := findIdx?_eq_none_iff.mp found slash (by rw [← eq]; exact getElem_mem _)
    simp at no
  | some i =>
    obtain ⟨lt, idx⟩ := findIdx?_eq_some_iff_findIdx_eq.mp found
    rw [found, Option.getD_some] at hk
    have before : k < src.findIdx (· = slash) := by omega
    have no := not_of_lt_findIdx before
    simp [eq] at no

theorem fqnameLoop_eq (plain : ∀ c ∈ stack, Plain slash period c) (short : (spell slash stack).length < pathMax) :
    fqnameLoop (spell slash stack) src = match climb slash period pathMax stack (src.splitOn slash) with
      | none => .error .ENAMETOOLONG
      | some top => .ok (spell slash top) := by
  induction len : src.length using Nat.strong_induction_on generalizing src stack with
  | _ n ih =>
    cases src with
    | nil =>
      rw [splitOn_nil, climb_nil short]
      simp [fqnameLoop, climb]
    | cons c s =>
      unfold fqnameLoop
      rw [climb_src c s short, fqnameComp_eq plain short]
      have shorter := fqname_shorter (c := c) (s := s)
      rw [len] at shorter
      by_cases long : pathMax ≤
          (spell slash (push period stack ((skipSeps (c :: s)).take (compLen (skipSeps (c :: s)))))).length
      · rw [if_pos long, if_pos long]
      · rw [if_neg long, if_neg long]
        exact ih _ shorter (plain_push plain (skipSeps_noSep c s)) (by omega) rfl

end Loop

/-- A working directory is a full name, and fits. -/
def Proper (cwd : CString) : Prop :=
  ∃ stack, (∀ c ∈ stack, Plain slash period c) ∧ cwd.1 = render slash stack ∧ (render slash stack).length < pathMax

def joined (cwd path : CString) : List Byte :=
  if path.1.head? = some slash then path.1 else cwd.1 ++ slash :: path.1

/-- A part of the name takes as much space as the buffer has. -/
def TooLong (cwd path : CString) : Prop :=
  ∃ cs, cs <+: (joined cwd path).splitOn slash ∧ pathMax ≤ (render slash (pushes period [] cs)).length

variable {stack : List (List Byte)}

theorem fqname_eq (path : CString) (plain : ∀ c ∈ stack, Plain slash period c)
    (spelled : cwd.1 = render slash stack) (short : (spell slash stack).length < pathMax) :
    fqname cwd.1 path.1 = match climb slash period pathMax (if path.1.head? = some slash then [] else stack)
        (path.1.splitOn slash) with
      | none => .error .ENAMETOOLONG
      | some top => .ok (render slash top) := by
  have ends : ∀ {base : List (List Byte)} {src : List Byte}, (∀ c ∈ base, Plain slash period c) →
      (spell slash base).length < pathMax → (match fqnameLoop (spell slash base) src with
        | Except.error e => Except.error e
        | Except.ok buf => Except.ok (if buf = [] then [slash] else buf)) =
      match climb slash period pathMax base (src.splitOn slash) with
        | none => Except.error Errno.ENAMETOOLONG
        | some top => Except.ok (render slash top) := by
    intro base src plain short
    rw [fqnameLoop_eq plain short]
    cases climb slash period pathMax base (src.splitOn slash) with
    | none => rfl
    | some top => simp only [spell_eq_nil, render]
  unfold fqname
  by_cases absolute : path.1.head? = some slash
  · have parts : path.1 = slash :: path.1.drop 1 := by
      cases chars : path.1 with
      | nil => rw [chars] at absolute; cases absolute
      | cons c s =>
        rw [chars] at absolute
        rw [head?_cons] at absolute
        rw [Option.some.inj absolute]
        rfl
    have split : path.1.splitOn slash = [] :: (path.1.drop 1).splitOn slash := by
      conv => lhs; rw [parts]
      exact splitOn_sep
    have alone : ∀ c ∈ ([] : List (List Byte)), Plain slash period c := nofun
    rw [if_pos absolute, split, climb_nil (by decide), ← ends alone (by decide)]
    simp only [absolute, ne_eq, not_true_eq_false, if_false]
    rfl
  · have base : (if cwd.1.getD 1 0 ≠ 0 then cwd.1 else []) = spell slash stack := by
      cases stack with
      | nil => rw [spelled]; rfl
      | cons d stack =>
        have first := plain d mem_cons_self
        cases d with
        | nil => exact absurd rfl first.nonempty
        | cons x d =>
          have eq : cwd.1 = spell slash ((x :: d) :: stack) := by simpa [render] using spelled
          have some : x ≠ 0 := by
            rintro rfl
            apply cwd.2
            rw [eq]
            exact mem_cons_of_mem _ mem_cons_self
          have second : cwd.1.getD 1 0 = x := by rw [eq]; rfl
          rw [second, if_pos some, eq]
    rw [if_neg absolute, ← ends plain short]
    simp only [absolute, ne_eq, not_false_eq_true, if_true]
    rw [← base]

theorem tooLong_iff (path : CString)
    (plain : ∀ c ∈ stack, Plain slash period c) (spelled : cwd.1 = render slash stack) (short : (render slash stack).length < pathMax) :
    TooLong cwd path ↔ ∃ cs, cs <+: path.1.splitOn slash ∧ pathMax ≤
      (spell slash (pushes period (if path.1.head? = some slash then [] else stack) cs)).length := by
  have tall : ∀ {st : List (List Byte)}, pathMax ≤ (render slash st).length ↔ pathMax ≤ (spell slash st).length := by
    intro st
    unfold render
    split
    · rename_i empty
      simp [empty, spell, pathMax]
    · rfl
  unfold TooLong joined
  simp only [tall]
  split
  · rfl
  · constructor
    · rintro ⟨cs, begins, long⟩
      rw [spelled, splitOn_append_cons_self] at begins
      rcases prefix_or_prefix_of_prefix begins (prefix_append _ _) with inside | ⟨ds, rfl⟩
      · have le := render_part_le plain inside
        have le' := spell_le_render slash stack
        omega
      · rw [pushes_append, splitOn_render plain] at long
        exact ⟨ds, (prefix_append_right_inj _).mp begins, long⟩
    · rintro ⟨cs, begins, long⟩
      refine ⟨cwd.1.splitOn slash ++ cs, ?_, ?_⟩
      · rw [splitOn_append_cons_self]
        exact (prefix_append_right_inj _).mpr begins
      · rw [pushes_append, spelled, splitOn_render plain]
        exact long

/-- The name is not the one that stands for the terminal of the task. -/
def NotTty (task : Task) (path : CString) : Prop := fqname task.cwd.1 path.1 = .ok devTty → task.tty.1 = []

inductive Working : Task → Prop where
  | start (tty : CString) : Working ⟨cstr [47], tty⟩
  | ctty {task : Task} (working : Working task) (tty : CString) : Working { task with tty := tty }
  | chdir {task task' : Task} (working : Working task) (tab : Table) (activate : Option Errno)
      (chdir : Fin fsMaxfs → List Byte → Option Errno) (path : CString) (notTty : NotTty task path)
      (done : fsChdir tab activate chdir task path = .ok task') : Working task'

variable {task : Task}

theorem fsFqname_eq (notTty : NotTty task path) : (fsFqname task path).map (·.1) = fqname task.cwd.1 path.1 := by
  unfold fsFqname
  split
  · rename_i e failed
    exact failed.symm
  · rename_i buf done
    have plain : ¬ (buf = devTty ∧ task.tty.1 ≠ []) := by
      rintro ⟨rfl, tty⟩
      exact tty (notTty done)
    rw [if_neg plain]
    exact done.symm

theorem Working.proper (working : Working task) : Proper task.cwd := by
  induction working with
  | start tty => exact ⟨[], nofun, rfl, by decide⟩
  | ctty _ tty ih => exact ih
  | @chdir task task' _ tab activate chdir path notTty done ih =>
    obtain ⟨stack, plain, spelled, short⟩ := ih
    have eq := fsFqname_eq notTty
    unfold fsChdir at done
    cases named : fsFqname task path with
    | error e =>
      rw [named] at done
      cases done
    | ok cwd =>
      rw [named] at done eq
      dsimp only at done
      split at done
      · cases done
      · rename_i fits
        split at done
        · cases done
        · split at done
          · cases done
          · cases done
            rw [fqname_eq path plain spelled (lt_of_le_of_lt (spell_le_render _ _) short)] at eq
            split at eq
            · cases eq
            · rename_i top climbed
              have whole := (climb_some climbed).1
              have name : cwd.1 = render slash top := by simpa [Except.map] using eq
              refine ⟨top, ?_, name, ?_⟩
              · rw [whole]
                refine plain_pushes ?_ sep_notMem_splitOn
                split
                · nofun
                · exact plain
              · rw [← name]
                omega

structure Full (task : Task) (path name : CString) : Prop where
  fits : name.1.length < pathMax
  canonical : Canonical slash period name.1
  lexical : name.1 = normal slash period (joined task.cwd path)
  again : ∀ task', Working task' → NotTty task' name → fsFqname task' name = .ok name

theorem fsFqname_of_eq (notTty : NotTty task path)
    (eq : fqname task.cwd.1 path.1 = .ok name.1) : fsFqname task path = .ok name := by
  have same := fsFqname_eq notTty
  rw [eq] at same
  cases named : fsFqname task path with
  | error e => rw [named] at same; cases same
  | ok name' =>
    rw [named] at same
    have chars : name'.1 = name.1 := by simpa [Except.map] using same
    rw [Subtype.ext chars]

theorem head_render : (render slash stack).head? = some slash := by
  unfold render
  split
  · rfl
  · cases stack with
    | nil => contradiction
    | cons d stack => rfl

theorem fqname_again {name : CString} (working : Working task)
    (plain : ∀ c ∈ stack, Plain slash period c) (spelled : name.1 = render slash stack)
    (short : (spell slash stack).length < pathMax) : fqname task.cwd.1 name.1 = .ok name.1 := by
  obtain ⟨base, plain', spelled', short'⟩ := working.proper
  have climbed : climb slash period pathMax [] (name.1.splitOn slash) = some stack := by
    rw [climb_some_iff (by decide), spelled, splitOn_render plain]
    refine ⟨rfl, fun ds begins => ?_⟩
    have le := render_part_le plain begins
    omega
  rw [fqname_eq name plain' spelled' (lt_of_le_of_lt (spell_le_render _ _) short'), if_pos (by rw [spelled, head_render]),
    climbed, spelled]

/-- The full name of a path, whatever the working directory, or the reason why it has none. -/
theorem fqname_canonical {task : Task} (working : Working task) (path : CString) (notTty : NotTty task path) :
    (match fsFqname task path with
      | .error e => e = .ENAMETOOLONG ∧ TooLong task.cwd path
      | .ok name => Full task path name ∧ ¬ TooLong task.cwd path) ∧
    (path.1.head? = some slash → ∀ task', Working task' → NotTty task' path →
      fsFqname task' path = fsFqname task path) := by
  obtain ⟨stack, plain, spelled, short⟩ := working.proper
  have low := lt_of_le_of_lt (spell_le_render _ _) short
  have eq := fqname_eq path plain spelled low
  have long := tooLong_iff path plain spelled short
  constructor
  · have base : ∀ c ∈ if path.1.head? = some slash then [] else stack, Plain slash period c := by
      split
      · nofun
      · exact plain
    have lowBase : (spell slash (if path.1.head? = some slash then [] else stack)).length < pathMax := by
      split
      · decide
      · exact low
    have same := fsFqname_eq notTty
    rw [eq] at same
    cases climbed : climb slash period pathMax (if path.1.head? = some slash then [] else stack)
        (path.1.splitOn slash) with
    | none =>
      rw [climbed] at same
      cases named : fsFqname task path with
      | ok name => rw [named] at same; cases same
      | error e =>
        rw [named] at same
        exact ⟨Except.error.inj same, long.mpr (climb_none climbed)⟩
    | some top =>
      rw [climbed] at same
      obtain ⟨whole, parts⟩ := (climb_some_iff lowBase).mp climbed
      cases named : fsFqname task path with
      | error e => rw [named] at same; cases same
      | ok name =>
        rw [named] at same
        have chars : name.1 = render slash top := by simpa [Except.map] using same
        have plainTop : ∀ c ∈ top, Plain slash period c := by
          rw [whole]
          exact plain_pushes base sep_notMem_splitOn
        have lowTop : (spell slash top).length < pathMax := by
          rw [whole]
          exact parts _ (prefix_refl _)
        refine ⟨⟨?_, ?_, ?_, ?_⟩, ?_⟩
        · have le := render_le slash top
          rw [chars]
          unfold render
          split
          · decide
          · exact lowTop
        · rw [chars]
          exact canonical_render plainTop
        · rw [chars, whole]
          unfold joined
          split
          · rfl
          · rw [spelled, normal_join plain]
        · intro task' working' notTty'
          exact fsFqname_of_eq notTty' (fqname_again working' plainTop chars lowTop)
        · rw [long]
          rintro ⟨cs, begins, tall⟩
          have below := parts cs begins
          omega
  · intro absolute task' working' notTty'
    obtain ⟨stack', plain', spelled', short'⟩ := working'.proper
    have eq' := fqname_eq path plain' spelled' (lt_of_le_of_lt (spell_le_render _ _) short')
    rw [if_pos absolute] at eq eq'
    have same := fsFqname_eq notTty
    have same' := fsFqname_eq notTty'
    rw [eq] at same
    rw [eq', ← same] at same'
    cases named : fsFqname task path with
    | error e =>
      cases named' : fsFqname task' path with
      | error e' =>
        rw [named, named'] at same'
        have code : (Except.error e' : Except Errno (List Byte)) = Except.error e := same'
        rw [Except.error.inj code]
      | ok name => rw [named, named'] at same'; cases same'
    | ok name =>
      cases named' : fsFqname task' path with
      | error e' => rw [named, named'] at same'; cases same'
      | ok name' =>
        rw [named, named'] at same'
        have chars : name'.1 = name.1 := by simpa [Except.map] using same'
        rw [Subtype.ext chars]

def dotted : CString := cstr [46, 46, 47, 97, 47, 46, 47, 98, 47, 47]

theorem fqname_canonical_dotted : Full ⟨cstr [47], cstr []⟩ dotted (cstr [47, 97, 47, 98]) := by
  have full := (fqname_canonical (.start (cstr [])) dotted fun _ => rfl).1
  have named : fsFqname ⟨cstr [47], cstr []⟩ dotted = .ok (cstr [47, 97, 47, 98]) := by
    have alone : ∀ c ∈ ([] : List (List Byte)), Plain slash period c := nofun
    refine fsFqname_of_eq (fun _ => rfl) ?_
    rw [fqname_eq dotted alone rfl (by decide)]
    decide
  rw [named] at full
  exact full.1

end Vfs
