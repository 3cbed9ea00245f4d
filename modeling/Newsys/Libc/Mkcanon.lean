import Newsys.Lib.Cmd
import Newsys.Kern.Names

/- Full names in programs (lib/mkcanon.c), which are to be those that the kernel makes. The string in `lbuf` up to `d_p` is
   the buffer of the loop; a write behind the `PATH_MAX` bytes of `lbuf` is a crash. -/
namespace Mkcanon
open Bytes Kern Lexical Vfs Cmds List

def canonComp (buf comp : List Byte) : Res Errno (List Byte) :=
  if comp.length = 0 then .ok buf
  else if comp = [period] then .ok buf
  else if comp = [period, period] then
    if pathMax ≤ buf.length then .crash
    else match strrchr slash buf with
      | none => .ok []
      | some prev => .ok (buf.take prev)
  else if pathMax ≤ buf.length + comp.length then .err .ENAMETOOLONG
  else .ok (buf ++ slash :: comp)

def canonLoop (buf src : List Byte) : Res Errno (List Byte) :=
  match src with
  | [] => if pathMax ≤ buf.length then .crash else .ok buf
  | c :: s =>
    match canonComp buf ((skipSeps (c :: s)).take (compLen (skipSeps (c :: s)))) with
    | .ok buf => canonLoop buf ((skipSeps (c :: s)).drop (compLen (skipSeps (c :: s))))
    | .err e => .err e
    | .crash => .crash
termination_by src.length
decreasing_by exact fqname_shorter

/-- `getcwd` with a buffer of `PATH_MAX` bytes, where `curr` is the working directory of the task. -/
def getcwd (curr : List Byte) : Except Errno (List Byte) :=
  if pathMax ≤ curr.length then .error .ENAMETOOLONG else .ok curr

def mkcanon (curr : List Byte) (cwd : Option (List Byte)) (path : List Byte) : Res Errno (List Byte) :=
  match (match cwd with | none => getcwd curr | some cwd => Except.ok cwd) with
  | .error e => .err e
  | .ok cwd =>
    if pathMax ≤ cwd.length then .err .ENAMETOOLONG
    else if path.head? ≠ some slash then canonLoop (if cwd = [slash] then [] else cwd) path
    else canonLoop [] path

/-- It does what `fs_fqname` does but for the name of the root, and stays inside its buffers. -/
def Agrees (curr : List Byte) (cwd : Option (List Byte)) (path : List Byte) : Prop :=
  match mkcanon curr cwd path with
  | .ok name => ∃ full, fqname curr path = .ok full ∧ name = if full = [slash] then [] else full
  | .err e => e = .ENAMETOOLONG ∧ fqname curr path = .error .ENAMETOOLONG
  | .crash => False

/- The loop on the components -/

section Loop
variable {stack : List (List Byte)} {comp src : List Byte} {cs : List (List Byte)}

def canonClimb (stack : List (List Byte)) : List (List Byte) → Res Errno (List Byte)
  | [] => if pathMax ≤ (spell slash stack).length then .crash else .ok (spell slash stack)
  | c :: cs =>
    if c = [period, period] ∧ pathMax ≤ (spell slash stack).length then .crash
    else if pathMax < (spell slash (push period stack c)).length then .err .ENAMETOOLONG
    else canonClimb (push period stack c) cs

theorem canonComp_eq (plain : ∀ c ∈ stack, Plain slash period c) (short : (spell slash stack).length ≤ pathMax) :
    canonComp (spell slash stack) comp =
      if comp = [period, period] ∧ pathMax ≤ (spell slash stack).length then .crash
      else if pathMax < (spell slash (push period stack comp)).length then .err .ENAMETOOLONG
      else .ok (spell slash (push period stack comp)) := by
  unfold canonComp push
  by_cases empty : comp = []
  · simp [empty, Nat.not_lt_of_le short]
  by_cases dot : comp = [period]
  · simp [dot, Nat.not_lt_of_le short]
  by_cases dots : comp = [period, period]
  · by_cases full : pathMax ≤ (spell slash stack).length
    · simp [dots, full]
    · cases stack using reverseRecOn with
      | nil =>
        have small : ¬ pathMax ≤ 0 := by decide
        simp [dots, spell, strrchr, small]
      | append_singleton stack c =>
        have last := strrchr_last (s := spell slash stack) (plain c (by simp)).noSep
        have fits : ¬ pathMax < (spell slash stack).length := by
          rw [spell_append, length_append] at short
          omega
        simp only [dots, full]
        rw [spell_append, spell_single, last]
        simp [fits]
  · have len : comp.length ≠ 0 := by simpa using empty
    simp only [empty, dot, dots, len, if_false, or_self, false_and, spell_append, spell_single, length_append,
      length_cons]
    by_cases long : pathMax ≤ (spell slash stack).length + comp.length
    · rw [if_pos long, if_pos (by omega)]
    · rw [if_neg long, if_neg (by omega)]

theorem canonClimb_nil (short : (spell slash stack).length ≤ pathMax) : canonClimb stack ([] :: cs) = canonClimb stack cs := by
  have plain : ¬ (([] : List Byte) = [period, period] ∧ pathMax ≤ (spell slash stack).length) := nofun
  rw [canonClimb, if_neg plain, push_nil, if_neg (Nat.not_lt_of_le short)]

theorem canonLoop_eq (plain : ∀ c ∈ stack, Plain slash period c) (short : (spell slash stack).length ≤ pathMax) :
    canonLoop (spell slash stack) src = canonClimb stack (src.splitOn slash) := by
  induction len : src.length using Nat.strong_induction_on generalizing src stack with
  | _ n ih =>
    cases src with
    | nil =>
      rw [splitOn_nil, canonClimb_nil short]
      simp [canonLoop, canonClimb]
    | cons c s =>
      have shorter := fqname_shorter (c := c) (s := s)
      rw [len] at shorter
      unfold canonLoop
      rw [splitOn_first (fun cs => canonClimb_nil short) _ c s, canonClimb, canonComp_eq plain short]
      · by_cases beyond : (skipSeps (c :: s)).take (compLen (skipSeps (c :: s))) = [period, period] ∧
            pathMax ≤ (spell slash stack).length
        · rw [if_pos beyond, if_pos beyond]
        rw [if_neg beyond, if_neg beyond]
        by_cases long : pathMax <
            (spell slash (push period stack ((skipSeps (c :: s)).take (compLen (skipSeps (c :: s)))))).length
        · rw [if_pos long, if_pos long]
        · rw [if_neg long, if_neg long]
          exact ih _ shorter (plain_push plain (skipSeps_noSep c s)) (Nat.le_of_not_lt long) rfl
      · intro d cs
        unfold canonClimb
        split
        · rfl
        · split
          · rfl
          · rename_i long
            exact canonClimb_nil (Nat.le_of_not_lt long)

theorem canonClimb_full (full : (spell slash stack).length = pathMax) :
    (Brims slash period pathMax stack cs → canonClimb stack cs = .crash) ∧
      (¬ Brims slash period pathMax stack cs → canonClimb stack cs = .err .ENAMETOOLONG) := by
  induction cs with
  | nil =>
    rw [canonClimb, Brims, if_pos (le_of_eq full.symm)]
    exact ⟨fun _ => rfl, fun not => absurd full not⟩
  | cons c cs ih =>
    rw [canonClimb, Brims]
    by_cases dots : c = [period, period]
    · rw [if_pos ⟨dots, le_of_eq full.symm⟩]
      exact ⟨fun _ => rfl, fun not => absurd (.inl ⟨full, dots⟩) not⟩
    rw [if_neg fun both => dots both.1]
    by_cases skip : c = [] ∨ c = [period]
    · have same : push period stack c = stack := by rw [push, if_pos skip]
      rw [same, if_neg (by omega)]
      constructor
      · rintro (⟨-, eq⟩ | ⟨-, brims⟩)
        · exact absurd eq dots
        · exact ih.1 brims
      · exact fun not => ih.2 fun brims => not (.inr ⟨le_of_eq full, brims⟩)
    · have grown : pathMax < (spell slash (push period stack c)).length := by
        rw [push, if_neg skip, if_neg dots, spell_append, spell_single, length_append, length_cons]
        omega
      rw [if_pos grown]
      refine ⟨?_, fun _ => rfl⟩
      rintro (⟨-, eq⟩ | ⟨le, -⟩)
      · exact absurd eq dots
      · omega

theorem canonClimb_eq (short : (spell slash stack).length < pathMax) : match climb slash period pathMax stack cs with
    | some top => canonClimb stack cs = .ok (spell slash top) ∧ ¬ Brims slash period pathMax stack cs
    | none => (Brims slash period pathMax stack cs → canonClimb stack cs = .crash) ∧
      (¬ Brims slash period pathMax stack cs → canonClimb stack cs = .err .ENAMETOOLONG) := by
  induction cs generalizing stack with
  | nil =>
    rw [climb, canonClimb, Brims, if_neg (by omega)]
    exact ⟨rfl, ne_of_lt short⟩
  | cons c cs ih =>
    have brims : Brims slash period pathMax stack (c :: cs) ↔ (spell slash (push period stack c)).length ≤ pathMax ∧
        Brims slash period pathMax (push period stack c) cs := by
      rw [Brims]
      exact or_iff_right fun both => absurd both.1 (ne_of_lt short)
    have mine : canonClimb stack (c :: cs) = if pathMax < (spell slash (push period stack c)).length then
        .err .ENAMETOOLONG else canonClimb (push period stack c) cs := by
      rw [canonClimb, if_neg fun both => absurd both.2 (Nat.not_le_of_lt short)]
    rw [climb, brims, mine]
    by_cases more : (spell slash (push period stack c)).length < pathMax
    · rw [if_neg (Nat.not_le_of_lt more), if_neg (by omega), and_iff_right (Nat.le_of_lt more)]
      exact ih more
    rw [if_pos (Nat.le_of_not_lt more)]
    by_cases full : (spell slash (push period stack c)).length = pathMax
    · rw [if_neg (by omega), and_iff_right (Nat.le_of_eq full)]
      exact canonClimb_full full
    · rw [if_pos (by omega)]
      exact ⟨fun both => absurd both.1 (by omega), fun _ => rfl⟩

end Loop

variable {stack : List (List Byte)}

theorem unrender (plain : ∀ c ∈ stack, Plain slash period c) :
    (if render slash stack = [slash] then [] else render slash stack) = spell slash stack := by
  rw [render]
  by_cases empty : stack = []
  · rw [if_pos empty, if_pos rfl, empty]
    rfl
  · cases stack with
    | nil => exact absurd rfl empty
    | cons d stack =>
      have some' := (plain d mem_cons_self).nonempty
      rw [if_neg empty, if_neg]
      intro eq
      rw [spell, flatMap_cons, cons_append] at eq
      exact some' (append_eq_nil_iff.mp (cons.inj eq).2).1

theorem mkcanon_eq {cwd : CString} (path : CString) (plain : ∀ c ∈ stack, Plain slash period c)
    (spelled : cwd.1 = render slash stack) (short : (render slash stack).length < pathMax) {arg : Option (List Byte)}
    (same : arg.getD cwd.1 = cwd.1) : mkcanon cwd.1 arg path.1 =
      canonClimb (if path.1.head? = some slash then [] else stack) (path.1.splitOn slash) := by
  have base : (if cwd.1 = [slash] then [] else cwd.1) = spell slash stack := by
    rw [spelled]
    exact unrender plain
  have here : (match arg with | none => getcwd cwd.1 | some cwd => Except.ok cwd) = .ok cwd.1 := by
    cases arg with
    | none => rw [getcwd, spelled, if_neg (Nat.not_le_of_lt short)]
    | some c => exact congrArg _ same
  have fits : ¬ pathMax ≤ cwd.1.length := by
    rw [spelled]
    omega
  have alone : ∀ c ∈ ([] : List (List Byte)), Plain slash period c := nofun
  unfold mkcanon
  rw [here]
  dsimp only
  rw [if_neg fits]
  by_cases absolute : path.1.head? = some slash
  · rw [if_neg (not_not_intro absolute), if_pos absolute]
    exact canonLoop_eq alone (by decide)
  · rw [if_pos absolute, if_neg absolute, base]
    exact canonLoop_eq plain (le_of_lt (lt_of_le_of_lt (spell_le_render _ _) short))

theorem brims_joined (plain : ∀ c ∈ stack, Plain slash period c)
    (spelled : cwd.1 = render slash stack) (short : (render slash stack).length < pathMax) :
    Brims slash period pathMax [] ((joined cwd path).splitOn slash) ↔
      Brims slash period pathMax (if path.1.head? = some slash then [] else stack) (path.1.splitOn slash) := by
  unfold joined
  split
  · rfl
  · rw [spelled, splitOn_append_cons_self, brims_append, splitOn_render plain]
    intro es begins
    have le := render_part_le plain begins
    have le' := spell_le_render slash stack
    omega

/-- `_mkcanon` does what `fs_fqname` does exactly where the name does not come to be as long as the buffer before a double
    dot or its end. -/
theorem mkcanon_agrees {cwd path : CString} {arg : Option (List Byte)} (proper : Proper cwd) (same : arg.getD cwd.1 = cwd.1) :
    Agrees cwd.1 arg path.1 ↔ ¬ Brims slash period pathMax [] ((joined cwd path).splitOn slash) := by
  obtain ⟨stack, plain, spelled, short⟩ := proper
  have low := lt_of_le_of_lt (spell_le_render slash stack) short
  rw [Agrees, mkcanon_eq path plain spelled short same, fqname_eq path plain spelled low, brims_joined plain spelled short]
  have begin' : (spell slash (if path.1.head? = some slash then [] else stack)).length < pathMax := by
    split
    · decide
    · exact low
  have plain' : ∀ c ∈ (if path.1.head? = some slash then [] else stack), Plain slash period c := by
    split
    · nofun
    · exact plain
  generalize (if path.1.head? = some slash then [] else stack) = base at begin' plain' ⊢
  have both := @canonClimb_eq _ (path.1.splitOn slash) begin'
  cases climbed : climb slash period pathMax base (path.1.splitOn slash) with
  | none =>
    rw [climbed] at both
    dsimp only at both
    by_cases brims : Brims slash period pathMax base (path.1.splitOn slash)
    · rw [both.1 brims]
      exact ⟨False.elim, fun not => not brims⟩
    · rw [both.2 brims]
      exact ⟨fun _ => brims, fun _ => ⟨rfl, rfl⟩⟩
  | some top =>
    rw [climbed] at both
    rw [both.1]
    refine ⟨fun _ => both.2, fun _ => ⟨_, rfl, ?_⟩⟩
    rw [(climb_some climbed).1, unrender (plain_pushes plain' sep_notMem_splitOn)]

/-- `..` in the root, and a name behind it. -/
theorem mkcanon_agrees_dots : Agrees [47] none [46, 46, 47, 97] := by
  have parts : (joined ⟨[47], by decide⟩ ⟨[46, 46, 47, 97], by decide⟩).splitOn slash = [[], [], [46, 46], [97]] := by decide
  have low : ¬ Brims slash period pathMax [] [[], [], [46, 46], [97]] := by simp [Brims, spell, push, period, pathMax]
  exact (@mkcanon_agrees ⟨[47], by decide⟩ ⟨[46, 46, 47, 97], by decide⟩ _
    ⟨[], by simp, rfl, by decide⟩ rfl).2 (by rw [parts]; exact low)

/-- In the root a name of 255 bytes is written with its separator and a null byte behind them. -/
theorem mkcanon_overruns : (replicate 255 (97 : Byte)).length < pathMax ∧
    ¬ Agrees [47] (some [47]) (replicate 255 97) := by
  refine ⟨by rw [length_replicate]; decide, ?_⟩
  have noSep : slash ∉ replicate 255 (97 : Byte) := fun mem => absurd (eq_of_mem_replicate mem) (by decide)
  have loop := @canonLoop_eq [] (replicate 255 97) nofun (by decide)
  have start : canonLoop [] (replicate 255 97) = .crash := by
    have len : (replicate 255 (97 : Byte)).length = 255 := length_replicate
    rw [splitOn_eq_singleton noSep] at loop
    generalize replicate 255 (97 : Byte) = name at loop len noSep
    have plain : Plain slash period name := by
      refine ⟨?_, noSep, ?_, ?_⟩ <;> rintro rfl <;> simp at len
    have pushed : push period [] name = [name] := push_plain plain
    have full : (spell slash [name]).length = pathMax := by
      rw [spell_single, length_cons, len]
      rfl
    have notDots : ¬ (name = [period, period] ∧ pathMax ≤ (spell slash []).length) := fun both => plain.notDots both.1
    rw [canonClimb, if_neg notDots, pushed, full, if_neg (lt_irrefl _), canonClimb, full, if_pos (le_refl _)] at loop
    exact loop
  have all : mkcanon [47] (some [47]) (replicate 255 97) = canonLoop [] (replicate 255 97) := rfl
  rw [Agrees, all, start]
  exact id

end Mkcanon
