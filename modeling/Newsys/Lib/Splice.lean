import Mathlib.Logic.Relation
import Mathlib.Data.List.Basic

/- References in a text that are replaced in place and read again, and the nested expansion in which each value is
   expanded on its own, over any characters, any way to find a reference and any values. -/
namespace Splice

variable {α : Type}

/-- The first reference of a text: there is none, it is not closed, or it stands between two parts of the text. -/
inductive Found (α : Type) where
  | none
  | unclosed
  | ref (pre r post : List α)

inductive Halt (α : Type) where
  | done (text : List α) (fail : Bool)
  | full
  deriving DecidableEq

section Machines
variable (find : List α → Found α) (value : List α → Option (List α)) (limit : Nat)

/-- The replacement in place, in a buffer that is read from behind `read` on. -/
def run : Nat → List α → List α → Option (Halt α)
  | 0, _, _ => none
  | n + 1, read, rest =>
    match find rest with
    | .none => some (.done (read ++ rest) false)
    | .unclosed => some (.done (read ++ rest) true)
    | .ref pre r post =>
      match value r with
      | none => run n (read ++ pre ++ r) post
      | some v =>
        if (read ++ pre ++ v ++ post).length < limit then run n read (pre ++ v ++ post) else some .full

inductive Expands : List α → List α → Bool → Prop
  | none {t} (none : find t = .none) : Expands t t false
  | unclosed {t} (unclosed : find t = .unclosed) : Expands t t true
  | kept {t pre r post out fail} (here : find t = .ref pre r post) (undefined : value r = none)
      (behind : Expands post out fail) : Expands t (pre ++ r ++ out) fail
  | put {t pre r post v e out fail} (here : find t = .ref pre r post) (is : value r = some v)
      (inner : Expands v e false) (behind : Expands post out fail) : Expands t (pre ++ e ++ out) fail
  | broken {t pre r post v e} (here : find t = .ref pre r post) (is : value r = some v)
      (inner : Expands v e true) : Expands t (pre ++ e ++ post) true

inductive ExpandsAll : List (List α) → List α → Bool → Prop
  | nil : ExpandsAll [] [] false
  | cons {t ts e out fail} (first : Expands find value t e false) (behind : ExpandsAll ts out fail) :
      ExpandsAll (t :: ts) (e ++ out) fail
  | broken {t ts e} (first : Expands find value t e true) : ExpandsAll (t :: ts) (e ++ ts.flatten) true

inductive Next (α : Type) where
  | none
  | unclosed
  | ref (pre r : List α) (left : List (List α))

def Next.after (t : List α) : Next α → Next α
  | .ref pre r left => .ref (t ++ pre) r left
  | other => other

def Next.joined : Next α → Found α
  | .none => .none
  | .unclosed => .unclosed
  | .ref pre r left => .ref pre r left.flatten

def next : List (List α) → Next α
  | [] => .none
  | t :: ts =>
    match find t with
    | .none => (next ts).after t
    | .unclosed => .unclosed
    | .ref pre r post => .ref pre r (post :: ts)

/-- The nested expansion: what is read, and the texts that are not, the value that is being expanded first. -/
abbrev State (α : Type) := List α × List (List α)

inductive Turn : State α → State α → Prop
  | kept {read ts pre r left} (here : next find ts = .ref pre r left) (undefined : value r = none) :
      Turn (read, ts) (read ++ pre ++ r, left)
  | put {read ts pre r left v} (here : next find ts = .ref pre r left) (is : value r = some v) :
      Turn (read, ts) (read, pre :: v :: left)

def Reached : State α → State α → Prop := Relation.ReflTransGen (Turn find value)

def Aligned (s : State α) : Prop := find s.2.flatten = (next find s.2).joined

def Fits (s : State α) : Prop := (s.1 ++ s.2.flatten).length < limit

def Ends (s : State α) : Prop := Acc (fun s' s => Turn find value s s') s

end Machines

variable {find : List α → Found α} {value : List α → Option (List α)} {limit : Nat}

variable {ts : List (List α)}

theorem expandsAll_none (none : next find ts = .none) : ExpandsAll find value ts ts.flatten false := by
  induction ts with
  | nil => exact .nil
  | cons t ts ih =>
    cases here : find t with
    | none =>
      cases behind : next find ts with
      | none => exact .cons (.none here) (ih behind)
      | unclosed => simp [next, here, behind, Next.after] at none
      | ref pre r left => simp [next, here, behind, Next.after] at none
    | unclosed => simp [next, here] at none
    | ref pre r post => simp [next, here] at none

theorem expandsAll_unclosed (unclosed : next find ts = .unclosed) : ExpandsAll find value ts ts.flatten true := by
  induction ts with
  | nil => cases unclosed
  | cons t ts ih =>
    cases here : find t with
    | none =>
      cases behind : next find ts with
      | none => simp [next, here, behind, Next.after] at unclosed
      | unclosed => exact .cons (.none here) (ih behind)
      | ref pre r left => simp [next, here, behind, Next.after] at unclosed
    | unclosed => exact .broken (.unclosed here)
    | ref pre r post => simp [next, here] at unclosed

variable {t pre r : List α} {left : List (List α)}

theorem next_ref (here : next find (t :: ts) = .ref pre r left) :
    (∃ post, find t = .ref pre r post ∧ left = post :: ts) ∨
      ∃ pre', find t = .none ∧ next find ts = .ref pre' r left ∧ pre = t ++ pre' := by
  cases first : find t with
  | none =>
    cases behind : next find ts with
    | none => simp [next, first, behind, Next.after] at here
    | unclosed => simp [next, first, behind, Next.after] at here
    | ref pre' r' left' =>
      simp only [next, first, behind, Next.after, Next.ref.injEq] at here
      obtain ⟨rfl, rfl, rfl⟩ := here
      exact .inr ⟨pre', rfl, rfl, rfl⟩
  | unclosed => simp [next, first] at here
  | ref pre' r' post =>
    simp only [next, first, Next.ref.injEq] at here
    obtain ⟨rfl, rfl, rfl⟩ := here
    exact .inl ⟨post, rfl, rfl⟩

variable {out : List α} {fail : Bool}

theorem expandsAll_kept (here : next find ts = .ref pre r left) (undefined : value r = none)
    (behind : ExpandsAll find value left out fail) : ExpandsAll find value ts (pre ++ r ++ out) fail := by
  induction ts generalizing pre with
  | nil => cases here
  | cons t ts ih =>
    rcases next_ref here with ⟨post, first, rfl⟩ | ⟨pre', first, later, rfl⟩
    · cases behind with
      | cons inPost inRest =>
        have whole := ExpandsAll.cons (Expands.kept first undefined inPost) inRest
        simpa using whole
      | broken inPost =>
        have whole : ExpandsAll find value (t :: ts) _ true := .broken (.kept first undefined inPost)
        simpa using whole
    · have whole := ExpandsAll.cons (.none first) (ih later)
      simpa using whole

theorem expandsAll_put (here : next find ts = .ref pre r left) (is : value r = some v)
    (behind : ExpandsAll find value (v :: left) out fail) : ExpandsAll find value ts (pre ++ out) fail := by
  induction ts generalizing pre with
  | nil => cases here
  | cons t ts ih =>
    rcases next_ref here with ⟨post, first, rfl⟩ | ⟨pre', first, later, rfl⟩
    · cases behind with
      | cons inValue inLeft =>
        cases inLeft with
        | cons inPost inRest =>
          have whole := ExpandsAll.cons (Expands.put first is inValue inPost) inRest
          simpa using whole
        | broken inPost =>
          have whole : ExpandsAll find value (t :: ts) _ true := .broken (.put first is inValue inPost)
          simpa using whole
      | broken inValue =>
        have whole : ExpandsAll find value (t :: ts) _ true := .broken (.broken first is inValue)
        simpa using whole
    · have whole := ExpandsAll.cons (.none first) (ih later)
      simpa using whole

theorem expandsAll_plain (plain : find t = .none)
    (all : ExpandsAll find value (t :: ts) out fail) : ∃ out', out = t ++ out' ∧ ExpandsAll find value ts out' fail := by
  cases all with
  | cons first behind =>
    cases first with
    | none => exact ⟨_, rfl, behind⟩
    | kept here => cases plain.symm.trans here
    | put here => cases plain.symm.trans here
  | broken first =>
    cases first with
    | unclosed here => cases plain.symm.trans here
    | kept here => cases plain.symm.trans here
    | put here => cases plain.symm.trans here
    | broken here => cases plain.symm.trans here

def Leftmost (find : List α → Found α) : Prop :=
  ∀ t pre r post, find t = .ref pre r post → t = pre ++ r ++ post ∧ find pre = .none

theorem expandsAll_single (all : ExpandsAll find value [t] out fail) : Expands find value t out fail := by
  cases all with
  | cons first behind =>
    cases behind
    simpa using first
  | broken first => simpa using first

/-- If the nested expansion ends and fits and no reference is put together from two texts, the replacement in place
    has its result. -/
theorem run_of_ends (leftmost : Leftmost find) (ends : Ends find value s)
    (good : ∀ s', Reached find value s s' → Aligned find s' ∧ Fits limit s') :
    ∃ n out fail, run find value limit n s.1 s.2.flatten = some (.done (s.1 ++ out) fail) ∧
      ExpandsAll find value s.2 out fail := by
  induction ends with
  | intro s _ ih =>
    obtain ⟨read, ts⟩ := s
    obtain ⟨aligned, -⟩ := good _ .refl
    change find ts.flatten = _ at aligned
    have onward := fun s' turn => ih s' turn fun s'' reached => good s'' (.head turn reached)
    cases here : next find ts with
    | none =>
      rw [here, Next.joined] at aligned
      exact ⟨1, ts.flatten, false, by rw [run, aligned], expandsAll_none here⟩
    | unclosed =>
      rw [here, Next.joined] at aligned
      exact ⟨1, ts.flatten, true, by rw [run, aligned], expandsAll_unclosed here⟩
    | ref pre r left =>
      simp only [here, Next.joined] at aligned
      cases defined : value r with
      | none =>
        obtain ⟨n, out, fail, ran, all⟩ := onward _ (.kept here defined)
        refine ⟨n + 1, pre ++ r ++ out, fail, ?_, expandsAll_kept here defined all⟩
        simp only [run, aligned, defined]
        simpa using ran
      | some v =>
        have turn : Turn find value (read, ts) (read, pre :: v :: left) := .put here defined
        obtain ⟨n, out, fail, ran, all⟩ := onward _ turn
        obtain ⟨-, fits⟩ := good _ (.single turn)
        obtain ⟨out', rfl, rest⟩ := expandsAll_plain (leftmost _ _ _ _ aligned).2 all
        refine ⟨n + 1, pre ++ out', fail, ?_, expandsAll_put here defined rest⟩
        have room : (read ++ pre ++ v ++ left.flatten).length < limit := by simpa [Fits] using fits
        simp only [run, aligned, defined, if_pos room]
        simpa using ran

theorem ends_of_run (leftmost : Leftmost find) (fits : Fits limit s)
    (aligned : ∀ s', Reached find value s s' → Aligned find s')
    (ran : run find value limit n s.1 s.2.flatten = some (.done text fail)) :
    Ends find value s ∧ ∀ s', Reached find value s s' → Fits limit s' := by
  induction n generalizing s with
  | zero => cases ran
  | succ n ih =>
    -- It is enough to look at the states behind the next turn.
    suffices onward : ∀ s', Turn find value s s' → Ends find value s' ∧ ∀ s'', Reached find value s' s'' → Fits limit s'' by
      refine ⟨.intro s fun s' turn => (onward s' turn).1, fun s' reached => ?_⟩
      rcases Relation.ReflTransGen.cases_head reached with rfl | ⟨next, turn, later⟩
      · exact fits
      · exact (onward next turn).2 s' later
    intro s' turn
    have later : ∀ s'', Reached find value s' s'' → Aligned find s'' := fun s'' reached =>
      aligned s'' (.head turn reached)
    have here : Aligned find s := aligned s .refl
    cases turn with
    | kept next undefined =>
      simp only [Aligned, next, Next.joined] at here
      simp only [run, here, undefined] at ran
      obtain ⟨whole, -⟩ := leftmost _ _ _ _ here
      exact ih (by simpa [Fits, whole] using fits) later ran
    | put next is =>
      simp only [Aligned, next, Next.joined] at here
      simp only [run, here, is] at ran
      split at ran
      · next room => exact ih (by simpa [Fits] using room) later (by simpa using ran)
      · cases ran

end Splice
