import Mathlib.Data.List.Infix

/- Logs to which events are only added at the end, and in which what justifies an event stands before it. -/
namespace Log
open List

variable {ε : Type} {ok : List ε → ε → Prop} {log log' : List ε} {e : ε}

def Justified (ok : List ε → ε → Prop) (log : List ε) : Prop :=
  ∀ before e after, log = before ++ e :: after → ok before e

theorem justified_nil : Justified ok [] := by
  intro before e after eq
  cases before <;> cases eq

theorem Justified.add (all : Justified ok log) (here : ok log e) : Justified ok (log ++ [e]) := by
  intro before d after eq
  rcases eq_nil_or_concat after with none | ⟨rest, last, some⟩
  · rw [none, ← concat_eq_append, ← concat_eq_append, concat_inj] at eq
    obtain ⟨rfl, rfl⟩ := eq
    exact here
  · rw [some, concat_eq_append, ← cons_append, ← append_assoc] at eq
    have inner := append_inj_left' eq rfl
    exact all before d rest inner

theorem prefix_add (log : List ε) (e : ε) : log <+: log ++ [e] := ⟨[e], rfl⟩

theorem mem_add (log : List ε) (e : ε) : e ∈ log ++ [e] := mem_append_right _ (mem_singleton_self e)

end Log
