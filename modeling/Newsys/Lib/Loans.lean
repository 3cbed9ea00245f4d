import Mathlib.Data.List.Perm.Basic
import Newsys.Lib.Cmd

/- References that a command takes and gives back. What a state holds is counted; a command trades the
   references of one list for those of another, whatever else is held by others. -/
namespace Loans
open Cmds Cmd

variable {ε σ α β ι ρ : Type} [DecidableEq ρ] {count : σ → ρ → Nat}

/-- Besides those counted in `base`, the state has the references of the list. -/
def Owes (count : σ → ρ → Nat) (base : ρ → Nat) (held : List ρ) (s : σ) : Prop :=
  ∀ r, count s r = base r + held.count r

/-- What a run has to end with: the references of `post`, or those of `out` when it fails. -/
def Settled (count : σ → ρ → Nat) (base : ρ → Nat) (post : α → List ρ) (out : List ρ) : Res ε α → σ → Prop
  | .ok a, t => Owes count base (post a) t
  | .err _, t => Owes count base out t
  | .crash, _ => False

structure Trades (count : σ → ρ → Nat) (m : Cmd ε σ α) (pre : List ρ) (post : α → List ρ) (out : List ρ) : Prop where
  run : ∀ base s, Owes count base pre s → wp m (Settled count base post out) s

variable {base : ρ → Nat} {l : List ρ} {s : σ}

theorem Owes.perm (owes : Owes count base l s) (p : l.Perm l') : Owes count base l' s := by
  intro r
  rw [owes r, p.count_eq]

variable {r : ρ}

theorem Owes.pos (owes : Owes count base (r :: l) s) : 0 < count s r := by
  rw [owes r, List.count_cons_self]
  omega

variable {t : σ}

theorem Owes.take (owes : Owes count base l s)
    (self : count t r = count s r + 1) (others : ∀ r', r' ≠ r → count t r' = count s r') :
    Owes count base (r :: l) t := by
  intro r'
  by_cases eq : r' = r
  · rw [eq, self, owes r, List.count_cons_self]
    omega
  · rw [others r' eq, owes r', List.count_cons_of_ne (Ne.symm eq)]

theorem Owes.give (owes : Owes count base (r :: l) s)
    (self : count t r = count s r - 1) (others : ∀ r', r' ≠ r → count t r' = count s r') : Owes count base l t := by
  intro r'
  by_cases eq : r' = r
  · rw [eq, self, owes r, List.count_cons_self]
    omega
  · rw [others r' eq, owes r', List.count_cons_of_ne (Ne.symm eq)]

theorem Owes.same (owes : Owes count base l s) (same : ∀ r, count t r = count s r) : Owes count base l t := by
  intro r
  rw [same r, owes r]

section Rules
variable {m : Cmd ε σ α} {f : α → Cmd ε σ β} {pre pre' x out : List ρ} {post mid : α → List ρ}

theorem trades_pure (a : α) : Trades count (pure a : Cmd ε σ α) (post a) post out :=
  ⟨fun _ _ owes => owes⟩

theorem trades_done (a : α) : Trades count (pure a : Cmd ε σ α) x (fun _ => x) out :=
  ⟨fun _ _ owes => owes⟩

theorem trades_fail (e : ε) : Trades count (Cmd.fail e : Cmd ε σ α) out post out :=
  ⟨fun _ _ owes => owes⟩

theorem Settled.bind {post : β → List ρ} (first : wp m (Settled count base mid out) s)
    (next : ∀ a, Trades count (f a) (mid a) post out) : wp (m >>= f) (Settled count base post out) s := by
  rw [wp_bind]
  refine wp_mono first ?_
  rintro (a | e | _) t settled
  · exact (next a).run base t settled
  · exact settled
  · exact settled

theorem trades_bind {post : β → List ρ} (first : Trades count m pre mid out)
    (next : ∀ a, Trades count (f a) (mid a) post out) : Trades count (m >>= f) pre post out :=
  ⟨fun base s owes => Settled.bind (first.run base s owes) next⟩

theorem Trades.perm (trades : Trades count m pre' post out) (p : pre.Perm pre') : Trades count m pre post out :=
  ⟨fun base s owes => trades.run base s (owes.perm p)⟩

theorem Trades.swap (trades : Trades count m (r' :: r :: x) post out) :
    Trades count m (r :: r' :: x) post out := trades.perm (.swap r' r x)

def either (post : α → List ρ) (out : List ρ) : Except ε α → List ρ
  | .ok a => post a
  | .error _ => out

theorem trades_attempt (trades : Trades count m pre post out) :
    Trades count (attempt m) pre (either post out) any := by
  constructor
  intro base s owes
  rw [wp_attempt]
  refine wp_mono (trades.run base s owes) ?_
  rintro (a | e | _) t settled
  · exact settled
  · exact settled
  · exact settled

theorem trades_ignored (trades : Trades count m x (fun _ => x) x) :
    Trades count (attempt m) x (fun _ => x) any := by
  constructor
  intro base s owes
  rw [wp_attempt]
  refine wp_mono (trades.run base s owes) ?_
  rintro (a | e | _) t settled
  · exact settled
  · exact settled
  · exact settled

theorem trades_onError (trades : Trades count m pre post between)
    (cleanup : Trades count c between (fun _ => out) out) : Trades count (onError m c) pre post out := by
  apply trades_bind (trades_attempt trades)
  rintro (e | a)
  · apply trades_bind cleanup
    intro _
    exact trades_fail e
  · exact trades_pure a

theorem Settled.giveUp {post : β → List ρ}
    (cleanup : Trades count c pre (fun _ => out) out) (owes : Owes count base pre s) :
    recovered c (Cmd.after f (Settled count base post out)) (.err e : Res ε α) s := by
  rw [recovered_err]
  refine wp_mono (cleanup.run base s owes) ?_
  rintro (_ | e | _) t settled
  · exact settled
  · exact settled
  · exact settled

theorem trades_forEach (round : ∀ i, Trades count (g i) x (fun _ => x) x) (is : List ι) :
    Trades count (forEach is g) x (fun _ => x) x := by
  induction is with
  | nil => exact trades_done ()
  | cons i is ih => exact trades_bind (round i) fun _ => ih

theorem trades_ite {p : Prop} [Decidable p] (yes : p → Trades count m pre post out)
    (no : ¬ p → Trades count m' pre post out) : Trades count (if p then m else m') pre post out := by
  split
  · exact yes ‹_›
  · exact no ‹_›

end Rules
end Loans
