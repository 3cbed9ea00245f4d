import Mathlib.Tactic.TypeStar

/- Commands over a state that end in a value, in an error code or in a crash, as C functions
   with an integer error return do. An error keeps the state changes made before it. -/
namespace Cmds

inductive Res (ε α : Type) where
  | ok : α → Res ε α
  | err : ε → Res ε α
  | crash : Res ε α
  deriving DecidableEq

def Cmd (ε σ α : Type) : Type := σ → Res ε α × σ

variable {ε σ α β ι : Type}

namespace Cmd

protected def pure (a : α) : Cmd ε σ α := fun s => (.ok a, s)

protected def bind (m : Cmd ε σ α) (f : α → Cmd ε σ β) : Cmd ε σ β := fun s =>
  match m s with
  | (.ok a, s') => f a s'
  | (.err e, s') => (.err e, s')
  | (.crash, s') => (.crash, s')

instance : Monad (Cmd ε σ) where
  pure := Cmd.pure
  bind := Cmd.bind

instance : LawfulMonad (Cmd ε σ) := by
  refine LawfulMonad.mk' (Cmd ε σ) ?_ (fun _ _ => rfl) ?_
  · intro α m
    funext s
    show Cmd.bind m (fun a => Cmd.pure (id a)) s = m s
    simp only [Cmd.bind]
    rcases m s with ⟨_ | _ | _, _⟩ <;> rfl
  · intro α β γ m f g
    funext s
    show Cmd.bind (Cmd.bind m f) g s = Cmd.bind m (fun a => Cmd.bind (f a) g) s
    simp only [Cmd.bind]
    rcases m s with ⟨_ | _ | _, _⟩ <;> rfl

def get : Cmd ε σ σ := fun s => (.ok s, s)

def modify (f : σ → σ) : Cmd ε σ Unit := fun s => (.ok (), f s)

def fail (e : ε) : Cmd ε σ α := fun s => (.err e, s)

/-- A panic, or a step whose behaviour the language leaves undefined. -/
def crash : Cmd ε σ α := fun s => (.crash, s)

def attempt (m : Cmd ε σ α) : Cmd ε σ (Except ε α) := fun s =>
  match m s with
  | (.ok a, s') => (.ok (.ok a), s')
  | (.err e, s') => (.ok (.error e), s')
  | (.crash, s') => (.crash, s')

def onError (m : Cmd ε σ α) (cleanup : Cmd ε σ Unit) : Cmd ε σ α := do
  match ← attempt m with
  | .ok a => pure a
  | .error e => do
    cleanup
    fail e

def forEach : List ι → (ι → Cmd ε σ Unit) → Cmd ε σ Unit
  | [], _ => pure ()
  | i :: is, f => f i >>= fun _ => forEach is f

/-- The postcondition holds of the outcome and of the final state. -/
def wp (m : Cmd ε σ α) (Q : Res ε α → σ → Prop) (s : σ) : Prop := Q (m s).1 (m s).2

def after (f : α → Cmd ε σ β) (Q : Res ε β → σ → Prop) : Res ε α → σ → Prop
  | .ok a, s => wp (f a) Q s
  | .err e, s => Q (.err e) s
  | .crash, s => Q .crash s

def caught (Q : Res ε (Except ε α) → σ → Prop) : Res ε α → σ → Prop
  | .ok a, s => Q (.ok (.ok a)) s
  | .err e, s => Q (.ok (.error e)) s
  | .crash, s => Q .crash s

def recovered (cleanup : Cmd ε σ Unit) (Q : Res ε α → σ → Prop) : Res ε α → σ → Prop
  | .ok a, s => Q (.ok a) s
  | .err e, s => wp cleanup (after (fun _ => (fail e : Cmd ε σ α)) Q) s
  | .crash, s => Q .crash s

def either (ok : α → σ → Prop) (err : ε → σ → Prop) : Res ε α → σ → Prop
  | .ok a, s => ok a s
  | .err e, s => err e s
  | .crash, _ => False

section Rules
variable {m : Cmd ε σ α} {f : α → Cmd ε σ β} {s : σ}

@[simp] theorem after_ok (Q : Res ε β → σ → Prop) (a : α) :
    after f Q (.ok a) s = wp (f a) Q s := rfl

@[simp] theorem after_err (Q : Res ε β → σ → Prop) (e : ε) :
    after f Q (.err e) s = Q (.err e) s := rfl

@[simp] theorem caught_ok (Q : Res ε (Except ε α) → σ → Prop) (a : α) :
    caught Q (.ok a) s = Q (.ok (.ok a)) s := rfl

@[simp] theorem caught_err (Q : Res ε (Except ε α) → σ → Prop) (e : ε) :
    caught Q (.err e : Res ε α) s = Q (.ok (.error e)) s := rfl

theorem wp_of_eq (run : m s = (r, s')) (post : Q r s') : wp m Q s := by
  simp only [wp, run]
  exact post

@[simp] theorem wp_pure (Q : Res ε α → σ → Prop) (a : α) :
    wp (pure a : Cmd ε σ α) Q s = Q (.ok a) s := rfl

@[simp] theorem wp_bind (Q : Res ε β → σ → Prop) :
    wp (m >>= f) Q s = wp m (after f Q) s := by
  show wp (Cmd.bind m f) Q s = wp m (after f Q) s
  simp only [wp, Cmd.bind]
  rcases m s with ⟨_ | _ | _, _⟩ <;> rfl

@[simp] theorem wp_get (Q : Res ε σ → σ → Prop) : wp (get : Cmd ε σ σ) Q s = Q (.ok s) s := rfl

@[simp] theorem wp_modify (g : σ → σ) (Q : Res ε Unit → σ → Prop) :
    wp (modify g : Cmd ε σ Unit) Q s = Q (.ok ()) (g s) := rfl

@[simp] theorem wp_fail (e : ε) (Q : Res ε α → σ → Prop) :
    wp (fail e : Cmd ε σ α) Q s = Q (.err e) s := rfl

@[simp] theorem wp_crash (Q : Res ε α → σ → Prop) :
    wp (crash : Cmd ε σ α) Q s = Q .crash s := rfl

@[simp] theorem wp_attempt (Q : Res ε (Except ε α) → σ → Prop) :
    wp (attempt m) Q s = wp m (caught Q) s := by
  simp only [wp, attempt]
  rcases m s with ⟨_ | _ | _, _⟩ <;> rfl

@[simp] theorem recovered_ok (c : Cmd ε σ Unit) (Q : Res ε α → σ → Prop) (a : α) :
    recovered c Q (.ok a) s = Q (.ok a) s := rfl

@[simp] theorem recovered_err (c : Cmd ε σ Unit) (Q : Res ε α → σ → Prop) (e : ε) :
    recovered c Q (.err e) s = wp c (after (fun _ => (fail e : Cmd ε σ α)) Q) s := rfl

@[simp] theorem wp_onError (c : Cmd ε σ Unit) (Q : Res ε α → σ → Prop) :
    wp (onError m c) Q s = wp m (recovered c Q) s := by
  simp only [onError, wp_bind, wp_attempt]
  simp only [wp]
  rcases m s with ⟨_ | _ | _, _⟩
  · rfl
  · simp only [caught_err, after_ok, recovered_err, wp_bind]
  · rfl

theorem bind_pure_snd (m : Cmd ε σ α) (b : β) (s : σ) : ((m >>= fun _ => pure b) s).2 = (m s).2 := by
  show wp (m >>= fun _ => (pure b : Cmd ε σ β)) (fun _ t => t = (m s).2) s
  rw [wp_bind, wp]
  rcases m s with ⟨_ | _ | _, _⟩ <;> rfl

theorem wp_mono (h : wp m Q s) (imp : ∀ r s', Q r s' → Q' r s') : wp m Q' s := imp _ _ h

theorem wp_run (h : wp m (fun r s' => m s = (r, s') → Q r s') s) : wp m Q s := h rfl

theorem wp_and (h : wp m Q s) (h' : wp m Q' s) : wp m (fun r s' => Q r s' ∧ Q' r s') s := ⟨h, h'⟩

/-- The loop rule: an invariant over the part of the list still to be visited, kept by every
    round, and strong enough at an early exit. -/
theorem wp_forEach {is : List ι} {g : ι → Cmd ε σ Unit} {Q : Res ε Unit → σ → Prop}
    (I : List ι → σ → Prop) (start : I is s) (done : ∀ s', I [] s' → Q (.ok ()) s')
    (step : ∀ i rest s', I (i :: rest) s' → wp (g i)
      (fun r s'' => match r with
        | .ok _ => I rest s''
        | .err e => Q (.err e) s''
        | .crash => Q .crash s'') s') : wp (forEach is g) Q s := by
  induction is generalizing s with
  | nil => exact done s start
  | cons i rest ih =>
    simp only [forEach, wp_bind]
    apply wp_mono (step i rest s start)
    intro r s'' h
    cases r with
    | ok a => exact ih h
    | err e => exact h
    | crash => exact h

end Rules
def Fails (m : Cmd ε σ α) (P : ε → Prop) : Prop := ∀ s e, (m s).1 = .err e → P e

section Errors
variable {m : Cmd ε σ α} {f : α → Cmd ε σ β} {P P' : ε → Prop}

theorem fails_pure (a : α) : Fails (pure a : Cmd ε σ α) P := fun _ _ h => by cases h

theorem fails_get : Fails (get : Cmd ε σ σ) P := fun _ _ h => by cases h

theorem fails_modify (g : σ → σ) : Fails (modify g : Cmd ε σ Unit) P := fun _ _ h => by cases h

theorem fails_crash : Fails (crash : Cmd ε σ α) P := fun _ _ h => by cases h

theorem fails_fail (h : P e) : Fails (fail e : Cmd ε σ α) P := fun _ _ eq => by
  cases eq
  exact h

theorem fails_bind (first : Fails m P) (next : ∀ a, Fails (f a) P) : Fails (m >>= f) P := by
  intro s e
  show (Cmd.bind m f s).1 = .err e → P e
  have here := first s
  simp only [Cmd.bind]
  rcases run : m s with ⟨_ | e' | _, s'⟩
  · exact next _ s' e
  · rw [run] at here
    intro eq
    cases eq
    exact here e rfl
  · intro eq
    cases eq

theorem fails_attempt : Fails (attempt m) P := by
  intro s e
  simp only [attempt]
  rcases m s with ⟨_ | _ | _, _⟩ <;> intro eq <;> cases eq

theorem fails_forEach (round : ∀ i, Fails (g i) P) (is : List ι) : Fails (forEach is g) P := by
  induction is with
  | nil => exact fails_pure ()
  | cons i rest ih => exact fails_bind (round i) fun _ => ih

theorem wp_of_fails (h : Fails m P) (ok : ∀ a t, Q (.ok a) t)
    (err : ∀ e t, P e → Q (.err e) t) (crash : ∀ t, Q .crash t) : wp m Q s := by
  have errors := h s
  rw [wp]
  rcases run : m s with ⟨_ | e | _, t⟩
  · exact ok _ t
  · rw [run] at errors
    exact err e t (errors e rfl)
  · exact crash t

/-- `m` ends in an error of the kind `P`. -/
def Refuses (P : ε → Prop) (m : Cmd ε σ α) (s : σ) : Prop := ∃ e, P e ∧ (m s).1 = .err e

theorem refuses_fail {e : ε} : Refuses P (fail e : Cmd ε σ α) s ↔ P e := by
  constructor
  · rintro ⟨e, other, ⟨⟩⟩
    exact other
  · exact fun other => ⟨e, other, rfl⟩

theorem refuses_get {g : σ → Cmd ε σ β} : Refuses P (get >>= g) s ↔ Refuses P (g s) s := Iff.rfl

theorem not_refuses_ok {a : α} (ok : (m s).1 = .ok a) : ¬ Refuses P m s := by
  rintro ⟨e, _, err⟩
  cases ok.symm.trans err

theorem refuses_bind : Refuses P (m >>= f) s ↔ Refuses P m s ∨ ∃ a t, m s = (.ok a, t) ∧ Refuses P (f a) t := by
  simp only [Refuses]
  change (∃ e, P e ∧ (Cmd.bind m f s).1 = .err e) ↔ _
  rw [Cmd.bind]
  rcases m s with ⟨_ | _ | _, _⟩ <;> simp [and_assoc]

end Errors

/- Invariants that a command keeps whatever its outcome -/

/-- Every run keeps `I`, also one that ends in an error or in a crash. -/
def Stable (I : σ → Prop) (m : Cmd ε σ α) : Prop := ∀ s, I s → I (m s).2

section Invariants
variable {I : σ → Prop} {m : Cmd ε σ α} {f : α → Cmd ε σ β}

theorem stable_pure (a : α) : Stable I (pure a : Cmd ε σ α) := fun _ inv => inv

theorem stable_get : Stable I (get : Cmd ε σ σ) := fun _ inv => inv

theorem stable_modify (step : ∀ s, I s → I (g s)) : Stable I (modify g : Cmd ε σ Unit) := step

theorem stable_fail (e : ε) : Stable I (fail e : Cmd ε σ α) := fun _ inv => inv

theorem stable_crash : Stable I (crash : Cmd ε σ α) := fun _ inv => inv

theorem stable_bind (first : Stable I m) (next : ∀ a, Stable I (f a)) :
    Stable I (m >>= f) := by
  intro s inv
  have here := first s inv
  show I (Cmd.bind m f s).2
  simp only [Cmd.bind]
  rcases run : m s with ⟨_ | _ | _, t⟩ <;> rw [run] at here
  · exact next _ t here
  · exact here
  · exact here

theorem stable_attempt (all : Stable I m) : Stable I (attempt m) := by
  intro s inv
  have here := all s inv
  simp only [attempt]
  rcases run : m s with ⟨_ | _ | _, t⟩ <;> rw [run] at here <;> exact here

theorem stable_onError (all : Stable I m) (cleanup : Stable I c) :
    Stable I (onError m c) := by
  refine stable_bind (stable_attempt all) ?_
  rintro (_ | _)
  · exact stable_bind cleanup fun _ => stable_fail _
  · exact stable_pure _

theorem stable_forEach (round : ∀ i, Stable I (g i)) (is : List ι) :
    Stable I (forEach is g) := by
  induction is with
  | nil => exact stable_pure ()
  | cons i rest ih => exact stable_bind (round i) fun _ => ih

theorem wp_of_stable (all : Stable I m) (inv : I s) (post : ∀ r t, I t → Q r t) : wp m Q s := post _ _ (all s inv)

theorem wp_ok_of_stable {P : β → σ → Prop} (all : Stable I m) (inv : I s)
    (next : ∀ a t, I t → wp (f a) (fun r u => ∀ b, r = .ok b → P b u) t) :
    wp (m >>= f) (fun r u => ∀ b, r = .ok b → P b u) s := by
  refine wp_bind _ ▸ wp_of_stable all inv fun r t here => ?_
  rcases r with a | e | _
  · exact next a t here
  · rintro b ⟨⟩
  · rintro b ⟨⟩

theorem wp_bind_of_stable {J : σ → Prop} (all : Stable I m) (inv : I s) (imp : ∀ t, I t → J t)
    (next : ∀ a t, I t → wp (f a) (fun _ t => J t) t) : wp (m >>= f) (fun _ t => J t) s := by
  refine wp_bind _ ▸ wp_of_stable all inv fun r t here => ?_
  rcases r with a | _ | _
  · exact next a t here
  · exact imp t here
  · exact imp t here

end Invariants

/- Invariants with what is known of the results -/

/-- Every run keeps `I`, and what it returns has the property `P`. -/
def Yields (I : σ → Prop) (P : α → Prop) (m : Cmd ε σ α) : Prop :=
  ∀ s, I s → I (m s).2 ∧ ∀ a, (m s).1 = .ok a → P a

section Results
variable {I : σ → Prop} {P P' : α → Prop} {R : β → Prop} {m : Cmd ε σ α} {f : α → Cmd ε σ β}

theorem Yields.stable (all : Yields I P m) : Stable I m := fun s inv => (all s inv).1

theorem yields_of_stable (all : Stable I m) : Yields I (fun _ => True) m :=
  fun s inv => ⟨all s inv, fun _ _ => trivial⟩

theorem Yields.mono (all : Yields I P m) (imp : ∀ a, P a → P' a) : Yields I P' m :=
  fun s inv => ⟨(all s inv).1, fun a eq => imp a ((all s inv).2 a eq)⟩

theorem Yields.wp (all : Yields I P m) (inv : I s) : wp m (fun r t => I t ∧ ∀ a, r = .ok a → P a) s := all s inv

theorem yields_pure (known : P a) : Yields I P (pure a : Cmd ε σ α) := by
  intro s inv
  refine ⟨inv, ?_⟩
  rintro _ ⟨⟩
  exact known

theorem yields_get : Yields I I (get : Cmd ε σ σ) := by
  intro s inv
  refine ⟨inv, ?_⟩
  rintro _ ⟨⟩
  exact inv

theorem yields_fail (e : ε) : Yields I P (fail e : Cmd ε σ α) := fun _ inv => ⟨inv, fun _ eq => by cases eq⟩

theorem yields_crash : Yields I P (crash : Cmd ε σ α) := fun _ inv => ⟨inv, fun _ eq => by cases eq⟩

theorem yields_bind (first : Yields I P m) (next : ∀ a, P a → Yields I R (f a)) : Yields I R (m >>= f) := by
  intro s inv
  show wp (m >>= f) (fun r t => I t ∧ ∀ b, r = .ok b → R b) s
  rw [wp_bind]
  refine wp_mono (first.wp inv) ?_
  rintro (a | e | _) t ⟨inv', known⟩
  · exact (next a (known a rfl)).wp inv'
  · exact ⟨inv', fun _ eq => by cases eq⟩
  · exact ⟨inv', fun _ eq => by cases eq⟩

theorem yields_attempt (all : Yields I P m) : Yields I (fun r => ∀ a, r = .ok a → P a) (attempt m) := by
  intro s inv
  show wp (attempt m) (fun r t => I t ∧ ∀ x, r = .ok x → ∀ a, x = .ok a → P a) s
  rw [wp_attempt]
  refine wp_mono (all.wp inv) ?_
  rintro (a | e | _) t ⟨inv', known⟩
  · refine ⟨inv', ?_⟩
    rintro _ ⟨⟩ _ ⟨⟩
    exact known a rfl
  · refine ⟨inv', ?_⟩
    rintro _ ⟨⟩ _ ⟨⟩
  · exact ⟨inv', fun _ eq => by cases eq⟩

theorem yields_onError (all : Yields I P m) (cleanup : Stable I c) : Yields I P (onError m c) := by
  refine yields_bind (yields_attempt all) ?_
  rintro (e | a) known
  · exact yields_bind (yields_of_stable cleanup) fun _ _ => yields_fail e
  · exact yields_pure (known a rfl)

end Results

/- Commands that do the same on a part of the state -/

/-- The command does to the part `p` of the state what `m'` does, with the same outcome. -/
def Mirrors {τ : Type} (p : σ → τ) (m : Cmd ε σ α) (m' : Cmd ε τ α) : Prop :=
  ∀ s, (m s).1 = (m' (p s)).1 ∧ p (m s).2 = (m' (p s)).2

section Mirroring
variable {τ : Type} {p : σ → τ} {m : Cmd ε σ α} {m' : Cmd ε τ α} {f : α → Cmd ε σ β} {f' : α → Cmd ε τ β}

theorem mirrors_pure (a : α) : Mirrors p (pure a : Cmd ε σ α) (pure a) := fun _ => ⟨rfl, rfl⟩

theorem mirrors_fail (e : ε) : Mirrors p (fail e : Cmd ε σ α) (fail e) := fun _ => ⟨rfl, rfl⟩

theorem mirrors_crash : Mirrors p (crash : Cmd ε σ α) crash := fun _ => ⟨rfl, rfl⟩

theorem mirrors_bind (first : Mirrors p m m') (next : ∀ a, Mirrors p (f a) (f' a)) :
    Mirrors p (m >>= f) (m' >>= f') := by
  intro s
  obtain ⟨result, state⟩ := first s
  show (Cmd.bind m f s).1 = (Cmd.bind m' f' (p s)).1 ∧ p (Cmd.bind m f s).2 = (Cmd.bind m' f' (p s)).2
  simp only [Cmd.bind]
  rcases run : m s with ⟨a | e | _, t⟩ <;> rcases run' : m' (p s) with ⟨a' | e' | _, t'⟩ <;>
    rw [run, run'] at result state <;> cases result <;> cases state
  · exact next a t
  · exact ⟨rfl, rfl⟩
  · exact ⟨rfl, rfl⟩

theorem mirrors_attempt (all : Mirrors p m m') : Mirrors p (attempt m) (attempt m') := by
  intro s
  obtain ⟨result, state⟩ := all s
  simp only [attempt]
  rcases run : m s with ⟨a | e | _, t⟩ <;> rcases run' : m' (p s) with ⟨a' | e' | _, t'⟩ <;>
    rw [run, run'] at result state <;> cases result <;> cases state <;> exact ⟨rfl, rfl⟩

theorem mirrors_onError (all : Mirrors p m m') (cleanup : Mirrors p c c') :
    Mirrors p (onError m c) (onError m' c') := by
  refine mirrors_bind (mirrors_attempt all) ?_
  rintro (_ | _)
  · exact mirrors_bind cleanup fun _ => mirrors_fail _
  · exact mirrors_pure _

theorem mirrors_ite {q : Prop} [Decidable q] (yes : Mirrors p m m')
    (no : Mirrors p m₂ m₂') : Mirrors p (if q then m else m₂) (if q then m' else m₂') := by
  split
  · exact yes
  · exact no

theorem Mirrors.wp (same : Mirrors p m m') (post : Cmd.wp m' Q (p s)) :
    Cmd.wp m (fun r t => Q r (p t)) s := by
  obtain ⟨result, state⟩ := same s
  rw [Cmd.wp, result, state]
  exact post

end Mirroring

end Cmd
end Cmds
