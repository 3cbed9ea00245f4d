import Newsys.Lib.Cmd
import Newsys.Lib.Log

/- `umake` (cmd/umake/umake.c): the rules that are loaded are a list, texts are lists of characters whose buffers are
   taken to be large enough, and the files, their times and what the commands do to them are the environment's. -/
namespace Umake
open Cmds Cmd Log List

abbrev Str := List Char

structure Rule where
  addr : Nat
  output : Str
  input : List Str
  cmds : Option (List Str)
  deriving DecidableEq

/-- The world outside: `access` and `stat` look at it, `system` changes it. `substvars` (load.c) depends on variables
    that are not set any more while targets are made, and `junk` is what the uninitialised `stv` of `make` holds. -/
structure Env (W : Type) where
  access : W → Str → Bool
  stat : W → Str → Option Int
  system : Str → W → Int × W
  substvars : Str → Str
  junk : W → Int
  nflag : Bool

/-- What happens: `make` returns 0 for a rule and its target, a file is found to be there, a name has no rule, a
    command is run. -/
inductive Event where
  | made (rule : Rule) (target : Str)
  | present (name : Str)
  | missing (name : Str)
  | command (rule : Rule) (src : Option Str) (target text : Str) (iexit : Bool) (status : Int)
  deriving DecidableEq

/-- The globals. `log` is a ghost: no function reads it. -/
structure State (W : Type) where
  world : W
  done : Nat → Bool
  depth : Nat
  fail : Bool
  log : List Event

inductive Stop where
  | fuel

abbrev UmM (W : Type) := Cmd Stop (State W)

variable {W : Type}

def note (e : Event) : UmM W Unit := modify fun s => { s with log := s.log ++ [e] }

def strchr (s : Str) : Option Str :=
  match s.dropWhile (· ≠ '.') with
  | [] => none
  | tail => some tail

def strrchr (s : Str) : Option (Str × Str) :=
  let ext := (s.reverse.takeWhile (· ≠ '.')).reverse
  let base := s.take (s.length - ext.length - 1)
  if '.' ∈ s then some (base, '.' :: ext) else none

def isSuffix (r : Rule) : Bool := r.output.head? = some '.'

def secondDot (r : Rule) : Option Str := strchr r.output.tail

def names (name : Str) (r : Rule) : Bool := !isSuffix r && r.output = name

def doubleSource (name : Str) (r : Rule) : Option Str :=
  match strrchr name with
  | none => none
  | some (base, tx) =>
    match secondDot r with
    | none => none
    | some p => if isSuffix r && tx = p then some (base ++ r.output.take (r.output.length - p.length)) else none

def singleSource (name : Str) (r : Rule) : Option Str :=
  if isSuffix r && (secondDot r).isNone then some (name ++ r.output) else none

def inputs (r : Rule) : Str := r.input.flatMap (· ++ [' '])

def withSource (env : Env W) (w : W) (r : Rule) (src : Str) : Str :=
  if env.access w src then inputs r ++ src else inputs r

def mkinput (env : Env W) (rules : List Rule) (w : W) (target : Str) : Str :=
  match rules.find? (names target) with
  | some r => inputs r
  | none =>
    match rules.findSome? fun r => (doubleSource target r).map (withSource env w r) with
    | some text => text
    | none =>
      match rules.findSome? fun r => (singleSource target r).map (withSource env w r) with
      | some text => text
      | none => []

/-- The loop of `docmd` over the text. A `$` at its end makes it run past the end. -/
def expand (target input : Str) : Str → Option Str
  | [] => some []
  | '$' :: c :: rest => (expand target input rest).map fun text =>
    if c = '@' then target ++ text else if c = '<' then input ++ text else '$' :: c :: text
  | ['$'] => none
  | c :: rest => (expand target input rest).map (c :: ·)

/-- The `-` and `@` in front of a command: `iexit`, and what is left. -/
def prefixes : Str → Bool × Str
  | '-' :: rest => (true, (prefixes rest).2)
  | '@' :: rest => prefixes rest
  | text => (false, text)

def docmd (env : Env W) (rules : List Rule) (rule : Rule) (src : Option Str) (target cmd : Str) : UmM W Bool := do
  let s ← get
  match expand target (mkinput env rules s.world target) (env.substvars cmd) with
  | none => crash
  | some buf =>
    let (iexit, text) := prefixes buf
    if env.nflag then pure false else
      let (status, world) := env.system text s.world
      modify fun s => { s with world := world }
      note (.command rule src target text iexit status)
      pure (!iexit && status ≠ 0)

def newest (stv : Int) (mtime : Option Int) : Int :=
  match mtime with
  | some t => if stv < t then t else stv
  | none => stv

/-- The loop of `make` over the inputs of the rule: `f` and `stv`. -/
def makeInputs (env : Env W) (makebyname : Str → UmM W Bool) : List Str → Bool → Int → UmM W (Bool × Int)
  | [], f, stv => pure (f, stv)
  | name :: rest, f, stv => do
    let g ← makebyname name
    let s ← get
    makeInputs env makebyname rest (f || g) (newest stv (env.stat s.world name))

def runCmds (env : Env W) (rules : List Rule) (r : Rule) (src : Option Str) (target : Str) : List Str → UmM W Unit
  | [] => pure ()
  | cmd :: rest => do
    let _ ← docmd env rules r src target cmd
    runCmds env rules r src target rest

def make (env : Env W) (rules : List Rule) (makebyname : Str → UmM W Bool) (r : Rule) (src target : Option Str) :
    UmM W Bool := do
  let target := target.getD r.output
  let s ← get
  if s.done r.addr then
    note (.made r target)
    pure false
  else
    modify fun s => { s with depth := s.depth + 1 }
    let s ← get
    if 10 < s.depth then pure true else
      let src := src.or r.input.head?
      let (f, stv) ← makeInputs env makebyname r.input false (env.junk s.world)
      let s ← get
      let stv := newest stv (src.bind (env.stat s.world))
      if f then
        modify fun s => { s with depth := s.depth - 1 }
        pure true
      else if src.isSome ∧ ∃ t ∈ env.stat s.world target, ¬ t < stv then
        modify fun s => { s with depth := s.depth - 1 }
        note (.made r target)
        pure false
      else
        runCmds env rules r src target (r.cmds.getD [])
        modify fun s => { s with
          done := fun a => if a = r.addr ∧ isSuffix r = false then true else s.done a
          depth := s.depth - 1 }
        note (.made r target)
        pure false

/-- A loop of `makebyname` over the rules. `pick` says with which source and target a rule is made, if at all; the
    loop ends the function with -1 or with 0, or goes through. -/
def tryRules (env : Env W) (rules : List Rule) (makebyname : Str → UmM W Bool)
    (pick : Rule → UmM W (Option (Option Str × Option Str))) : List Rule → UmM W (Option Bool)
  | [] => pure none
  | r :: rest => do
    match ← pick r with
    | none => tryRules env rules makebyname pick rest
    | some (src, target) => do
      let f ← make env rules makebyname r src target
      if f then pure (some true)
      else if r.cmds.isSome then pure (some false)
      else tryRules env rules makebyname pick rest

def pickNamed (name : Str) (r : Rule) : UmM W (Option (Option Str × Option Str)) :=
  pure (if names name r then some (none, none) else none)

def pickSource (env : Env W) (name : Str) (source : Rule → Option Str) (r : Rule) :
    UmM W (Option (Option Str × Option Str)) := do
  let s ← get
  match source r with
  | none => pure none
  | some src =>
    if env.access s.world src then
      note (.present src)
      pure (some (some src, some name))
    else pure none

def byName (env : Env W) (rules : List Rule) (makebyname : Str → UmM W Bool) (name : Str) : UmM W Bool := do
  match ← tryRules env rules makebyname (pickNamed name) rules with
  | some f => pure f
  | none => do
    match ← tryRules env rules makebyname (pickSource env name (doubleSource name)) rules with
    | some f => pure f
    | none => do
      match ← tryRules env rules makebyname (pickSource env name (singleSource name)) rules with
      | some f => pure f
      | none => do
        let s ← get
        if env.access s.world name then
          note (.present name)
          pure false
        else if rules.any (names name) then pure false
        else
          modify fun s => { s with fail := true }
          note (.missing name)
          pure true

def makebyname (env : Env W) (rules : List Rule) : Nat → Str → UmM W Bool
  | 0 => byName env rules fun _ => Cmd.fail .fuel
  | fuel + 1 => byName env rules (makebyname env rules fuel)

def defaultRule (rules : List Rule) : Option Rule := (rules.dropLast.filter fun r => !isSuffix r).getLast?

def exitStatus : UmM W Nat := do
  let s ← get
  pure (if s.fail then 1 else 0)

def makeAll (env : Env W) (rules : List Rule) : List Str → UmM W Unit
  | [] => pure ()
  | name :: rest => do
    let _ ← makebyname env rules 10 name
    makeAll env rules rest

def umake (env : Env W) (rules : List Rule) (args : List Str) : UmM W Nat :=
  if args = [] then
    if rules = [] then crash else
      match defaultRule rules with
      | none => pure 1
      | some r => do
        let _ ← make env rules (makebyname env rules 9) r none none
        exitStatus
  else do
    makeAll env rules args
    exitStatus

def start (w : W) : State W := ⟨w, fun _ => false, 0, false, []⟩

/- What the log says -/

def Settled (name : Str) (log : List Event) : Prop := (∃ r, .made r name ∈ log) ∨ .present name ∈ log

def Ready (before : List Event) : Event → Prop
  | .command r src _ _ _ _ => (∀ n ∈ r.input, Settled n before) ∧ ∀ n ∈ src, Settled n before
  | _ => True

def Failed : Event → Prop
  | .command _ _ _ _ iexit status => iexit = false ∧ status ≠ 0
  | _ => False

def Makes (name : Str) (r : Rule) : Prop :=
  names name r = true ∨ (doubleSource name r).isSome ∨ (singleSource name r).isSome

inductive Needs (rules : List Rule) (target : Str) : Rule → Prop
  | input {r : Rule} : target ∈ r.input → Needs rules target r
  | through {r r' : Rule} {n : Str} : n ∈ r.input → r' ∈ rules → Makes n r' → Needs rules target r' → Needs rules target r

structure Reports (rules : List Rule) (result : Res Stop Nat) (log : List Event) : Prop where
  failed : ∀ before r src target text status after,
    log = before ++ .command r src target text false status :: after → status ≠ 0 →
    (∃ code, result = .ok code ∧ code ≠ 0) ∧
      ∀ r' src' target' text' iexit status', .command r' src' target' text' iexit status' ∈ after →
        ¬ Needs rules target r'
  first : result = .ok 0 → Justified Ready log

theorem Settled.mono (settled : Settled name log) (grows : log <+: log') : Settled name log' :=
  settled.imp (fun ⟨r, mem⟩ => ⟨r, grows.subset mem⟩) fun mem => grows.subset mem

structure Goes (s t : State W) : Prop where
  log : s.log <+: t.log
  ready : Justified Ready s.log → Justified Ready t.log
  depth : s.depth ≤ t.depth

theorem Goes.refl (s : State W) : Goes s s := ⟨prefix_refl _, id, le_refl _⟩

theorem Goes.trans (a : Goes s t) (b : Goes t u) : Goes s u :=
  ⟨a.log.trans b.log, fun h => b.ready (a.ready h), a.depth.trans b.depth⟩

theorem Goes.note (ready : Ready s.log e) : Goes s { s with log := s.log ++ [e] } :=
  ⟨prefix_add _ _, fun h => h.add ready, le_refl _⟩

theorem Goes.made (s : State W) (r : Rule) (name : Str) : Goes s { s with log := s.log ++ [.made r name] } :=
  .note trivial

/-- A command goes on from `s`, never for want of fuel, and if it returns then with `p`. -/
def Leads {α : Type} (s : State W) (p : α → State W → Prop) : Res Stop α → State W → Prop
  | .ok a, t => Goes s t ∧ p a t
  | .err _, _ => False
  | .crash, t => Goes s t

section Leading
variable {α β : Type} {m : UmM W α} {f : α → UmM W β} {s : State W} {p : α → State W → Prop} {q : β → State W → Prop}

theorem leads_pure (known : p a s) : wp (pure a : UmM W α) (Leads s p) s := ⟨.refl s, known⟩

theorem leads_crash : wp (crash : UmM W α) (Leads s p) s := Goes.refl s

variable {u : State W}

theorem Leads.after (goes : Goes s t) (leads : Leads t p r u) : Leads s p r u := by
  rcases r with a | e | _
  · exact ⟨goes.trans leads.1, leads.2⟩
  · exact leads
  · exact goes.trans leads

theorem Leads.since (goes : Goes s t) (leads : Leads t p r u) :
    Leads s (fun a v => Goes t v ∧ p a v) r u := by
  rcases r with a | e | _
  · exact ⟨goes.trans leads.1, leads⟩
  · exact leads
  · exact goes.trans leads

theorem leads_seq (first : wp m (Leads s p) u)
    (next : ∀ a t, Goes s t → p a t → wp (f a) (Leads s q) t) : wp (m >>= f) (Leads s q) u := by
  rw [wp_bind]
  refine wp_mono first ?_
  rintro (a | e | _) t here
  · exact next a t here.1 here.2
  · exact here
  · exact here

theorem leads_bind (first : wp m (Leads s p) s) (next : ∀ a t, Goes s t → p a t → wp (f a) (Leads t q) t) :
    wp (m >>= f) (Leads s q) s :=
  leads_seq first fun a t goes here => wp_mono (next a t goes here) fun _ _ => Leads.after goes

theorem leads_get_bind {f : State W → UmM W β} (next : wp (f s) (Leads s q) s) : wp (get >>= f) (Leads s q) s := next

theorem leads_note_bind {e : Event} {f : Unit → UmM W β} (ready : Ready s.log e)
    (next : wp (f ()) (Leads { s with log := s.log ++ [e] } q) { s with log := s.log ++ [e] }) :
    wp (note e >>= f) (Leads s q) s := by
  refine leads_bind (p := fun _ t => t = { s with log := s.log ++ [e] }) ⟨.note ready, rfl⟩ ?_
  rintro _ _ _ rfl
  exact next

end Leading

variable {env : Env W} {rules : List Rule} {s : State W}

def Supplied (r : Rule) (src : Option Str) (log : List Event) : Prop :=
  (∀ n ∈ r.input, Settled n log) ∧ ∀ n ∈ src, Settled n log

variable {r : Rule} {src : Option Str}

theorem Supplied.mono (all : Supplied r src log) (grows : log <+: log') : Supplied r src log' :=
  ⟨fun n mem => (all.1 n mem).mono grows, fun n mem => (all.2 n mem).mono grows⟩

theorem leads_docmd {target : Str} (cmd : Str) (all : Supplied r src s.log) :
    wp (docmd env rules r src target cmd) (Leads s fun _ _ => True) s := by
  refine leads_get_bind ?_
  cases expand target (mkinput env rules s.world target) (env.substvars cmd) with
  | none => exact leads_crash
  | some buf =>
    dsimp only
    split
    · exact leads_pure trivial
    · refine leads_bind (p := fun _ t => t.log = s.log) ⟨⟨prefix_refl _, id, le_refl _⟩, rfl⟩ ?_
      intro _ t _ same
      refine leads_note_bind ?_ (leads_pure trivial)
      rw [same]
      exact all

theorem leads_runCmds (cmds : List Str) : ∀ {s : State W}, Supplied r src s.log →
      wp (runCmds env rules r src target cmds) (Leads s fun _ _ => True) s := by
  induction cmds with
  | nil => exact fun _ => leads_pure trivial
  | cons cmd rest ih =>
    intro s all
    refine leads_bind (leads_docmd cmd all) ?_
    exact fun _ t goes _ => ih (all.mono goes.log)

/-- What `makebyname` does when it is called from below depth `d`. -/
def Sound (d : Nat) (byname : Str → UmM W Bool) : Prop :=
  ∀ name s, d ≤ s.depth → wp (byname name) (Leads s fun f t => f = false → Settled name t.log) s

variable {byname : Str → UmM W Bool}

theorem leads_makeInputs {d : Nat} (sound : Sound d byname) (names : List Str) :
    ∀ {s : State W} (f : Bool) (stv : Int), d ≤ s.depth → wp (makeInputs env byname names f stv)
        (Leads s fun out t => out.1 = false → f = false ∧ ∀ n ∈ names, Settled n t.log) s := by
  induction names with
  | nil =>
    intro s f stv _
    exact leads_pure fun ok => ⟨ok, fun n mem => by cases mem⟩
  | cons name rest ih =>
    intro s f stv deep
    refine leads_bind (sound name s deep) ?_
    intro g t goes settled
    refine leads_get_bind ?_
    refine wp_mono (ih (f || g) _ (deep.trans goes.depth)) ?_
    rintro (⟨f', stv'⟩ | e | _) u later
    · refine ⟨later.1, fun ok => ?_⟩
      obtain ⟨none, others⟩ := later.2 ok
      rw [Bool.or_eq_false_iff] at none
      refine ⟨none.1, fun n mem => ?_⟩
      rcases mem_cons.mp mem with rfl | other
      · exact (settled none.2).mono later.1.log
      · exact others n other
    · exact later
    · exact later

theorem leads_make {target : Option Str}
    (sound : s.depth < 10 → Sound (s.depth + 1) byname) (source : ∀ n ∈ src, Settled n s.log) :
    wp (make env rules byname r src target)
      (Leads s fun f t => f = false → Settled (target.getD r.output) t.log) s := by
  have settled : ∀ t : State W, Settled (target.getD r.output) (t.log ++ [.made r (target.getD r.output)]) :=
    fun t => .inl ⟨r, mem_add _ _⟩
  refine leads_get_bind ?_
  split
  · exact leads_note_bind trivial (leads_pure fun _ => settled _)
  · refine leads_seq (p := fun _ t => t.depth = s.depth + 1) ⟨⟨prefix_refl _, id, Nat.le_succ _⟩, rfl⟩ ?_
    rintro _ t goes depth
    rw [wp_bind, wp_get, after_ok]
    split
    · exact ⟨goes, nofun⟩
    · rename_i shallow
      have inner : Sound t.depth byname := depth ▸ sound (by omega)
      -- the counter goes back to where it was
      have back : ∀ {v w : State W}, Goes t v → w.log = v.log → w.depth = v.depth - 1 → Goes s w := by
        intro v w later log depth'
        have all := goes.trans later
        have deeper := later.depth
        exact ⟨log ▸ all.log, log ▸ all.ready, by omega⟩
      have finish : ∀ {v w : State W}, Goes t v → w.log = v.log ++ [.made r (target.getD r.output)] →
          w.depth = v.depth - 1 → Goes s w ∧ (false = false → Settled (target.getD r.output) w.log) := by
        intro v w later log depth'
        refine ⟨back (v := { v with log := v.log ++ [.made r (target.getD r.output)] }) ?_ log depth', fun _ => ?_⟩
        · exact later.trans (.made v r _)
        · rw [log]
          exact settled v
      refine leads_seq (wp_mono (leads_makeInputs inner r.input false _ (le_refl _)) fun _ _ => Leads.since goes) ?_
      rintro ⟨f, stv⟩ u _ ⟨later, supplied⟩
      rw [wp_bind, wp_get, after_ok]
      dsimp only at supplied ⊢
      cases f with
      | true => exact ⟨back later rfl rfl, nofun⟩
      | false =>
        have all : Supplied r (src.or r.input.head?) u.log := by
          obtain ⟨_, inputs⟩ := supplied rfl
          refine ⟨inputs, fun n mem => ?_⟩
          cases src with
          | some x => exact (source n mem).mono (goes.trans later).log
          | none => exact inputs n (mem_of_mem_head? mem)
        rw [if_neg (by decide)]
        split
        · exact finish later rfl rfl
        · refine leads_seq (wp_mono (leads_runCmds _ all) fun _ _ => Leads.since (goes.trans later)) ?_
          rintro _ v _ ⟨ran, _⟩
          exact finish (later.trans ran) rfl rfl

/-- How a loop over the rules picks them: a name is to be made, from a source that is there. Every rule that `sure`
    holds of is picked. -/
def Picks (name : Str) (sure : Rule → Prop) (pick : Rule → UmM W (Option (Option Str × Option Str))) : Prop :=
  ∀ r s, wp (pick r) (Leads s fun out t =>
    match out with
    | some (src, target) => target.getD r.output = name ∧ ∀ n ∈ src, Settled n t.log
    | none => ¬ sure r) s

theorem picks_named (name : Str) : Picks (W := W) name (fun r => names name r = true) (pickNamed name) := by
  intro r s
  refine leads_pure ?_
  by_cases named : names name r = true
  · rw [if_pos named]
    refine ⟨?_, fun n mem => by cases mem⟩
    rw [names, Bool.and_eq_true, decide_eq_true_iff] at named
    exact named.2
  · rw [if_neg named]
    exact named

theorem picks_source (name : Str) (source : Rule → Option Str) :
    Picks name (fun _ => False) (pickSource env name source) := by
  intro r s
  refine leads_get_bind ?_
  split
  · exact leads_pure id
  · split
    · refine leads_note_bind trivial (leads_pure ⟨rfl, fun n mem => ?_⟩)
      cases mem
      exact .inr (mem_add _ _)
    · exact leads_pure id

theorem leads_tryRules {sure : Rule → Prop}
    {pick : Rule → UmM W (Option (Option Str × Option Str))} (picks : Picks name sure pick) (list : List Rule) :
    ∀ {s : State W}, (∀ d, s.depth ≤ d → d < 10 → Sound (d + 1) byname) →
      wp (tryRules env rules byname pick list) (Leads s fun out t =>
        (out = some false → Settled name t.log) ∧ (out = none → (∃ r ∈ list, sure r) → Settled name t.log)) s := by
  induction list with
  | nil => exact fun _ => leads_pure ⟨nofun, fun _ ⟨_, mem, _⟩ => by cases mem⟩
  | cons r rest ih =>
    intro s sound
    refine leads_bind (picks r s) ?_
    intro out t goes picked
    have sound' : ∀ d, t.depth ≤ d → d < 10 → Sound (d + 1) byname := fun d le => sound d (goes.depth.trans le)
    cases out with
    | none =>
      refine wp_mono (ih sound') ?_
      rintro (out | e | _) u later
      · refine ⟨later.1, later.2.1, fun none ⟨r', mem, here⟩ => ?_⟩
        rcases mem_cons.mp mem with rfl | other
        · exact absurd here picked
        · exact later.2.2 none ⟨r', other, here⟩
      · exact later
      · exact later
    | some args =>
      obtain ⟨src, target⟩ := args
      obtain ⟨name', source⟩ := picked
      refine leads_bind (leads_make (sound' _ (le_refl _)) source) ?_
      intro f u goes' made
      rw [name'] at made
      cases f with
      | true => exact leads_pure ⟨nofun, nofun⟩
      | false =>
        rw [if_neg (by decide)]
        split
        · exact leads_pure ⟨fun _ => made rfl, nofun⟩
        · refine wp_mono (ih fun d le => sound' d (goes'.depth.trans le)) ?_
          rintro (out | e | _) v later
          · exact ⟨later.1, later.2.1, fun _ _ => (made rfl).mono later.1.log⟩
          · exact later
          · exact later

theorem leads_byName (name : Str) (sound : ∀ d, s.depth ≤ d → d < 10 → Sound (d + 1) byname) :
    wp (byName env rules byname name) (Leads s fun f t => f = false → Settled name t.log) s := by
  refine leads_bind (leads_tryRules (picks_named name) rules sound) ?_
  intro out t goes named
  cases out with
  | some f => exact leads_pure fun ok => named.1 (by rw [ok])
  | none =>
    have sound₁ : ∀ d, t.depth ≤ d → d < 10 → Sound (d + 1) byname := fun d le => sound d (goes.depth.trans le)
    refine leads_bind (leads_tryRules (picks_source name _) rules sound₁) ?_
    intro out u goes₁ double
    cases out with
    | some f => exact leads_pure fun ok => double.1 (by rw [ok])
    | none =>
      refine leads_bind (leads_tryRules (picks_source name _) rules fun d le => sound₁ d (goes₁.depth.trans le)) ?_
      intro out v goes₂ single
      cases out with
      | some f => exact leads_pure fun ok => single.1 (by rw [ok])
      | none =>
        refine leads_get_bind ?_
        split
        · exact leads_note_bind trivial (leads_pure fun _ => .inr (mem_add _ _))
        · split
          · rename_i found
            refine leads_pure fun _ => ?_
            obtain ⟨r, mem, names⟩ := any_eq_true.mp found
            exact (named.2 rfl ⟨r, mem, names⟩).mono (goes₁.trans goes₂).log
          · refine leads_bind (p := fun _ _ => True) ⟨⟨prefix_refl _, id, le_refl _⟩, trivial⟩ ?_
            intro _ w _ _
            exact leads_note_bind trivial (leads_pure nofun)

theorem sound_makebyname (fuel : Nat) : ∀ {d : Nat}, 10 ≤ fuel + d → Sound d (makebyname env rules fuel) := by
  induction fuel with
  | zero =>
    intro d enough name s deep
    exact leads_byName name fun d' le shallow => absurd shallow (by omega)
  | succ fuel ih =>
    intro d enough name s deep
    exact leads_byName name fun d' le _ => ih (by omega)

theorem leads_makeAll (args : List Str) :
    ∀ {s : State W}, wp (makeAll env rules args) (Leads s fun _ _ => True) s := by
  induction args with
  | nil => exact leads_pure trivial
  | cons name rest ih =>
    intro s
    exact leads_bind (sound_makebyname 10 (by omega) name s (Nat.zero_le _)) fun _ _ _ _ => ih

theorem leads_umake (args : List Str) : wp (umake env rules args) (Leads s fun _ _ => True) s := by
  have status : ∀ {t : State W}, wp exitStatus (Leads t fun _ _ => True) t := leads_get_bind (leads_pure trivial)
  rw [umake]
  split
  · split
    · exact leads_crash
    · split
      · exact leads_pure trivial
      · refine leads_bind (leads_make (fun shallow => sound_makebyname 9 (by omega)) fun n mem => by cases mem) ?_
        exact fun _ _ _ _ => status
  · exact leads_bind (leads_makeAll args) fun _ _ _ _ => status

/- Names without a rule -/

def AllNamed (env : Env W) (rules : List Rule) (args : List Str) : Prop :=
  ∀ name, name ∈ args ∨ (∃ r ∈ rules, name ∈ r.input) →
    (∃ r ∈ rules, names name r = true) ∨ ∀ w, env.access w name = true

def Quiet (s : State W) : Prop := s.fail = false

section Quiet
variable {byname : Str → UmM W Bool} {r : Rule}

theorem quiet_note (e : Event) : Stable Quiet (note e : UmM W Unit) := fun _ quiet => quiet

theorem quiet_docmd (src : Option Str) (target cmd : Str) : Stable Quiet (docmd env rules r src target cmd) := by
  refine stable_bind stable_get fun s => ?_
  split
  · exact stable_crash
  · dsimp only
    split
    · exact stable_pure _
    · exact stable_bind (fun _ quiet => quiet) fun _ => stable_bind (quiet_note _) fun _ => stable_pure _

theorem quiet_runCmds (src : Option Str) (target : Str) (cmds : List Str) :
    Stable Quiet (runCmds env rules r src target cmds) := by
  induction cmds with
  | nil => exact stable_pure _
  | cons cmd rest ih => exact stable_bind (quiet_docmd src target cmd) fun _ => ih

theorem quiet_makeInputs (names : List Str) (quiet : ∀ n ∈ names, Stable Quiet (byname n)) :
    ∀ (f : Bool) (stv : Int), Stable Quiet (makeInputs env byname names f stv) := by
  induction names with
  | nil => exact fun _ _ => stable_pure _
  | cons name rest ih =>
    intro f stv
    refine stable_bind (quiet name (mem_cons_self ..)) fun g => stable_bind stable_get fun s => ?_
    exact ih (fun n mem => quiet n (mem_cons_of_mem _ mem)) _ _

theorem quiet_make (quiet : ∀ n ∈ r.input, Stable Quiet (byname n)) (src target : Option Str) :
    Stable Quiet (make env rules byname r src target) := by
  refine stable_bind stable_get fun s => ?_
  split
  · exact stable_bind (quiet_note _) fun _ => stable_pure _
  · refine stable_bind (fun _ quiet => quiet) fun _ => stable_bind stable_get fun t => ?_
    split
    · exact stable_pure _
    · refine stable_bind (quiet_makeInputs _ quiet _ _) fun out => stable_bind stable_get fun u => ?_
      dsimp only
      split
      · exact stable_bind (fun _ quiet => quiet) fun _ => stable_pure _
      · split
        · exact stable_bind (fun _ quiet => quiet) fun _ => stable_bind (quiet_note _) fun _ => stable_pure _
        · refine stable_bind (quiet_runCmds _ _ _) fun _ => stable_bind (fun _ quiet => quiet) fun _ => ?_
          exact stable_bind (quiet_note _) fun _ => stable_pure _

theorem quiet_tryRules (picks : ∀ r, Stable Quiet (pick r))
    (list : List Rule) (quiet : ∀ r ∈ list, ∀ n ∈ r.input, Stable Quiet (byname n)) :
    Stable Quiet (tryRules env rules byname pick list) := by
  induction list with
  | nil => exact stable_pure _
  | cons r rest ih =>
    have later := ih fun r' mem => quiet r' (mem_cons_of_mem _ mem)
    refine stable_bind (picks r) fun out => ?_
    split
    · exact later
    · refine stable_bind (quiet_make (quiet r (mem_cons_self ..)) _ _) fun f => ?_
      split
      · exact stable_pure _
      · split
        · exact stable_pure _
        · exact later

theorem quiet_pickSource (name : Str) (source : Rule → Option Str) (r : Rule) :
    Stable Quiet (pickSource env name source r) := by
  refine stable_bind stable_get fun s => ?_
  split
  · exact stable_pure _
  · split
    · exact stable_bind (quiet_note _) fun _ => stable_pure _
    · exact stable_pure _

theorem quiet_byName (name : Str) (known : (∃ r ∈ rules, names name r = true) ∨ ∀ w, env.access w name = true)
    (quiet : ∀ r ∈ rules, ∀ n ∈ r.input, Stable Quiet (byname n)) :
    Stable Quiet (byName env rules byname name) := by
  have sources := fun source => @quiet_tryRules _ env rules _ _ (@quiet_pickSource _ env name source)
    rules quiet
  refine stable_bind (quiet_tryRules (fun _ => stable_pure _) rules quiet) fun out => ?_
  split
  · exact stable_pure _
  · refine stable_bind (sources _) fun out => ?_
    split
    · exact stable_pure _
    · refine stable_bind (sources _) fun out => ?_
      split
      · exact stable_pure _
      · refine stable_bind stable_get fun s => ?_
        split
        · exact stable_bind (quiet_note _) fun _ => stable_pure _
        · rename_i absent
          split
          · exact stable_pure _
          · rename_i unnamed
            rcases known with ⟨r, mem, named⟩ | there
            · exact absurd (any_eq_true.mpr ⟨r, mem, named⟩) unnamed
            · exact absurd (there s.world) absent

variable {args : List Str}

theorem quiet_makebyname (all : AllNamed env rules args) (fuel : Nat) :
    ∀ name, name ∈ args ∨ (∃ r ∈ rules, name ∈ r.input) → Stable Quiet (makebyname env rules fuel name) := by
  induction fuel with
  | zero =>
    intro name asked
    exact quiet_byName name (all name asked) fun _ _ _ _ => stable_fail _
  | succ fuel ih =>
    intro name asked
    exact quiet_byName name (all name asked) fun r mem n input => ih n (.inr ⟨r, mem, input⟩)

theorem quiet_makeAll (all : AllNamed env rules args) (list : List Str) (sub : ∀ n ∈ list, n ∈ args) :
    Stable Quiet (makeAll env rules list) := by
  induction list with
  | nil => exact stable_pure _
  | cons name rest ih =>
    refine stable_bind (quiet_makebyname all 10 name (.inl (sub name (mem_cons_self ..)))) fun _ => ?_
    exact ih fun n mem => sub n (mem_cons_of_mem _ mem)

theorem mem_of_defaultRule (found : defaultRule rules = some r) : r ∈ rules := by
  have mem := mem_of_getLast? found
  exact dropLast_subset _ (mem_of_mem_filter mem)

theorem umake_status (all : AllNamed env rules args) (quiet : Quiet s) :
    wp (umake env rules args) (fun r t => ∀ code, r = .ok code → code = 0 ∨ t = s) s := by
  have status : ∀ {t : State W}, Quiet t → wp exitStatus (fun r u => ∀ code, r = .ok code → code = 0 ∨ u = s) t := by
    intro t calm code eq
    have zero : (if t.fail then 1 else 0) = code := Res.ok.inj eq
    rw [calm] at zero
    exact .inl zero.symm
  have behind : ∀ {α : Type} {m : UmM W α}, Stable Quiet m →
      wp (m >>= fun _ => exitStatus) (fun r u => ∀ code, r = .ok code → code = 0 ∨ u = s) s := by
    intro α m keeps
    rw [wp_bind]
    refine wp_mono (wp_of_stable (Q := fun _ t => Quiet t) keeps quiet fun _ _ => id) ?_
    rintro (a | e | _) t calm
    · exact status calm
    · exact nofun
    · exact nofun
  rw [umake]
  split
  · split
    · exact nofun
    · split
      · exact fun _ _ => .inr rfl
      · rename_i r found
        refine behind (quiet_make (fun n mem => ?_) none none)
        exact quiet_makebyname all 9 n (.inr ⟨r, mem_of_defaultRule found, mem⟩)
  · exact behind (quiet_makeAll all args fun _ => id)

end Quiet

/-- A run in which no command without `-` fails is reported as it should be: the inputs of what is made come first.
    If every name is known, then there are no other runs that are: the results of the commands are dropped. -/
theorem umake_reports (env : Env W) (rules : List Rule) (args : List Str) (w : W) :
    let run := umake env rules args (start w)
    ((∀ e ∈ run.2.log, ¬ Failed e) → Reports rules run.1 run.2.log) ∧
      (AllNamed env rules args → (Reports rules run.1 run.2.log ↔ ∀ e ∈ run.2.log, ¬ Failed e)) := by
  intro run
  have first : run.1 = .ok 0 → Justified Ready run.2.log := by
    have leads : Leads (start w) (fun _ _ => True) run.1 run.2 := leads_umake args
    intro zero
    rw [zero] at leads
    exact leads.1.ready justified_nil
  have clean : (∀ e ∈ run.2.log, ¬ Failed e) → Reports rules run.1 run.2.log := by
    intro none
    refine ⟨?_, first⟩
    intro before r src target text status after log bad
    have mem : .command r src target text false status ∈ run.2.log := by
      rw [log]
      exact mem_append_right _ (mem_cons_self ..)
    exact absurd ⟨rfl, bad⟩ (none _ mem)
  refine ⟨clean, fun all => ⟨fun reports => ?_, clean⟩⟩
  intro e mem bad
  cases e with
  | command r src target text iexit status =>
    obtain ⟨rfl, bad⟩ := bad
    obtain ⟨before, after, log⟩ := append_of_mem mem
    obtain ⟨⟨code, ended, nonzero⟩, _⟩ := reports.failed before r src target text status after log bad
    have status : code = 0 ∨ run.2 = start w := umake_status (s := start w) all rfl code ended
    rcases status with zero | still
    · exact nonzero zero
    · rw [still] at mem
      cases mem
  | made | present | missing => exact bad

/- A target and its input, with a command each -/

def sampleEnv (status : Int) : Env Unit :=
  { access := fun _ _ => false, stat := fun _ _ => none, system := fun _ w => (status, w), substvars := id
    junk := fun _ => 0, nflag := false }

def sampleRules : List Rule := [⟨0, ['a'], [['b']], some [['x']]⟩, ⟨1, ['b'], [], some [['x']]⟩]

theorem sampleRules_named (status : Int) : AllNamed (sampleEnv status) sampleRules [['a']] := by
  have both : ∀ name ∈ [['a'], ['b']], ∃ r ∈ sampleRules, names name r = true := by decide
  intro name asked
  obtain ⟨r, mem, eq⟩ := both name <| by
    rcases asked with arg | ⟨r, mem, input⟩
    · exact mem_cons.mpr (.inl (mem_singleton.mp arg))
    · have inputs : ∀ r ∈ sampleRules, ∀ name ∈ r.input, name ∈ [['a'], ['b']] := by decide
      exact inputs r mem name input
  exact .inl ⟨r, mem, eq⟩

theorem sample_log (status : Int) : (umake (sampleEnv status) sampleRules [['a']] (start ())).2.log =
    [.command ⟨1, ['b'], [], some [['x']]⟩ none ['b'] ['x'] false status, .made ⟨1, ['b'], [], some [['x']]⟩ ['b'],
      .command ⟨0, ['a'], [['b']], some [['x']]⟩ (some ['b']) ['a'] ['x'] false status,
      .made ⟨0, ['a'], [['b']], some [['x']]⟩ ['a']] := rfl

theorem umake_reports_sample :
    let run := umake (sampleEnv 0) sampleRules [['a']] (start ())
    Reports sampleRules run.1 run.2.log ∧ (Reports sampleRules run.1 run.2.log ↔ ∀ e ∈ run.2.log, ¬ Failed e) := by
  obtain ⟨enough, same⟩ := umake_reports (sampleEnv 0) sampleRules [['a']] ()
  refine ⟨enough ?_, same (sampleRules_named 0)⟩
  simp [sample_log, Failed]

/-- The command of a target fails: `umake` exits with 0. -/
theorem umake_not_reports : ¬ ∀ (env : Env Unit) (rules : List Rule) (args : List Str),
    Reports rules (umake env rules args (start ())).1 (umake env rules args (start ())).2.log := by
  intro all
  have reports := all (sampleEnv 1) sampleRules [['a']]
  rw [sample_log] at reports
  obtain ⟨⟨code, ended, nonzero⟩, _⟩ := reports.failed [] _ _ _ _ _ _ rfl (by decide)
  have zero : (umake (sampleEnv 1) sampleRules [['a']] (start ())).1 = .ok 0 := rfl
  rw [zero] at ended
  cases ended
  exact nonzero rfl

end Umake
