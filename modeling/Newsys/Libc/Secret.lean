import Newsys.Libc.Passwd

/- Passwords (hash_pass, _setpass and _chkpass of lib/passwd/passwd.c). The SHA-256 routines are a parameter: `digest` of
   the bytes that count, which are as many of those that are fed as `sha256_init` was told. -/
namespace Secret
open Bytes Text Kern Passwd List
open Libc (chr digitChar)

abbrev lognameMax : Nat := 31

abbrev passwdMax : Nat := 31

def hex (bytes : List Byte) : List Byte :=
  bytes.flatMap fun b => [digitChar (b.toNat / 16), digitChar (b.toNat % 16)]

def ibuf (name pass : List Byte) : List Byte := name ++ chr '/' :: pass

def entry (name hash : List Byte) : List Byte := name ++ colon :: hash

section Digest
variable (digest : List Byte → List Byte)

def hashPass (name pass : List Byte) : Option (List Byte) :=
  if name.length > lognameMax ∨ pass.length > passwdMax then none
  else some (hex (digest ((ibuf name pass).take (name.length + pass.length))))

/-- `_setpass`: the contents of SECRET_PATH and the value that is returned. -/
def setpass (euid : Int) (name pass secret : List Byte) : List Byte × Int :=
  match hashPass digest name pass with
  | none => (secret, -1)
  | some hash =>
    if euid ≠ 0 then (secret, -1)
    else
      let fo := unlines nl ((lines secret).map fun buf => if entryOf name buf then entry name hash else buf)
      let found := (lines secret).any (entryOf name)
      (if found then fo else fo ++ (entry name hash ++ [nl]), 0)

def chkpass (name pass secret : List Byte) : Int :=
  match hashPass digest name pass with
  | none => -1
  | some hash =>
    match (lines secret).find? (entryOf name) with
    | none => -1
    | some buf => if buf.drop (name.length + 1) = hash then 0 else -1

inductive Op where
  | setpass (euid : Int) (name pass : List Byte)
  | edit (euid : Int) (harmless : Nat → Bool) (call : Call)

def Op.run (m : Machine) (etc : Etc) : Op → Option Etc
  | .setpass euid name pass => some { etc with secret := (Secret.setpass digest euid name pass etc.secret).1 }
  | .edit euid harmless call => (Passwd.run m euid harmless etc call).map Prod.fst

def runs (m : Machine) (etc : Etc) (ops : List Op) : Option Etc := ops.foldlM (Op.run digest m) etc

end Digest

def Op.Spares (name : List Byte) : Op → Prop
  | .setpass _ other _ => other ≠ name
  | .edit _ _ (.deluser other) => other ≠ name
  | .edit _ _ (.set _ _) => True

def Stored (name hash secret : List Byte) : Prop :=
  ∃ pre post rest, secret = unlines nl (pre ++ entry name hash :: post) ++ rest ∧
    (∀ l ∈ pre ++ entry name hash :: post, Clean l ∧ Short l) ∧ ∀ l ∈ pre, entryOf name l = false

/- Hashes -/

theorem digit_safe (lt : d < 16) : digitChar d ≠ 0 ∧ digitChar d ≠ nl ∧ digitChar d ≠ colon := by
  interval_cases d <;> decide

theorem hex_safe (mem : c ∈ hex bytes) : c ≠ 0 ∧ c ≠ nl ∧ c ≠ colon := by
  obtain ⟨b, _, mem⟩ := mem_flatMap.1 mem
  have high : b.toNat / 16 < 16 := by omega
  have low : b.toNat % 16 < 16 := by omega
  rcases mem_cons.1 mem with rfl | mem
  · exact digit_safe high
  · rw [mem_singleton.1 mem]
    exact digit_safe low

theorem field_hex (bytes : List Byte) : Field (hex bytes) where
  noNul mem := (hex_safe mem).1 rfl
  noNl mem := (hex_safe mem).2.1 rfl
  noColon mem := (hex_safe mem).2.2 rfl

theorem length_hex (bytes : List Byte) : (hex bytes).length = 2 * bytes.length := by
  induction bytes with
  | nil => rfl
  | cons b bytes ih =>
    rw [hex, flatMap_cons, length_append, ← hex, ih, length_cons]
    dsimp
    omega

theorem digitChar_inj (ltD : d < 16) (ltE : e < 16) (eq : digitChar d = digitChar e) : d = e := by
  have read := Libc.digitOf_digitChar ltD
  rw [eq, Libc.digitOf_digitChar ltE] at read
  exact (Option.some.inj read).symm

theorem hex_inj (eq : hex a = hex b) : a = b := by
  induction a generalizing b with
  | nil =>
    cases b with
    | nil => rfl
    | cons y b => cases eq
  | cons x a ih =>
    cases b with
    | nil => cases eq
    | cons y b =>
      obtain ⟨high, rest⟩ := cons.inj eq
      obtain ⟨low, rest⟩ := cons.inj rest
      have high := digitChar_inj (by omega) (by omega) high
      have low := digitChar_inj (by omega) (by omega) low
      rw [ih rest, BitVec.eq_of_toNat_eq (show x.toNat = y.toNat by omega)]

/-- Two passwords of a user are hashed from the same bytes when they agree but for the last character: the length that
    `sha256_init` is told leaves the slash out. -/
theorem hashed_eq (name p q : List Byte) :
    (ibuf name q).take (name.length + q.length) = (ibuf name p).take (name.length + p.length) ↔
      q.length = p.length ∧ q.dropLast = p.dropLast := by
  have shape : ∀ s : List Byte, (ibuf name s).take (name.length + s.length) = name ++ (chr '/' :: s).dropLast := by
    intro s
    rw [ibuf, take_length_add_append, dropLast_eq_take, length_cons, Nat.add_sub_cancel]
  rw [shape, shape, append_cancel_left_eq]
  cases q with
  | nil => cases p <;> simp
  | cons b q =>
    cases p with
    | nil => simp
    | cons a p =>
      rw [dropLast_cons_of_ne_nil (cons_ne_nil b q), dropLast_cons_of_ne_nil (cons_ne_nil a p),
        cons.injEq]
      constructor
      · rintro ⟨_, same⟩
        have lengths := congrArg length same
        rw [length_dropLast, length_dropLast, length_cons, length_cons] at lengths
        exact ⟨by rw [length_cons, length_cons]; omega, same⟩
      · exact fun ⟨_, same⟩ => ⟨rfl, same⟩

theorem entryOf_iff (name buf : List Byte) : entryOf name buf = true ↔ ∃ x, buf = entry name x := by
  rw [entryOf, isPrefixOf_iff_prefix]
  constructor
  · rintro ⟨x, rfl⟩
    exact ⟨x, append_assoc ..⟩
  · rintro ⟨x, rfl⟩
    exact ⟨x, append_assoc ..⟩

theorem entryOf_entry (name hash : List Byte) : entryOf name (entry name hash) = true := (entryOf_iff ..).2 ⟨hash, rfl⟩

section Names
variable {name other hash : List Byte} (user : Field name) (differs : other ≠ name)
include user differs

theorem other_misses (noColon : colon ∉ hash) : entryOf other (entry name hash) = false := by
  rw [← Bool.not_eq_true, entryOf_iff]
  rintro ⟨x, eq⟩
  rcases split_first user.noColon eq with same | ⟨c, _, inside⟩
  · exact differs same.symm
  · exact noColon (by rw [inside]; simp)

theorem still_misses (misses : entryOf name l = false) (hit : entryOf other l = true) :
    entryOf name (entry other new) = false := by
  rw [← Bool.not_eq_true, entryOf_iff] at misses ⊢
  rintro ⟨x, eq⟩
  rcases split_first user.noColon eq.symm with same | ⟨c, longer, _⟩
  · exact differs same.symm
  · obtain ⟨y, line⟩ := (entryOf_iff other l).1 hit
    exact misses ⟨c ++ colon :: y, by rw [line, longer, entry, entry, append_assoc, cons_append]⟩

end Names

theorem lines_stored (eq : secret = unlines nl ls ++ rest)
    (clean : ∀ l ∈ ls, Clean l ∧ Short l) : lines secret = ls ++ lines rest := by
  rw [eq, lines_append clean]

section Digest
variable {digest : List Byte → List Byte}

variable {name hash secret : List Byte}

theorem chkpass_stored (stored : Stored name hash secret) (q : List Byte) :
    chkpass digest name q secret = 0 ↔ hashPass digest name q = some hash := by
  obtain ⟨pre, post, rest, eq, clean, before⟩ := stored
  have missed : pre.find? (entryOf name) = none := find?_eq_none.2 fun l mem => by rw [before l mem]; nofun
  rw [chkpass, lines_stored eq clean, append_assoc, cons_append, find?_append, missed, Option.none_or,
    find?_cons_of_pos (entryOf_entry name hash)]
  cases hashPass digest name q with
  | none => simp
  | some new =>
    have cut : (entry name hash).drop (name.length + 1) = hash := by
      rw [entry, drop_length_add_append]
      rfl
    dsimp only
    rw [cut]
    by_cases same : hash = new
    · rw [if_pos same, same]
      simp
    · rw [if_neg same]
      exact iff_of_false (by decide) fun eq => same (Option.some.inj eq).symm

/-- A file line has room for every entry. -/
def Bounded (digest : List Byte → List Byte) : Prop :=
  ∀ msg, msg.length ≤ lognameMax + passwdMax → 2 * (digest msg).length + lognameMax + 3 ≤ passwdBuf

variable {pass : List Byte}

theorem hashPass_some (some : hashPass digest name pass = some hash) :
    name.length ≤ lognameMax ∧ pass.length ≤ passwdMax ∧
      hash = hex (digest ((ibuf name pass).take (name.length + pass.length))) := by
  rw [hashPass] at some
  split at some
  · cases some
  · rename_i short
    cases some
    rw [not_or, not_lt, not_lt] at short
    exact ⟨short.1, short.2, rfl⟩

theorem clean_entry (bounded : Bounded digest) (some : hashPass digest name pass = some hash)
    (noNul : 0 ∉ name) (noNl : nl ∉ name) : Clean (entry name hash) ∧ Short (entry name hash) := by
  obtain ⟨nameLe, passLe, rfl⟩ := hashPass_some some
  have field := field_hex (digest ((ibuf name pass).take (name.length + pass.length)))
  have room := bounded ((ibuf name pass).take (name.length + pass.length))
    (by rw [length_take]; exact le_trans (min_le_left _ _) (add_le_add nameLe passLe))
  refine ⟨⟨by simp [entry], ?_, ?_⟩, ?_⟩
  · rw [entry, mem_append, mem_cons, not_or, not_or]
    exact ⟨noNul, by decide, field.noNul⟩
  · rw [entry, mem_append, mem_cons, not_or, not_or]
    exact ⟨noNl, by decide, field.noNl⟩
  · rw [Short, entry, length_append, length_cons, length_hex]
    omega

theorem stored_of_find (clean : ∀ l ∈ ls, Clean l ∧ Short l)
    (found : ls.find? (entryOf name) = some (entry name hash)) (rest : List Byte) :
    Stored name hash (unlines nl ls ++ rest) := by
  obtain ⟨_, pre, post, rfl, before⟩ := find?_eq_some_iff_append.1 found
  exact ⟨pre, post, rest, rfl, clean, fun l mem => by simpa using before l mem⟩

def replaced (name hash buf : List Byte) : List Byte := if entryOf name buf then entry name hash else buf

theorem clean_replaced (bounded : Bounded digest)
    (some : hashPass digest name pass = some hash) (clean : Clean l ∧ Short l) :
    Clean (replaced name hash l) ∧ Short (replaced name hash l) := by
  rw [replaced]
  cases hit : entryOf name l with
  | false => exact clean
  | true =>
    obtain ⟨x, rfl⟩ := (entryOf_iff name l).1 hit
    exact clean_entry bounded some (fun mem => clean.1.noNul (mem_append_left _ mem))
      fun mem => clean.1.noNl (mem_append_left _ mem)

theorem setpass_root (some : hashPass digest name pass = some hash) (secret : List Byte) :
    setpass digest 0 name pass secret =
      (if (lines secret).any (entryOf name) then unlines nl ((lines secret).map (replaced name hash))
       else unlines nl ((lines secret).map (replaced name hash)) ++ (entry name hash ++ [nl]), 0) := by
  rw [setpass, some]
  rfl

theorem stored_setpass (bounded : Bounded digest) (user : Field name)
    (some : hashPass digest name pass = some hash) (secret : List Byte) :
    Stored name hash (setpass digest 0 name pass secret).1 := by
  have own := clean_entry bounded some user.noNul user.noNl
  have clean : ∀ l ∈ (lines secret).map (replaced name hash), Clean l ∧ Short l := by
    intro l mem
    obtain ⟨buf, inside, rfl⟩ := mem_map.1 mem
    exact clean_replaced bounded some (lines_clean inside)
  have looked : ((lines secret).map (replaced name hash)).find? (entryOf name) =
      ((lines secret).find? (entryOf name)).map (replaced name hash) := by
    rw [find?_map]
    congr 2
    funext buf
    rw [Function.comp_apply, replaced]
    cases hit : entryOf name buf with
    | false => rw [if_neg Bool.false_ne_true, hit]
    | true => rw [if_pos rfl, entryOf_entry]
  rw [setpass_root some]
  cases found : (lines secret).find? (entryOf name) with
  | some buf =>
    have hit := find?_some found
    have any : (lines secret).any (entryOf name) = true := any_eq_true.2 ⟨buf, mem_of_find?_eq_some found, hit⟩
    rw [found, Option.map_some, replaced, hit, if_pos rfl] at looked
    have stored := stored_of_find clean looked []
    rw [if_pos any]
    rwa [append_nil] at stored
  | none =>
    have any : ¬ (lines secret).any (entryOf name) = true := by
      rw [any_eq_true]
      rintro ⟨buf, mem, hit⟩
      exact find?_eq_none.1 found buf mem hit
    rw [found, Option.map_none] at looked
    have last : ((lines secret).map (replaced name hash) ++ [entry name hash]).find? (entryOf name) =
        .some (entry name hash) := by
      rw [find?_append, looked, Option.none_or, find?_cons_of_pos (entryOf_entry name hash)]
    have stored := stored_of_find (forall_mem_append.2 ⟨clean, by simpa using own⟩) last []
    rw [if_neg any]
    rwa [append_nil, unlines_append, unlines_cons, unlines_nil] at stored

theorem stored_setpass_other (bounded : Bounded digest) (user : Field name)
    (noColon : colon ∉ hash) (differs : other ≠ name) (euid : Int) (stored : Stored name hash secret) :
    Stored name hash (setpass digest euid other pass secret).1 := by
  cases some : hashPass digest other pass with
  | none =>
    rw [setpass, some]
    exact stored
  | some new =>
    by_cases root : euid = 0
    · obtain ⟨pre, post, rest, eq, clean, before⟩ := stored
      have kept : replaced other new (entry name hash) = entry name hash := by
        rw [replaced, other_misses user differs noColon, if_neg Bool.false_ne_true]
      have text : ∃ tail, (setpass digest 0 other pass secret).1 =
          unlines nl (pre.map (replaced other new) ++ entry name hash :: post.map (replaced other new)) ++ tail := by
        rw [setpass_root some, lines_stored eq clean, map_append, map_append, map_cons, kept,
          unlines_append]
        split
        · exact ⟨_, rfl⟩
        · exact ⟨_, append_assoc ..⟩
      obtain ⟨tail, text⟩ := text
      rw [root, text]
      refine ⟨_, _, tail, rfl, ?_, ?_⟩
      · intro l mem
        rw [← kept, ← map_cons, ← map_append] at mem
        obtain ⟨buf, inside, rfl⟩ := mem_map.1 mem
        exact clean_replaced bounded some (clean buf inside)
      · intro l mem
        obtain ⟨buf, inside, rfl⟩ := mem_map.1 mem
        rw [replaced]
        cases hit : entryOf other buf with
        | false => exact before buf inside
        | true => exact still_misses user differs (before buf inside) hit
    · rw [setpass, some]
      dsimp only
      rw [if_pos root]
      exact stored

variable {etc : Etc}

theorem stored_deluser (user : Field name) (noColon : colon ∉ hash)
    (differs : other ≠ name) (euid : Int) (stored : Stored name hash etc.secret) :
    Stored name hash (deluser euid other etc).1.secret := by
  rw [deluser]
  split
  · exact stored
  · obtain ⟨pre, post, rest, eq, clean, before⟩ := stored
    have kept : (entry name hash :: post).filter (fun buf => !entryOf other buf) =
        entry name hash :: post.filter fun buf => !entryOf other buf :=
      filter_cons_of_pos (by rw [other_misses user differs noColon]; rfl)
    dsimp only
    rw [withoutEntry, lines_stored eq clean, filter_append, filter_append, kept, unlines_append]
    refine ⟨_, _, _, rfl, fun l mem => ?_, fun l mem => before l (mem_of_mem_filter mem)⟩
    rw [← kept, ← filter_append] at mem
    exact clean l (mem_of_mem_filter mem)

variable {m : Machine} {etc' : Etc}

theorem stored_run (bounded : Bounded digest) {op : Op}
    (user : Field name) (noColon : colon ∉ hash) (spares : op.Spares name) (run : op.run digest m etc = some etc')
    (stored : Stored name hash etc.secret) : Stored name hash etc'.secret := by
  cases op with
  | setpass euid other pass =>
    cases run
    exact stored_setpass_other bounded user noColon spares euid stored
  | edit euid harmless call =>
    obtain ⟨⟨etc', r⟩, value, rfl⟩ := Option.map_eq_some_iff.1 run
    cases call with
    | deluser other =>
      have eq := congrArg Prod.fst (Option.some.inj value)
      rw [← eq]
      exact stored_deluser user noColon spares euid stored
    | set other edit =>
      obtain ⟨_, _, eq⟩ := Option.map_eq_some_iff.1 value
      cases eq
      exact stored

theorem stored_runs (bounded : Bounded digest)
    (user : Field name) (noColon : colon ∉ hash) (spares : ∀ op ∈ ops, op.Spares name)
    (run : runs digest m etc ops = some etc') (stored : Stored name hash etc.secret) : Stored name hash etc'.secret := by
  induction ops generalizing etc with
  | nil =>
    cases run
    exact stored
  | cons op ops ih =>
    rw [runs, foldlM_cons] at run
    obtain ⟨next, first, rest⟩ := Option.bind_eq_some_iff.1 run
    exact ih (fun o mem => spares o (mem_cons_of_mem op mem)) rest
      (stored_run bounded user noColon (spares op (mem_cons_self ..)) first stored)

theorem chkpass_eq (bounded : Bounded digest) (injective : Function.Injective digest)
    (user : Field name)
    (set : setpass digest 0 name p secret = (etc.secret, 0)) (spares : ∀ op ∈ ops, op.Spares name)
    (run : runs digest m etc ops = some etc') (q : List Byte) :
    chkpass digest name q etc'.secret = 0 ↔ q.length = p.length ∧ q.dropLast = p.dropLast := by
  cases hashed : hashPass digest name p with
  | none =>
    rw [setpass, hashed] at set
    cases set
  | some hash =>
    obtain ⟨nameLe, passLe, value⟩ := hashPass_some hashed
    have stored := stored_setpass bounded user hashed secret
    rw [set] at stored
    have noColon : colon ∉ hash := by rw [value]; exact (field_hex _).noColon
    rw [chkpass_stored (stored_runs bounded user noColon spares run stored), ← hashed_eq name p q, hashPass]
    split
    · rename_i long
      refine iff_of_false nofun fun same => ?_
      have lengths := (hashed_eq name p q).1 same
      omega
    · rw [value, Option.some.injEq]
      exact ⟨fun eq => injective (hex_inj eq), fun eq => by rw [eq]⟩

end Digest

/-- The check tells the candidate from the password. -/
theorem chkpass_distinguishes (digest : List Byte → List Byte) (m : Machine) (name p q secret : List Byte) (etc etc' : Etc)
    (ops : List Op) (injective : Function.Injective digest) (bounded : Bounded digest) (user : Field name)
    (set : setpass digest 0 name p secret = (etc.secret, 0)) (spares : ∀ op ∈ ops, op.Spares name)
    (run : runs digest m etc ops = some etc') :
    (chkpass digest name q etc'.secret = 0 ↔ q = p) ↔ (q.length = p.length → q.dropLast = p.dropLast → q = p) := by
  rw [chkpass_eq bounded injective user set spares run]
  constructor
  · exact fun exact length most => exact.1 ⟨length, most⟩
  · exact fun only => ⟨fun same => only same.1 same.2, fun eq => by rw [eq]; exact ⟨rfl, rfl⟩⟩

theorem bounded_id : Bounded id := by
  intro msg le
  rw [id_eq]
  simp only [lognameMax, passwdMax, passwdBuf] at le ⊢
  omega

def letter (c : Char) : List Byte := [chr c]

theorem chkpass_distinguishes_letters :
    (chkpass id (letter 'u') (letter 'a' ++ letter 'c') (setpass id 0 (letter 'u') (letter 'b' ++ letter 'c') []).1 = 0 ↔
        letter 'a' ++ letter 'c' = letter 'b' ++ letter 'c') :=
  (chkpass_distinguishes id .i386 (letter 'u') (letter 'b' ++ letter 'c') (letter 'a' ++ letter 'c') []
    ⟨[], (setpass id 0 (letter 'u') (letter 'b' ++ letter 'c') []).1⟩
    ⟨[], (setpass id 0 (letter 'u') (letter 'b' ++ letter 'c') []).1⟩ [] Function.injective_id bounded_id
    ⟨by decide, by decide, by decide⟩ (by decide) nofun rfl).2 (by decide)

/-- The last character is not hashed: for the password "a" the check accepts "b". -/
theorem chkpass_confuses : ¬ ∀ (digest : List Byte → List Byte) (m : Machine) (name p q secret : List Byte) (etc etc' : Etc)
    (ops : List Op), Function.Injective digest → Bounded digest → Field name →
    setpass digest 0 name p secret = (etc.secret, 0) → (∀ op ∈ ops, op.Spares name) →
    runs digest m etc ops = some etc' → (chkpass digest name q etc'.secret = 0 ↔ q = p) := by
  intro all
  have accepted := all id .i386 (letter 'u') (letter 'a') (letter 'b') [] ⟨[], (setpass id 0 (letter 'u') (letter 'a') []).1⟩
    ⟨[], (setpass id 0 (letter 'u') (letter 'a') []).1⟩ [] Function.injective_id bounded_id
    ⟨by decide, by decide, by decide⟩ (by decide) nofun rfl
  revert accepted
  decide

end Secret
