import Newsys.Libc.Strtol

/- Compiling a regular expression (lib/regexp.c): the pieces that `regcomp_1` makes in the block of `regcomp_int`. The
   root is in front of the pieces; it is piece 0 here, and the pieces are numbered from 1 on. The copy of the pattern is
   read as it was, which it is as long as no piece is made behind the array. -/
namespace Regcomp
open Bytes Kern List Function Option
open Libc (chr)

/-- `PT_GUARD` and so on; `none` is the 0 of `calloc`. -/
inductive Pt where
  | none
  | guard
  | string
  | wildcard
  | subx
  | sol
  | eol
  | branch
  deriving DecidableEq

/-- `struct piece`, without `endbr`, which nothing uses; `start` and `stop` are places in the copy of the pattern. -/
structure Piece where
  minRep : Int
  maxRep : Int
  type : Pt
  next : Nat
  prev : Nat
  subx : Option Nat
  nextbr : Option Nat
  sbxi : Nat
  start : Nat
  stop : Nat

def Piece.zero : Piece := ⟨0, 0, .none, 0, 0, none, none, 0, 0, 0⟩

structure Rcptrs where
  mem : Nat → Piece
  piece : Nat
  lastp : Option Nat
  str : Nat
  nest : Int
  sbxi : Nat

def maxRep : Int := 2 ^ 31 - 1

def Rcptrs.set (rp : Rcptrs) (i : Nat) (f : Piece → Piece) : Rcptrs :=
  { rp with mem := update rp.mem i (f (rp.mem i)) }

def Rcptrs.take (rp : Rcptrs) (p : Piece) : Rcptrs :=
  { rp with mem := update rp.mem rp.piece p, piece := rp.piece + 1, lastp := some rp.piece }

def newpiece (rp : Rcptrs) (list : Option Nat) (type : Pt) : Rcptrs :=
  let pc := rp.piece
  let fresh : Piece := { Piece.zero with minRep := 1, maxRep := 1, type := type }
  match list with
  | some list =>
    let prev := (rp.mem list).prev
    ((rp.take { fresh with next := list, prev := prev }).set list fun p => { p with prev := pc }).set prev
      fun p => { p with next := pc }
  | none => rp.take { fresh with next := pc, prev := pc }

def special (c : Byte) : Bool := (['.', '+', '*', '?', '(', ')', '^', '$', '|'].map chr).contains c

def regcompStr (text : List Byte) (rp : Rcptrs) (list : Nat) : Rcptrs :=
  let pc := rp.piece
  let stop := rp.str + ((text.drop rp.str).takeWhile fun c => !special c).length
  let rp := (newpiece rp (some list) .string).set pc fun p => { p with start := rp.str - 1, stop := stop }
  { rp with str := stop }

def newgroup (rp : Rcptrs) (list : Nat) : Rcptrs :=
  let pc := rp.piece
  let rp := newpiece rp (some list) .subx
  let pc1 := rp.piece
  let rp := (newpiece rp none .guard).set pc fun p => { p with sbxi := rp.sbxi, subx := some pc1 }
  { rp with sbxi := rp.sbxi + 1, nest := rp.nest + 1 }

def regcompSplit (rp : Rcptrs) (pc : Nat) : Nat × Rcptrs :=
  if (rp.mem pc).type = .string then
    if (rp.mem pc).start + 1 ≥ (rp.mem pc).stop then (pc, rp)
    else
      let n := rp.piece
      let stop := (rp.mem pc).stop
      let rp := (newpiece rp (some (rp.mem pc).next) .string).set n fun p => { p with start := stop - 1, stop := stop }
      (n, rp.set pc fun p => { p with stop := stop - 1 })
  else (pc, rp)

def repeats (c : Byte) : Option (Piece → Piece) :=
  if c = chr '*' then some fun p => { p with minRep := 0, maxRep := maxRep }
  else if c = chr '+' then some fun p => { p with maxRep := maxRep }
  else if c = chr '?' then some fun p => { p with minRep := p.minRep - 1 }
  else none

def single (c : Byte) : Option Pt :=
  if c = chr '^' then some .sol
  else if c = chr '$' then some .eol
  else if c = chr '|' then some .branch
  else none

/-- A `.` behind a wildcard; the bounds of `pc` are tested. -/
def mergeDot (rp : Rcptrs) (last pc : Nat) : Rcptrs :=
  rp.set last fun p =>
    { p with minRep := if (rp.mem pc).minRep ≠ maxRep then p.minRep + 1 else p.minRep
             maxRep := if (rp.mem pc).maxRep ≠ maxRep then p.maxRep + 1 else p.maxRep }

/-- The loop of `regcomp_1`, with its variables; whether it returns 0. There is no result if the number of steps does not
    suffice, and where `pc` is used before it is set. -/
def regcomp1 (text : List Byte) : Nat → Nat → Nat → Option Nat → Option Nat → Rcptrs → Option (Bool × Rcptrs)
  | 0, _, _, _, _, _ => none
  | n + 1, list, sob, lt, pc, rp =>
    let c := text.getD rp.str 0
    let rp := { rp with str := rp.str + 1 }
    if c = 0 then some (true, rp)
    else if c = chr '(' then
      let pc := rp.piece
      let nest := rp.nest
      let rp := newgroup rp list
      -- the test at the start of the call
      match if rp.nest ≥ 4 then some (false, rp) else regcomp1 text n (pc + 1) rp.piece none none rp with
      | none => none
      | some (ok, rp) =>
        if !ok || nest ≠ rp.nest then some (false, rp) else regcomp1 text n list sob (some pc) (some pc) rp
    else if c = chr ')' then some (decide (rp.nest ≠ 0), { rp with nest := rp.nest - 1 })
    else
      match repeats c with
      | some f =>
        match lt with
        | none => some (false, rp)
        | some lt =>
          let (pc1, rp) := regcompSplit rp lt
          regcomp1 text n list sob pc pc (rp.set pc1 f)
      | none =>
        if c = chr '.' then
          match rp.lastp.filter fun i => (rp.mem i).type = .wildcard with
          | some last =>
            match pc with
            | some pc => regcomp1 text n list sob (some pc) (some pc) (mergeDot rp last pc)
            | none => none
          | none => regcomp1 text n list sob (some rp.piece) (some rp.piece) (newpiece rp (some list) .wildcard)
        else
          match single c with
          | some type =>
            let pc := rp.piece
            let rp := newpiece rp (some list) type
            let rp := if c = chr '|' then rp.set sob fun p => { p with nextbr := some pc } else rp
            regcomp1 text n list sob (some pc) (some pc) rp
          | none => regcomp1 text n list sob (some rp.piece) (some rp.piece) (regcompStr text rp list)

variable {text : List Byte}

theorem regcomp1_end (past : text.length ≤ rp.str) (n list sob : Nat) (lt pc : Option Nat) :
    regcomp1 text (n + 1) list sob lt pc rp = some (true, { rp with str := rp.str + 1 }) := by
  rw [regcomp1, getD_eq_default _ _ past]
  exact if_pos rfl

def pieceSize : Machine → Nat
  | .i386 => 44
  | .amd64 => 80

def regexpSize : Machine → Nat
  | .i386 => 124
  | .amd64 => 240

def blockSize (m : Machine) (text : List Byte) : Nat :=
  (regexpSize m + text.length * pieceSize m + (text.length + 1)) % m.word

def start : Rcptrs where
  mem := update (fun _ => Piece.zero) 0 { Piece.zero with minRep := 1, maxRep := 1, type := .guard }
  piece := 1
  lastp := none
  str := 0
  nest := 0
  sbxi := 0

/- The claims on the pieces -/

/-- The pointers of a piece lead to some of the first pieces, and a subexpression has one. -/
structure Piece.Fits (used : Nat) (p : Piece) : Prop where
  next : p.next < used
  prev : p.prev < used
  subx : ∀ j ∈ p.subx, j < used
  nextbr : ∀ j ∈ p.nextbr, j < used
  group : p.type = .subx → p.subx ≠ none

/-- Every pointer of the root and of the pieces leads to one of them. -/
def Linked (rp : Rcptrs) : Prop := ∀ i < rp.piece, (rp.mem i).Fits rp.piece

/-- The block holds the array and the copy of the pattern, the pieces are in the array, and `regexec` finds pieces. -/
def Stays (m : Machine) (text : List Byte) : Prop :=
  ∃ n ok rp, regcomp1 text n 0 start.piece none none start = some (ok, rp) ∧
    regexpSize m + text.length * pieceSize m + (text.length + 1) ≤ blockSize m text ∧ rp.piece ≤ text.length + 1 ∧
    (ok = true → Linked rp)

/- The pieces that a pattern needs, from its characters -/

/-- What the last piece of a group is: none, a string up to here or one of so many characters, or something else. -/
inductive Last where
  | none
  | word (k : Nat)
  | chars (k : Nat)
  | other
  deriving DecidableEq

/-- What has been read: the groups that are open, and the characters that have not needed a piece. -/
structure Scan where
  depth : Nat
  spare : Nat
  last : Last
  dot : Bool
  stopped : Bool

def Scan.step (s : Scan) (c : Byte) : Scan :=
  if s.stopped then { s with spare := s.spare + 1 }
  else if c = chr '(' then
    { s with depth := s.depth + 1, last := .none, dot := false, stopped := decide (4 ≤ s.depth + 1) }
  else if c = chr ')' then
    if s.depth = 0 then { s with spare := s.spare + 1, stopped := true }
    else { s with depth := s.depth - 1, last := .other }
  else if (repeats c).isSome then
    match s.last with
    | .none => { s with spare := s.spare + 1, stopped := true }
    | .word (k + 2) => { s with last := .chars (k + 1), dot := false }
    | .chars (k + 2) => { s with last := .chars (k + 1), dot := false }
    | .word k => { s with spare := s.spare + 1, last := .chars k }
    | last => { s with spare := s.spare + 1, last := last }
  else if c = chr '.' then
    if s.dot then { s with spare := s.spare + 1, last := .other } else { s with last := .other, dot := true }
  else if (single c).isSome then { s with last := .other, dot := false }
  else
    match s.last with
    | .word k => { s with spare := s.spare + 1, last := .word (k + 1) }
    | _ => { s with last := .word 1, dot := false }

def scan (text : List Byte) : Scan := text.foldl Scan.step ⟨0, 0, .none, false, false⟩

/- What the steps do to the pieces -/

section Pieces
variable {rp : Rcptrs} {used i j : Nat} {f : Piece → Piece} {type : Pt}

@[simp] theorem set_piece : (rp.set i f).piece = rp.piece := rfl

@[simp] theorem set_str : (rp.set i f).str = rp.str := rfl

@[simp] theorem set_nest : (rp.set i f).nest = rp.nest := rfl

@[simp] theorem set_lastp : (rp.set i f).lastp = rp.lastp := rfl

@[simp] theorem set_mem : (rp.set i f).mem j = if j = i then f (rp.mem i) else rp.mem j := by
  simp only [Rcptrs.set, update_apply]

def Piece.core (p : Piece) : Pt × Option Nat × Option Nat × Nat × Nat := (p.type, p.subx, p.nextbr, p.start, p.stop)

def Piece.links (p : Piece) : Pt × Nat × Nat × Option Nat × Option Nat := (p.type, p.next, p.prev, p.subx, p.nextbr)

theorem set_core (keeps : ∀ p, (f p).core = p.core) : ((rp.set i f).mem j).core = (rp.mem j).core := by
  rw [set_mem]
  split
  · rename_i same
    rw [keeps, same]
  · rfl

theorem set_type (keeps : ∀ p, (f p).type = p.type) : ((rp.set i f).mem j).type = (rp.mem j).type := by
  rw [set_mem]
  split
  · rename_i same
    rw [keeps, same]
  · rfl

theorem set_all {P : Piece → Prop} (all : ∀ j < used, P (rp.mem j)) (keeps : ∀ p, P p → P (f p)) :
    ∀ j < used, P ((rp.set i f).mem j) := by
  intro j less
  rw [set_mem]
  split
  · rename_i same
    exact keeps _ (same ▸ all j less)
  · exact all j less

theorem newpiece_piece (rp : Rcptrs) (list : Option Nat) (type : Pt) : (newpiece rp list type).piece = rp.piece + 1 := by
  cases list <;> rfl

theorem newpiece_str (rp : Rcptrs) (list : Option Nat) (type : Pt) : (newpiece rp list type).str = rp.str := by
  cases list <;> rfl

theorem newpiece_nest (rp : Rcptrs) (list : Option Nat) (type : Pt) : (newpiece rp list type).nest = rp.nest := by
  cases list <;> rfl

theorem newpiece_lastp (rp : Rcptrs) (list : Option Nat) (type : Pt) :
    (newpiece rp list type).lastp = some rp.piece := by
  cases list <;> rfl

theorem take_mem (rp : Rcptrs) (p : Piece) (i : Nat) : (rp.take p).mem i = if i = rp.piece then p else rp.mem i := by
  simp only [Rcptrs.take, update_apply]

theorem newpiece_core (rp : Rcptrs) (list : Option Nat) (type : Pt) (i : Nat) :
    ((newpiece rp list type).mem i).core = if i = rp.piece then (type, none, none, 0, 0) else (rp.mem i).core := by
  have first : ∀ p : Piece, p.core = (type, none, none, 0, 0) →
      ((rp.take p).mem i).core = if i = rp.piece then (type, none, none, 0, 0) else (rp.mem i).core := by
    intro p is
    rw [take_mem]
    split
    · exact is
    · rfl
  cases list with
  | none => exact first _ rfl
  | some list =>
    unfold newpiece
    dsimp only
    rw [set_core, set_core]
    · exact first _ rfl
    · exact fun _ => rfl
    · exact fun _ => rfl

def Piece.Inside (used : Nat) (p : Piece) : Prop := p.next < used ∧ p.prev < used

theorem newpiece_links (rp : Rcptrs) (list : Option Nat) (type : Pt) (inside : ∀ l ∈ list, l < rp.piece)
    (links : ∀ i < rp.piece, (rp.mem i).Inside rp.piece) :
    ∀ i < rp.piece + 1, ((newpiece rp list type).mem i).Inside (rp.piece + 1) := by
  have first : ∀ p : Piece, p.Inside (rp.piece + 1) →
      ∀ i < rp.piece + 1, ((rp.take p).mem i).Inside (rp.piece + 1) := by
    intro p is i less
    rw [take_mem]
    split
    · exact is
    · obtain ⟨next, prev⟩ := links i (by omega)
      exact ⟨Nat.lt_succ_of_lt next, Nat.lt_succ_of_lt prev⟩
  cases list with
  | none => exact first _ ⟨Nat.lt_succ_self _, Nat.lt_succ_self _⟩
  | some list =>
    have here := inside list rfl
    obtain ⟨_, back⟩ := links list here
    unfold newpiece
    refine set_all (set_all (first _ ?_) ?_) ?_
    · exact ⟨Nat.lt_succ_of_lt here, Nat.lt_succ_of_lt back⟩
    · exact fun p is => ⟨is.1, Nat.lt_succ_self _⟩
    · exact fun p is => ⟨Nat.lt_succ_self _, is.2⟩

theorem core_type {p : Piece} {t : Pt} {c : Option Nat × Option Nat × Nat × Nat} (core : p.core = (t, c)) :
    p.type = t := congrArg Prod.fst core

theorem Piece.Fits.of_core {p q : Piece} (inside : p.Inside j) (core : p.core = q.core) (fits : q.Fits used)
    (le : used ≤ j) : p.Fits j := by
  obtain ⟨type, subx, nextbr, _⟩ : _ ∧ _ ∧ _ ∧ _ := by
    simpa only [Piece.core, Prod.mk.injEq] using core
  refine ⟨inside.1, inside.2, ?_, ?_, ?_⟩
  · rw [subx]
    exact fun i mem => lt_of_lt_of_le (fits.subx i mem) le
  · rw [nextbr]
    exact fun i mem => lt_of_lt_of_le (fits.nextbr i mem) le
  · rw [type, subx]
    exact fits.group

theorem Linked.inside (linked : Linked rp) : ∀ i < rp.piece, (rp.mem i).Inside rp.piece :=
  fun i less => ⟨(linked i less).next, (linked i less).prev⟩

structure Keeps (rp rp' : Rcptrs) : Prop where
  piece : rp.piece ≤ rp'.piece
  type : ∀ i < rp.piece, (rp'.mem i).type = (rp.mem i).type

variable {a : Rcptrs}

theorem Keeps.trans {b c : Rcptrs} (first : Keeps a b) (second : Keeps b c) : Keeps a c where
  piece := le_trans first.piece second.piece
  type i less := (second.type i (lt_of_lt_of_le less first.piece)).trans (first.type i less)

theorem Linked.read {str : Nat} (linked : Linked a) : Linked { a with str := str } := linked

theorem Keeps.read {b : Rcptrs} {str : Nat} (keeps : Keeps { a with str := str } b) : Keeps a b where
  piece := keeps.piece
  type := keeps.type

theorem set_keeps (keeps : ∀ p, (f p).type = p.type) (rp : Rcptrs) (i : Nat) : Keeps rp (rp.set i f) :=
  ⟨le_refl _, fun _ _ => set_type keeps⟩

theorem newpiece_keeps (rp : Rcptrs) (list : Option Nat) (type : Pt) : Keeps rp (newpiece rp list type) := by
  refine ⟨by rw [newpiece_piece]; omega, fun i less => ?_⟩
  have core := newpiece_core rp list type i
  rw [if_neg (ne_of_lt less)] at core
  exact congrArg Prod.fst core

theorem newpiece_type (rp : Rcptrs) (list : Option Nat) (type : Pt) :
    ((newpiece rp list type).mem rp.piece).type = type := by
  have core := newpiece_core rp list type rp.piece
  rw [if_pos rfl] at core
  exact core_type core

theorem newpiece_linked (linked : Linked rp) {list : Option Nat} (inside : ∀ l ∈ list, l < rp.piece)
    (plain : type ≠ .subx) : Linked (newpiece rp list type) := by
  unfold Linked
  rw [newpiece_piece]
  intro i less
  have links := newpiece_links rp list type inside linked.inside i less
  have core := newpiece_core rp list type i
  split at core
  · obtain ⟨type', subx, nextbr, _⟩ : _ ∧ _ ∧ _ ∧ _ := by
      simpa only [Piece.core, Prod.mk.injEq] using core
    refine ⟨links.1, links.2, by simp [subx], by simp [nextbr], fun is => ?_⟩
    rw [type'] at is
    exact absurd is plain
  · exact .of_core links core (linked i (by omega)) (Nat.le_succ _)

@[simp] theorem newgroup_piece (rp : Rcptrs) (list : Nat) : (newgroup rp list).piece = rp.piece + 2 := by
  unfold newgroup
  dsimp only
  rw [set_piece, newpiece_piece, newpiece_piece]

@[simp] theorem newgroup_str (rp : Rcptrs) (list : Nat) : (newgroup rp list).str = rp.str := by
  unfold newgroup
  dsimp only
  rw [set_str, newpiece_str, newpiece_str]

@[simp] theorem newgroup_nest (rp : Rcptrs) (list : Nat) : (newgroup rp list).nest = rp.nest + 1 := by
  unfold newgroup
  dsimp only
  rw [set_nest, newpiece_nest, newpiece_nest]

theorem newgroup_lastp (rp : Rcptrs) (list : Nat) : (newgroup rp list).lastp = some (rp.piece + 1) := by
  unfold newgroup
  dsimp only
  rw [set_lastp, newpiece_lastp, newpiece_piece]

theorem newgroup_type (rp : Rcptrs) (list i : Nat) : ((newgroup rp list).mem i).type =
    if i = rp.piece + 1 then .guard else if i = rp.piece then .subx else (rp.mem i).type := by
  unfold newgroup
  dsimp only
  rw [set_type]
  · have inner := congrArg Prod.fst (newpiece_core rp (some list) .subx i)
    have outer := congrArg Prod.fst (newpiece_core (newpiece rp (some list) .subx) none .guard i)
    rw [newpiece_piece, apply_ite Prod.fst] at outer
    rw [apply_ite Prod.fst] at inner
    exact outer.trans (if_congr Iff.rfl rfl inner)
  · exact fun _ => rfl

theorem newgroup_keeps (rp : Rcptrs) (list : Nat) : Keeps rp (newgroup rp list) := by
  refine ⟨?_, fun i less => ?_⟩
  · rw [newgroup_piece]
    omega
  · rw [newgroup_type, if_neg (by omega), if_neg (by omega)]

theorem newgroup_linked (linked : Linked rp) (inside : list < rp.piece) : Linked (newgroup rp list) := by
  have first := newpiece_links rp (some list) .subx (by simpa using inside) linked.inside
  rw [← newpiece_piece rp (some list) .subx] at first
  have second := newpiece_links (newpiece rp (some list) .subx) none .guard (by simp) first
  unfold Linked
  rw [newgroup_piece]
  unfold newgroup
  rw [newpiece_piece] at second
  intro i less
  have links := second i less
  have core := newpiece_core (newpiece rp (some list) .subx) none .guard i
  rw [newpiece_core rp (some list) .subx, newpiece_piece] at core
  dsimp only
  rw [set_mem, newpiece_piece]
  by_cases here : i = rp.piece
  · subst here
    rw [if_neg (by omega), if_pos rfl] at core
    obtain ⟨_, _, nextbr, _⟩ : _ ∧ _ ∧ _ ∧ _ := by
      simpa only [Piece.core, Prod.mk.injEq] using core
    rw [if_pos rfl]
    refine ⟨links.1, links.2, ?_, ?_, fun _ => some_ne_none _⟩
    · rintro j ⟨⟩
      omega
    · dsimp only
      simp [nextbr]
  · rw [if_neg here] at core ⊢
    split at core
    · obtain ⟨type', subx, nextbr, _⟩ : _ ∧ _ ∧ _ ∧ _ := by
        simpa only [Piece.core, Prod.mk.injEq] using core
      refine ⟨links.1, links.2, by simp [subx], by simp [nextbr], fun is => ?_⟩
      rw [type'] at is
      cases is
    · exact .of_core links core (linked i (by omega)) (by omega)

theorem repeats_keeps (is : repeats c = some f) (p : Piece) :
    (f p).core = p.core ∧ (f p).links = p.links := by
  unfold repeats at is
  split at is
  · cases is
    exact ⟨rfl, rfl⟩
  split at is
  · cases is
    exact ⟨rfl, rfl⟩
  split at is
  · cases is
    exact ⟨rfl, rfl⟩
  · cases is

theorem set_linked (linked : Linked rp) (keeps : ∀ p, (f p).links = p.links) : Linked (rp.set i f) := by
  refine set_all linked fun p fits => ?_
  obtain ⟨type, next, prev, subx, nextbr⟩ : _ ∧ _ ∧ _ ∧ _ ∧ _ := by
    simpa only [Piece.links, Prod.mk.injEq] using keeps p
  constructor
  · rw [next]
    exact fits.next
  · rw [prev]
    exact fits.prev
  · rw [subx]
    exact fits.subx
  · rw [nextbr]
    exact fits.nextbr
  · rw [type, subx]
    exact fits.group

theorem split_same (short : (rp.mem i).type = .string → (rp.mem i).stop ≤ (rp.mem i).start + 1) :
    regcompSplit rp i = (i, rp) := by
  unfold regcompSplit
  split
  · rename_i string
    rw [if_pos (short string)]
  · rfl

theorem split_two (linked : Linked rp) (less : i < rp.piece) (string : (rp.mem i).type = .string)
    (long : (rp.mem i).start + 1 < (rp.mem i).stop) :
    ∃ rp', regcompSplit rp i = (rp.piece, rp') ∧ Linked rp' ∧ Keeps rp rp' ∧ rp'.piece = rp.piece + 1 ∧
      rp'.str = rp.str ∧ rp'.nest = rp.nest ∧ rp'.lastp = some rp.piece ∧ (rp'.mem rp.piece).type = .string ∧
      (rp'.mem i).start = (rp.mem i).start ∧ (rp'.mem i).stop = (rp.mem i).stop - 1 := by
  unfold regcompSplit
  rw [if_pos string, if_neg (not_le.mpr long)]
  have inside : ∀ l ∈ some (rp.mem i).next, l < rp.piece := by
    rintro l ⟨⟩
    exact (linked i less).next
  have core := newpiece_core rp (some (rp.mem i).next) .string i
  rw [if_neg (ne_of_lt less)] at core
  obtain ⟨type, _, _, start, stop⟩ : _ ∧ _ ∧ _ ∧ _ ∧ _ := by
    simpa only [Piece.core, Prod.mk.injEq] using core
  refine ⟨_, rfl, ?_, ?_, newpiece_piece _ _ _, newpiece_str _ _ _, newpiece_nest _ _ _, newpiece_lastp _ _ _, ?_, ?_,
    ?_⟩
  · apply set_linked
    · apply set_linked
      · exact newpiece_linked linked inside (by decide)
      · exact fun _ => rfl
    · exact fun _ => rfl
  · refine (newpiece_keeps rp (some (rp.mem i).next) .string).trans ((set_keeps ?_ _ _).trans (set_keeps ?_ _ _))
    · exact fun _ => rfl
    · exact fun _ => rfl
  · rw [set_type, set_type, newpiece_type]
    · exact fun _ => rfl
    · exact fun _ => rfl
  · rw [set_mem, if_pos rfl, set_mem, if_neg (ne_of_lt less), start]
  · rw [set_mem, if_pos rfl]

end Pieces

/- The characters that make pieces, and those that are to spare -/

def final (text : List Byte) (p : Nat) (s : Scan) : Scan := (text.drop p).foldl Scan.step s

structure Word (rp : Rcptrs) (i k : Nat) : Prop where
  made : i < rp.piece
  string : (rp.mem i).type = .string
  some : 0 < k
  stop : (rp.mem i).stop = (rp.mem i).start + k

def LastIs (rp : Rcptrs) (pc : Option Nat) : Last → Prop
  | .none => pc = none
  | .word k => ∃ i, pc = some i ∧ Word rp i k
  | .chars k => ∃ i, pc = some i ∧ Word rp i k
  | .other => ∃ i, pc = some i ∧ i < rp.piece ∧ (rp.mem i).type ≠ .string

structure At (text : List Byte) (rp : Rcptrs) (s : Scan) : Prop where
  going : s.stopped = false
  nest : rp.nest = s.depth
  shallow : s.depth < 4
  balance : rp.piece + s.spare = rp.str + s.depth + 1
  inside : rp.str ≤ text.length
  dot : s.dot = true ↔ ∃ i, rp.lastp = some i ∧ (rp.mem i).type = .wildcard
  other : s.dot = true → s.last = .other
  ended : ∀ k c rest, s.last = .word k → text.drop rp.str = c :: rest → special c = true

/-- What a call returns: it has come to the end of its group, or there is nothing more to read. -/
def Done (text : List Byte) (depth : Nat) (f : Scan) (ok : Bool) (rp : Rcptrs) : Prop :=
  ok = true ∧ (∃ s, At text rp s ∧ s.last = .other ∧ s.depth + 1 = depth ∧ final text rp.str s = f) ∨
    rp.piece + f.spare = text.length + f.depth + 1 ∧ (ok = true → rp.nest = depth)

section Runs
variable {text : List Byte} {rp : Rcptrs} {s : Scan} {c : Byte}

theorem plain_iff (c : Byte) : special c = false ↔
    c ≠ chr '(' ∧ c ≠ chr ')' ∧ repeats c = none ∧ c ≠ chr '.' ∧ single c = none := by
  unfold special repeats single
  simp only [map_cons, map_nil, contains_cons, contains_nil, Bool.or_false, Bool.or_eq_false_iff,
    beq_eq_false_iff_ne]
  constructor
  · rintro ⟨dot, plus, star, mark, opens, closes, hat, dollar, bar⟩
    simp [dot, plus, star, mark, opens, closes, hat, dollar, bar]
  · rintro ⟨opens, closes, repeated, dot, alone⟩
    split_ifs at repeated with star plus mark
    split_ifs at alone with hat dollar bar
    exact ⟨dot, plus, star, mark, opens, closes, hat, dollar, bar⟩

theorem step_word (going : s.stopped = false) (plain : special c = false) (last : s.last = .word k) :
    s.step c = { s with spare := s.spare + 1, last := .word (k + 1) } := by
  obtain ⟨opens, closes, repeated, dot, alone⟩ := (plain_iff c).mp plain
  simp [Scan.step, going, opens, closes, repeated, dot, alone, last]

theorem step_string (going : s.stopped = false) (plain : special c = false) (last : ∀ k, s.last ≠ .word k) :
    s.step c = { s with last := .word 1, dot := false } := by
  obtain ⟨opens, closes, repeated, dot, alone⟩ := (plain_iff c).mp plain
  simp only [Scan.step, going, opens, closes, repeated, dot, alone, Bool.false_eq_true, if_false, isSome_none]

theorem stopped_final (stopped : s.stopped = true) (rest : List Byte) :
    rest.foldl Scan.step s = { s with spare := s.spare + rest.length } := by
  induction rest generalizing s with
  | nil => rfl
  | cons c rest ih =>
    have step : s.step c = { s with spare := s.spare + 1 } := by
      unfold Scan.step
      rw [if_pos stopped]
    rw [foldl_cons, step, ih (by exact stopped), length_cons]
    simp only [Scan.mk.injEq, true_and, and_true]
    omega

theorem done_stopped (here : text.drop p = c :: rest) (stopped : (s.step c).stopped = true)
    (balance : rp'.piece + (s.step c).spare = p + 1 + (s.step c).depth + 1) (depth : Nat) :
    Done text depth (final text p s) false rp' := by
  refine .inr ⟨?_, fun is => by cases is⟩
  have length := congrArg length here
  rw [length_drop, length_cons] at length
  unfold final
  rw [here, foldl_cons, stopped_final stopped]
  dsimp only
  omega

theorem word_final (rest : List Byte) (k : Nat) (going : s.stopped = false) (last : s.last = .word k) :
    rest.foldl Scan.step s = (rest.drop (rest.takeWhile fun c => !special c).length).foldl Scan.step
      { s with spare := s.spare + (rest.takeWhile fun c => !special c).length
               last := .word (k + (rest.takeWhile fun c => !special c).length) } := by
  induction rest generalizing s k with
  | nil =>
    obtain ⟨_, _, _, _, _⟩ := s
    obtain rfl := last
    rfl
  | cons c rest ih =>
    by_cases plain : special c = true
    · rw [takeWhile_cons_of_neg (by simp [plain])]
      obtain ⟨_, _, _, _, _⟩ := s
      obtain rfl := last
      rfl
    · have plain := Bool.eq_false_iff.mpr plain
      rw [foldl_cons, step_word going plain last, takeWhile_cons_of_pos (by simp [plain]), length_cons,
        drop_succ_cons, ih (k + 1) (by exact going) rfl]
      dsimp only
      rw [add_assoc, add_assoc, add_comm 1]

theorem LastIs.set {pc : Option Nat} {last : Last} (is : LastIs rp pc last) {f : Piece → Piece}
    (keeps : ∀ p, (f p).core = p.core) (j : Nat) : LastIs (rp.set j f) pc last := by
  have core (i : Nat) : ((rp.set j f).mem i).type = (rp.mem i).type ∧ ((rp.set j f).mem i).start = (rp.mem i).start ∧
      ((rp.set j f).mem i).stop = (rp.mem i).stop := by
    obtain ⟨type, _, _, start, stop⟩ : _ ∧ _ ∧ _ ∧ _ ∧ _ := by
      simpa only [Piece.core, Prod.mk.injEq] using @set_core rp j i f keeps
    exact ⟨type, start, stop⟩
  cases last with
  | none => exact is
  | word k | chars k =>
    obtain ⟨i, eq, made, string, pos, length⟩ := is
    obtain ⟨type, start, stop⟩ := core i
    exact ⟨i, eq, made, type ▸ string, pos, by rw [start, stop, length]⟩
  | other =>
    obtain ⟨i, eq, less, not⟩ := is
    exact ⟨i, eq, less, (core i).1 ▸ not⟩

theorem LastIs.read {pc : Option Nat} {last : Last} {str : Nat} (is : LastIs rp pc last) :
    LastIs { rp with str := str } pc last := by
  cases last with
  | none => exact is
  | word k | chars k =>
    obtain ⟨i, eq, made, string, pos, length⟩ := is
    exact ⟨i, eq, made, string, pos, length⟩
  | other => exact is

theorem At.set (here : At text rp s) {f : Piece → Piece} (keeps : ∀ p, (f p).type = p.type) (j : Nat) :
    At text (rp.set j f) s where
  going := here.going
  nest := here.nest
  shallow := here.shallow
  balance := here.balance
  inside := here.inside
  dot := by
    rw [here.dot]
    simp only [set_lastp, set_type keeps]
  other := here.other
  ended := here.ended

/-- What the rest of a run comes to from here: with enough steps there is a result, and the pieces are as many as the
    characters need. -/
structure Ran (text : List Byte) (rp : Rcptrs) (n depth : Nat) (f : Scan) (r : Option (Bool × Rcptrs)) : Prop where
  returns : text.length - rp.str < n → r ≠ none
  done : ∀ ok rp', r = some (ok, rp') → Linked rp' ∧ Keeps rp rp' ∧ rp.str < rp'.str ∧ Done text depth f ok rp'

theorem Ran.before {rp₀ : Rcptrs} {n depth : Nat} {f : Scan} {r : Option (Bool × Rcptrs)}
    (ran : Ran text rp n depth f r) (keeps : Keeps rp₀ rp) (less : rp₀.str < rp.str) (inside : rp₀.str < text.length) :
    Ran text rp₀ (n + 1) depth f r where
  returns enough := ran.returns (by omega)
  done ok rp' eq := by
    obtain ⟨linked, keeps', more, done⟩ := ran.done ok rp' eq
    exact ⟨linked, keeps.trans keeps', lt_trans less more, done⟩

theorem Ran.now (linked : Linked rp') (keeps : Keeps rp rp')
    (less : rp.str < rp'.str) (done : Done text depth f ok rp') : Ran text rp n depth f (some (ok, rp')) where
  returns _ := some_ne_none _
  done := by
    rintro _ _ ⟨⟩
    exact ⟨linked, keeps, less, done⟩

def Goes (text : List Byte) (n : Nat) : Prop :=
  ∀ ⦃rp : Rcptrs⦄ ⦃list sob : Nat⦄ ⦃pc : Option Nat⦄ ⦃s : Scan⦄, At text rp s → LastIs rp pc s.last →
    Linked rp → list < rp.piece → sob ≤ rp.piece →
      Ran text rp n s.depth (final text rp.str s) (regcomp1 text n list sob pc pc rp)

end Runs

section Steps
variable {text : List Byte} {rp : Rcptrs} {s : Scan} {c : Byte} {n list sob : Nat} {pc : Option Nat} {rest : List Byte}

theorem char_here (cons : text.drop rp.str = c :: rest) : text.getD rp.str 0 = c ∧ rp.str < text.length ∧
    text.drop (rp.str + 1) = rest := by
  have less : rp.str < text.length := by
    have length := congrArg List.length cons
    rw [length_drop, length_cons] at length
    omega
  rw [drop_eq_getElem_cons less, List.cons.injEq] at cons
  exact ⟨(getD_eq_getElem _ _ less).trans cons.1, less, cons.2⟩

theorem final_step (cons : text.drop rp.str = c :: rest) : final text rp.str s = final text (rp.str + 1) (s.step c) := by
  unfold final
  rw [(char_here cons).2.2, cons, foldl_cons]

theorem open_ran (ih : Goes text n) (here : At text rp s) (linked : Linked rp) (list_in : list < rp.piece)
    (sob_in : sob ≤ rp.piece) (cons : text.drop rp.str = chr '(' :: rest) :
    Ran text rp (n + 1) s.depth (final text rp.str s) (regcomp1 text (n + 1) list sob pc pc rp) := by
  obtain ⟨char, less, _⟩ := char_here cons
  have step : s.step (chr '(') =
      { s with depth := s.depth + 1, last := .none, dot := false, stopped := decide (4 ≤ s.depth + 1) } := by
    simp only [Scan.step, here.going, Bool.false_eq_true, if_false, if_true]
  rw [regcomp1, char]
  dsimp only
  rw [if_neg (by decide), if_pos rfl]
  have linked' : Linked (newgroup { rp with str := rp.str + 1 } list) := newgroup_linked linked list_in
  have keeps : Keeps rp (newgroup { rp with str := rp.str + 1 } list) := .read (newgroup_keeps _ list)
  have nest : (newgroup { rp with str := rp.str + 1 } list).nest = s.depth + 1 := by
    rw [newgroup_nest, here.nest]
  have balance := here.balance
  by_cases deep : 4 ≤ s.depth + 1
  · rw [if_pos (by omega)]
    refine .now linked' keeps (by rw [newgroup_str]; exact Nat.lt_succ_self _) (done_stopped cons ?_ ?_ _)
    · rw [step]
      exact decide_eq_true deep
    · rw [step, newgroup_piece]
      dsimp only
      omega
  rw [if_neg (by omega)]
  have type := newgroup_type { rp with str := rp.str + 1 } list
  have inner : At text (newgroup { rp with str := rp.str + 1 } list) (s.step (chr '(')) := by
    rw [step]
    constructor
    · exact decide_eq_false deep
    · exact nest
    · exact not_le.mp deep
    · rw [newgroup_piece, newgroup_str]
      dsimp only
      omega
    · rw [newgroup_str]
      exact less
    · rw [newgroup_lastp]
      simp [type]
    · exact fun is => by cases is
    · exact fun k c rest is => by cases is
  have ran := @ih _ (rp.piece + 1) (rp.piece + 2) none _ inner (by rw [step]; rfl) linked'
    (by rw [newgroup_piece]; exact Nat.lt_succ_self _) (by rw [newgroup_piece])
  rw [newgroup_str] at ran
  rw [newgroup_piece, final_step cons]
  generalize regcomp1 text n (rp.piece + 1) (rp.piece + 2) none none _ = r at ran ⊢
  cases r with
  | none =>
    dsimp only
    refine ⟨fun enough => absurd rfl (ran.returns ?_), fun ok rp' is => by cases is⟩
    rw [newgroup_str]
    dsimp only
    omega
  | some r =>
    obtain ⟨ok, rp'⟩ := r
    obtain ⟨linked'', keeps', more, done⟩ := ran.done ok rp' rfl
    rw [newgroup_str] at more
    dsimp only at more
    dsimp only
    obtain ⟨rfl, s', here', last, depth, rest⟩ | ⟨pieces, ended⟩ := done
    · -- the group is closed
      rw [step] at depth
      dsimp only at depth
      have depth : s'.depth = s.depth := by omega
      have same : rp.nest = rp'.nest := by
        rw [here.nest, here'.nest, depth]
      rw [if_neg (by simp [same]), ← rest, ← depth]
      have made : rp.piece < (newgroup { rp with str := rp.str + 1 } list).piece := by
        rw [newgroup_piece]
        exact Nat.lt_add_of_pos_right (by decide)
      have inside := lt_of_lt_of_le made keeps'.piece
      refine .before (ih here' ?_ linked'' (by omega) (by omega)) (keeps.trans keeps') (by omega) less
      rw [last]
      refine ⟨_, rfl, inside, ?_⟩
      rw [keeps'.type _ made, type]
      simp
    · have bad : (!ok || decide (rp.nest ≠ rp'.nest)) = true := by
        rw [Bool.or_eq_true, Bool.not_eq_true', decide_eq_true_eq]
        cases ok with
        | false => exact .inl rfl
        | true =>
          right
          rw [ended rfl, step, here.nest]
          dsimp only
          omega
      rw [if_pos bad]
      refine .now linked'' (keeps.trans keeps') (by omega) (.inr ⟨pieces, fun is => by cases is⟩)

theorem step_close (going : s.stopped = false) : s.step (chr ')') =
    if s.depth = 0 then { s with spare := s.spare + 1, stopped := true }
    else { s with depth := s.depth - 1, last := .other } := by
  unfold Scan.step
  rw [going, if_neg (by decide), if_neg (by decide), if_pos rfl]

theorem close_ran (here : At text rp s) (linked : Linked rp) (cons : text.drop rp.str = chr ')' :: rest) :
    Ran text rp (n + 1) s.depth (final text rp.str s) (regcomp1 text (n + 1) list sob pc pc rp) := by
  obtain ⟨char, less, _⟩ := char_here cons
  have balance := here.balance
  have nest := here.nest
  rw [regcomp1, char]
  dsimp only
  rw [if_neg (by decide), if_neg (by decide), if_pos rfl]
  by_cases top : s.depth = 0
  · have step := step_close here.going
    rw [if_pos top] at step
    rw [decide_eq_false (by omega)]
    refine .now linked ⟨le_refl _, fun _ _ => rfl⟩ (Nat.lt_succ_self _) (done_stopped cons ?_ ?_ _)
    · rw [step]
    · rw [step]
      dsimp only
      omega
  · have step := step_close here.going
    rw [if_neg top] at step
    rw [decide_eq_true (by omega)]
    have shallow := here.shallow
    refine .now linked ⟨le_refl _, fun _ _ => rfl⟩ (Nat.lt_succ_self _)
      (.inl ⟨rfl, s.step (chr ')'), ?_, ?_, ?_, (final_step cons).symm⟩)
    · rw [step]
      refine ⟨here.going, ?_, ?_, ?_, less, here.dot, fun _ => rfl, fun _ _ _ is => by cases is⟩
      · dsimp only
        omega
      · dsimp only
        omega
      · dsimp only
        omega
    · rw [step]
    · rw [step]
      dsimp only
      omega

variable {f : Piece → Piece}

theorem repeats_ne (is : repeats c = some f) : c ≠ 0 ∧ c ≠ chr '(' ∧ c ≠ chr ')' := by
  refine ⟨?_, ?_, ?_⟩
  · rintro rfl
    cases is
  · rintro rfl
    cases is
  · rintro rfl
    cases is

theorem same_ran (ih : Goes text n) (here : At text rp s) (linked : Linked rp) (list_in : list < rp.piece)
    (sob_in : sob ≤ rp.piece) (cons : text.drop rp.str = c :: rest) (is : repeats c = some f)
    (last : Last) (short : (rp.mem i).type = .string → (rp.mem i).stop ≤ (rp.mem i).start + 1)
    (step : s.step c = { s with spare := s.spare + 1, last := last }) (now : LastIs rp (some i) last)
    (word : ∀ k, last ≠ .word k) (other : s.dot = true → last = .other) :
    Ran text rp (n + 1) s.depth (final text rp.str s) (regcomp1 text (n + 1) list sob (some i) (some i) rp) := by
  obtain ⟨char, less, _⟩ := char_here cons
  obtain ⟨some, opens, closes⟩ := repeats_ne is
  have keeps := repeats_keeps is
  have type (p : Piece) : (f p).type = p.type := congrArg Prod.fst (keeps p).1
  have balance := here.balance
  rw [regcomp1, char]
  dsimp only
  rw [if_neg some, if_neg opens, if_neg closes, is]
  dsimp only
  rw [@split_same { rp with str := rp.str + 1 } i short, final_step cons, step]
  have next : At text { rp with str := rp.str + 1 } { s with spare := s.spare + 1, last := last } := by
    refine ⟨here.going, here.nest, here.shallow, ?_, less, here.dot, other, fun k _ _ is => absurd is (word k)⟩
    dsimp only
    omega
  refine .before (ih (next.set type i) (now.read.set (fun p => (keeps p).1) i) ?_ list_in sob_in) ?_ ?_ less
  · exact set_linked linked fun p => (keeps p).2
  · exact .read (set_keeps type _ i)
  · exact Nat.lt_succ_self _

theorem split_ran (ih : Goes text n) (here : At text rp s) (linked : Linked rp) (list_in : list < rp.piece)
    (sob_in : sob ≤ rp.piece) (cons : text.drop rp.str = c :: rest) (is : repeats c = some f)
    (word : Word rp i (k + 2)) (step : s.step c = { s with last := .chars (k + 1), dot := false }) :
    Ran text rp (n + 1) s.depth (final text rp.str s) (regcomp1 text (n + 1) list sob (some i) (some i) rp) := by
  obtain ⟨less, string, _, length⟩ := word
  obtain ⟨char, inside, _⟩ := char_here cons
  obtain ⟨some, opens, closes⟩ := repeats_ne is
  have keeps := repeats_keeps is
  have type (p : Piece) : (f p).type = p.type := congrArg Prod.fst (keeps p).1
  have balance := here.balance
  rw [regcomp1, char]
  dsimp only
  rw [if_neg some, if_neg opens, if_neg closes, is]
  dsimp only
  obtain ⟨rp', eq, linked', kept, piece, str, nest, lastp, piece_type, start, stop⟩ :=
    @split_two { rp with str := rp.str + 1 } i linked less string (by dsimp only; omega)
  dsimp only at piece str nest lastp piece_type start stop
  rw [eq, final_step cons, step]
  have next : At text rp' { s with last := .chars (k + 1), dot := false } := by
    refine ⟨here.going, nest.trans here.nest, here.shallow, ?_, by rw [str]; exact inside, ?_, ?_, ?_⟩
    · dsimp only
      omega
    · rw [lastp]
      simp [piece_type]
    · exact fun is => by cases is
    · exact fun _ _ _ is => by cases is
  have last : LastIs rp' (Option.some i) (.chars (k + 1)) := by
    refine ⟨i, rfl, by omega, ?_, Nat.succ_pos _, ?_⟩
    · rw [kept.type i less]
      exact string
    · rw [start, stop, length]
      rfl
  rw [← str]
  refine .before (ih (next.set type _) (last.set (fun p => (keeps p).1) _) ?_ ?_ ?_) ?_ ?_ inside
  · exact set_linked linked' fun p => (keeps p).2
  · exact lt_of_lt_of_le list_in kept.piece
  · exact le_trans sob_in kept.piece
  · exact .read (kept.trans (set_keeps type _ _))
  · exact Nat.lt_of_lt_of_eq (Nat.lt_succ_self _) str.symm

theorem repeat_ran (ih : Goes text n) (here : At text rp s) (last : LastIs rp pc s.last) (linked : Linked rp)
    (list_in : list < rp.piece) (sob_in : sob ≤ rp.piece) (cons : text.drop rp.str = c :: rest)
    (is : repeats c = some f) :
    Ran text rp (n + 1) s.depth (final text rp.str s) (regcomp1 text (n + 1) list sob pc pc rp) := by
  obtain ⟨char, inside, _⟩ := char_here cons
  obtain ⟨some, opens, closes⟩ := repeats_ne is
  have going := here.going
  have other := here.other
  have balance := here.balance
  cases kind : s.last with
  | none =>
    rw [kind] at last
    obtain rfl : pc = none := last
    have step : s.step c = { s with spare := s.spare + 1, stopped := true } := by
      simp [Scan.step, going, opens, closes, is, kind]
    rw [regcomp1, char]
    dsimp only
    rw [if_neg some, if_neg opens, if_neg closes, is]
    dsimp only
    refine .now linked ⟨le_refl _, fun _ _ => rfl⟩ (Nat.lt_succ_self _) (done_stopped cons ?_ ?_ _)
    · rw [step]
    · rw [step]
      dsimp only
      omega
  | word k | chars k =>
    rw [kind] at last other
    obtain ⟨i, rfl, word⟩ := last
    obtain rfl | ⟨k, rfl⟩ : k = 1 ∨ ∃ j, k = j + 2 := by
      obtain _ | _ | k := k
      · cases word.some
      · exact .inl rfl
      · exact .inr ⟨k, rfl⟩
    · refine same_ran ih here linked list_in sob_in cons is (.chars 1) (fun _ => le_of_eq word.stop) ?_ ?_ ?_ ?_
      · simp [Scan.step, going, opens, closes, is, kind]
      · exact ⟨i, rfl, word⟩
      · exact fun _ is => by cases is
      · exact fun is => by cases other is
    · refine split_ran ih here linked list_in sob_in cons is word ?_
      simp [Scan.step, going, opens, closes, is, kind]
  | other =>
    rw [kind] at last
    obtain ⟨i, rfl, less, not⟩ := last
    refine same_ran ih here linked list_in sob_in cons is .other (fun string => absurd string not) ?_ ?_ ?_ ?_
    · simp [Scan.step, going, opens, closes, is, kind]
    · exact ⟨i, rfl, less, not⟩
    · exact fun _ is => by cases is
    · exact fun _ => rfl

theorem piece_ran (type : Pt) (ih : Goes text n) (here : At text rp s) (list_in : list < rp.piece)
    (sob_in : sob ≤ rp.piece) (less : rp.str < text.length) {rp' : Rcptrs} (linked : Linked rp') (keeps : Keeps rp rp')
    (piece : rp'.piece = rp.piece + 1) (str : rp'.str = rp.str + 1) (nest : rp'.nest = rp.nest)
    (lastp : rp'.lastp = some rp.piece) (is : (rp'.mem rp.piece).type = type) (not : type ≠ .string) :
    Ran text rp (n + 1) s.depth (final text (rp.str + 1) { s with last := .other, dot := decide (type = .wildcard) })
      (regcomp1 text n list sob (some rp.piece) (some rp.piece) rp') := by
  have balance := here.balance
  rw [← str]
  have next : At text rp' { s with last := .other, dot := decide (type = .wildcard) } := by
    refine ⟨here.going, nest.trans here.nest, here.shallow, ?_, ?_, ?_, fun _ => rfl, fun _ _ _ is => by cases is⟩
    · dsimp only
      omega
    · rw [str]
      exact less
    · rw [lastp]
      simp [is]
  refine .before (ih next ?_ linked ?_ ?_) keeps ?_ less
  · refine ⟨_, rfl, Nat.lt_of_lt_of_eq (Nat.lt_succ_self _) piece.symm, ?_⟩
    rw [is]
    exact not
  · exact lt_of_lt_of_le list_in keeps.piece
  · exact le_trans sob_in keeps.piece
  · exact Nat.lt_of_lt_of_eq (Nat.lt_succ_self _) str.symm

theorem dot_ran (ih : Goes text n) (here : At text rp s) (last : LastIs rp pc s.last) (linked : Linked rp)
    (list_in : list < rp.piece) (sob_in : sob ≤ rp.piece) (cons : text.drop rp.str = chr '.' :: rest) :
    Ran text rp (n + 1) s.depth (final text rp.str s) (regcomp1 text (n + 1) list sob pc pc rp) := by
  obtain ⟨char, inside, _⟩ := char_here cons
  have balance := here.balance
  have opens : chr '.' ≠ chr '(' := by decide
  have closes : chr '.' ≠ chr ')' := by decide
  have none : repeats (chr '.') = none := rfl
  rw [regcomp1, char]
  dsimp only
  rw [if_neg (by decide), if_neg opens, if_neg closes, none]
  dsimp only
  rw [if_pos rfl, final_step cons]
  cases dot : s.dot with
  | true =>
    have step : s.step (chr '.') = { s with spare := s.spare + 1, last := .other } := by
      simp [Scan.step, here.going, opens, closes, none, dot]
    obtain ⟨l, lastp, type⟩ := here.dot.mp dot
    rw [here.other dot] at last
    obtain ⟨i, rfl, less, not⟩ := last
    have filter : (rp.lastp.filter fun i => (rp.mem i).type = .wildcard) = some l := by
      rw [lastp]
      simp [type]
    rw [filter, step]
    dsimp only
    have next : At text { rp with str := rp.str + 1 } { s with spare := s.spare + 1, last := .other } := by
      refine ⟨here.going, here.nest, here.shallow, ?_, inside, here.dot, fun _ => rfl, fun k _ _ is => by cases is⟩
      dsimp only
      omega
    have last : LastIs { rp with str := rp.str + 1 } (some i) .other := ⟨i, rfl, less, not⟩
    unfold mergeDot
    refine .before (ih (next.set ?_ l) (last.set ?_ l) ?_ list_in sob_in) ?_ ?_ inside
    · exact fun _ => rfl
    · exact fun _ => rfl
    · exact set_linked linked fun _ => rfl
    · refine .read (set_keeps ?_ _ _)
      exact fun _ => rfl
    · exact Nat.lt_succ_self _
  | false =>
    have step : s.step (chr '.') = { s with last := .other, dot := true } := by
      simp [Scan.step, here.going, opens, closes, none, dot]
    have filter : (rp.lastp.filter fun i => (rp.mem i).type = .wildcard) = Option.none := by
      cases lastp : rp.lastp with
      | none => rfl
      | some l =>
        have not : (rp.mem l).type ≠ .wildcard := fun is => by
          rw [here.dot.mpr ⟨l, lastp, is⟩] at dot
          cases dot
        simp [not]
    rw [filter, step]
    apply piece_ran .wildcard ih here list_in sob_in inside
    · exact @newpiece_linked { rp with str := rp.str + 1 } _ linked (some list) (by simpa using list_in) (by decide)
    · exact .read (newpiece_keeps _ _ _)
    · exact newpiece_piece _ _ _
    · exact newpiece_str _ _ _
    · exact newpiece_nest _ _ _
    · exact newpiece_lastp _ _ _
    · exact newpiece_type _ _ _
    · decide

theorem single_ne (is : single c = some type) :
    (c ≠ 0 ∧ c ≠ chr '(' ∧ c ≠ chr ')' ∧ repeats c = none ∧ c ≠ chr '.') ∧
      type ≠ .string ∧ type ≠ .subx ∧ type ≠ .wildcard := by
  unfold single at is
  split at is
  · rename_i same
    subst same
    cases is
    exact ⟨⟨by decide, by decide, by decide, rfl, by decide⟩, by decide, by decide, by decide⟩
  split at is
  · rename_i same
    subst same
    cases is
    exact ⟨⟨by decide, by decide, by decide, rfl, by decide⟩, by decide, by decide, by decide⟩
  split at is
  · rename_i same
    subst same
    cases is
    exact ⟨⟨by decide, by decide, by decide, rfl, by decide⟩, by decide, by decide, by decide⟩
  · cases is

theorem single_ran (ih : Goes text n) (here : At text rp s) (linked : Linked rp) (list_in : list < rp.piece)
    (sob_in : sob ≤ rp.piece) (cons : text.drop rp.str = c :: rest) {type : Pt} (is : single c = some type) :
    Ran text rp (n + 1) s.depth (final text rp.str s) (regcomp1 text (n + 1) list sob pc pc rp) := by
  obtain ⟨char, inside, _⟩ := char_here cons
  obtain ⟨⟨some, opens, closes, none, dot⟩, string, subx, wildcard⟩ := single_ne is
  have step : s.step c = { s with last := .other, dot := decide (type = .wildcard) } := by
    simp [Scan.step, here.going, opens, closes, none, dot, is, wildcard]
  have made : Linked (newpiece { rp with str := rp.str + 1 } (Option.some list) type) :=
    newpiece_linked linked.read (by simpa using list_in) subx
  rw [regcomp1, char]
  dsimp only
  rw [if_neg some, if_neg opens, if_neg closes, none]
  dsimp only
  rw [if_neg dot, is, final_step cons, step]
  dsimp only
  split
  · -- the piece is the next branch of the one at `sob`
    apply piece_ran type ih here list_in sob_in inside
    · refine set_all made fun p fits => ⟨fits.next, fits.prev, fits.subx, ?_, fits.group⟩
      rintro j ⟨⟩
      rw [set_piece, newpiece_piece]
      exact Nat.lt_succ_self _
    · refine .read ((newpiece_keeps _ _ _).trans (set_keeps ?_ _ _))
      exact fun _ => rfl
    · exact newpiece_piece _ _ _
    · exact newpiece_str _ _ _
    · exact newpiece_nest _ _ _
    · exact newpiece_lastp _ _ _
    · rw [set_type]
      · exact newpiece_type _ _ _
      · exact fun _ => rfl
    · exact string
  · apply piece_ran type ih here list_in sob_in inside
    · exact made
    · exact .read (newpiece_keeps _ _ _)
    · exact newpiece_piece _ _ _
    · exact newpiece_str _ _ _
    · exact newpiece_nest _ _ _
    · exact newpiece_lastp _ _ _
    · exact newpiece_type _ _ _
    · exact string

theorem after_string (rest : List Byte)
    (after : rest.drop (rest.takeWhile fun c => !special c).length = c :: more) : special c = true := by
  induction rest with
  | nil => cases after
  | cons d rest ih =>
    by_cases plain : special d = true
    · rw [takeWhile_cons_of_neg (by simp [plain]), length_nil, drop_zero, cons.injEq] at after
      exact after.1 ▸ plain
    · rw [takeWhile_cons_of_pos (by simp [plain]), length_cons, drop_succ_cons] at after
      exact ih after

theorem string_ran (ih : Goes text n) (here : At text rp s) (linked : Linked rp) (list_in : list < rp.piece)
    (sob_in : sob ≤ rp.piece) (cons : text.drop rp.str = c :: rest) (some : c ≠ 0) (plain : special c = false) :
    Ran text rp (n + 1) s.depth (final text rp.str s) (regcomp1 text (n + 1) list sob pc pc rp) := by
  obtain ⟨char, inside, drop⟩ := char_here cons
  obtain ⟨opens, closes, none, dot, alone⟩ := (plain_iff c).mp plain
  have balance := here.balance
  have step := step_string here.going plain fun k is => by
    rw [here.ended k c rest is cons] at plain
    cases plain
  rw [regcomp1, char]
  dsimp only
  rw [if_neg some, if_neg opens, if_neg closes, none]
  dsimp only
  rw [if_neg dot, alone, final_step cons, step]
  dsimp only
  generalize length : (rest.takeWhile fun c => !special c).length = j
  have str : (regcompStr text { rp with str := rp.str + 1 } list).str = rp.str + 1 + j := by
    unfold regcompStr
    dsimp only
    rw [drop, length]
  have rest_length : j ≤ rest.length := by
    rw [← length]
    exact (takeWhile_sublist _).length_le
  have drop' : text.drop (rp.str + 1 + j) = rest.drop j := by
    rw [← drop, drop_drop]
  have final' : final text (rp.str + 1) { s with last := .word 1, dot := false } = final text (rp.str + 1 + j)
      { s with spare := s.spare + j, last := .word (1 + j), dot := false } := by
    unfold final
    rw [drop, drop', @word_final { s with last := .word 1, dot := false } rest 1 here.going rfl, length]
  rw [final', ← str]
  have piece : (regcompStr text { rp with str := rp.str + 1 } list).piece = rp.piece + 1 := newpiece_piece _ _ _
  have keeps : Keeps rp (regcompStr text { rp with str := rp.str + 1 } list) := by
    refine ⟨by rw [piece]; exact Nat.le_succ _, fun i less => ?_⟩
    unfold regcompStr
    dsimp only
    rw [set_type]
    · exact Keeps.type (newpiece_keeps { rp with str := rp.str + 1 } _ _) i less
    · exact fun _ => rfl
  have mem : ((regcompStr text { rp with str := rp.str + 1 } list).mem rp.piece).type = .string ∧
      ((regcompStr text { rp with str := rp.str + 1 } list).mem rp.piece).start = rp.str ∧
      ((regcompStr text { rp with str := rp.str + 1 } list).mem rp.piece).stop = rp.str + 1 + j := by
    rw [← str]
    unfold regcompStr
    dsimp only
    rw [set_mem, if_pos rfl]
    exact ⟨newpiece_type _ _ _, rfl, rfl⟩
  have next : At text (regcompStr text { rp with str := rp.str + 1 } list)
      { s with spare := s.spare + j, last := .word (1 + j), dot := false } := by
    have inner := congrArg List.length drop
    rw [length_drop] at inner
    refine ⟨here.going, (newpiece_nest _ _ _).trans here.nest, here.shallow, ?_, ?_, ?_, (fun is => by cases is), ?_⟩
    · dsimp only
      omega
    · omega
    · have lastp : (regcompStr text { rp with str := rp.str + 1 } list).lastp = Option.some rp.piece :=
        newpiece_lastp _ _ _
      rw [lastp]
      simp [mem.1]
    · rintro k d more - after
      rw [str, drop', ← length] at after
      exact after_string rest after
  refine .before (ih next ?_ ?_ ?_ ?_) keeps ?_ inside
  · refine ⟨_, rfl, Nat.lt_of_lt_of_eq (Nat.lt_succ_self _) piece.symm, mem.1, by omega, ?_⟩
    rw [mem.2.1, mem.2.2, add_assoc]
  · unfold regcompStr
    apply Linked.read
    apply set_linked
    · exact newpiece_linked linked.read (by simpa using list_in) (by decide)
    · exact fun _ => rfl
  · rw [piece]
    exact Nat.lt_succ_of_lt list_in
  · rw [piece]
    exact Nat.le_succ_of_le sob_in
  · omega

end Steps

theorem regcomp1_ran (string : (0 : Byte) ∉ text) (n : Nat) : Goes text n := by
  induction n with
  | zero =>
    intro rp list sob pc s _ _ _ _ _
    exact ⟨fun enough => absurd enough (Nat.not_lt_zero _), fun ok rp' is => by cases is⟩
  | succ n ih =>
    intro rp list sob pc s here last linked list_in sob_in
    cases cons : text.drop rp.str with
    | nil =>
      -- the end of the pattern
      have past := drop_eq_nil_iff.mp cons
      have inside := here.inside
      have balance := here.balance
      rw [regcomp1_end past]
      refine .now linked ⟨le_refl _, fun _ _ => rfl⟩ (Nat.lt_succ_self _) (.inr ⟨?_, fun _ => here.nest⟩)
      unfold final
      rw [cons, foldl_nil]
      dsimp only
      omega
    | cons c rest =>
      have some : c ≠ 0 := by
        rintro rfl
        exact string (mem_of_mem_drop (cons ▸ mem_cons_self))
      by_cases opens : c = chr '('
      · subst opens
        exact open_ran ih here linked list_in sob_in cons
      by_cases closes : c = chr ')'
      · subst closes
        exact close_ran here linked cons
      cases repeated : repeats c with
      | some f => exact repeat_ran ih here last linked list_in sob_in cons repeated
      | none =>
        by_cases dot : c = chr '.'
        · subst dot
          exact dot_ran ih here last linked list_in sob_in cons
        cases alone : single c with
        | some type => exact single_ran ih here linked list_in sob_in cons alone
        | none =>
          have plain := (plain_iff c).mpr ⟨opens, closes, repeated, dot, alone⟩
          exact string_ran ih here linked list_in sob_in cons some plain

theorem start_at (text : List Byte) : At text start ⟨0, 0, .none, false, false⟩ := by
  refine ⟨rfl, rfl, by decide, rfl, Nat.zero_le _, ?_, (fun is => by cases is), fun _ _ _ is => by cases is⟩
  simp [start]

theorem start_linked : Linked start := by
  intro i less
  obtain rfl : i = 0 := Nat.lt_one_iff.mp less
  refine ⟨by decide, by decide, ?_, ?_, ?_⟩
  · exact fun _ is => by cases is
  · exact fun _ is => by cases is
  · exact fun is => by cases is

theorem start_ran (string : (0 : Byte) ∉ text) (n : Nat) :
    Ran text start n 0 (scan text) (regcomp1 text n 0 start.piece none none start) :=
  regcomp1_ran string n (start_at text) rfl start_linked Nat.one_pos (le_refl _)

theorem start_pieces (string : (0 : Byte) ∉ text)
    (run : regcomp1 text n 0 start.piece none none start = some (ok, rp)) :
    Linked rp ∧ rp.piece + (scan text).spare = text.length + (scan text).depth + 1 := by
  obtain ⟨linked, _, _, ⟨_, s, _, _, depth, _⟩ | ⟨pieces, _⟩⟩ := (start_ran string n).done ok rp run
  · exact absurd depth (Nat.succ_ne_zero _)
  · exact ⟨linked, pieces⟩

/-- The pieces stay in the block if the groups that are left open where the reading stops are at most as many as the
    characters that have not needed a piece, and the size of the block is one. -/
theorem stays_iff (m : Machine) {text : List Byte} (string : (0 : Byte) ∉ text) :
    Stays m text ↔ regexpSize m + text.length * pieceSize m + (text.length + 1) < m.word ∧
      (scan text).depth ≤ (scan text).spare := by
  have size : regexpSize m + text.length * pieceSize m + (text.length + 1) ≤ blockSize m text ↔
      regexpSize m + text.length * pieceSize m + (text.length + 1) < m.word := by
    unfold blockSize
    constructor
    · intro le
      exact lt_of_le_of_lt le (Nat.mod_lt _ (lt_of_lt_of_le (by decide) m.word_large))
    · intro less
      rw [Nat.mod_eq_of_lt less]
  unfold Stays
  constructor
  · rintro ⟨n, ok, rp, run, block, room, _⟩
    have pieces := (start_pieces string run).2
    exact ⟨size.mp block, by omega⟩
  · rintro ⟨block, room⟩
    have ran := (start_ran string (text.length + 1)).returns (Nat.lt_succ_of_le (Nat.sub_le _ _))
    obtain ⟨⟨ok, rp⟩, run⟩ := ne_none_iff_exists'.mp ran
    obtain ⟨linked, pieces⟩ := start_pieces string run
    exact ⟨_, ok, rp, run, size.mpr block, by omega, fun _ => linked⟩

/-- A group with a character in it. -/
theorem stays_group : Stays .i386 [chr '(', chr 'a', chr ')'] :=
  (stays_iff .i386 (by decide)).mpr (by decide)

/-- A group that is left open needs two pieces, and the block has room for one. -/
theorem not_stays : ¬ Stays .i386 [chr '('] := by
  rintro ⟨n, ok, rp, run, _, room, _⟩
  have pieces := (start_pieces (by decide) run).2
  obtain ⟨depth, spare⟩ : (scan [chr '(']).depth = 1 ∧ (scan [chr '(']).spare = 0 := by decide
  rw [depth, spare] at pieces
  omega

end Regcomp
