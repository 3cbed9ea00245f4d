import Newsys.Lib.Chain

/- The lists of lib/list.c and include/list.h. An element is the address of a structure with a `struct list_item`
   in it, `elem_off` bytes from its start; the links point from one item to another. -/
namespace Intrusive
open Chains List

/-- A `struct list` and the items in memory; the ones outside the list hold whatever has been left in them. -/
structure Lst where
  ends : Head Nat
  items : Links Nat
  elemOff : Nat

def listInit (items : Links Nat) (elemOff : Nat) : Lst := { ends := Head.null, items, elemOff }

def listGet (li : Lst) (item : Option Nat) : Option Nat := item.map (· - li.elemOff)

def listFirst (li : Lst) : Option Nat := listGet li li.ends.first

def listLast (li : Lst) : Option Nat := listGet li li.ends.last

/-- `e2` becomes the only item; nothing when `__libc_panic` is called. -/
def listOnly (li : Lst) (e2 : Nat) : Option Lst :=
  match li.ends.first with
  | some _ => none
  | none => some { li with ends := ⟨some e2, some e2⟩, items := setNext (setPrev li.items e2 none) e2 none }

def listIb (li : Lst) (elem1 : Option Nat) (elem2 : Nat) : Option Lst :=
  let e2 := elem2 + li.elemOff
  match elem1 with
  | none => listOnly li e2
  | some elem1 =>
    let e1 := elem1 + li.elemOff
    let items := setNext li.items e2 (some e1)
    let items := setPrev items e2 (items e1).prev
    match (items e1).prev with
    | some p => some { li with items := setPrev (setNext items p (some e2)) e1 (some e2) }
    | none => some { li with ends := { li.ends with first := some e2 }, items := setPrev items e1 (some e2) }

def listIa (li : Lst) (elem1 : Option Nat) (elem2 : Nat) : Option Lst :=
  let e2 := elem2 + li.elemOff
  match elem1 with
  | none => listOnly li e2
  | some elem1 =>
    let e1 := elem1 + li.elemOff
    let items := setNext li.items e2 (li.items e1).next
    let items := setPrev items e2 (some e1)
    match (items e1).next with
    | some n => some { li with items := setNext (setPrev items n (some e2)) e1 (some e2) }
    | none => some { li with ends := { li.ends with last := some e2 }, items := setNext items e1 (some e2) }

def listRm (li : Lst) (elem : Nat) : Lst :=
  let e := elem + li.elemOff
  let first := if some e = li.ends.first then (li.items e).next else li.ends.first
  let last := if some e = li.ends.last then (li.items e).prev else li.ends.last
  let items := linkPrev li.items (li.items e).next (li.items e).prev
  { li with ends := ⟨first, last⟩, items := linkNext items (items e).prev (items e).next }

def listApp (li : Lst) (elem : Nat) : Option Lst := listIa li (listLast li) elem

def listPre (li : Lst) (elem : Nat) : Option Lst := listIb li (listFirst li) elem

def listNext (li : Lst) (elem : Nat) : Option Nat := listGet li (li.items (elem + li.elemOff)).next

def listPrev (li : Lst) (elem : Nat) : Option Nat := listGet li (li.items (elem + li.elemOff)).prev

/-- The elements from one on, until the null pointer; nothing when more than `fuel` of them come. -/
def traverse (step : Nat → Option Nat) : Nat → Option Nat → Option (List Nat)
  | _, none => some []
  | 0, some _ => none
  | fuel + 1, some elem => (traverse step fuel (step elem)).map (elem :: ·)

/- The sequence that a list stands for -/

inductive Op where
  | ib (elem1 : Option Nat) (elem2 : Nat)
  | ia (elem1 : Option Nat) (elem2 : Nat)
  | rm (elem : Nat)
  | app (elem : Nat)
  | pre (elem : Nat)

def call (li : Lst) : Op → Option Lst
  | .ib elem1 elem2 => listIb li elem1 elem2
  | .ia elem1 elem2 => listIa li elem1 elem2
  | .rm elem => some (listRm li elem)
  | .app elem => listApp li elem
  | .pre elem => listPre li elem

def run (li : Lst) : List Op → Option Lst
  | [] => some li
  | op :: ops => (call li op).bind fun li => run li ops

def insertBefore (r : Option Nat) (elem : Nat) : List Nat → List Nat
  | [] => [elem]
  | x :: l => if r = some x then elem :: x :: l else x :: insertBefore r elem l

def insertAfter (r : Option Nat) (elem : Nat) : List Nat → List Nat
  | [] => [elem]
  | x :: l => if r = some x then x :: elem :: l else x :: insertAfter r elem l

def apply (l : List Nat) : Op → List Nat
  | .ib elem1 elem2 => insertBefore elem1 elem2 l
  | .ia elem1 elem2 => insertAfter elem1 elem2 l
  | .rm elem => l.erase elem
  | .app elem => l ++ [elem]
  | .pre elem => elem :: l

def Anchored (l : List Nat) : Option Nat → Prop
  | none => l = []
  | some elem => elem ∈ l

def Proper (l : List Nat) : Op → Prop
  | .ib elem1 elem2 | .ia elem1 elem2 => elem2 ∉ l ∧ Anchored l elem1
  | .rm elem => elem ∈ l
  | .app elem | .pre elem => elem ∉ l

/-- Every call is proper for the sequence that the calls before it leave. -/
def ProperRun (l : List Nat) : List Op → Prop
  | [] => True
  | op :: ops => Proper l op ∧ ProperRun (apply l op) ops

/-- What a caller reads from the list is the sequence, in both directions. -/
structure Reads (li : Lst) (l : List Nat) : Prop where
  first : listFirst li = l.head?
  last : listLast li = l.getLast?
  next : ∀ a elem b, l = a ++ elem :: b → listNext li elem = b.head?
  prev : ∀ a elem b, l = a ++ elem :: b → listPrev li elem = a.getLast?
  forward : ∀ fuel, l.length ≤ fuel → traverse (listNext li) fuel (listFirst li) = some l
  backward : ∀ fuel, l.length ≤ fuel → traverse (listPrev li) fuel (listLast li) = some l.reverse

/-- The items of the elements are linked in the order of the sequence. -/
structure Refines (li : Lst) (l : List Nat) : Prop where
  linked : Linked li.ends li.items (l.map (· + li.elemOff))
  nodup : l.Nodup

section Sequences
variable {a b l : List Nat} {r elem : Nat}

theorem insertBefore_split (elem : Nat) (b : List Nat) (out : r ∉ a) :
    insertBefore (some r) elem (a ++ r :: b) = a ++ elem :: r :: b := by
  induction a with
  | nil => simp [insertBefore]
  | cons x a ih =>
    rw [mem_cons, not_or] at out
    rw [cons_append, insertBefore, if_neg fun eq => out.1 (Option.some.inj eq), ih out.2]
    rfl

theorem insertAfter_split (elem : Nat) (b : List Nat) (out : r ∉ a) :
    insertAfter (some r) elem (a ++ r :: b) = a ++ r :: elem :: b := by
  induction a with
  | nil => simp [insertAfter]
  | cons x a ih =>
    rw [mem_cons, not_or] at out
    rw [cons_append, insertAfter, if_neg fun eq => out.1 (Option.some.inj eq), ih out.2]
    rfl

theorem insertBefore_first (elem : Nat) (l : List Nat) : insertBefore l.head? elem l = elem :: l := by
  cases l <;> simp [insertBefore]

theorem insertAfter_last (elem : Nat) (nodup : l.Nodup) : insertAfter l.getLast? elem l = l ++ [elem] := by
  rcases eq_nil_or_concat l with rfl | ⟨a, r, rfl⟩
  · rfl
  · rw [concat_eq_append] at nodup ⊢
    have out : r ∉ a := fun here => (nodup_append.mp nodup).2.2 r here r (mem_singleton_self r) rfl
    rw [getLast?_concat, insertAfter_split elem [] out, append_assoc]
    rfl

theorem anchored_first (l : List Nat) : Anchored l l.head? := by
  cases l <;> simp [Anchored]

theorem anchored_last (l : List Nat) : Anchored l l.getLast? := by
  rcases eq_nil_or_concat l with rfl | ⟨a, r, rfl⟩
  · rfl
  · rw [concat_eq_append, getLast?_concat]
    exact mem_append_right a (mem_singleton_self r)

theorem traverse_eq (next : ∀ a elem b, l = a ++ elem :: b → step elem = b.head?)
    (enough : l.length ≤ fuel) : traverse step fuel l.head? = some l := by
  induction l generalizing fuel with
  | nil => cases fuel <;> rfl
  | cons x l ih =>
    obtain ⟨fuel, rfl⟩ := Nat.exists_eq_succ_of_ne_zero (Nat.ne_zero_of_lt enough)
    have here : step x = l.head? := next [] x l rfl
    have rest := ih (fun a elem b split => next (x :: a) elem b (by rw [split]; rfl)) (Nat.le_of_succ_le_succ enough)
    rw [head?_cons, traverse, here, rest]
    rfl

theorem split_at (nodup : l.Nodup) (mem : r ∈ l) : ∃ a b, l = a ++ r :: b ∧ r ∉ a := by
  obtain ⟨a, b, rfl⟩ := append_of_mem mem
  exact ⟨a, b, rfl, fun here => (nodup_append.mp nodup).2.2 r here r (mem_cons_self ..) rfl⟩

end Sequences

section Calls
variable {li : Lst} {a b l : List Nat} {r elem : Nat}

def relink (li : Lst) (new : Head Nat × Links Nat) : Lst := { li with ends := new.1, items := new.2 }

theorem Refines.items_nodup (R : Refines li l) : (l.map (· + li.elemOff)).Nodup :=
  R.nodup.map fun _ _ => Nat.add_right_cancel

theorem items_new (new : elem ∉ l) : elem + li.elemOff ∉ l.map (· + li.elemOff) := by
  intro mem
  obtain ⟨x, here, eq⟩ := mem_map.mp mem
  exact new (Nat.add_right_cancel eq ▸ here)

theorem refines_init (items : Links Nat) (elemOff : Nat) : Refines (listInit items elemOff) [] :=
  ⟨linked_nil items, nodup_nil⟩

theorem refines_insert (R : Refines li (a ++ b)) (new : elem ∉ a ++ b) :
    Refines (relink li (insert li.ends li.items (a.map (· + li.elemOff)).getLast? (b.map (· + li.elemOff)).head?
      (elem + li.elemOff))) (a ++ elem :: b) := by
  have linked := R.linked
  have nodup := R.items_nodup
  have out : elem + li.elemOff ∉ (a ++ b).map (· + li.elemOff) := items_new new
  rw [map_append] at linked nodup out
  constructor
  · have grown := linked_insert linked nodup out
    rw [map_append, map_cons]
    exact grown
  · rw [mem_append, not_or] at new
    obtain ⟨nodupA, nodupB, apart⟩ := nodup_append.mp R.nodup
    refine nodup_append.mpr ⟨nodupA, nodup_cons.mpr ⟨new.2, nodupB⟩, ?_⟩
    intro x memA y memB eq
    rcases mem_cons.mp memB with rfl | memB
    · exact new.1 (eq ▸ memA)
    · exact apart x memA y memB eq

theorem listOnly_eq (first : li.ends.first = none) (e2 : Nat) :
    listOnly li e2 = some (relink li (insert li.ends li.items none none e2)) := by
  simp only [listOnly, first, setNext_setPrev]
  rfl

theorem listIb_eq (R : Refines li (a ++ r :: b)) (new : elem ∉ a ++ r :: b) : listIb li (some r) elem =
    some (relink li (insert li.ends li.items (a.map (· + li.elemOff)).getLast? (some (r + li.elemOff))
      (elem + li.elemOff))) := by
  have ne : r + li.elemOff ≠ elem + li.elemOff := fun eq => new (Nat.add_right_cancel eq ▸ by simp)
  have here := R.linked.item (a.map (· + li.elemOff)) (r + li.elemOff) (b.map (· + li.elemOff)) (by simp)
  have prev : (li.items (r + li.elemOff)).prev = (a.map (· + li.elemOff)).getLast? := by rw [here]
  simp only [listIb, setPrev_ne _ _ ne, setNext_ne _ _ ne, prev, setPrev_setNext]
  cases (a.map (· + li.elemOff)).getLast? with
  | none => rfl
  | some p =>
    simp only [setPrev_comm]
    rfl

theorem listIa_eq (R : Refines li (a ++ r :: b)) (new : elem ∉ a ++ r :: b) : listIa li (some r) elem =
    some (relink li (insert li.ends li.items (some (r + li.elemOff)) (b.map (· + li.elemOff)).head?
      (elem + li.elemOff))) := by
  have ne : r + li.elemOff ≠ elem + li.elemOff := fun eq => new (Nat.add_right_cancel eq ▸ by simp)
  have here := R.linked.item (a.map (· + li.elemOff)) (r + li.elemOff) (b.map (· + li.elemOff)) (by simp)
  have next : (li.items (r + li.elemOff)).next = (b.map (· + li.elemOff)).head? := by rw [here]
  simp only [listIa, setPrev_ne _ _ ne, setNext_ne _ _ ne, next, setPrev_setNext]
  cases (b.map (· + li.elemOff)).head? with
  | none => rfl
  | some n => rfl

theorem listRm_eq (li : Lst) (elem : Nat) :
    listRm li elem = relink li (unlink li.ends li.items (elem + li.elemOff)) := by
  simp only [listRm, relink, unlink, linkPrev_item, ite_self, eq_comm]

theorem refines_remove (R : Refines li l) (mem : elem ∈ l) : Refines (listRm li elem) (l.erase elem) := by
  obtain ⟨a, b, rfl, out⟩ := split_at R.nodup mem
  rw [listRm_eq, erase_append_right _ out, erase_cons_head]
  have linked := R.linked
  have nodup := R.items_nodup
  rw [map_append, map_cons] at linked nodup
  constructor
  · have shrunk := linked_unlink linked nodup
    rw [map_append]
    exact shrunk
  · exact R.nodup.sublist ((sublist_cons_self ..).append_left a)

theorem listGet_first (li : Lst) (l : List Nat) : listGet li (l.map (· + li.elemOff)).head? = l.head? := by
  cases l with
  | nil => rfl
  | cons x l => simp [listGet]

theorem listGet_last (li : Lst) (l : List Nat) : listGet li (l.map (· + li.elemOff)).getLast? = l.getLast? := by
  rw [getLast?_map, listGet, Option.map_map]
  simp [Function.comp_def]

end Calls

/- One call after the other -/

section Runs
variable {li : Lst} {l : List Nat} {r : Option Nat} {elem : Nat}

theorem listOnly_refines (R : Refines li []) (elem : Nat) :
    ∃ li', listOnly li (elem + li.elemOff) = some li' ∧ Refines li' [elem] := by
  have first : li.ends.first = none := R.linked.first
  exact ⟨_, listOnly_eq first _, refines_insert (a := []) (b := []) R (not_mem_nil)⟩

section
variable (R : Refines li l)
include R

theorem listIb_refines (new : elem ∉ l) (anchored : Anchored l r) :
    ∃ li', listIb li r elem = some li' ∧ Refines li' (insertBefore r elem l) := by
  cases r with
  | none =>
    obtain rfl : l = [] := anchored
    exact listOnly_refines R elem
  | some r =>
    obtain ⟨a, b, rfl, out⟩ := split_at R.nodup anchored
    rw [listIb_eq R new, insertBefore_split elem b out]
    exact ⟨_, rfl, refines_insert R new⟩

theorem listIa_refines (new : elem ∉ l) (anchored : Anchored l r) :
    ∃ li', listIa li r elem = some li' ∧ Refines li' (insertAfter r elem l) := by
  cases r with
  | none =>
    obtain rfl : l = [] := anchored
    exact listOnly_refines R elem
  | some r =>
    obtain ⟨a, b, rfl, out⟩ := split_at R.nodup anchored
    rw [listIa_eq R new, insertAfter_split elem b out]
    refine ⟨_, rfl, ?_⟩
    have split : a ++ r :: b = (a ++ [r]) ++ b := by simp
    rw [split] at R new
    have grown := refines_insert R new
    simpa using grown

theorem Refines.listFirst : listFirst li = l.head? := by
  rw [Intrusive.listFirst, R.linked.first, listGet_first]

theorem Refines.listLast : listLast li = l.getLast? := by
  rw [Intrusive.listLast, R.linked.last, listGet_last]

theorem call_refines (proper : Proper l op) :
    ∃ li', call li op = some li' ∧ Refines li' (apply l op) := by
  cases op with
  | ib elem1 elem2 => exact listIb_refines R proper.1 proper.2
  | ia elem1 elem2 => exact listIa_refines R proper.1 proper.2
  | rm elem => exact ⟨_, rfl, refines_remove R proper⟩
  | app elem =>
    have added := listIa_refines R proper (anchored_last l)
    rw [insertAfter_last elem R.nodup, ← R.listLast] at added
    exact added
  | pre elem =>
    have added := listIb_refines R proper (anchored_first l)
    rw [insertBefore_first, ← R.listFirst] at added
    exact added

theorem run_refines (proper : ProperRun l ops) :
    ∃ li', run li ops = some li' ∧ Refines li' (ops.foldl apply l) := by
  induction ops generalizing li l with
  | nil => exact ⟨li, rfl, R⟩
  | cons op ops ih =>
    obtain ⟨li', called, R'⟩ := call_refines R proper.1
    rw [run, called]
    exact ih R' proper.2

theorem Refines.reads : Reads li l := by
  have item : ∀ a elem b, l = a ++ elem :: b → listNext li elem = b.head? ∧ listPrev li elem = a.getLast? := by
    rintro a elem b rfl
    have here := R.linked.item (a.map (· + li.elemOff)) (elem + li.elemOff) (b.map (· + li.elemOff)) (by simp)
    rw [listNext, listPrev, here]
    exact ⟨listGet_first li b, listGet_last li a⟩
  refine ⟨R.listFirst, R.listLast, fun a elem b split => (item a elem b split).1,
    fun a elem b split => (item a elem b split).2, fun fuel enough => ?_, fun fuel enough => ?_⟩
  · rw [R.listFirst]
    exact traverse_eq (fun a elem b split => (item a elem b split).1) enough
  · rw [R.listLast, ← head?_reverse]
    refine traverse_eq (fun a elem b split => ?_) (by rwa [length_reverse])
    have split' : l = b.reverse ++ elem :: a.reverse := by
      rw [← reverse_reverse l, split]
      simp
    rw [(item _ elem _ split').2, getLast?_reverse]

end

/-- The list stands for the sequence after every run of proper calls, whatever the items held before; no call panics. -/
theorem list_refines (items : Links Nat) (elemOff : Nat) (ops : List Op) (proper : ProperRun [] ops) :
    ∃ li, run (listInit items elemOff) ops = some li ∧ Refines li (ops.foldl apply []) ∧
      Reads li (ops.foldl apply []) := by
  obtain ⟨li, ran, R⟩ := run_refines (refines_init items elemOff) proper
  exact ⟨li, ran, R, R.reads⟩

theorem list_refines_again : ∃ li,
    run (listInit (fun _ => ⟨some 7, some 7⟩) 8) [.app 16, .pre 64, .ib (some 16) 112, .rm 16, .ia (some 112) 16] =
      some li ∧ Refines li [64, 112, 16] ∧ Reads li [64, 112, 16] :=
  list_refines _ 8 [.app 16, .pre 64, .ib (some 16) 112, .rm 16, .ia (some 112) 16]
    (by simp [ProperRun, Proper, Anchored, apply, insertBefore])

end Runs

end Intrusive
