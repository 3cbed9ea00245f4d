import Mathlib.Data.List.Nodup

/- Doubly linked lists threaded through their elements: every element has a next and a previous
   link, and a list has a first and a last element. One store of links may serve several lists. -/
namespace Chains
open Function List Option

structure Item (α : Type) where
  next : Option α
  prev : Option α
  deriving DecidableEq

structure Head (α : Type) where
  first : Option α
  last : Option α
  deriving DecidableEq

abbrev Links (α : Type) := α → Item α

variable {α : Type}

def Item.null : Item α := ⟨none, none⟩

def Head.null : Head α := ⟨none, none⟩

structure Linked (h : Head α) (ln : Links α) (l : List α) : Prop where
  first : h.first = l.head?
  last : h.last = l.getLast?
  item : ∀ a x b, l = a ++ x :: b → ln x = ⟨b.head?, a.getLast?⟩

section Reading
variable {h : Head α} {ln ln' : Links α} {l : List α} {x : α}

theorem linked_nil (ln : Links α) : Linked Head.null ln [] := by
  refine ⟨rfl, rfl, ?_⟩
  intro a x b eq
  exact absurd eq (by simp)

theorem Linked.congr (k : Linked h ln l) (same : ∀ x ∈ l, ln' x = ln x) : Linked h ln' l := by
  refine ⟨k.first, k.last, ?_⟩
  intro a x b eq
  rw [same x (by rw [eq]; simp)]
  exact k.item a x b eq

theorem Linked.first_mem (k : Linked h ln l) (first : h.first = some x) : x ∈ l := by
  rw [k.first] at first
  exact mem_of_mem_head? first

theorem Linked.last_mem (k : Linked h ln l) (last : h.last = some x) : x ∈ l := by
  rw [k.last] at last
  exact mem_of_getLast? last

theorem Linked.eq_nil (k : Linked h ln l) (first : h.first = none) : l = [] := by
  rw [k.first] at first
  exact head?_eq_none_iff.mp first

theorem Linked.eq_cons (k : Linked h ln l) (first : h.first = some x) : ∃ b, l = x :: b := by
  rw [k.first] at first
  exact head?_eq_some_iff.mp first

theorem Linked.next (k : Linked h ln l) (eq : l = a ++ x :: b) : (ln x).next = b.head? := by
  rw [k.item a x b eq]

end Reading

/- Changing a list -/

variable [DecidableEq α]

def setNext (ln : Links α) (x : α) (n : Option α) : Links α := update ln x { ln x with next := n }

def setPrev (ln : Links α) (x : α) (p : Option α) : Links α := update ln x { ln x with prev := p }

def setItem (ln : Links α) (x : α) (i : Item α) : Links α := update ln x i

section Links
variable {ln : Links α} {x y : α}

theorem setNext_same (ln : Links α) (x : α) (n : Option α) : setNext ln x n x = { ln x with next := n } :=
  update_self ..

theorem setNext_ne (ln : Links α) (n : Option α) (ne : y ≠ x) : setNext ln x n y = ln y :=
  update_of_ne ne ..

theorem setPrev_same (ln : Links α) (x : α) (p : Option α) : setPrev ln x p x = { ln x with prev := p } :=
  update_self ..

theorem setPrev_ne (ln : Links α) (p : Option α) (ne : y ≠ x) : setPrev ln x p y = ln y :=
  update_of_ne ne ..

theorem setItem_same (ln : Links α) (x : α) (i : Item α) : setItem ln x i x = i := update_self ..

theorem setItem_ne (ln : Links α) (i : Item α) (ne : y ≠ x) : setItem ln x i y = ln y :=
  update_of_ne ne ..

theorem setPrev_setNext (ln : Links α) (x : α) (n p : Option α) :
    setPrev (setNext ln x n) x p = setItem ln x ⟨n, p⟩ := by
  simp [setPrev, setNext, setItem]

theorem setNext_setPrev (ln : Links α) (x : α) (n p : Option α) :
    setNext (setPrev ln x p) x n = setItem ln x ⟨n, p⟩ := by
  simp [setPrev, setNext, setItem]

theorem setPrev_comm (ln : Links α) (x y : α) (n p : Option α) :
    setPrev (setNext ln x n) y p = setNext (setPrev ln y p) x n := by
  funext z
  by_cases eq : z = x <;> by_cases eq' : z = y <;> simp_all [setPrev, setNext, update_apply]

end Links

def pushFront (h : Head α) (ln : Links α) (e : α) : Head α × Links α :=
  match h.first with
  | none => (⟨some e, some e⟩, setItem ln e Item.null)
  | some f => (⟨some e, h.last⟩, setPrev (setItem ln e ⟨some f, none⟩) f (some e))

def pushBack (h : Head α) (ln : Links α) (e : α) : Head α × Links α :=
  match h.last with
  | none => (⟨some e, some e⟩, setItem ln e Item.null)
  | some f => (⟨h.first, some e⟩, setNext (setItem ln e ⟨none, some f⟩) f (some e))

def linkPrev (ln : Links α) (n p : Option α) : Links α :=
  match n with
  | some n => setPrev ln n p
  | none => ln

def linkNext (ln : Links α) (p n : Option α) : Links α :=
  match p with
  | some p => setNext ln p n
  | none => ln

def unlink (h : Head α) (ln : Links α) (e : α) : Head α × Links α :=
  let first := if h.first = some e then (ln e).next else h.first
  let last := if h.last = some e then (ln e).prev else h.last
  (⟨first, last⟩, linkNext (linkPrev ln (ln e).next (ln e).prev) (ln e).prev (ln e).next)

def insert (h : Head α) (ln : Links α) (p n : Option α) (e : α) : Head α × Links α :=
  let first := if p = none then some e else h.first
  let last := if n = none then some e else h.last
  (⟨first, last⟩, linkNext (linkPrev (setItem ln e ⟨n, p⟩) n (some e)) p (some e))

section Changing
variable {h : Head α} {ln : Links α} {l : List α} {e x : α}

theorem linkPrev_item (ln : Links α) (n p : Option α) (x : α) :
    linkPrev ln n p x = ⟨(ln x).next, if n = some x then p else (ln x).prev⟩ := by
  cases n with
  | none => simp [linkPrev]
  | some n =>
    by_cases eq : x = n
    · rw [eq]
      simp [linkPrev, setPrev_same]
    · simp [linkPrev, setPrev_ne _ _ eq, Ne.symm eq]

theorem linkNext_item (ln : Links α) (n p : Option α) (x : α) :
    linkNext ln p n x = ⟨if p = some x then n else (ln x).next, (ln x).prev⟩ := by
  cases p with
  | none => simp [linkNext]
  | some p =>
    by_cases eq : x = p
    · rw [eq]
      simp [linkNext, setNext_same]
    · simp [linkNext, setNext_ne _ _ eq, Ne.symm eq]

theorem insert_item (h : Head α) (ln : Links α) (p n : Option α) (e x : α) : (insert h ln p n e).2 x =
    ⟨if p = some x then some e else (setItem ln e ⟨n, p⟩ x).next,
      if n = some x then some e else (setItem ln e ⟨n, p⟩ x).prev⟩ := by
  simp only [insert, linkNext_item, linkPrev_item]

theorem linked_insert (k : Linked h ln (a ++ b)) (nodup : (a ++ b).Nodup) (new : e ∉ a ++ b) :
    Linked (insert h ln a.getLast? b.head? e).1 (insert h ln a.getLast? b.head? e).2 (a ++ e :: b) := by
  obtain ⟨nodupA, nodupB, apart⟩ := nodup_append.mp nodup
  rw [mem_append, not_or] at new
  obtain ⟨outA, outB⟩ := new
  have disjoint : ∀ x ∈ a, x ∉ b := fun x mem mem' => apart x mem x mem' rfl
  have here : (insert h ln a.getLast? b.head? e).2 e = ⟨b.head?, a.getLast?⟩ := by
    have last : a.getLast? ≠ some e := fun last => outA (mem_of_getLast? last)
    have first : b.head? ≠ some e := fun first => outB (mem_of_mem_head? first)
    rw [insert_item, setItem_same, if_neg last, if_neg first]
  refine ⟨?_, ?_, ?_⟩
  · show (if a.getLast? = none then some e else h.first) = _
    rw [k.first]
    cases a with
    | nil => rfl
    | cons y a => simp
  · show (if b.head? = none then some e else h.last) = _
    rw [k.last]
    cases b with
    | nil => simp
    | cons y b => simp [getLast?_append]
  · intro c x d split
    rcases append_eq_append_iff.mp split with ⟨a', eqC, eqB⟩ | ⟨c', eqA, eqD⟩
    · cases a' with
      | nil =>
        rw [append_nil] at eqC
        obtain ⟨rfl, rfl⟩ := cons_eq_cons.mp eqB
        rw [here, eqC]
      | cons y a' =>
        -- behind the new element
        obtain ⟨rfl, rest⟩ := cons_eq_cons.mp eqB
        have mem : x ∈ b := by rw [rest]; simp
        have ne : x ≠ e := fun eq => outB (eq ▸ mem)
        have outside : a.getLast? ≠ some x := fun last => disjoint x (mem_of_getLast? last) mem
        have old := k.item (a ++ a') x d (by rw [rest]; simp)
        rw [insert_item, if_neg outside, setItem_ne _ _ ne, old, eqC, rest]
        cases a' with
        | nil => simp
        | cons z a' =>
          have ne' : z ≠ x := by
            rintro rfl
            rw [rest] at nodupB
            simp at nodupB
          simp [ne']
    · cases c' with
      | nil =>
        rw [append_nil] at eqA
        obtain ⟨rfl, rfl⟩ := cons_eq_cons.mp eqD
        rw [here, eqA]
      | cons y c' =>
        -- in front of it
        obtain ⟨rfl, rest⟩ := cons_eq_cons.mp eqD
        have mem : x ∈ a := by rw [eqA]; simp
        have ne : x ≠ e := fun eq => outA (eq ▸ mem)
        have outside : b.head? ≠ some x := fun first => disjoint x mem (mem_of_mem_head? first)
        have old := k.item c x (c' ++ b) (by rw [eqA]; simp)
        rw [insert_item, if_neg outside, setItem_ne _ _ ne, old, rest, eqA]
        rcases eq_nil_or_concat c' with rfl | ⟨c', z, rfl⟩
        · simp
        · have ne' : z ≠ x := by
            rintro rfl
            rw [eqA] at nodupA
            simp [nodup_append] at nodupA
          have last : (c ++ x :: c'.concat z).getLast? ≠ some x := by
            rw [concat_eq_append, ← cons_append, ← append_assoc, getLast?_concat]
            exact fun eq => ne' (some.inj eq)
          rw [if_neg last]
          cases c' <;> rfl

theorem insert_frame (ne : x ≠ e) (prev : p ≠ some x) (next : n ≠ some x) :
    (insert h ln p n e).2 x = ln x := by
  rw [insert_item, if_neg prev, if_neg next, setItem_ne _ _ ne]

theorem pushFront_eq (h : Head α) (ln : Links α) (e : α) :
    pushFront h ln e = insert h ln none h.first e := by
  unfold pushFront insert
  cases first : h.first with
  | none => rfl
  | some f => rfl

theorem pushBack_eq (h : Head α) (ln : Links α) (e : α) : pushBack h ln e = insert h ln h.last none e := by
  unfold pushBack insert
  cases last : h.last with
  | none => rfl
  | some f => rfl

theorem linked_pushFront (k : Linked h ln l) (nodup : l.Nodup) (new : e ∉ l) :
    Linked (pushFront h ln e).1 (pushFront h ln e).2 (e :: l) := by
  rw [pushFront_eq, k.first]
  exact linked_insert (a := []) k nodup new

theorem pushFront_frame (k : Linked h ln l) (ne : x ≠ e) (out : x ∉ l) : (pushFront h ln e).2 x = ln x := by
  rw [pushFront_eq]
  exact insert_frame ne nofun fun first => out (k.first_mem first)

theorem linked_pushBack (k : Linked h ln l) (nodup : l.Nodup) (new : e ∉ l) :
    Linked (pushBack h ln e).1 (pushBack h ln e).2 (l ++ [e]) := by
  rw [pushBack_eq, k.last]
  rw [← append_nil l] at k nodup new
  exact linked_insert k nodup new

theorem pushBack_frame (k : Linked h ln l) (ne : x ≠ e) (out : x ∉ l) : (pushBack h ln e).2 x = ln x := by
  rw [pushBack_eq]
  exact insert_frame ne (fun last => out (k.last_mem last)) nofun

theorem unlink_item (h : Head α) (ln : Links α) (e x : α) : (unlink h ln e).2 x =
    ⟨if (ln e).prev = some x then (ln e).next else (ln x).next,
      if (ln e).next = some x then (ln e).prev else (ln x).prev⟩ := by
  simp only [unlink, linkNext_item, linkPrev_item]

theorem linked_unlink (k : Linked h ln (a ++ e :: b)) (nodup : (a ++ e :: b).Nodup) :
    Linked (unlink h ln e).1 (unlink h ln e).2 (a ++ b) := by
  have here := k.item a e b rfl
  obtain ⟨nodupA, nodupB, apart⟩ := nodup_append.mp nodup
  obtain ⟨outB, nodupB⟩ := nodup_cons.mp nodupB
  have outA : e ∉ a := fun mem => apart e mem e (mem_cons_self ..) rfl
  have disjoint : ∀ x ∈ a, x ∉ b := fun x mem mem' => apart x mem x (mem_cons_of_mem _ mem') rfl
  refine ⟨?_, ?_, ?_⟩
  · show (if h.first = some e then (ln e).next else h.first) = _
    rw [k.first, here]
    cases a with
    | nil => simp
    | cons c a =>
      have ne : c ≠ e := fun eq => outA (eq ▸ mem_cons_self ..)
      simp [ne]
  · show (if h.last = some e then (ln e).prev else h.last) = _
    rw [k.last, here]
    rcases eq_nil_or_concat b with rfl | ⟨b, c, rfl⟩
    · simp
    · have ne : c ≠ e := fun eq => outB (by rw [eq]; simp)
      simp only [concat_eq_append, ← cons_append, ← append_assoc, getLast?_append,
        getLast?_singleton, some_or, some.injEq, if_neg ne]
  · intro c x d split
    rw [unlink_item, here]
    rcases append_eq_append_iff.mp split with ⟨a', eqC, eqB⟩ | ⟨c', eqA, eqD⟩
    · -- behind the element that goes
      have mem : x ∈ b := by rw [eqB]; simp
      have outside : a.getLast? ≠ some x := fun last => disjoint x (mem_of_getLast? last) mem
      have old := k.item (a ++ e :: a') x d (by rw [eqB]; simp)
      rw [if_neg outside, old, eqC]
      cases a' with
      | nil =>
        have first : b.head? = some x := by rw [eqB]; rfl
        rw [if_pos first, append_nil]
      | cons y a' =>
        have ne : y ≠ x := by
          rintro rfl
          rw [eqB] at nodupB
          simp at nodupB
        have first : b.head? ≠ some x := by
          rw [eqB]
          simpa using ne
        rw [if_neg first]
        simp
    · cases c' with
      | nil =>
        -- the first one behind it
        rw [append_nil] at eqA
        have eqB : b = x :: d := by simpa using eqD.symm
        have outside : a.getLast? ≠ some x := by
          intro last
          exact disjoint x (mem_of_getLast? last) (by rw [eqB]; exact mem_cons_self ..)
        rw [if_neg outside, if_pos (by rw [eqB]; rfl), k.item (a ++ [e]) x d (by rw [eqB]; simp), eqA]
      | cons y c' =>
        -- in front of it
        obtain ⟨rfl, rest⟩ := cons_eq_cons.mp eqD
        have mem : x ∈ a := by rw [eqA]; simp
        have outside : b.head? ≠ some x := fun first => disjoint x mem (mem_of_mem_head? first)
        have old := k.item c x (c' ++ e :: b) (by rw [eqA]; simp)
        rw [if_neg outside, old, rest]
        rcases eq_nil_or_concat c' with rfl | ⟨c', z, rfl⟩
        · have last : a.getLast? = some x := by rw [eqA]; simp
          rw [if_pos last]
          rfl
        · have ne : z ≠ x := by
            rintro rfl
            rw [eqA] at nodupA
            simp [nodup_append] at nodupA
          have last : a.getLast? ≠ some x := by
            rw [eqA, concat_eq_append, ← cons_append, ← append_assoc, getLast?_concat]
            exact fun eq => ne (some.inj eq)
          rw [if_neg last]
          cases c' <;> rfl

theorem unlink_frame (k : Linked h ln l) (mem : e ∈ l) (out : x ∉ l) : (unlink h ln e).2 x = ln x := by
  obtain ⟨a, b, rfl⟩ := append_of_mem mem
  have here := k.item a e b rfl
  have notNext : b.head? ≠ some x := fun first => out (by simp [mem_of_mem_head? first])
  have notPrev : a.getLast? ≠ some x := fun last => out (by simp [mem_of_getLast? last])
  rw [unlink_item, here, if_neg notPrev, if_neg notNext]

theorem unlink_absent (k : Linked h ln l) (loose : ln e = Item.null) (out : e ∉ l) : unlink h ln e = (h, ln) := by
  have first : h.first ≠ some e := fun eq => out (k.first_mem eq)
  have last : h.last ≠ some e := fun eq => out (k.last_mem eq)
  simp only [unlink, loose, Item.null, if_neg first, if_neg last, linkNext, linkPrev]

theorem linked_erase (k : Linked h ln l) (nodup : l.Nodup) (mem : e ∈ l) :
    Linked (unlink h ln e).1 (unlink h ln e).2 (l.erase e) := by
  obtain ⟨a, b, rfl⟩ := append_of_mem mem
  have outA : e ∉ a := fun mem => (nodup_append.mp nodup).2.2 e mem e (mem_cons_self ..) rfl
  rw [erase_append_right _ outA, erase_cons_head]
  exact linked_unlink k nodup

end Changing

/- Several lists over one store of links -/

structure Family {ι : Type} (heads : ι → Head α) (ln : Links α) (lists : ι → List α) : Prop where
  linked : ∀ i, Linked (heads i) ln (lists i)
  nodup : ∀ i, (lists i).Nodup
  apart : ∀ i j x, x ∈ lists i → x ∈ lists j → i = j

namespace Family
variable {ι : Type} [DecidableEq ι] {heads : ι → Head α} {ln : Links α} {lists : ι → List α} {i : ι} {e : α}

omit [DecidableEq α] in
theorem change (F : Family heads ln lists) (linked : Linked h ln' l)
    (nodup : l.Nodup) (apart : ∀ x ∈ l, ∀ j, j ≠ i → x ∉ lists j)
    (frame : ∀ j, j ≠ i → ∀ x ∈ lists j, ln' x = ln x) :
    Family (update heads i h) ln' (update lists i l) := by
  have other : ∀ j, j ≠ i → update lists i l j = lists j := fun j ne => update_of_ne ne ..
  have same : update lists i l i = l := update_self ..
  refine ⟨?_, ?_, ?_⟩
  · intro j
    by_cases eq : j = i
    · rw [eq, update_self, same]
      exact linked
    · rw [update_of_ne eq, other j eq]
      exact (F.linked j).congr (frame j eq)
  · intro j
    by_cases eq : j = i
    · rw [eq, same]
      exact nodup
    · rw [other j eq]
      exact F.nodup j
  · intro j j' x mem mem'
    by_cases eq : j = i <;> by_cases eq' : j' = i
    · exact eq.trans eq'.symm
    · rw [eq, same] at mem
      rw [other j' eq'] at mem'
      exact absurd mem' (apart x mem j' eq')
    · rw [eq', same] at mem'
      rw [other j eq] at mem
      exact absurd mem (apart x mem' j eq)
    · rw [other j eq] at mem
      rw [other j' eq'] at mem'
      exact F.apart j j' x mem mem'

theorem pushFront (F : Family heads ln lists) (i : ι) (new : ∀ j, e ∉ lists j) :
    Family (update heads i (Chains.pushFront (heads i) ln e).1) (Chains.pushFront (heads i) ln e).2
      (update lists i (e :: lists i)) := by
  refine F.change (linked_pushFront (F.linked i) (F.nodup i) (new i)) (nodup_cons.mpr ⟨new i, F.nodup i⟩) ?_ ?_
  · intro x mem j ne
    rcases mem_cons.mp mem with rfl | mem
    · exact new j
    · exact fun mem' => ne (F.apart j i x mem' mem)
  · intro j ne x mem
    refine pushFront_frame (F.linked i) (fun eq => new j (eq ▸ mem)) fun mem' => ne (F.apart j i x mem mem')

theorem pushBack (F : Family heads ln lists) (i : ι) (new : ∀ j, e ∉ lists j) :
    Family (update heads i (Chains.pushBack (heads i) ln e).1) (Chains.pushBack (heads i) ln e).2
      (update lists i (lists i ++ [e])) := by
  refine F.change (linked_pushBack (F.linked i) (F.nodup i) (new i)) ?_ ?_ ?_
  · rw [nodup_append]
    refine ⟨F.nodup i, nodup_singleton e, ?_⟩
    rintro x mem y mem' rfl
    exact new i (mem_singleton.mp mem' ▸ mem)
  · intro x mem j ne
    rcases mem_append.mp mem with mem | mem
    · exact fun mem' => ne (F.apart j i x mem' mem)
    · rw [mem_singleton.mp mem]
      exact new j
  · intro j ne x mem
    refine pushBack_frame (F.linked i) (fun eq => new j (eq ▸ mem)) fun mem' => ne (F.apart j i x mem mem')

theorem unlink (F : Family heads ln lists) (mem : e ∈ lists i) :
    Family (update heads i (Chains.unlink (heads i) ln e).1) (Chains.unlink (heads i) ln e).2
      (update lists i ((lists i).erase e)) := by
  refine F.change (linked_erase (F.linked i) (F.nodup i) mem) ((F.nodup i).erase e) ?_ ?_
  · intro x mem' j ne other
    exact ne (F.apart j i x other (mem_of_mem_erase mem'))
  · intro j ne x mem'
    exact unlink_frame (F.linked i) mem fun here => ne (F.apart j i x mem' here)

end Family

/- Elements that know the list they are in -/

def Threaded {ι : Type} (heads : ι → Head α) (ln : Links α) (owner : α → Option ι) : Prop :=
  ∃ lists, Family heads ln lists ∧ ∀ i x, x ∈ lists i ↔ owner x = some i

namespace Threaded
variable {ι : Type} [DecidableEq ι] {heads : ι → Head α} {ln ln' : Links α} {owner : α → Option ι} {i : ι} {e : α}

omit [DecidableEq α] [DecidableEq ι] in
theorem congr (k : Threaded heads ln owner) (same : ∀ x, owner x ≠ none → ln' x = ln x) :
    Threaded heads ln' owner := by
  obtain ⟨lists, F, mem⟩ := k
  refine ⟨lists, ⟨?_, F.nodup, F.apart⟩, mem⟩
  intro i
  apply (F.linked i).congr
  intro x here
  apply same
  rw [(mem i x).mp here]
  exact some_ne_none i

theorem pushBack (k : Threaded heads ln owner) (i : ι) (new : owner e = none) :
    Threaded (update heads i (Chains.pushBack (heads i) ln e).1) (Chains.pushBack (heads i) ln e).2
      (update owner e (some i)) := by
  obtain ⟨lists, F, mem⟩ := k
  have out : ∀ j, e ∉ lists j := by
    intro j here
    rw [(mem j e).mp here] at new
    cases new
  refine ⟨_, F.pushBack i out, ?_⟩
  intro j x
  by_cases eq : x = e
  · subst eq
    rw [update_self]
    by_cases at_i : j = i
    · subst at_i
      simp
    · rw [update_of_ne at_i]
      simp [out j, Ne.symm at_i]
  · rw [update_of_ne eq, ← mem j x]
    by_cases at_i : j = i
    · subst at_i
      simp [eq]
    · rw [update_of_ne at_i]

theorem unlink (k : Threaded heads ln owner) (here : owner e = some i) (item : Item α) :
    Threaded (update heads i (Chains.unlink (heads i) ln e).1)
      (setItem (Chains.unlink (heads i) ln e).2 e item) (update owner e none) := by
  obtain ⟨lists, F, mem⟩ := k
  have inside : e ∈ lists i := (mem i e).mpr here
  have members : ∀ j x, x ∈ update lists i ((lists i).erase e) j ↔
      update owner e none x = some j := by
    intro j x
    by_cases eq : x = e
    · subst eq
      rw [update_self]
      by_cases at_i : j = i
      · subst at_i
        simp [(F.nodup j).mem_erase_iff]
      · rw [update_of_ne at_i]
        have out : x ∉ lists j := fun other => at_i (F.apart j i x other inside)
        simp [out]
    · rw [update_of_ne eq, ← mem j x]
      by_cases at_i : j = i
      · subst at_i
        simp [(F.nodup j).mem_erase_iff, eq]
      · rw [update_of_ne at_i]
  have kept : Threaded _ _ (update owner e none) := ⟨_, F.unlink inside, members⟩
  apply kept.congr
  intro x in_list
  by_cases eq : x = e
  · subst eq
    exact absurd (update_self ..) in_list
  · exact setItem_ne _ _ eq

omit [DecidableEq α] [DecidableEq ι] in
theorem first_owner (k : Threaded heads ln owner) (first : (heads i).first = some e) : owner e = some i := by
  obtain ⟨lists, F, mem⟩ := k
  exact (mem i e).mp ((F.linked i).first_mem first)

omit [DecidableEq α] [DecidableEq ι] in
theorem empty (k : Threaded heads ln owner) (first : (heads i).first = none) (e : α) : owner e ≠ some i := by
  obtain ⟨lists, F, mem⟩ := k
  intro here
  have inside := (mem i e).mpr here
  rw [(F.linked i).eq_nil first] at inside
  cases inside

omit [DecidableEq α] [DecidableEq ι] in
theorem linked (k : Threaded heads ln owner) (here : owner e = some i) :
    ∃ a b, Linked (heads i) ln (a ++ e :: b) ∧ (a ++ e :: b).Nodup := by
  obtain ⟨lists, F, mem⟩ := k
  obtain ⟨a, b, eq⟩ := append_of_mem ((mem i e).mpr here)
  refine ⟨a, b, ?_, ?_⟩
  · rw [← eq]
    exact F.linked i
  · rw [← eq]
    exact F.nodup i

omit [DecidableEq α] [DecidableEq ι] in
theorem last_none (k : Threaded heads ln owner) (first : (heads i).first = none) : (heads i).last = none := by
  obtain ⟨lists, F, _⟩ := k
  rw [(F.linked i).last, (F.linked i).eq_nil first]
  rfl

omit [DecidableEq α] [DecidableEq ι] in
theorem last_some (k : Threaded heads ln owner) (first : (heads i).first = some f) :
    ∃ l, (heads i).last = some l := by
  obtain ⟨lists, F, _⟩ := k
  obtain ⟨b, eq⟩ := (F.linked i).eq_cons first
  rw [(F.linked i).last, eq]
  exact ⟨_, getLast?_cons⟩

end Threaded

end Chains
