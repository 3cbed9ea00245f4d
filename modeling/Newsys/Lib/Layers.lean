import Mathlib.Order.Lattice
import Mathlib.Data.List.Basic

/- Lists that are kept in the order of a key by taking an element out and putting it back in front of the first one
   whose key is not smaller, where the search starts before the element is taken out. -/
namespace Layers
open List

variable {α β : Type} [DecidableEq α]

def insertBefore (place x : α) : List α → List α
  | [] => []
  | y :: rest => if y = place then x :: y :: rest else y :: insertBefore place x rest

def behind (x : α) (l : List α) : List α := (l.dropWhile (· ≠ x)).tail

def Ordered [LinearOrder β] (key : α → β) (l : List α) : Prop := l.Pairwise fun a b => key a ≤ key b

def place [LinearOrder β] (key : α → β) (x : α) (l : List α) : Option α := l.find? fun y => decide (key x ≤ key y)

def raise [LinearOrder β] (key : α → β) (x : α) (l : List α) : List α :=
  match place key x l with
  | none => l
  | some y => if y = x then l else insertBefore y x (l.erase x)

variable {x : α} {pre post : List α}

theorem insertBefore_append {place : α} (out : place ∉ pre) :
    insertBefore place x (pre ++ place :: post) = pre ++ x :: place :: post := by
  induction pre with
  | nil => simp [insertBefore]
  | cons y rest ih =>
    rw [mem_cons, not_or] at out
    rw [cons_append, insertBefore, if_neg (Ne.symm out.1), ih out.2]
    rfl

theorem behind_append (out : x ∉ pre) : behind x (pre ++ x :: post) = post := by
  have skip : ∀ y ∈ pre, decide (y ≠ x) = true := by
    intro y mem
    refine decide_eq_true ?_
    rintro rfl
    exact out mem
  rw [behind, dropWhile_append_of_pos skip, dropWhile_cons_of_neg (by simp)]
  rfl

variable {y : α} {l : List α}

theorem mem_of_mem_behind (mem : y ∈ behind x l) : y ∈ l :=
  (dropWhile_sublist _).subset (mem_of_mem_tail mem)

theorem ne_of_mem_behind (nodup : l.Nodup) (mem : y ∈ behind x l) : y ≠ x := by
  rintro rfl
  obtain ⟨pre, post, rfl⟩ := append_of_mem (mem_of_mem_behind mem)
  obtain ⟨_, later, apart⟩ := nodup_append.mp nodup
  rw [behind_append fun here => apart y here y (mem_cons_self ..) rfl] at mem
  exact (nodup_cons.mp later).1 mem

theorem behind_cons (x y : α) (l : List α) : behind x (y :: l) = if y = x then l else behind x l := by
  by_cases eq : y = x
  · rw [if_pos eq, behind, dropWhile_cons_of_neg (by simpa using eq)]
    rfl
  · rw [if_neg eq, behind, dropWhile_cons_of_pos (by simpa using eq)]
    rfl

theorem sublist_of_mem_behind (mem : y ∈ behind x l) : [x, y].Sublist l := by
  induction l with
  | nil => cases mem
  | cons z rest ih =>
    rw [behind_cons] at mem
    by_cases eq : z = x
    · rw [if_pos eq] at mem
      rw [eq]
      exact (singleton_sublist.mpr mem).cons_cons x
    · rw [if_neg eq] at mem
      exact (ih mem).cons z

theorem mem_behind_of_sublist (nodup : l.Nodup) (sub : [x, y].Sublist l) : y ∈ behind x l := by
  induction l with
  | nil => cases sub
  | cons z rest ih =>
    obtain ⟨out, nodup'⟩ := nodup_cons.mp nodup
    rw [behind_cons]
    cases sub with
    | cons _ sub =>
      have other : z ≠ x := by
        rintro rfl
        exact out (sub.subset (mem_cons_self ..))
      rw [if_neg other]
      exact ih nodup' sub
    | cons_cons _ sub =>
      rw [if_pos rfl]
      exact singleton_sublist.mp sub

theorem mem_behind_mono (nodup : l.Nodup) (sub : l'.Sublist l) (mem : y ∈ behind x l') :
    y ∈ behind x l :=
  mem_behind_of_sublist nodup ((sublist_of_mem_behind mem).trans sub)

theorem le_behind [LinearOrder β] {key : α → β} (order : Ordered key l) (mem : y ∈ behind x l) : key x ≤ key y :=
  (pairwise_cons.mp (order.sublist (sublist_of_mem_behind mem))).1 y (mem_singleton_self y)

omit [DecidableEq α] in
theorem ordered_congr [LinearOrder β] {key key' : α → β} (same : ∀ y ∈ l, key' y = key y)
    (order : Ordered key l) : Ordered key' l := by
  refine order.imp_of_mem ?_
  intro a b first last le
  rw [same a first, same b last]
  exact le

theorem takeWhile_append (out : x ∉ pre) : (pre ++ x :: post).takeWhile (· ≠ x) = pre := by
  have skip : ∀ y ∈ pre, decide (y ≠ x) = true := by
    intro y mem
    refine decide_eq_true ?_
    rintro rfl
    exact out mem
  rw [takeWhile_append_of_pos skip, takeWhile_cons_of_neg (by simp), append_nil]

theorem erase_append (out : x ∉ pre) : (pre ++ x :: post).erase x = pre ++ post := by
  rw [erase_append_right _ out, erase_cons_head]

section Raise
variable [LinearOrder β] {key : α → β} {x : α} {l : List α}

/-- Where the raised element goes: all before it have smaller keys, and it is put in front of one whose key is not
    smaller, or has stayed where it was. -/
theorem raise_split (key : α → β) (mem : x ∈ l) (nodup : l.Nodup) : ∃ pre post, l.erase x = pre ++ post ∧
    raise key x l = pre ++ x :: post ∧ x ∉ pre ∧ (∀ y ∈ pre, key y < key x) ∧ (∀ y ∈ behind x l, y ∈ post) ∧
    ((∀ y ∈ post, y ∈ behind x l) ∨ ∃ y rest, post = y :: rest ∧ key x ≤ key y) := by
  cases found : place key x l with
  | none => exact absurd (decide_eq_true le_rfl) (find?_eq_none.mp found x mem)
  | some y =>
    obtain ⟨reach, pre, post, rfl, smaller⟩ := find?_eq_some_iff_append.mp found
    have before : ∀ z ∈ pre, key z < key x := by
      intro z here
      have no := smaller z here
      simpa using no
    have out : x ∉ pre := fun here => lt_irrefl _ (before x here)
    by_cases eq : y = x
    · subst eq
      refine ⟨pre, post, erase_append out, ?_, out, before, ?_, .inl ?_⟩
      · rw [raise, found]
        exact if_pos rfl
      · rw [behind_append out]
        exact fun _ here => here
      · rw [behind_append out]
        exact fun _ here => here
    · have later : x ∈ post := by
        rcases mem_append.mp mem with here | here
        · exact absurd here out
        · rcases mem_cons.mp here with here | here
          · exact absurd here.symm eq
          · exact here
      have nodup' := (nodup_append.mp nodup)
      have apart : y ∉ pre := fun here => nodup'.2.2 y here y (mem_cons_self ..) rfl
      have erased : (pre ++ y :: post).erase x = pre ++ y :: post.erase x := by
        rw [erase_append_right _ out, erase_cons_tail (by simpa using eq)]
      obtain ⟨first, last, rfl⟩ := append_of_mem later
      have out' : x ∉ first := by
        have tail := (nodup_cons.mp nodup'.2.1).2
        exact fun here => (nodup_append.mp tail).2.2 x here x (mem_cons_self ..) rfl
      have rest : behind x (pre ++ y :: (first ++ x :: last)) = last := by
        rw [← cons_append, ← append_assoc]
        refine behind_append fun here => ?_
        rcases mem_append.mp here with here | here
        · exact out here
        · rcases mem_cons.mp here with here | here
          · exact eq here.symm
          · exact out' here
      refine ⟨pre, y :: (first ++ x :: last).erase x, erased, ?_, out, before, ?_, .inr ⟨y, _, rfl, by simpa using reach⟩⟩
      · rw [raise, found]
        show (if y = x then _ else _) = _
        rw [if_neg eq, erased, insertBefore_append apart]
      · intro z here
        rw [rest] at here
        rw [erase_append out']
        exact mem_cons_of_mem _ (mem_append_right _ here)

theorem raise_erase (mem : x ∈ l) (nodup : l.Nodup) : (raise key x l).erase x = l.erase x := by
  obtain ⟨pre, post, erased, raised, out, _⟩ := raise_split key mem nodup
  rw [raised, erase_append out, erased]

theorem raise_perm (mem : x ∈ l) (nodup : l.Nodup) : (raise key x l).Perm l := by
  obtain ⟨pre, post, erased, raised, _⟩ := raise_split key mem nodup
  rw [raised]
  refine perm_middle.trans ?_
  rw [← erased]
  exact (perm_cons_erase mem).symm

theorem raise_first (mem : x ∈ l) (nodup : l.Nodup) : ∀ y ∈ (raise key x l).takeWhile (· ≠ x), key y < key x := by
  obtain ⟨pre, post, _, raised, out, before, _⟩ := raise_split key mem nodup
  rw [raised, takeWhile_append out]
  exact before

theorem ordered_raise_iff (mem : x ∈ l) (nodup : l.Nodup) :
    Ordered key (raise key x l) ↔ Ordered key (l.erase x) ∧ ∀ y ∈ behind x l, key x ≤ key y := by
  obtain ⟨pre, post, erased, raised, _, before, kept, stop⟩ := raise_split key mem nodup
  rw [Ordered, Ordered, raised, erased, pairwise_append, pairwise_append, pairwise_cons]
  constructor
  · rintro ⟨first, ⟨here, last⟩, across⟩
    refine ⟨⟨first, last, fun y mem z later => across y mem z (mem_cons_of_mem _ later)⟩, fun y later => ?_⟩
    exact here y (kept y later)
  · rintro ⟨⟨first, last, across⟩, larger⟩
    have here : ∀ y ∈ post, key x ≤ key y := by
      rcases stop with same | ⟨y, rest, rfl, reach⟩
      · exact fun y mem => larger y (same y mem)
      · intro z mem
        rcases mem_cons.mp mem with rfl | mem
        · exact reach
        · exact le_trans reach ((pairwise_cons.mp last).1 z mem)
    refine ⟨first, ⟨here, last⟩, fun y front z later => ?_⟩
    rcases mem_cons.mp later with eq | later
    · rw [eq]
      exact le_of_lt (before y front)
    · exact across y front z later

end Raise
end Layers
