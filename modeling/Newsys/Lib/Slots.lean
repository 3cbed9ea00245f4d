import Mathlib.Data.List.Perm.Basic

/- A table of numbered slots, some of them empty: what filling, clearing or replacing one slot
   does to the list of the entries. -/
namespace Slots
open List

variable {β : Type} {n i : Nat} {f g : Nat → Option β}

def live (n : Nat) (f : Nat → Option β) : List β := (range n).filterMap f

def others (n i : Nat) (f : Nat → Option β) : List β := ((range n).erase i).filterMap f

theorem mem_live : e ∈ live n f ↔ ∃ i, i < n ∧ f i = some e := by
  simp [live]

theorem live_split (lt : i < n) : (live n f).Perm ((f i).toList ++ others n i f) := by
  have split := (perm_cons_erase (mem_range.mpr lt)).filterMap f
  refine split.trans ?_
  cases here : f i with
  | none => rw [filterMap_cons_none here, Option.toList_none, nil_append, others]
  | some e => rw [filterMap_cons_some here, Option.toList_some, others, singleton_append]

theorem others_congr (same : ∀ j, j ≠ i → g j = f j) : others n i g = others n i f := by
  apply filterMap_congr
  intro j mem
  have ne : j ≠ i := ((nodup_range).mem_erase_iff.mp mem).1
  exact same j ne

theorem live_fill (lt : i < n) (empty : f i = none) (filled : g i = some e)
    (same : ∀ j, j ≠ i → g j = f j) : (live n g).Perm (e :: live n f) := by
  have before := live_split (f := f) lt
  have after := live_split (f := g) lt
  rw [filled, others_congr same] at after
  rw [empty] at before
  exact after.trans (before.symm.cons e)

theorem live_replace (lt : i < n) (was : f i = some e) (now : g i = some e')
    (same : ∀ j, j ≠ i → g j = f j) :
    ∃ rest, (live n f).Perm (e :: rest) ∧ (live n g).Perm (e' :: rest) := by
  have before := live_split (f := f) lt
  have after := live_split (f := g) lt
  rw [now, others_congr same] at after
  rw [was] at before
  exact ⟨others n i f, before, after⟩

theorem live_add (empty : ∀ j, n ≤ j → j < n + m → f j = none) : live (n + m) f = live n f := by
  have none : ((range m).map (n + ·)).filterMap f = [] := by
    rw [filterMap_eq_nil_iff]
    intro j mem
    simp only [mem_map, mem_range] at mem
    obtain ⟨k, lt, rfl⟩ := mem
    exact empty _ (by omega) (by omega)
  rw [live, range_add, filterMap_append, none, append_nil, live]

theorem live_congr (same : ∀ j, j < n → g j = f j) : live n g = live n f :=
  filterMap_congr fun j mem => same j (mem_range.mp mem)

end Slots
