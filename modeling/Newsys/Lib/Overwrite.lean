import Mathlib.Data.List.Basic

/- Values that are written at keys one after the other: the last one stays. -/
namespace Overwrite
open List

variable {κ ν : Type} [DecidableEq κ] {k : κ} {ws : List (κ × ν)}

def final (k : κ) (ws : List (κ × ν)) (v : ν) : ν := ws.foldl (fun v w => if w.1 = k then w.2 else v) v

theorem final_cons (k : κ) (w : κ × ν) (ws : List (κ × ν)) (v : ν) :
    final k (w :: ws) v = final k ws (if w.1 = k then w.2 else v) := rfl

theorem final_append (k : κ) (ws ws' : List (κ × ν)) (v : ν) : final k (ws ++ ws') v = final k ws' (final k ws v) :=
  foldl_append

theorem final_cases (k : κ) (ws : List (κ × ν)) :
    ((∀ w ∈ ws, w.1 ≠ k) ∧ ∀ v, final k ws v = v) ∨ ∃ w ∈ ws, w.1 = k ∧ ∀ v, final k ws v = w.2 := by
  induction ws with
  | nil => exact .inl ⟨fun _ mem => absurd mem not_mem_nil, fun _ => rfl⟩
  | cons w ws ih =>
    rcases ih with ⟨none, same⟩ | ⟨w', mem, key, eq⟩
    · by_cases here : w.1 = k
      · refine .inr ⟨w, mem_cons_self, here, fun v => ?_⟩
        rw [final_cons, same, if_pos here]
      · refine .inl ⟨List.forall_mem_cons.mpr ⟨here, none⟩, fun v => ?_⟩
        rw [final_cons, same, if_neg here]
    · refine .inr ⟨w', mem_cons_of_mem _ mem, key, fun v => ?_⟩
      rw [final_cons, eq]

theorem final_final (k : κ) (ws : List (κ × ν)) (v : ν) : final k ws (final k ws v) = final k ws v := by
  rcases final_cases k ws with ⟨_, same⟩ | ⟨w, _, _, eq⟩
  · rw [same]
  · rw [eq, eq]

theorem final_filter (k : κ) (p : κ → Bool) (ws : List (κ × ν)) (v : ν) :
    final k (ws.filter fun w => p w.1) v = if p k then final k ws v else v := by
  induction ws generalizing v with
  | nil =>
    rw [filter_nil]
    exact (ite_self v).symm
  | cons w ws ih =>
    rw [filter_cons, final_cons]
    by_cases here : w.1 = k
    · rw [here]
      by_cases some : p k = true
      · rw [if_pos some, if_pos some, final_cons, here, ih, if_pos some]
      · rw [if_neg some, if_neg some, ih, if_neg some]
    · rw [if_neg here]
      split
      · rw [final_cons, if_neg here, ih]
      · exact ih v

theorem final_flatMap {ι : Type} (k : κ) (p : ι → κ → Bool) (is : List ι) (ws : List (κ × ν)) (v : ν) :
    final k (is.flatMap fun i => ws.filter fun w => p i w.1) v = if ∃ i ∈ is, p i k = true then final k ws v else v := by
  induction is generalizing v with
  | nil =>
    rw [if_neg (fun ⟨_, mem, _⟩ => not_mem_nil mem)]
    rfl
  | cons i is ih =>
    have some_cons : (∃ j ∈ i :: is, p j k = true) ↔ p i k = true ∨ ∃ j ∈ is, p j k = true := by
      simp only [mem_cons, exists_eq_or_imp]
    rw [flatMap_cons, final_append, ih, final_filter, if_congr some_cons rfl rfl]
    by_cases here : p i k = true
    · rw [if_pos here, final_final, ite_self, if_pos (.inl here)]
    · rw [if_neg here]
      exact if_congr (or_iff_right here).symm rfl rfl

end Overwrite
