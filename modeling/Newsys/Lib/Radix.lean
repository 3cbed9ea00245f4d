import Mathlib.Algebra.Group.Nat.Defs
import Mathlib.Algebra.Ring.Int.Defs
import Mathlib.Data.List.Flatten
import Mathlib.Data.List.Nodup
import Mathlib.Data.List.Perm.Basic
import Mathlib.Data.List.Range

/- Trees of blocks in a store: a block of level `lev + 1` refers to `width` blocks of level
   `lev`, and reference 0 stands for nothing. `ref` reads a reference out of a block. -/
namespace Radix
open List Nat

theorem flatMap_range_grow {n d : Nat} {f f' : Nat → List Nat} {fresh : List Nat} (lt : d < n)
    (same : ∀ k, k < n → k ≠ d → f' k = f k) (grow : (f' d).Perm (fresh ++ f d)) :
    ((range n).flatMap f').Perm (fresh ++ (range n).flatMap f) := by
  induction n with
  | zero => omega
  | succ n ih =>
    simp only [range_succ, flatMap_append, flatMap_singleton]
    by_cases last : d = n
    · subst last
      have init : (range d).flatMap f' = (range d).flatMap f := by
        apply flatMap_congr
        intro k mem
        rw [mem_range] at mem
        exact same k (by omega) (by omega)
      rw [init]
      have front : ((range d).flatMap f ++ (fresh ++ f d)).Perm
          (fresh ++ ((range d).flatMap f ++ f d)) := by
        rw [← append_assoc, ← append_assoc]
        exact perm_append_comm.append_right _
      exact (grow.append_left _).trans front
    · rw [same n (by omega) (fun eq => last eq.symm), ← append_assoc]
      exact (ih (by omega) fun k kn ne => same k (by omega) ne).append_right _

theorem range_disjoint {n d d' : Nat} {f : Nat → List Nat} (nodup : ((range n).flatMap f).Nodup)
    (lt : d < n) (lt' : d' < n) (ne : d ≠ d') {b : Nat} (mem : b ∈ f d) : b ∉ f d' := by
  intro mem'
  have apart := (nodup_flatMap.mp nodup).2
  have pair : ∀ x y, x < y → y < n → List.Disjoint (f x) (f y) := by
    intro x y xy yn
    have h := pairwise_iff_getElem.mp apart x y (by simp; omega) (by simpa using yn) xy
    simpa [Function.onFun] using h
  rcases lt_or_gt_of_ne ne with below | above
  · exact pair d d' below lt' mem mem'
  · exact pair d' d above lt mem' mem

section Trees
variable {β : Type} (ref : β → Nat → Nat) (width : Nat)

def leaf (dev : Nat → β) : Nat → Nat → Nat → Nat
  | 0, bn, _ => bn
  | lev + 1, bn, log =>
    if bn = 0 then 0 else leaf dev lev (ref (dev bn) (log / width ^ lev % width)) log

def nodes (dev : Nat → β) : Nat → Nat → List Nat
  | 0, bn => if bn = 0 then [] else [bn]
  | lev + 1, bn =>
    if bn = 0 then [] else bn :: (range width).flatMap fun d => nodes dev lev (ref (dev bn) d)

def inner (dev : Nat → β) : Nat → Nat → List Nat
  | 0, _ => []
  | lev + 1, bn =>
    if bn = 0 then [] else bn :: (range width).flatMap fun d => inner dev lev (ref (dev bn) d)

variable {ref width} {dev dev' : Nat → β}

@[simp] theorem nodes_zero (lev : Nat) : nodes ref width dev lev 0 = [] := by
  cases lev <;> simp [nodes]

@[simp] theorem inner_zero (lev : Nat) : inner ref width dev lev 0 = [] := by
  cases lev <;> simp [inner]

@[simp] theorem leaf_zero (lev log : Nat) : leaf ref width dev lev 0 log = 0 := by
  cases lev <;> simp [leaf]

variable {lev bn : Nat}

theorem nodes_succ (ne : bn ≠ 0) : nodes ref width dev (lev + 1) bn =
    bn :: (range width).flatMap fun d => nodes ref width dev lev (ref (dev bn) d) := by
  simp [nodes, ne]

theorem inner_succ (ne : bn ≠ 0) : inner ref width dev (lev + 1) bn =
    bn :: (range width).flatMap fun d => inner ref width dev lev (ref (dev bn) d) := by
  simp [inner, ne]

theorem leaf_succ (ne : bn ≠ 0) (log : Nat) : leaf ref width dev (lev + 1) bn log =
    leaf ref width dev lev (ref (dev bn) (log / width ^ lev % width)) log := by
  simp [leaf, ne]

theorem self_mem_nodes (ne : bn ≠ 0) : bn ∈ nodes ref width dev lev bn := by
  cases lev <;> simp [nodes, ne]

theorem inner_subset_nodes (lev bn : Nat) :
    inner ref width dev lev bn ⊆ nodes ref width dev lev bn := by
  induction lev generalizing bn with
  | zero => simp [inner]
  | succ lev ih =>
    by_cases ne : bn = 0
    · simp [ne]
    · intro b mem
      rw [inner_succ ne] at mem
      rw [nodes_succ ne]
      rcases mem_cons.mp mem with eq | deep
      · exact mem_cons.mpr (.inl eq)
      · obtain ⟨d, hd, deep⟩ := mem_flatMap.mp deep
        exact mem_cons_of_mem _ (mem_flatMap.mpr ⟨d, hd, ih _ deep⟩)

theorem tree_congr (same : ∀ b ∈ inner ref width dev lev bn, dev' b = dev b) :
    nodes ref width dev' lev bn = nodes ref width dev lev bn ∧
      inner ref width dev' lev bn = inner ref width dev lev bn ∧
      ∀ log, 0 < width → leaf ref width dev' lev bn log = leaf ref width dev lev bn log := by
  induction lev generalizing bn with
  | zero => exact ⟨rfl, rfl, fun _ _ => rfl⟩
  | succ lev ih =>
    by_cases ne : bn = 0
    · simp [ne]
    · have here : dev' bn = dev bn := same bn (by rw [inner_succ ne]; exact mem_cons_self ..)
      have below : ∀ d, d < width → ∀ b ∈ inner ref width dev lev (ref (dev bn) d), dev' b = dev b := by
        intro d lt b mem
        apply same
        rw [inner_succ ne]
        exact mem_cons_of_mem _ (mem_flatMap.mpr ⟨d, mem_range.mpr lt, mem⟩)
      refine ⟨?_, ?_, ?_⟩
      · rw [nodes_succ ne, nodes_succ ne, here]
        congr 1
        apply flatMap_congr
        intro d mem
        exact (ih (below d (mem_range.mp mem))).1
      · rw [inner_succ ne, inner_succ ne, here]
        congr 1
        apply flatMap_congr
        intro d mem
        exact (ih (below d (mem_range.mp mem))).2.1
      · intro log pos
        rw [leaf_succ ne, leaf_succ ne, here]
        exact (ih (below _ (mod_lt _ pos))).2.2 log pos

variable {log : Nat}

theorem leaf_mem_nodes (pos : 0 < width) (found : leaf ref width dev lev bn log ≠ 0) :
    leaf ref width dev lev bn log ∈ nodes ref width dev lev bn := by
  induction lev generalizing bn with
  | zero =>
    simp only [leaf] at found ⊢
    exact self_mem_nodes found
  | succ lev ih =>
    by_cases ne : bn = 0
    · simp [ne] at found
    · rw [leaf_succ ne] at found ⊢
      rw [nodes_succ ne]
      exact mem_cons_of_mem _
        (mem_flatMap.mpr ⟨_, mem_range.mpr (mod_lt _ pos), ih found⟩)

theorem leaf_not_inner (pos : 0 < width)
    (nodup : (nodes ref width dev lev bn).Nodup) (found : leaf ref width dev lev bn log ≠ 0) :
    leaf ref width dev lev bn log ∉ inner ref width dev lev bn := by
  induction lev generalizing bn with
  | zero => simp [inner]
  | succ lev ih =>
    by_cases ne : bn = 0
    · simp [ne] at found
    · rw [nodes_succ ne, nodup_cons] at nodup
      rw [leaf_succ ne] at found ⊢
      rw [inner_succ ne]
      have lt := mod_lt (log / width ^ lev) pos
      have deep := leaf_mem_nodes pos found
      intro mem
      rcases mem_cons.mp mem with eq | mem
      · rw [eq] at deep
        exact nodup.1 (mem_flatMap.mpr ⟨_, mem_range.mpr lt, deep⟩)
      · obtain ⟨d, hd, mem⟩ := mem_flatMap.mp mem
        by_cases same : log / width ^ lev % width = d
        · subst same
          exact ih ((nodup_flatMap.mp nodup.2).1 _ hd) found mem
        · exact range_disjoint nodup.2 lt (mem_range.mp hd) same deep (inner_subset_nodes _ _ mem)

theorem leaf_inj (pos : 0 < width) {log' : Nat}
    (nodup : (nodes ref width dev lev bn).Nodup) (found : leaf ref width dev lev bn log ≠ 0)
    (eq : leaf ref width dev lev bn log = leaf ref width dev lev bn log') :
    log % width ^ lev = log' % width ^ lev := by
  induction lev generalizing bn with
  | zero => simp [mod_one]
  | succ lev ih =>
    by_cases ne : bn = 0
    · simp [ne] at found
    · rw [nodes_succ ne, nodup_cons] at nodup
      rw [leaf_succ ne] at found eq
      rw [leaf_succ ne] at eq
      have lt := mod_lt (log / width ^ lev) pos
      have lt' := mod_lt (log' / width ^ lev) pos
      have deep := leaf_mem_nodes pos found
      have deep' := leaf_mem_nodes pos (eq ▸ found)
      have digit : log / width ^ lev % width = log' / width ^ lev % width := by
        apply Classical.byContradiction
        intro differ
        exact range_disjoint nodup.2 lt lt' differ deep (eq ▸ deep')
      rw [← digit] at eq
      have low := ih ((nodup_flatMap.mp nodup.2).1 _ (mem_range.mpr lt)) found eq
      rw [mod_pow_succ, mod_pow_succ, low, digit]

theorem nodes_sublist (lev bn : Nat) : (nodes ref width dev lev bn).Sublist (nodes ref width dev (lev + 1) bn) := by
  induction lev generalizing bn with
  | zero =>
    by_cases ne : bn = 0
    · simp [ne]
    · simp [nodes, ne]
  | succ lev ih =>
    by_cases ne : bn = 0
    · simp [ne]
    · rw [nodes_succ ne, nodes_succ ne]
      exact (List.Sublist.flatMap_right _ fun d _ => ih _).cons_cons bn

theorem tree_of_blank (ne : bn ≠ 0) (blank : ∀ d, d < width → ref (dev bn) d = 0) :
    nodes ref width dev lev bn = [bn] := by
  cases lev with
  | zero => simp [nodes, ne]
  | succ lev =>
    rw [nodes_succ ne]
    congr 1
    simp only [flatMap_eq_nil_iff, mem_range]
    intro d lt
    rw [blank d lt, nodes_zero]

theorem leaf_of_blank (pos : 0 < width) (ne : bn ≠ 0) (blank : ∀ d, d < width → ref (dev bn) d = 0) (log : Nat) :
    leaf ref width dev (lev + 1) bn log = 0 := by
  rw [leaf_succ ne, blank _ (mod_lt _ pos), leaf_zero]

section Child
variable {lev bn d : Nat} (ne : bn ≠ 0)
  (refs : ∀ k, k < width → k ≠ d → ref (dev' bn) k = ref (dev bn) k)
  (rest : ∀ k, k < width → k ≠ d → ∀ b ∈ inner ref width dev lev (ref (dev bn) k), dev' b = dev b)
include ne refs rest

theorem nodes_child (lt : d < width) {fresh : List Nat}
    (grow : (nodes ref width dev' lev (ref (dev' bn) d)).Perm
      (fresh ++ nodes ref width dev lev (ref (dev bn) d))) :
    (nodes ref width dev' (lev + 1) bn).Perm (fresh ++ nodes ref width dev (lev + 1) bn) := by
  rw [nodes_succ ne, nodes_succ ne]
  refine .trans (.cons bn (flatMap_range_grow lt ?_ grow)) perm_middle.symm
  intro k kn differ
  rw [refs k kn differ]
  exact (tree_congr (rest k kn differ)).1

theorem leaf_other_child (pos : 0 < width) {log : Nat} (other : log / width ^ lev % width ≠ d) :
    leaf ref width dev' (lev + 1) bn log = leaf ref width dev (lev + 1) bn log := by
  have lt := mod_lt (log / width ^ lev) pos
  rw [leaf_succ ne, leaf_succ ne, refs _ lt other]
  exact (tree_congr (rest _ lt other)).2.2 log pos

end Child
end Trees
end Radix
