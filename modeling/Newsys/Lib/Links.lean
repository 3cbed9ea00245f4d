import Mathlib.Data.List.Nodup
import Mathlib.Algebra.Order.BigOperators.Group.List
import Mathlib.Algebra.Order.Ring.Nat

/- Objects that name each other: directories with entries, link counts, and users that keep an
   object alive without a link. What adding, removing and moving entries does to the counts and to
   what can be reached from the root. -/
namespace Links
open Function List Nat Classical

structure Graph (α N : Type) where
  root : α
  nodes : List α
  dir : α → Bool
  nlink : α → Nat
  users : α → Nat
  ents : α → List (N × α)

namespace Graph
variable {α N : Type} {G H : Graph α N} {a d x y : α} {n m : N} {p q : List N}

def Edge (G : Graph α N) (x : α) (n : N) (y : α) : Prop := x ∈ G.nodes ∧ (n, y) ∈ G.ents x

inductive Walk (G : Graph α N) (a : α) : List N → α → Prop
  | nil : Walk G a [] a
  | snoc {p : List N} {x y : α} {n : N} : Walk G a p x → G.Edge x n y → Walk G a (p ++ [n]) y

def Reach (G : Graph α N) (a x : α) : Prop := ∃ p, G.Walk a p x

theorem walk_append (w : G.Walk a p x) (v : G.Walk x q y) : G.Walk a (p ++ q) y := by
  induction v with
  | nil =>
    rw [append_nil]
    exact w
  | snoc _ edge ih =>
    rw [← append_assoc]
    exact ih.snoc edge

theorem Reach.refl (a : α) : G.Reach a a := ⟨[], .nil⟩

theorem Reach.snoc (r : G.Reach a x) (edge : G.Edge x n y) : G.Reach a y := by
  obtain ⟨p, w⟩ := r
  exact ⟨p ++ [n], w.snoc edge⟩

theorem Reach.closed (keep : α → Prop) (r : G.Reach a x) (start : keep a)
    (step : ∀ x n y, G.Edge x n y → keep x → keep y) : keep x := by
  obtain ⟨p, w⟩ := r
  induction w with
  | nil => exact start
  | snoc _ edge ih => exact step _ _ _ edge ih

theorem Reach.mono (r : G.Reach a x) (sub : ∀ x n y, G.Edge x n y → H.Edge x n y) : H.Reach a x :=
  r.closed (H.Reach a) (.refl a) fun _ _ _ edge reached => reached.snoc (sub _ _ _ edge)

def Distinct (G : Graph α N) : Prop := ∀ d ∈ G.nodes, ((G.ents d).map Prod.fst).Nodup

theorem Distinct.edge (D : G.Distinct) (e : G.Edge d n x) (e' : G.Edge d n y) : x = y := by
  have same := inj_on_of_nodup_map (D d e.1) e.2 e'.2 rfl
  exact congrArg Prod.snd same

theorem Distinct.walk (D : G.Distinct) (w : G.Walk a p x) : ∀ {y : α}, G.Walk a p y → x = y := by
  induction w with
  | nil =>
    intro y v
    generalize none : ([] : List N) = q at v
    cases v with
    | nil => rfl
    | snoc _ _ => exact absurd none.symm (by simp)
  | snoc w edge ih =>
    intro y v
    generalize path : _ ++ [_] = q at v
    cases v with
    | nil => exact absurd path (by simp)
    | snoc v edge' =>
      obtain ⟨rfl, eq⟩ := append_inj' path rfl
      cases eq
      have same := ih v
      rw [← same] at edge'
      exact D.edge edge edge'

end Graph

variable {α N : Type} [DecidableEq α]

/- Counting entries -/

def into (l : List (N × α)) (x : α) : Nat := l.countP fun e => e.2 = x

variable {l : List (N × α)}

theorem into_perm (p : l.Perm l') (x : α) : into l x = into l' x := p.countP_eq _

@[simp] theorem into_nil (x : α) : into ([] : List (N × α)) x = 0 := rfl

@[simp] theorem into_cons (e : N × α) (l : List (N × α)) (x : α) :
    into (e :: l) x = into l x + if e.2 = x then 1 else 0 := by
  simp only [into, countP_cons, decide_eq_true_eq]

variable {x : α}

theorem into_pos (mem : (n, x) ∈ l) : 0 < into l x :=
  countP_pos_iff.mpr ⟨(n, x), mem, by simp⟩

theorem mem_of_into (pos : into l x ≠ 0) : ∃ n, (n, x) ∈ l := by
  obtain ⟨⟨n, y⟩, mem, eq⟩ := countP_pos_iff.mp (pos_of_ne_zero pos)
  simp only [decide_eq_true_eq] at eq
  exact ⟨n, eq ▸ mem⟩

theorem two_le_into (mem : (n, x) ∈ l) (mem' : (m, x) ∈ l) (ne : n ≠ m) : 2 ≤ into l x := by
  obtain ⟨a, b, rfl⟩ := append_of_mem mem
  have rest : (m, x) ∈ a ++ b := by
    rcases mem_append.mp mem' with left | right
    · exact mem_append_left _ left
    · rcases mem_cons.mp right with eq | right
      · exact absurd (congrArg Prod.fst eq).symm ne
      · exact mem_append_right _ right
  have perm : (a ++ (n, x) :: b).Perm ((n, x) :: (a ++ b)) := perm_middle
  have more := into_pos rest
  rw [into_perm perm, into_cons, if_pos rfl]
  omega

theorem sum_replace {l : List α} (nodup : l.Nodup) (mem : d ∈ l) {f g : α → Nat}
    (same : ∀ x, x ≠ d → g x = f x) : (l.map g).sum + f d = (l.map f).sum + g d := by
  induction l with
  | nil => cases mem
  | cons a l ih =>
    obtain ⟨fresh, nodup⟩ := nodup_cons.mp nodup
    simp only [map_cons, sum_cons]
    by_cases eq : a = d
    · have tail : l.map g = l.map f := map_congr_left fun x mem =>
        same x fun h => fresh (by rw [eq, ← h]; exact mem)
      rw [tail, eq]
      omega
    · have here := same a eq
      have rest := ih nodup ((mem_cons.mp mem).resolve_left fun h => eq h.symm)
      omega

omit [DecidableEq α] in
theorem le_sum {l : List α} {d : α} (mem : d ∈ l) (f : α → Nat) : f d ≤ (l.map f).sum :=
  le_sum_of_mem (mem_map_of_mem mem)

theorem two_le_sum {l : List α} (nodup : l.Nodup) {a b : α} (ne : a ≠ b) (mem : a ∈ l) (mem' : b ∈ l)
    (f : α → Nat) : f a + f b ≤ (l.map f).sum := by
  have split := sum_replace (g := fun x => if x = a then 0 else f x) nodup mem fun x h => if_neg h
  have other := le_sum mem' fun x => if x = a then 0 else f x
  simp only [if_neg (Ne.symm ne), if_true] at split other
  omega

namespace Graph
variable {G : Graph α N} {a b d x y : α} {n m : N} {p q : List N} {l : List (N × α)}

/-- The references to `x`: all entries that lead to it, and one more for the root. -/
def refs (G : Graph α N) (x : α) : Nat :=
  (G.nodes.map fun d => into (G.ents d) x).sum + if x = G.root then 1 else 0

/-- Link counts cover the references; a directory has one at most. -/
structure Bounded (G : Graph α N) : Prop where
  nodup : G.nodes.Nodup
  root : G.root ∈ G.nodes
  rootDir : G.dir G.root = true
  closed : ∀ d ∈ G.nodes, ∀ e ∈ G.ents d, e.2 ∈ G.nodes
  plain : ∀ d ∈ G.nodes, G.dir d = false → G.ents d = []
  single : ∀ d ∈ G.nodes, G.dir d = true → G.nlink d ≤ 1
  bounded : ∀ x ∈ G.nodes, G.refs x ≤ G.nlink x
  linked : ∀ x ∈ G.nodes, G.users x = 0 → G.nlink x ≠ 0

/-- Link counts are the numbers of references, and what has links can be reached. -/
structure Exact (G : Graph α N) : Prop extends Bounded G where
  exact : ∀ x ∈ G.nodes, G.refs x = G.nlink x
  unlinked : ∀ d ∈ G.nodes, G.nlink d = 0 → G.ents d = []
  reach : ∀ x ∈ G.nodes, G.nlink x ≠ 0 → G.Reach G.root x

theorem Edge.refs_pos (edge : G.Edge d n x) : 0 < G.refs x := by
  have one := into_pos edge.2
  have sum := le_sum edge.1 fun d => into (G.ents d) x
  simp only [refs]
  omega

theorem root_refs_pos : 0 < G.refs G.root := by
  simp only [refs, if_true]
  omega

theorem edge_of_refs (pos : G.refs x ≠ 0) (ne : x ≠ G.root) : ∃ d n, G.Edge d n x := by
  rw [refs, if_neg ne, add_zero] at pos
  have some : ∃ k ∈ G.nodes.map fun d => into (G.ents d) x, k ≠ 0 := by
    apply byContradiction
    intro none
    apply pos
    rw [sum_eq_zero_iff]
    intro k mem
    apply byContradiction
    exact fun h => none ⟨k, mem, h⟩
  obtain ⟨k, mem, pos⟩ := some
  obtain ⟨d, node, rfl⟩ := mem_map.mp mem
  obtain ⟨n, entry⟩ := mem_of_into pos
  exact ⟨d, n, node, entry⟩

theorem edge_unique (nodup : G.nodes.Nodup) (one : G.refs x ≤ 1) (edge : G.Edge d n x)
    (edge' : G.Edge a m x) : d = a ∧ n = m := by
  have same : d = a := by
    apply byContradiction
    intro ne
    have first := into_pos edge.2
    have second := into_pos edge'.2
    have both := two_le_sum nodup ne edge.1 edge'.1 fun d => into (G.ents d) x
    simp only [refs] at one
    omega
  refine ⟨same, ?_⟩
  apply byContradiction
  intro ne
  have two := two_le_into edge.2 (same ▸ edge'.2) ne
  have sum := le_sum edge.1 fun d => into (G.ents d) x
  simp only [refs] at one
  omega

namespace Bounded

section
variable (B : G.Bounded)
include B

theorem edge_dir (edge : G.Edge d n x) : G.dir d = true := by
  cases dir : G.dir d with
  | true => rfl
  | false =>
    have mem := edge.2
    rw [B.plain d edge.1 dir] at mem
    cases mem

theorem edge_node (edge : G.Edge d n x) : x ∈ G.nodes := B.closed d edge.1 _ edge.2

theorem walk_node (w : G.Walk a p x) (start : a ∈ G.nodes) : x ∈ G.nodes := by
  cases w with
  | nil => exact start
  | snoc _ edge => exact B.edge_node edge

theorem dir_refs (node : x ∈ G.nodes) (dir : G.dir x = true) : G.refs x ≤ 1 :=
  le_trans (B.bounded x node) (B.single x node dir)

theorem root_edge (edge : G.Edge d n G.root) : False := by
  have one := B.dir_refs B.root B.rootDir
  have pos := into_pos edge.2
  have sum := le_sum edge.1 fun d => into (G.ents d) G.root
  rw [refs, if_pos rfl] at one
  omega

theorem walk_unique (w : G.Walk G.root p x) : ∀ {q : List N}, G.dir x = true →
    G.Walk G.root q x → p = q := by
  induction w with
  | nil =>
    intro q _ v
    cases v with
    | nil => rfl
    | snoc _ edge => exact (B.root_edge edge).elim
  | snoc w edge ih =>
    intro q dir v
    cases v with
    | nil => exact (B.root_edge edge).elim
    | snoc v edge' =>
      obtain ⟨rfl, rfl⟩ := edge_unique B.nodup (B.dir_refs (B.edge_node edge) dir) edge edge'
      rw [ih (B.edge_dir edge) v]

end

end Bounded

def setEnts (G : Graph α N) (d : α) (l : List (N × α)) : Graph α N :=
  { G with ents := update G.ents d l }

def setLinks (G : Graph α N) (x : α) (k : Nat) : Graph α N :=
  { G with nlink := update G.nlink x k }

def setUsers (G : Graph α N) (x : α) (k : Nat) : Graph α N :=
  { G with users := update G.users x k }

def hold (G : Graph α N) (l : List α) : Graph α N := { G with users := fun x => G.users x + l.count x }

def add (G : Graph α N) (x : α) (dir : Bool) : Graph α N :=
  { G with
    nodes := x :: G.nodes
    dir := update G.dir x dir
    nlink := update G.nlink x 1
    ents := update G.ents x [] }

def drop (G : Graph α N) (x : α) : Graph α N := { G with nodes := G.nodes.erase x }

/-- A user lets go of `x`; without users and links the object goes. -/
def put (G : Graph α N) (x : α) : Graph α N :=
  if G.users x = 1 ∧ G.nlink x = 0 then (G.setUsers x 0).drop x else G.setUsers x (G.users x - 1)

theorem put_alive (alive : G.nlink x ≠ 0) : G.put x = G.setUsers x (G.users x - 1) :=
  if_neg fun h => alive h.2

theorem users_put (G : Graph α N) (x y : α) :
    (G.put x).users y = if y = x then G.users x - 1 else G.users y := by
  have update : ∀ k, update G.users x k y = if y = x then k else G.users y := by
    intro k
    by_cases eq : y = x
    · rw [eq, update_self, if_pos rfl]
    · rw [update_of_ne eq, if_neg eq]
  unfold put
  split
  · rename_i last
    rw [last.1]
    exact update 0
  · exact update _

theorem ents_put (G : Graph α N) (x : α) : (G.put x).ents = G.ents := by
  unfold put
  split <;> rfl

theorem nlink_put (G : Graph α N) (x : α) : (G.put x).nlink = G.nlink := by
  unfold put
  split <;> rfl

theorem dir_put (G : Graph α N) (x : α) : (G.put x).dir = G.dir := by
  unfold put
  split <;> rfl

theorem mem_put (ne : y ≠ x) : y ∈ (G.put x).nodes ↔ y ∈ G.nodes := by
  unfold put
  split
  · exact mem_erase_of_ne ne
  · exact Iff.rfl

theorem of_mem_put (mem : y ∈ (G.put x).nodes) : y ∈ G.nodes := by
  unfold put at mem
  split at mem
  · exact mem_of_mem_erase mem
  · exact mem

theorem put_setEnts (G : Graph α N) (x d : α) (l : List (N × α)) :
    (G.setEnts d l).put x = (G.put x).setEnts d l := by
  unfold put
  by_cases last : G.users x = 1 ∧ G.nlink x = 0
  · rw [if_pos last, if_pos (show (G.setEnts d l).users x = 1 ∧ (G.setEnts d l).nlink x = 0 from last)]
    rfl
  · rw [if_neg last, if_neg (show ¬ ((G.setEnts d l).users x = 1 ∧ (G.setEnts d l).nlink x = 0) from last)]
    rfl

theorem setEnts_setEnts (G : Graph α N) (d : α) (l l' : List (N × α)) :
    (G.setEnts d l).setEnts d l' = G.setEnts d l' := by
  rw [setEnts, setEnts, setEnts]
  simp only [update_idem]

theorem move_order (entry : (n, x) ∈ G.ents d)
    (perm : l.Perm ((m, x) :: G.ents b)) (perm' : ((G.setEnts b l).ents d).Perm ((n, x) :: l₂)) :
    ∃ l₁ l', (G.ents d).Perm ((n, x) :: l₁) ∧ l'.Perm ((m, x) :: (G.setEnts d l₁).ents b) ∧
      (G.setEnts b l).setEnts d l₂ = (G.setEnts d l₁).setEnts b l' := by
  obtain ⟨front, back, split⟩ := append_of_mem entry
  have before : (G.ents d).Perm ((n, x) :: (front ++ back)) := by
    rw [split]
    exact perm_middle
  by_cases eq : d = b
  · rw [← eq] at perm perm' ⊢
    rw [show (G.setEnts d l).ents d = l from update_self ..] at perm'
    refine ⟨front ++ back, l₂, before, ?_, ?_⟩
    · rw [show (G.setEnts d (front ++ back)).ents d = front ++ back from update_self ..]
      have both : ((n, x) :: l₂).Perm ((n, x) :: (m, x) :: (front ++ back)) :=
        perm'.symm.trans (perm.trans ((before.cons _).trans (.swap ..)))
      exact (perm_cons _).mp both
    · rw [setEnts_setEnts, setEnts_setEnts]
  · rw [show (G.setEnts b l).ents d = G.ents d from update_of_ne eq ..] at perm'
    refine ⟨l₂, l, perm', ?_, ?_⟩
    · rw [show (G.setEnts d l₂).ents b = G.ents b from update_of_ne (Ne.symm eq) ..]
      exact perm
    · rw [setEnts, setEnts, setEnts, setEnts]
      simp only [update_comm eq]

theorem ents_setEnts_same (G : Graph α N) (d : α) (l : List (N × α)) : (G.setEnts d l).ents d = l :=
  update_self ..

theorem ents_setEnts_ne (G : Graph α N) (l : List (N × α)) (ne : x ≠ d) :
    (G.setEnts d l).ents x = G.ents x := update_of_ne ne ..

theorem refs_setEnts (nodup : G.nodes.Nodup) (node : d ∈ G.nodes) (l : List (N × α)) (x : α) :
    (G.setEnts d l).refs x + into (G.ents d) x = G.refs x + into l x := by
  have sum := sum_replace (f := fun d => into (G.ents d) x)
    (g := fun c => into ((G.setEnts d l).ents c) x) nodup node fun c ne => by
      rw [ents_setEnts_ne G l ne]
  simp only [ents_setEnts_same] at sum
  show (G.nodes.map fun c => into ((G.setEnts d l).ents c) x).sum + _ + _ = _
  rw [refs]
  show _ + (if x = G.root then 1 else 0) + _ = _
  omega

theorem refs_add (fresh : x ∉ G.nodes) (dir : Bool) (y : α) : (G.add x dir).refs y = G.refs y := by
  have old : G.nodes.map (fun c => into ((G.add x dir).ents c) y) =
      G.nodes.map fun c => into (G.ents c) y := by
    apply map_congr_left
    intro c mem
    have ne : c ≠ x := fun eq => fresh (eq ▸ mem)
    rw [show (G.add x dir).ents c = G.ents c from update_of_ne ne ..]
  show (((x :: G.nodes).map fun c => into ((G.add x dir).ents c) y).sum + _) = _
  rw [map_cons, sum_cons, old, show (G.add x dir).ents x = [] from update_self ..,
    into_nil, zero_add]
  rfl

theorem refs_drop (node : x ∈ G.nodes) (y : α) :
    (G.drop x).refs y + into (G.ents x) y = G.refs y := by
  have perm := ((perm_cons_erase node).map fun d => into (G.ents d) y).sum_eq
  rw [map_cons, sum_cons] at perm
  show ((G.nodes.erase x).map fun d => into (G.ents d) y).sum + _ + _ = _
  rw [refs, perm]
  show _ + (if y = G.root then 1 else 0) + _ = _
  omega

theorem edge_setEnts : (G.setEnts d l).Edge x n y ↔
    x ∈ G.nodes ∧ if x = d then (n, y) ∈ l else (n, y) ∈ G.ents x := by
  show x ∈ G.nodes ∧ (n, y) ∈ (G.setEnts d l).ents x ↔ _
  by_cases eq : x = d
  · rw [if_pos eq, eq, ents_setEnts_same]
  · rw [if_neg eq, ents_setEnts_ne G l eq]

namespace Bounded

section
variable (B : G.Bounded)
include B

theorem bind (node : d ∈ G.nodes) (dir : G.dir d = true) (target : x ∈ G.nodes)
    (spare : G.refs x < G.nlink x) (perm : l.Perm ((n, x) :: G.ents d)) : (G.setEnts d l).Bounded := by
  have count : ∀ y, (G.setEnts d l).refs y = G.refs y + if x = y then 1 else 0 := by
    intro y
    have change := refs_setEnts B.nodup node l y
    rw [into_perm perm, into_cons] at change
    simp only at change
    omega
  refine ⟨B.nodup, B.root, B.rootDir, ?_, ?_, B.single, ?_, B.linked⟩
  · intro c mem e entry
    by_cases eq : c = d
    · rw [eq, ents_setEnts_same, perm.mem_iff, mem_cons] at entry
      rcases entry with rfl | old
      · exact target
      · exact B.closed d node e old
    · rw [ents_setEnts_ne G l eq] at entry
      exact B.closed c mem e entry
  · intro c mem plain
    by_cases eq : c = d
    · rw [eq] at plain
      exact absurd (dir.symm.trans plain) (by decide)
    · rw [ents_setEnts_ne G l eq]
      exact B.plain c mem plain
  · intro y mem
    show (G.setEnts d l).refs y ≤ G.nlink y
    rw [count]
    have before := B.bounded y mem
    split
    · rename_i eq
      rw [← eq] at before ⊢
      omega
    · omega

theorem unbind (node : d ∈ G.nodes) (gone : List (N × α))
    (perm : (G.ents d).Perm (gone ++ l)) : (G.setEnts d l).Bounded := by
  have count : ∀ y, (G.setEnts d l).refs y ≤ G.refs y := by
    intro y
    have change := refs_setEnts B.nodup node l y
    rw [into_perm perm, into, countP_append] at change
    simp only [into] at change
    omega
  refine ⟨B.nodup, B.root, B.rootDir, ?_, ?_, B.single, ?_, B.linked⟩
  · intro c mem e entry
    by_cases eq : c = d
    · rw [eq, ents_setEnts_same] at entry
      exact B.closed d node e (perm.mem_iff.mpr (mem_append_right _ entry))
    · rw [ents_setEnts_ne G l eq] at entry
      exact B.closed c mem e entry
  · intro c mem plain
    by_cases eq : c = d
    · rw [eq] at plain ⊢
      rw [ents_setEnts_same]
      have none := B.plain d node plain
      rw [none] at perm
      exact (append_eq_nil_iff.mp perm.symm.eq_nil).2
    · rw [ents_setEnts_ne G l eq]
      exact B.plain c mem plain
  · intro y mem
    exact le_trans (count y) (B.bounded y mem)

theorem setLinks (room : G.refs x ≤ k) (single : G.dir x = true → k ≤ 1)
    (kept : G.users x = 0 → k ≠ 0) : (G.setLinks x k).Bounded := by
  have self : (G.setLinks x k).nlink x = k := update_self ..
  have other : ∀ y, y ≠ x → (G.setLinks x k).nlink y = G.nlink y := fun y ne => update_of_ne ne ..
  refine ⟨B.nodup, B.root, B.rootDir, B.closed, B.plain, ?_, ?_, ?_⟩
  · intro y mem dir
    by_cases eq : y = x
    · rw [eq] at dir ⊢
      rw [self]
      exact single dir
    · rw [other y eq]
      exact B.single y mem dir
  · intro y mem
    by_cases eq : y = x
    · rw [eq, self]
      exact room
    · rw [other y eq]
      exact B.bounded y mem
  · intro y mem free
    by_cases eq : y = x
    · rw [eq] at free ⊢
      rw [self]
      exact kept free
    · rw [other y eq]
      exact B.linked y mem free

theorem setUsers (kept : k = 0 → x ∈ G.nodes → G.nlink x ≠ 0) :
    (G.setUsers x k).Bounded := by
  refine ⟨B.nodup, B.root, B.rootDir, B.closed, B.plain, B.single, B.bounded, ?_⟩
  intro y mem free
  by_cases eq : y = x
  · rw [eq] at free mem ⊢
    rw [show (G.setUsers x k).users x = k from update_self ..] at free
    exact kept free mem
  · rw [show (G.setUsers x k).users y = G.users y from update_of_ne eq ..] at free
    exact B.linked y mem free

theorem fresh_refs (fresh : x ∉ G.nodes) : G.refs x = 0 := by
  apply byContradiction
  intro some
  obtain ⟨d, n, edge⟩ := edge_of_refs some fun eq => fresh (eq ▸ B.root)
  exact fresh (B.edge_node edge)

theorem hold (l : List α) : (G.hold l).Bounded :=
  ⟨B.nodup, B.root, B.rootDir, B.closed, B.plain, B.single, B.bounded,
    fun x mem free => B.linked x mem (Nat.eq_zero_of_add_eq_zero_right free)⟩

theorem add (fresh : x ∉ G.nodes) (dir : Bool) : (G.add x dir).Bounded := by
  have ne : ∀ y ∈ G.nodes, y ≠ x := fun y mem eq => fresh (eq ▸ mem)
  have ents : ∀ y, y ≠ x → (G.add x dir).ents y = G.ents y := fun y h => update_of_ne h ..
  have self : (G.add x dir).ents x = [] := update_self ..
  refine ⟨nodup_cons.mpr ⟨fresh, B.nodup⟩, mem_cons_of_mem _ B.root, ?_, ?_, ?_, ?_, ?_, ?_⟩
  · show (G.add x dir).dir G.root = true
    rw [show (G.add x dir).dir G.root = G.dir G.root from update_of_ne (ne _ B.root) ..]
    exact B.rootDir
  · intro c mem e entry
    by_cases eq : c = x
    · rw [eq, self] at entry
      cases entry
    · rw [ents c eq] at entry
      exact mem_cons_of_mem _ (B.closed c ((mem_cons.mp mem).resolve_left eq) e entry)
  · intro c mem plain
    by_cases eq : c = x
    · rw [eq, self]
    · rw [show (G.add x dir).dir c = G.dir c from update_of_ne eq ..] at plain
      rw [ents c eq]
      exact B.plain c ((mem_cons.mp mem).resolve_left eq) plain
  · intro c mem isDir
    by_cases eq : c = x
    · rw [eq, show (G.add x dir).nlink x = 1 from update_self ..]
    · rw [show (G.add x dir).dir c = G.dir c from update_of_ne eq ..] at isDir
      rw [show (G.add x dir).nlink c = G.nlink c from update_of_ne eq ..]
      exact B.single c ((mem_cons.mp mem).resolve_left eq) isDir
  · intro c mem
    rw [refs_add fresh]
    by_cases eq : c = x
    · rw [eq, B.fresh_refs fresh]
      exact zero_le _
    · rw [show (G.add x dir).nlink c = G.nlink c from update_of_ne eq ..]
      exact B.bounded c ((mem_cons.mp mem).resolve_left eq)
  · intro c mem free
    by_cases eq : c = x
    · rw [eq, show (G.add x dir).nlink x = 1 from update_self ..]
      exact one_ne_zero
    · rw [show (G.add x dir).nlink c = G.nlink c from update_of_ne eq ..]
      exact B.linked c ((mem_cons.mp mem).resolve_left eq) free

theorem create (fresh : x ∉ G.nodes) (dir : Bool) (node : d ∈ G.nodes)
    (isDir : G.dir d = true) (perm : l.Perm ((n, x) :: G.ents d)) :
    ((G.add x dir).setEnts d l).Bounded := by
  have ne : d ≠ x := fun eq => fresh (eq ▸ node)
  have ents : (G.add x dir).ents d = G.ents d := update_of_ne ne ..
  refine (B.add fresh dir).bind (mem_cons_of_mem _ node) ?_ (mem_cons_self ..) ?_
    (by rw [ents]; exact perm)
  · rw [show (G.add x dir).dir d = G.dir d from update_of_ne ne ..]
    exact isDir
  · rw [refs_add fresh, B.fresh_refs fresh, show (G.add x dir).nlink x = 1 from update_self ..]
    exact one_pos

theorem link (node : d ∈ G.nodes) (isDir : G.dir d = true) (target : x ∈ G.nodes)
    (plain : G.dir x = false) (perm : l.Perm ((n, x) :: G.ents d)) :
    ((G.setLinks x (G.nlink x + 1)).setEnts d l).Bounded := by
  have more : (G.setLinks x (G.nlink x + 1)).Bounded := by
    refine B.setLinks (le_succ_of_le (B.bounded x target)) ?_ ?_
    · exact fun dir => absurd (dir.symm.trans plain) (by decide)
    · exact fun _ => succ_ne_zero _
  refine more.bind node isDir target ?_ perm
  rw [show (G.setLinks x (G.nlink x + 1)).nlink x = G.nlink x + 1 from update_self ..]
  exact lt_succ_of_le (B.bounded x target)

theorem walk_alive (w : G.Walk G.root p x) : G.nlink x ≠ 0 := by
  have bound := B.bounded x (B.walk_node w B.root)
  cases w with
  | nil =>
    have pos := root_refs_pos (G := G)
    omega
  | snoc _ edge =>
    have pos := edge.refs_pos
    omega

theorem drop (node : x ∈ G.nodes) (none : G.nlink x = 0) : (G.drop x).Bounded := by
  have refs : G.refs x = 0 := le_zero.mp (none ▸ B.bounded x node)
  have old : ∀ y, y ∈ (G.drop x).nodes ↔ y ≠ x ∧ y ∈ G.nodes := fun y => B.nodup.mem_erase_iff
  refine ⟨B.nodup.erase x, ?_, B.rootDir, ?_, ?_, ?_, ?_, ?_⟩
  · refine (old _).mpr ⟨?_, B.root⟩
    intro eq
    have pos := root_refs_pos (G := G)
    rw [show G.root = x from eq, refs] at pos
    exact absurd pos (lt_irrefl 0)
  · intro c mem e entry
    have node' := ((old c).mp mem).2
    refine (old _).mpr ⟨?_, B.closed c node' e entry⟩
    rintro rfl
    have pos := Edge.refs_pos (G := G) (d := c) (n := e.1) ⟨node', entry⟩
    rw [refs] at pos
    exact absurd pos (lt_irrefl 0)
  · exact fun c mem => B.plain c ((old c).mp mem).2
  · exact fun c mem => B.single c ((old c).mp mem).2
  · intro y mem
    have fewer := refs_drop node y
    have before := B.bounded y ((old y).mp mem).2
    show (G.drop x).refs y ≤ G.nlink y
    omega
  · exact fun y mem => B.linked y ((old y).mp mem).2

theorem put (node : x ∈ G.nodes) (used : G.users x ≠ 0) : (G.put x).Bounded := by
  unfold Graph.put
  split
  · rename_i last
    -- dropping first: an object without users and links is in no order that lasts
    have dropped := B.drop node last.2
    refine dropped.setUsers (x := x) (k := 0) ?_
    intro _ mem
    exact absurd rfl (B.nodup.mem_erase_iff.mp mem).1
  · rename_i more
    apply B.setUsers
    intro zero _ none
    exact more ⟨by omega, none⟩

theorem unlink (node : d ∈ G.nodes) (perm : (G.ents d).Perm ((n, x) :: l))
    (used : G.users x ≠ 0) : ((G.setEnts d l).setLinks x (G.nlink x - 1)).Bounded := by
  have target : x ∈ G.nodes := B.closed d node (n, x) (perm.mem_iff.mpr (mem_cons_self ..))
  have change := refs_setEnts B.nodup node l x
  rw [into_perm perm, into_cons, if_pos rfl] at change
  have before := B.bounded x target
  refine (B.unbind node [(n, x)] perm).setLinks (by omega) ?_ ?_
  · intro dir
    have one := B.single x target dir
    omega
  · exact fun free => absurd free used

theorem move (node : d ∈ G.nodes) (perm : (G.ents d).Perm ((n, x) :: l))
    (node' : b ∈ G.nodes) (isDir : G.dir b = true) (perm' : l'.Perm ((m, x) :: (G.setEnts d l).ents b)) :
    ((G.setEnts d l).setEnts b l').Bounded := by
  have target : x ∈ G.nodes := B.closed d node (n, x) (perm.mem_iff.mpr (mem_cons_self ..))
  refine (B.unbind node [(n, x)] perm).bind node' isDir target ?_ perm'
  have change := refs_setEnts B.nodup node l x
  rw [into_perm perm, into_cons, if_pos rfl] at change
  have before := B.bounded x target
  show (G.setEnts d l).refs x < G.nlink x
  omega

end

end Bounded

/- What stays in reach -/

section Edges
variable {z : α} {k : N} (perm : (G.ents d).Perm ((n, x) :: l)) (perm' : l.Perm ((n, x) :: G.ents d))
include perm

theorem edge_unlinked (edge : G.Edge z k y) (other : ¬ (z = d ∧ (k, y) = (n, x))) :
    (G.setEnts d l).Edge z k y := by
  refine edge_setEnts.mpr ⟨edge.1, ?_⟩
  split
  · rename_i here
    have mem := edge.2
    rw [here, perm.mem_iff, mem_cons] at mem
    exact mem.resolve_left fun h => other ⟨here, h⟩
  · exact edge.2

theorem edge_of_unlinked (edge : (G.setEnts d l).Edge z k y) : G.Edge z k y := by
  obtain ⟨mem, entry⟩ := edge_setEnts.mp edge
  refine ⟨mem, ?_⟩
  split at entry
  · rename_i here
    rw [here, perm.mem_iff]
    exact mem_cons_of_mem _ entry
  · exact entry

omit perm
include perm'

theorem edge_linked (edge : G.Edge z k y) : (G.setEnts d l).Edge z k y := by
  refine edge_setEnts.mpr ⟨edge.1, ?_⟩
  split
  · rename_i here
    rw [perm'.mem_iff, ← here]
    exact mem_cons_of_mem _ edge.2
  · exact edge.2

theorem edge_new (node : d ∈ G.nodes) : (G.setEnts d l).Edge d n x := by
  refine edge_setEnts.mpr ⟨node, ?_⟩
  rw [if_pos rfl, perm'.mem_iff]
  exact mem_cons_self ..

end Edges

theorem reach_unlink (perm : (G.ents d).Perm ((n, x) :: l)) (leaf : G.ents x = [])
    (r : G.Reach G.root y) : (G.setEnts d l).Reach G.root y ∨ y = x := by
  refine r.closed (fun y => (G.setEnts d l).Reach G.root y ∨ y = x) (.inl (.refl _)) ?_
  intro z m y edge reached
  rcases reached with reached | eq
  · by_cases same : z = d ∧ (m, y) = (n, x)
    · exact .inr (congrArg Prod.snd same.2)
    · exact .inl (reached.snoc (edge_unlinked perm edge same))
  · have mem := edge.2
    rw [eq, leaf] at mem
    cases mem

theorem reach_move (perm : (G.ents d).Perm ((n, x) :: l)) (node : b ∈ G.nodes)
    (perm' : l'.Perm ((m, x) :: (G.setEnts d l).ents b)) (top : G.Reach G.root b) (apart : ¬ G.Reach x b)
    (r : G.Reach G.root y) : ((G.setEnts d l).setEnts b l').Reach G.root y := by
  have either : ∀ {y}, G.Reach G.root y → (G.setEnts d l).Reach G.root y ∨ (G.setEnts d l).Reach x y := by
    intro y r
    refine r.closed (fun y => (G.setEnts d l).Reach G.root y ∨ (G.setEnts d l).Reach x y)
      (.inl (.refl _)) ?_
    intro z k y edge reached
    by_cases same : z = d ∧ (k, y) = (n, x)
    · rw [show y = x from congrArg Prod.snd same.2]
      exact .inr (.refl x)
    · have kept := edge_unlinked perm edge same
      exact reached.imp (·.snoc kept) (·.snoc kept)
  have more : ∀ z k y, (G.setEnts d l).Edge z k y → ((G.setEnts d l).setEnts b l').Edge z k y :=
    fun z k y edge => edge_linked perm' edge
  have parent : (G.setEnts d l).Reach G.root b :=
    (either top).resolve_right fun below => apart (below.mono fun z k y edge => edge_of_unlinked perm edge)
  have moved : ((G.setEnts d l).setEnts b l').Reach G.root x :=
    (parent.mono more).snoc (edge_new perm' node)
  rcases either r with above | below
  · exact above.mono more
  · exact below.closed (((G.setEnts d l).setEnts b l').Reach G.root) moved
      fun z k y edge reached => reached.snoc (more z k y edge)

namespace Exact

section
variable (E : G.Exact)
include E

theorem reach_of_edge (edge : G.Edge d n x) : G.Reach G.root d := by
  apply E.reach d edge.1
  intro none
  have mem := edge.2
  rw [E.unlinked d edge.1 none] at mem
  cases mem

theorem hold (l : List α) : (G.hold l).Exact :=
  ⟨E.toBounded.hold l, E.exact, E.unlinked,
    fun y mem pos => (E.reach y mem pos).mono fun _ _ _ edge => edge⟩

theorem put (node : x ∈ G.nodes) (used : G.users x ≠ 0) : (G.put x).Exact := by
  have bounded := E.toBounded.put node used
  unfold Graph.put at bounded ⊢
  split
  · rename_i last
    rw [if_pos last] at bounded
    have none : G.ents x = [] := E.unlinked x node last.2
    have old : ∀ y, y ∈ G.nodes.erase x ↔ y ≠ x ∧ y ∈ G.nodes := fun y => E.nodup.mem_erase_iff
    refine ⟨bounded, ?_, ?_, ?_⟩
    · intro y mem
      have same := refs_drop (G := G.setUsers x 0) node y
      rw [show (G.setUsers x 0).ents x = [] from none, into_nil] at same
      show ((G.setUsers x 0).drop x).refs y = G.nlink y
      rw [← E.exact y ((old y).mp mem).2]
      exact same
    · exact fun y mem => E.unlinked y ((old y).mp mem).2
    · intro y mem pos
      refine (E.reach y ((old y).mp mem).2 pos).mono ?_
      intro z k y edge
      refine ⟨(old z).mpr ⟨?_, edge.1⟩, edge.2⟩
      rintro rfl
      have entry := edge.2
      rw [none] at entry
      cases entry
  · rename_i more
    rw [if_neg more] at bounded
    exact ⟨bounded, E.exact, E.unlinked, fun y mem pos => (E.reach y mem pos).mono fun _ _ _ edge => edge⟩

theorem create (fresh : x ∉ G.nodes) (dir : Bool) (node : d ∈ G.nodes)
    (isDir : G.dir d = true) (alive : G.nlink d ≠ 0) (perm : l.Perm ((n, x) :: G.ents d)) :
    ((G.add x dir).setEnts d l).Exact := by
  have ne : d ≠ x := fun eq => fresh (eq ▸ node)
  have ents : ∀ y, y ≠ x → (G.add x dir).ents y = G.ents y := fun y h => update_of_ne h ..
  have nlink : ∀ y, y ≠ x → (G.add x dir).nlink y = G.nlink y := fun y h => update_of_ne h ..
  have one : (G.add x dir).nlink x = 1 := update_self ..
  have node' : d ∈ (G.add x dir).nodes := mem_cons_of_mem _ node
  have perm' : l.Perm ((n, x) :: (G.add x dir).ents d) := by rw [ents d ne]; exact perm
  have old : ∀ z k y, G.Edge z k y → ((G.add x dir).setEnts d l).Edge z k y := by
    intro z k y edge
    apply edge_linked perm'
    refine ⟨mem_cons_of_mem _ edge.1, ?_⟩
    rw [ents z fun eq => fresh (eq ▸ edge.1)]
    exact edge.2
  refine ⟨E.toBounded.create fresh dir node isDir perm, ?_, ?_, ?_⟩
  · intro y mem
    have change := refs_setEnts (E.toBounded.add fresh dir).nodup node' l y
    rw [into_perm perm', into_cons, refs_add fresh] at change
    show ((G.add x dir).setEnts d l).refs y = (G.add x dir).nlink y
    by_cases eq : y = x
    · rw [eq, E.fresh_refs fresh] at change
      rw [eq, one]
      simp only [if_true] at change
      omega
    · rw [nlink y eq, ← E.exact y ((mem_cons.mp mem).resolve_left eq)]
      simp only [if_neg (Ne.symm eq)] at change
      omega
  · intro y mem none
    rw [show ((G.add x dir).setEnts d l).nlink y = (G.add x dir).nlink y from rfl] at none
    by_cases eq : y = x
    · rw [eq, one] at none
      cases none
    · rw [nlink y eq] at none
      have ne' : y ≠ d := fun h => alive (h ▸ none)
      rw [ents_setEnts_ne _ _ ne', ents y eq]
      exact E.unlinked y ((mem_cons.mp mem).resolve_left eq) none
  · intro y mem pos
    by_cases eq : y = x
    · rw [eq]
      exact ((E.reach d node alive).mono old).snoc (edge_new perm' node')
    · rw [show ((G.add x dir).setEnts d l).nlink y = (G.add x dir).nlink y from rfl, nlink y eq] at pos
      exact (E.reach y ((mem_cons.mp mem).resolve_left eq) pos).mono old

theorem link (node : d ∈ G.nodes) (isDir : G.dir d = true) (alive : G.nlink d ≠ 0)
    (target : x ∈ G.nodes) (plain : G.dir x = false) (perm : l.Perm ((n, x) :: G.ents d)) :
    ((G.setLinks x (G.nlink x + 1)).setEnts d l).Exact := by
  have self : (G.setLinks x (G.nlink x + 1)).nlink x = G.nlink x + 1 := update_self ..
  have other : ∀ y, y ≠ x → (G.setLinks x (G.nlink x + 1)).nlink y = G.nlink y :=
    fun y ne => update_of_ne ne ..
  have old : ∀ z k y, G.Edge z k y → ((G.setLinks x (G.nlink x + 1)).setEnts d l).Edge z k y :=
    fun z k y edge => edge_linked (G := G.setLinks x (G.nlink x + 1)) perm edge
  refine ⟨E.toBounded.link node isDir target plain perm, ?_, ?_, ?_⟩
  · intro y mem
    have change := refs_setEnts (G := G.setLinks x (G.nlink x + 1)) E.nodup node l y
    rw [into_perm perm, into_cons] at change
    have before := E.exact y mem
    have change : ((G.setLinks x (G.nlink x + 1)).setEnts d l).refs y + into (G.ents d) y =
      G.refs y + (into (G.ents d) y + if x = y then 1 else 0) := change
    show ((G.setLinks x (G.nlink x + 1)).setEnts d l).refs y = (G.setLinks x (G.nlink x + 1)).nlink y
    by_cases eq : y = x
    · rw [eq] at change before ⊢
      rw [if_pos rfl] at change
      rw [self]
      omega
    · rw [if_neg (Ne.symm eq)] at change
      rw [other y eq]
      omega
  · intro y mem none
    have none : (G.setLinks x (G.nlink x + 1)).nlink y = 0 := none
    by_cases eq : y = x
    · rw [eq, self] at none
      cases none
    · rw [other y eq] at none
      have ne : y ≠ d := fun h => alive (h ▸ none)
      rw [ents_setEnts_ne _ _ ne]
      exact E.unlinked y mem none
  · intro y mem pos
    have pos : (G.setLinks x (G.nlink x + 1)).nlink y ≠ 0 := pos
    by_cases eq : y = x
    · rw [eq]
      exact ((E.reach d node alive).mono old).snoc
        (edge_new (G := G.setLinks x (G.nlink x + 1)) perm node)
    · rw [other y eq] at pos
      exact (E.reach y mem pos).mono old

theorem unlink (node : d ∈ G.nodes) (perm : (G.ents d).Perm ((n, x) :: l))
    (leaf : G.ents x = []) (used : G.users x ≠ 0) :
    ((G.setEnts d l).setLinks x (G.nlink x - 1)).Exact := by
  have edge : G.Edge d n x := ⟨node, perm.mem_iff.mpr (mem_cons_self ..)⟩
  have target : x ∈ G.nodes := E.edge_node edge
  have self : ((G.setEnts d l).setLinks x (G.nlink x - 1)).nlink x = G.nlink x - 1 := update_self ..
  have other : ∀ y, y ≠ x → ((G.setEnts d l).setLinks x (G.nlink x - 1)).nlink y = G.nlink y :=
    fun y ne => update_of_ne ne ..
  have ne : x ≠ d := by
    rintro rfl
    have mem := edge.2
    rw [leaf] at mem
    cases mem
  have refs : ∀ y, (G.setEnts d l).refs y + (if x = y then 1 else 0) = G.refs y := by
    intro y
    have change := refs_setEnts E.nodup node l y
    rw [into_perm perm, into_cons] at change
    simp only at change
    omega
  have exact : ∀ y ∈ G.nodes, (G.setEnts d l).refs y =
      ((G.setEnts d l).setLinks x (G.nlink x - 1)).nlink y := by
    intro y mem
    have change := refs y
    have before := E.exact y mem
    by_cases eq : y = x
    · rw [eq] at change before ⊢
      rw [if_pos rfl] at change
      rw [self]
      omega
    · rw [if_neg (Ne.symm eq)] at change
      rw [other y eq]
      omega
  refine ⟨E.toBounded.unlink node perm used, exact, ?_, ?_⟩
  · intro y mem none
    show (G.setEnts d l).ents y = []
    by_cases eq : y = x
    · rw [eq, ents_setEnts_ne G l ne]
      exact leaf
    · rw [other y eq] at none
      have empty := E.unlinked y mem none
      rw [ents_setEnts_ne G l ?_]
      · exact empty
      · rintro rfl
        have mem := edge.2
        rw [empty] at mem
        cases mem
  · intro y mem pos
    have kept : ∀ y, G.Reach G.root y → y ≠ x → (G.setEnts d l).Reach G.root y :=
      fun y r ne => (reach_unlink perm leaf r).resolve_right ne
    have goal : (G.setEnts d l).Reach G.root y := by
      by_cases eq : y = x
      · -- a link is left, so there is another entry, in a directory that is not the leaf
        rw [eq] at pos ⊢
        have notRoot : x ≠ G.root := by
          rintro rfl
          exact E.root_edge edge
        obtain ⟨c, m, edge'⟩ := edge_of_refs (G := G.setEnts d l) (by rw [exact x target]; exact pos) notRoot
        have before := edge_of_unlinked perm edge'
        refine (kept c (E.reach_of_edge before) ?_).snoc edge'
        rintro rfl
        have mem := before.2
        rw [leaf] at mem
        cases mem
      · rw [other y eq] at pos
        exact kept y (E.reach y mem pos) eq
    exact goal.mono fun _ _ _ edge => edge

theorem move (node : d ∈ G.nodes) (perm : (G.ents d).Perm ((n, x) :: l))
    (node' : b ∈ G.nodes) (isDir : G.dir b = true) (alive : G.nlink b ≠ 0) (apart : ¬ G.Reach x b)
    (perm' : l'.Perm ((m, x) :: (G.setEnts d l).ents b)) : ((G.setEnts d l).setEnts b l').Exact := by
  have edge : G.Edge d n x := ⟨node, perm.mem_iff.mpr (mem_cons_self ..)⟩
  have refs : ∀ y, (G.setEnts d l).refs y + (if x = y then 1 else 0) = G.refs y := by
    intro y
    have change := refs_setEnts E.nodup node l y
    rw [into_perm perm, into_cons] at change
    simp only at change
    omega
  have same : ∀ y, ((G.setEnts d l).setEnts b l').refs y = G.refs y := by
    intro y
    have first := refs y
    have change := refs_setEnts (G := G.setEnts d l) E.nodup node' l' y
    rw [into_perm perm', into_cons] at change
    simp only at change
    omega
  refine ⟨E.toBounded.move node perm node' isDir perm', ?_, ?_, ?_⟩
  · intro y mem
    rw [same]
    exact E.exact y mem
  · intro y mem none
    have none : G.nlink y = 0 := none
    have empty := E.unlinked y mem none
    have ne : y ≠ b := fun h => alive (h ▸ none)
    rw [ents_setEnts_ne _ _ ne, ents_setEnts_ne G l ?_]
    · exact empty
    · rintro rfl
      have mem := edge.2
      rw [empty] at mem
      cases mem
  · intro y mem pos
    exact reach_move perm node' perm' (E.reach b node' alive) apart (E.reach y mem pos)

end

end Exact

/- Graphs that differ in the order of entries, or away from their nodes -/

structure Same (G H : Graph α N) : Prop where
  root : H.root = G.root
  nodes : H.nodes = G.nodes
  dir : ∀ x ∈ G.nodes, H.dir x = G.dir x
  nlink : ∀ x ∈ G.nodes, H.nlink x = G.nlink x
  users : ∀ x ∈ G.nodes, H.users x = G.users x
  ents : ∀ x ∈ G.nodes, (H.ents x).Perm (G.ents x)

theorem same_setEnts (perm : l.Perm (G.ents d)) : Same G (G.setEnts d l) := by
  refine ⟨rfl, rfl, fun _ _ => rfl, fun _ _ => rfl, fun _ _ => rfl, ?_⟩
  intro x _
  by_cases eq : x = d
  · rw [eq, ents_setEnts_same]
    exact perm
  · rw [ents_setEnts_ne G l eq]

namespace Same
variable {H : Graph α N}

theorem refs (e : Same G H) (x : α) : H.refs x = G.refs x := by
  have sums : H.nodes.map (fun d => into (H.ents d) x) = G.nodes.map fun d => into (G.ents d) x := by
    rw [e.nodes]
    exact map_congr_left fun d mem => into_perm (e.ents d mem) x
  rw [Graph.refs, sums, e.root, Graph.refs]

omit [DecidableEq α] in
theorem edge (e : Same G H) : H.Edge x n y ↔ G.Edge x n y := by
  rw [Edge, Edge, e.nodes]
  exact and_congr_right fun mem => (e.ents x mem).mem_iff

theorem bounded (e : Same G H) (B : G.Bounded) : H.Bounded := by
  refine ⟨e.nodes ▸ B.nodup, by rw [e.nodes, e.root]; exact B.root,
    by rw [e.root, e.dir _ B.root]; exact B.rootDir, ?_, ?_, ?_, ?_, ?_⟩ <;> rw [e.nodes] <;> intro d mem
  · intro entry entries
    exact B.closed d mem entry ((e.ents d mem).mem_iff.mp entries)
  · intro plain
    have none := e.ents d mem
    rw [B.plain d mem (by rw [← e.dir d mem]; exact plain)] at none
    exact none.eq_nil
  · intro dir
    rw [e.nlink d mem]
    exact B.single d mem (by rw [← e.dir d mem]; exact dir)
  · rw [e.refs, e.nlink d mem]
    exact B.bounded d mem
  · rw [e.users d mem, e.nlink d mem]
    exact B.linked d mem

theorem exact (e : Same G H) (E : G.Exact) : H.Exact := by
  refine ⟨e.bounded E.toBounded, ?_, ?_, ?_⟩ <;> rw [e.nodes] <;> intro x mem
  · rw [e.refs, e.nlink x mem]
    exact E.exact x mem
  · rw [e.nlink x mem]
    intro none
    have entries := e.ents x mem
    rw [E.unlinked x mem none] at entries
    exact entries.eq_nil
  · rw [e.nlink x mem, e.root]
    intro pos
    exact (E.reach x mem pos).mono fun _ _ _ edge => e.edge.mpr edge

theorem withdraw {dir : Bool} (e : Same (G.add x dir) H) (fresh : x ∉ G.nodes) (node : d ∈ G.nodes)
    (alive : G.nlink d ≠ 0) : Same (G.put d) ((H.put d).drop x) := by
  have ne : ∀ y ∈ G.nodes, y ≠ x := fun y mem eq => fresh (eq ▸ mem)
  have old : ∀ {β : Type} (f : α → β) (v : β), ∀ y ∈ G.nodes, update f x v y = f y :=
    fun f v y mem => update_of_ne (ne y mem) ..
  have inside : ∀ y ∈ G.nodes, y ∈ (G.add x dir).nodes := fun y mem => mem_cons_of_mem _ mem
  have alive' : H.nlink d ≠ 0 := by
    rw [e.nlink d (inside d node), show (G.add x dir).nlink d = G.nlink d from old _ _ d node]
    exact alive
  rw [put_alive alive, put_alive alive']
  refine ⟨e.root, ?_, ?_, ?_, ?_, ?_⟩
  · show H.nodes.erase x = G.nodes
    rw [e.nodes]
    exact erase_cons_head ..
  · intro y mem
    exact (e.dir y (inside y mem)).trans (old _ _ y mem)
  · intro y mem
    exact (e.nlink y (inside y mem)).trans (old _ _ y mem)
  · intro y mem
    show update H.users d (H.users d - 1) y = update G.users d (G.users d - 1) y
    by_cases eq : y = d
    · rw [eq, update_self, update_self, e.users d (inside d node)]
      rfl
    · rw [update_of_ne eq, update_of_ne eq]
      exact e.users y (inside y mem)
  · intro y mem
    have entries := e.ents y (inside y mem)
    rw [show (G.add x dir).ents y = G.ents y from old _ _ y mem] at entries
    exact entries

omit [DecidableEq α] in
theorem refl (G : Graph α N) : Same G G :=
  ⟨rfl, rfl, fun _ _ => rfl, fun _ _ => rfl, fun _ _ => rfl, fun _ _ => .refl _⟩

end Same

end Graph

end Links
