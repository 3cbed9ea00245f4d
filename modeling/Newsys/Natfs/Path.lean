import Newsys.Natfs.Tree

/- Path names and their resolution (kern/fs/nat/dir.c). A lookup takes references and gives them
   back; it leaves the volume as it was, whatever requests fail on its way. -/
namespace Natfs
open Bytes Cmds Cmd Links List

abbrev CStr := { p : List Byte // (0 : Byte) ∉ p }

def splitPath : List Byte → List Name × Name
  | [] => ([], [])
  | c :: p =>
    if c = 47 then ([] :: (splitPath p).1, (splitPath p).2)
    else match (splitPath p).1 with
      | [] => ([], c :: (splitPath p).2)
      | d :: ds => ((c :: d) :: ds, (splitPath p).2)

def joinPath (dirs : List Name) (base : Name) : List Byte := dirs.flatMap (· ++ [47]) ++ base

theorem joinPath_splitPath (p : List Byte) : joinPath (splitPath p).1 (splitPath p).2 = p := by
  induction p with
  | nil => rfl
  | cons c p ih =>
    simp only [splitPath]
    split
    · rename_i slash
      simp only [joinPath, flatMap_cons, nil_append, cons_append] at ih ⊢
      rw [ih, slash]
    · cases dirs : (splitPath p).1 with
      | nil =>
        rw [dirs] at ih
        simp only [joinPath, flatMap_nil, nil_append] at ih ⊢
        rw [ih]
      | cons d ds =>
        rw [dirs] at ih
        simp only [joinPath, flatMap_cons, append_assoc, cons_append] at ih ⊢
        rw [ih]

def CStr.dirs (p : CStr) : List Name := (splitPath p.1).1

def CStr.base (p : CStr) : Name := (splitPath p.1).2

theorem CStr.join (p : CStr) : joinPath p.dirs p.base = p.1 := joinPath_splitPath p.1

theorem CStr.base_noNul (p : CStr) : (0 : Byte) ∉ p.base := by
  intro mem
  apply p.2
  rw [← p.join]
  exact mem_append_right _ mem

theorem CStr.ext_of_parts {p q : CStr} (dirs : p.dirs = q.dirs) (base : p.base = q.base) : p = q := by
  apply Subtype.ext
  rw [← p.join, ← q.join, dirs, base]

def enter (cx : Cx) (dir : Nat) (name : Name) : NatM Nat := do
  let dptr ← attempt (findEntry cx dir name)
  fsPutfso cx dir
  match dptr with
  | .error e => fail e
  | .ok p => do
    let s ← get
    fsGetfso cx (deFirstBlock (s.dev p.1) p.2)
    pure (deFirstBlock (s.dev p.1) p.2)

/-- The loop of `nat_lookup_dir`, from directory `dir` on. A component that is too long ends it
    with the error code of the step before, which is 0, and without a result. -/
def natLookupDirFrom (cx : Cx) (dir : Nat) : List Name → NatM (Option Nat)
  | [] => pure (some dir)
  | name :: names =>
    if 27 < name.length then do
      fsPutfso cx dir
      pure none
    else do
      let next ← enter cx dir name
      natLookupDirFrom cx next names

def natLookupDir (cx : Cx) (pathname : CStr) : NatM (Option Nat) := do
  let s ← get
  fsGetfso cx s.fs.geo.rootBlock
  natLookupDirFrom cx s.fs.geo.rootBlock pathname.dirs

def lookupDir (cx : Cx) (pathname : CStr) : NatM Nat := do
  match ← natLookupDir cx pathname with
  | some dir => pure dir
  | none => crash

def natLookup (cx : Cx) (pathname : CStr) : NatM Nat := do
  let dir ← lookupDir cx pathname
  if pathname.base = [] then pure dir else enter cx dir pathname.base

/- What a lookup finds -/

/-- A volume in order whose link counts cover its entries. -/
structure Sane (s : Vol) : Prop extends InOrder s where
  bounded : (tree s).Bounded

namespace Sane
variable {cx : Cx} {s t : Vol} {hold : List Nat} {d : Nat} {p : List Name}

theorem linked (sane : Sane s) : Linked s := sane.bounded.linked

theorem edge (file : d ∈ s.files) (dir : isDir s d) (mem : (n, x) ∈ live s d) : (tree s).Edge d n x := by
  refine ⟨file, ?_⟩
  simp only [tree, if_pos dir]
  exact mem

variable {Q : Res Errno Nat → Vol → Prop}

theorem wp_enter (sane : Sane s) (q : Quiet s t (d :: hold)) (file : d ∈ s.files)
    (done : ∀ t' x, Quiet s t' (x :: hold) → (tree s).Edge d name x → Q (.ok x) t')
    (failed : ∀ e t', Quiet s t' hold → Q (.err e) t') : wp (enter cx d name) Q t := by
  have ref : (t.fso d).refcnt ≠ 0 := by
    rw [q.refcnt, count_cons_self]
    omega
  have give : ∀ {e t'}, Quiet s t' (d :: hold) → wp (fsPutfso cx d >>= fun _ => fail e) Q t' := by
    intro e t' q'
    rw [wp_bind]
    exact wp_fsPutfso_quiet q' sane.linked fun t'' q'' => failed e t'' q''
  simp only [enter, wp_bind, wp_attempt]
  apply wp_findEntry q ref (sane.dirs d file)
  · intro t' p i b q' dir _ at' entry
    have mem : (name, b) ∈ live s d := Slots.mem_live.mpr ⟨i, at'.inside, entry⟩
    have first := at'.first (sane.dirs d file dir) entry
    have edge := Sane.edge file dir mem
    simp only [caught_ok, after_ok, wp_bind]
    apply wp_fsPutfso_quiet q' sane.linked
    intro t'' q''
    simp only [after_ok, wp_bind, wp_get, q''.dev, first]
    apply wp_fsGetfso q'' (sane.bounded.edge_node edge)
    · exact fun u q => done u b q edge
    · exact fun e u q => failed e u q
  · exact fun t' q' _ _ _ => give q'
  · exact fun e _ => give q
  · exact fun _ => give q
  · exact fun e t' _ q' => give q'

theorem wp_natLookupDirFrom (sane : Sane s) (names : List Name) : ∀ {t : Vol} {d : Nat} {p : List Name},
    Quiet s t (d :: hold) → (tree s).Walk (tree s).root p d →
    ∀ {Q : Res Errno (Option Nat) → Vol → Prop},
    (∀ t' x, Quiet s t' (x :: hold) → (tree s).Walk (tree s).root (p ++ names) x → Q (.ok (some x)) t') →
    (∀ t', Quiet s t' hold → Q (.ok none) t') →
    (∀ e t', Quiet s t' hold → Q (.err e) t') →
    wp (natLookupDirFrom cx d names) Q t := by
  induction names with
  | nil =>
    intro t d p q walk Q done _ _
    rw [append_nil] at done
    exact done t d q walk
  | cons name names ih =>
    intro t d p q walk Q done long failed
    have file : d ∈ s.files := sane.bounded.walk_node walk sane.bounded.root
    simp only [natLookupDirFrom]
    split
    · rw [wp_bind]
      exact wp_fsPutfso_quiet q sane.linked fun t' q' => long t' q'
    · rw [wp_bind]
      apply sane.wp_enter q file
      · intro t' x q' edge
        apply ih q' (walk.snoc edge) _ long failed
        intro t'' y q'' walk'
        rw [append_assoc] at walk'
        exact done t'' y q'' walk'
      · exact failed

theorem wp_lookupDir (sane : Sane s) (q : Quiet s t hold) (path : CStr)
    (done : ∀ t' x, Quiet s t' (x :: hold) → (tree s).Walk (tree s).root path.dirs x → Q (.ok x) t')
    (failed : ∀ e t', Quiet s t' hold → Q (.err e) t') (crash : ∀ t', Q .crash t') :
    wp (lookupDir cx path) Q t := by
  simp only [lookupDir, natLookupDir, wp_bind, wp_get, after_ok, q.fs]
  apply wp_fsGetfso q sane.bounded.root
  · intro t' q'
    rw [after_ok, show s.fs.geo.rootBlock = (tree s).root from rfl]
    apply sane.wp_natLookupDirFrom path.dirs q' .nil
    · exact done
    · exact fun t'' _ => crash t''
    · exact failed
  · exact failed

def fullPath (path : CStr) : List Name := if path.base = [] then path.dirs else path.dirs ++ [path.base]

theorem wp_natLookup (sane : Sane s) (q : Quiet s t hold) (path : CStr)
    (done : ∀ t' x, Quiet s t' (x :: hold) → (tree s).Walk (tree s).root (fullPath path) x → Q (.ok x) t')
    (failed : ∀ e t', Quiet s t' hold → Q (.err e) t') (crash : ∀ t', Q .crash t') :
    wp (natLookup cx path) Q t := by
  simp only [natLookup, wp_bind]
  apply sane.wp_lookupDir q path
  · intro t' d q' walk
    simp only [after_ok]
    split
    · rename_i none
      rw [fullPath, if_pos none] at done
      exact done t' d q' walk
    · rename_i some
      rw [fullPath, if_neg some] at done
      apply sane.wp_enter q' (sane.bounded.walk_node walk sane.bounded.root)
      · exact fun t'' x q'' edge => done t'' x q'' (walk.snoc edge)
      · exact failed
  · exact failed
  · exact crash

end Sane

end Natfs
