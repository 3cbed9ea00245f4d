import Newsys.Natfs.Balance

/- `nat_lookup` against the walk that it is meant to make (kern/fs/nat/dir.c): from the root through directories
   that the caller may search, one entry for each component. -/
namespace Natfs
open Bytes Cmds Cmd List

/-- What a permission check sees of an object: the attributes in memory, else those of the header on the disk. -/
def attrs (s : Vol) (d : Nat) : Fso :=
  if (s.fso d).refcnt = 0 then loadFso s.fs.geo (s.dev d) else s.fso d

def Searchable (cx : Cx) (s : Vol) (d : Nat) : Prop := isDir s d ∧ permError cx s.fs.geo (attrs s d) xOk = none

/-- The names lead from directory `d` to object `x`. -/
def Search (cx : Cx) (s : Vol) : Nat → List Name → Nat → Prop
  | d, [], x => x = d
  | d, n :: ns, x => Searchable cx s d ∧ ∃ y, (n, y) ∈ live s d ∧ Search cx s y ns x

/-- The names lead to one that is longer than `NAT_NAME_MAX`. -/
def Astray (cx : Cx) (s : Vol) : Nat → List Name → Prop
  | _, [] => False
  | d, n :: ns => 27 < n.length ∨ Searchable cx s d ∧ ∃ y, (n, y) ∈ live s d ∧ Astray cx s y ns

/-- A request to the block layer or for a place in the table of objects fails with this error. -/
def Cx.Fails (cx : Cx) (e : Errno) : Prop := cx.IoError e ∨ cx.NoSlot e

theorem search_append {cx : Cx} {s : Vol} (ns ms : List Name) : ∀ {d x : Nat},
    Search cx s d (ns ++ ms) x ↔ ∃ y, Search cx s d ns y ∧ Search cx s y ms x := by
  induction ns with
  | nil =>
    intro d x
    constructor
    · intro search
      exact ⟨d, rfl, search⟩
    · rintro ⟨y, same, search⟩
      rw [show y = d from same] at search
      exact search
  | cons n ns ih =>
    intro d x
    constructor
    · rintro ⟨may, z, entry, search⟩
      obtain ⟨y, front, rest⟩ := ih.mp search
      exact ⟨y, ⟨may, z, entry, front⟩, rest⟩
    · rintro ⟨y, ⟨may, z, entry, front⟩, rest⟩
      exact ⟨may, z, entry, ih.mpr ⟨y, front, rest⟩⟩

section Names
variable {cx : Cx} {s : Vol} {d x y : Nat} {n : Name}

theorem DirOk.entry_unique (ok : DirOk s d) (first : (n, x) ∈ live s d) (second : (n, y) ∈ live s d) : x = y := by
  have same := inj_on_of_nodup_map ok.distinct first second rfl
  exact congrArg Prod.snd same

theorem search_cons (ok : isDir s d → DirOk s d) (may : Searchable cx s d) (entry : (n, y) ∈ live s d) :
    Search cx s d (n :: ns) x ↔ Search cx s y ns x := by
  constructor
  · rintro ⟨_, z, other, search⟩
    rw [(ok may.1).entry_unique entry other]
    exact search
  · exact fun search => ⟨may, y, entry, search⟩

theorem astray_cons (ok : isDir s d → DirOk s d) (may : Searchable cx s d) (entry : (n, y) ∈ live s d)
    (short : ¬ 27 < n.length) : Astray cx s d (n :: ns) ↔ Astray cx s y ns := by
  constructor
  · rintro (long | ⟨_, z, other, astray⟩)
    · exact absurd long short
    · rw [(ok may.1).entry_unique entry other]
      exact astray
  · exact fun astray => .inr ⟨may, y, entry, astray⟩

theorem search_unique (sane : Sane s) (ns : List Name) : ∀ {d : Nat}, d ∈ s.files →
    Search cx s d ns x → Search cx s d ns y → x = y := by
  induction ns with
  | nil =>
    intro d _ first second
    exact (show x = d from first).trans (show y = d from second).symm
  | cons n ns ih =>
    rintro d file ⟨may, z, entry, first⟩ second
    have ok := sane.dirs d file
    have next := sane.bounded.edge_node (Sane.edge file may.1 entry)
    exact ih next first ((search_cons ok may entry).mp second)

end Names

structure Standing (s t : Vol) (d : Nat) : Prop where
  quiet : Quiet s t [d]
  owner : SameOwner (attrs s d) (t.fso d)
  file : d ∈ s.files

namespace Standing
variable {cx : Cx} {s t : Vol} {d : Nat} {n : Name}

theorem ref (r : Standing s t d) : (t.fso d).refcnt ≠ 0 := by
  rw [r.quiet.refcnt, count_singleton_self]
  omega

theorem permError (r : Standing s t d) (mode : Nat) :
    permError cx t.fs.geo (t.fso d) mode = Natfs.permError cx s.fs.geo (attrs s d) mode := by
  rw [r.quiet.fs, r.owner.permError]

end Standing

section Rules
variable {cx : Cx} {s t : Vol} {d i : Nat} {n : Name}

theorem wp_newSlot_fails (ok : Q (.ok ()) { t with tick := t.tick + 1 })
    (failed : ∀ e, cx.NoSlot e → Q (.err e) { t with tick := t.tick + 1 }) : wp (newSlot cx) Q t := by
  simp only [wp, newSlot]
  cases outcome : cx.nomem t.tick with
  | some e => exact failed e ⟨_, outcome⟩
  | none => exact ok

theorem wp_fsGetfso_standing (q : Quiet s t []) (file : i ∈ s.files)
    (ok : ∀ t', Standing s t' i → Q (.ok ()) t') (failed : ∀ e t', cx.Fails e → Q (.err e) t') :
    wp (fsGetfso cx i) Q t := by
  have count : (t.fso i).refcnt = (s.fso i).refcnt := by
    rw [q.refcnt, count_nil, Nat.add_zero]
  simp only [fsGetfso, wp_bind, wp_get, after_ok]
  split
  · rename_i ref
    simp only [modifyFso, wp_modify]
    have opened : (s.fso i).refcnt ≠ 0 := by
      rw [← count]
      exact ref
    apply ok
    refine ⟨q.setRefcnt ref (Nat.succ_ne_zero _) ?_ ?_, ?_, file⟩
    · rw [count_singleton_self, count]
    · intro j ne
      rw [count_cons_of_ne fun h => ne h.symm]
    · have owner := q.owner i opened
      rw [attrs, if_neg opened]
      simp only [Vol.setFso, update_same]
      exact ⟨owner.uid, owner.gid, owner.mode⟩
  · rename_i closed
    have closed : (t.fso i).refcnt = 0 := by simpa using closed
    simp only [wp_bind]
    apply wp_newSlot_fails
    · simp only [after_ok, wp_bind]
      apply wp_blkRead_any
      · simp only [after_ok, wp_modify]
        apply ok
        refine ⟨((q.tick _).tick _).load file closed, ?_, file⟩
        rw [attrs, if_pos (count ▸ closed)]
        simp only [Vol.setFso, update_same, q.dev, q.fs]
        exact ⟨rfl, rfl, rfl⟩
      · exact fun e io => failed e _ (.inl io)
    · exact fun e full => failed e _ (.inr full)

theorem Standing.wp_enter (r : Standing s t d) (sane : Sane s)
    (done : ∀ t' x, Standing s t' x → Searchable cx s d → (n, x) ∈ live s d → Q (.ok x) t')
    (refused : ∀ e t', ¬ (Searchable cx s d ∧ ∃ y, (n, y) ∈ live s d) → Q (.err e) t')
    (failed : ∀ e t', cx.Fails e → Q (.err e) t') : wp (enter cx d n) Q t := by
  have give : ∀ {e t'}, Quiet s t' [d] → (∀ t'', Q (.err e) t'') →
      wp (fsPutfso cx d >>= fun _ => Cmd.fail e) Q t' := by
    intro e t' q post
    rw [wp_bind]
    exact wp_fsPutfso_quiet q sane.linked fun t'' _ => post t''
  simp only [enter, wp_bind, wp_attempt]
  apply wp_findEntry r.quiet r.ref (sane.dirs d r.file)
  · intro t' p k x q' dir granted at' entry
    have mem : (n, x) ∈ live s d := Slots.mem_live.mpr ⟨k, at'.inside, entry⟩
    have first := at'.first (sane.dirs d r.file dir) entry
    have may : Searchable cx s d := ⟨dir, by rw [← r.permError]; exact granted⟩
    simp only [caught_ok, after_ok, wp_bind]
    apply wp_fsPutfso_quiet q' sane.linked
    intro t'' q''
    simp only [after_ok, wp_bind, wp_get, q''.dev, first]
    apply wp_fsGetfso_standing q'' (sane.bounded.edge_node (Sane.edge r.file dir mem))
    · exact fun u stands => done u x stands may mem
    · exact fun e u fails => failed e u fails
  · intro t' q' _ _ missing
    refine give q' fun t'' => refused _ t'' ?_
    rintro ⟨_, y, entry⟩
    exact missing _ entry rfl
  · intro e denied
    refine give r.quiet fun t'' => refused _ t'' ?_
    rintro ⟨may, _⟩
    rw [r.permError, may.2] at denied
    cases denied
  · intro other
    exact give r.quiet fun t'' => refused _ t'' fun entry => other entry.1.1
  · exact fun e t' io q' => give q' fun t'' => failed e t'' (.inl io)

theorem Standing.wp_natLookupDirFrom (sane : Sane s) (names : List Name) : ∀ {t : Vol} {d : Nat}, Standing s t d →
    ∀ {Q : Res Errno (Option Nat) → Vol → Prop},
    (∀ t' x, Standing s t' x → ¬ Astray cx s d names → Search cx s d names x → Q (.ok (some x)) t') →
    (∀ t', Astray cx s d names → Q (.ok none) t') →
    (∀ e t', ¬ Astray cx s d names → (∀ x, ¬ Search cx s d names x) → Q (.err e) t') →
    (∀ e t', cx.Fails e → Q (.err e) t') → wp (natLookupDirFrom cx d names) Q t := by
  induction names with
  | nil =>
    intro t d r Q done _ _ _
    exact done t d r id rfl
  | cons n names ih =>
    intro t d r Q done long refused failed
    have ok := sane.dirs d r.file
    simp only [natLookupDirFrom]
    split
    · rename_i long'
      rw [wp_bind]
      exact wp_fsPutfso_quiet r.quiet sane.linked fun t' _ => long t' (.inl long')
    · rename_i short
      rw [wp_bind]
      apply r.wp_enter sane
      · intro t' y stands may entry
        apply ih stands
        · intro t'' x final straight search
          exact done t'' x final (mt (astray_cons ok may entry short).mp straight) ((search_cons ok may entry).mpr search)
        · exact fun t'' astray => long t'' ((astray_cons ok may entry short).mpr astray)
        · intro e t'' straight none
          refine refused e t'' (mt (astray_cons ok may entry short).mp straight) fun x search => ?_
          exact none x ((search_cons ok may entry).mp search)
        · exact failed
      · intro e t' none
        refine refused e t' ?_ ?_
        · rintro (long' | ⟨may, y, entry, _⟩)
          · exact short long'
          · exact none ⟨may, y, entry⟩
        · rintro x ⟨may, y, entry, _⟩
          exact none ⟨may, y, entry⟩
      · exact failed

theorem wp_natLookup_search (sane : Sane s) (path : CStr) {Q : Res Errno Nat → Vol → Prop}
    (done : ∀ t x, Standing s t x → ¬ Astray cx s (tree s).root path.dirs →
      Search cx s (tree s).root (Sane.fullPath path) x → Q (.ok x) t)
    (lost : ∀ t, Astray cx s (tree s).root path.dirs → Q .crash t)
    (refused : ∀ e t, ¬ Astray cx s (tree s).root path.dirs →
      (∀ x, ¬ Search cx s (tree s).root (Sane.fullPath path) x) → Q (.err e) t)
    (failed : ∀ e t, cx.Fails e → Q (.err e) t) : wp (natLookup cx path) Q s := by
  simp only [natLookup, lookupDir, natLookupDir, wp_bind, wp_get, after_ok]
  apply wp_fsGetfso_standing (.refl sane.disk) sane.bounded.root
  · intro t r
    simp only [after_ok]
    apply Standing.wp_natLookupDirFrom sane path.dirs r
    · intro t' d r' straight front
      simp only [after_ok, wp_pure]
      split
      · rename_i plain
        rw [Sane.fullPath, if_pos plain] at done
        exact done t' d r' straight front
      · rename_i named
        rw [Sane.fullPath, if_neg named] at done refused
        apply r'.wp_enter sane
        · intro t'' x stands may entry
          exact done t'' x stands straight ((search_append _ _).mpr ⟨d, front, may, x, entry, rfl⟩)
        · intro e t'' none
          refine refused e t'' straight fun x search => ?_
          obtain ⟨y, other, may, z, entry, _⟩ := (search_append _ _).mp search
          rw [search_unique sane _ sane.bounded.root other front] at may entry
          exact none ⟨may, z, entry⟩
        · exact failed
    · exact fun t' astray => lost t' astray
    · intro e t' straight none
      refine refused e t' straight fun x search => ?_
      rw [Sane.fullPath] at search
      split at search
      · exact none x search
      · obtain ⟨y, front, _⟩ := (search_append _ _).mp search
        exact none y front
    · exact failed
  · exact failed

end Rules

/-- `nat_lookup` finds what the walk finds, with one more reference to it, and nothing else; an error means that there
    is nothing to find, or that a request has failed. -/
def FindsExactly (cx : Cx) (s : Vol) (path : CStr) : Prop :=
  match natLookup cx path s with
  | (.ok x, t) => Search cx s (tree s).root (Sane.fullPath path) x ∧ (t.fso x).refcnt = (s.fso x).refcnt + 1
  | (.err e, _) => (∀ x, ¬ Search cx s (tree s).root (Sane.fullPath path) x) ∨ cx.Fails e
  | (.crash, _) => False

section Lookup
variable {cx : Cx} {s : Vol} {path : CStr}

theorem findsExactly_of_straight (sane : Sane s) (straight : ¬ Astray cx s (tree s).root path.dirs) :
    FindsExactly cx s path := by
  have rule : wp (natLookup cx path) (Cmd.either
      (fun x t => Search cx s (tree s).root (Sane.fullPath path) x ∧ (t.fso x).refcnt = (s.fso x).refcnt + 1)
      fun e _ => (∀ x, ¬ Search cx s (tree s).root (Sane.fullPath path) x) ∨ cx.Fails e) s := by
    apply wp_natLookup_search sane path
    · intro t x stands _ search
      refine ⟨search, ?_⟩
      rw [stands.quiet.refcnt, count_singleton_self]
    · exact fun t astray => straight astray
    · exact fun e t _ none => .inl none
    · exact fun e t fails => .inr fails
  rw [wp] at rule
  rw [FindsExactly]
  rcases run : natLookup cx path s with ⟨x | e | _, t⟩ <;> rw [run] at rule <;> exact rule

theorem natLookup_crash (sane : Sane s) (never : ∀ e, ¬ cx.Fails e) (astray : Astray cx s (tree s).root path.dirs) :
    (natLookup cx path s).1 = .crash := by
  have rule : wp (natLookup cx path) (fun r _ => r = .crash) s := by
    apply wp_natLookup_search sane path
    · exact fun t x _ straight _ => absurd astray straight
    · exact fun t _ => rfl
    · exact fun e t straight _ => absurd astray straight
    · exact fun e t fails => absurd fails (never e)
  exact rule

theorem not_findsExactly_of_crash (crash : (natLookup cx path s).1 = .crash) : ¬ FindsExactly cx s path := by
  rw [FindsExactly]
  rcases run : natLookup cx path s with ⟨x | e | _, t⟩
  · rw [run] at crash
    cases crash
  · rw [run] at crash
    cases crash
  · exact id

end Lookup

theorem Pins.run_crash_iff {cx : Cx} {p : Pinned} {call : DirCall} : (call.run cx p).1 = .crash ↔ call.Strays cx p := by
  constructor
  · intro crash
    by_contra straight
    have settled := settled_of_straight straight
    rw [wp, crash] at settled
    exact settled
  · exact crash_of_strays

/-- The walk is found exactly when it does not come to a name that is too long; a call that uses the directory in which
    to find a name uses one that was never set exactly when one of its lookups comes to such a name. -/
theorem lookup_is_walk {s : Vol} (sane : Sane s) (cx : Cx) (path : CStr) :
    (¬ Astray cx s (tree s).root path.dirs → FindsExactly cx s path) ∧
    ((∀ e, ¬ cx.Fails e) → (FindsExactly cx s path ↔ ¬ Astray cx s (tree s).root path.dirs)) ∧
    ∀ (p : Pins.Pinned) (call : Pins.DirCall), (call.run cx p).1 = .crash ↔ call.Strays cx p := by
  refine ⟨findsExactly_of_straight sane, fun never => ⟨?_, findsExactly_of_straight sane⟩,
    fun p call => Pins.run_crash_iff⟩
  intro exact' astray
  exact not_findsExactly_of_crash (natLookup_crash sane never astray) exact'

theorem newVolume_sane : Sane (newVolume 100 2) :=
  (mounted_hundred.exact sound_hundred (by decide)).1

def innerPath : CStr := ⟨[102, 47, 103], by decide⟩

def withDir : Vol := (natMkdir rootCx (letters 1) 0o755 (newVolume 100 2)).2

theorem withDir_sane : Sane withDir := by
  have made : (natMkdir rootCx (letters 1) 0o755 (newVolume 100 2)).1 = .ok () := by decide +kernel
  have post := wp_natMkdir (show rootCx.NoIoError from fun _ => rfl) newVolume_sane (letters 1) 0o755
  rw [wp, made] at post
  exact (post.resolve_left (by simp)).sane

/-- A directory has been made, and there is no file in it yet. -/
theorem lookup_is_walk_inner : ¬ Astray rootCx withDir (tree withDir).root innerPath.dirs ∧
    FindsExactly rootCx withDir innerPath := by
  have straight : ¬ Astray rootCx withDir (tree withDir).root innerPath.dirs := by
    rw [show innerPath.dirs = [[102]] by decide]
    rintro (long | ⟨_, _, _, astray⟩)
    · exact absurd long (by decide)
    · exact astray
  exact ⟨straight, (lookup_is_walk withDir_sane rootCx innerPath).1 straight⟩

/-- A directory with a name of 28 letters is looked for there. Nothing leads on, but there is no error. -/
theorem lookup_is_not_walk : Sane (newVolume 100 2) ∧
    (∀ x, ¬ Search rootCx (newVolume 100 2) (tree (newVolume 100 2)).root (Sane.fullPath Pins.longPath) x) ∧
    (natLookup rootCx Pins.longPath (newVolume 100 2)).1 = .crash ∧
    ¬ FindsExactly rootCx (newVolume 100 2) Pins.longPath := by
  have dirs : Pins.longPath.dirs = [List.replicate 28 97] := by decide
  have names : Sane.fullPath Pins.longPath = [List.replicate 28 97, [102]] := by decide
  have never : ∀ e, ¬ rootCx.Fails e := by
    rintro e (⟨n, failed⟩ | ⟨n, failed⟩) <;> cases failed
  have empty : live (newVolume 100 2) (tree (newVolume 100 2)).root = [] := by decide +kernel
  have crash : (natLookup rootCx Pins.longPath (newVolume 100 2)).1 = .crash := by
    refine natLookup_crash newVolume_sane never ?_
    rw [dirs]
    exact .inl (by decide)
  refine ⟨newVolume_sane, ?_, crash, not_findsExactly_of_crash crash⟩
  intro x search
  rw [names] at search
  obtain ⟨_, y, entry, _⟩ := search
  rw [empty] at entry
  cases entry

end Natfs
