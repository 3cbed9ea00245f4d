import Newsys.Lib.Tally
import Newsys.Kern.Fdesc

/- The reference counts of files and of objects are exact. Inside a call the references that it holds itself
   are counted too: `fl` lists the files and `os` the objects that it holds. -/
namespace Fdesc
open Cmds Cmd Kern Tally Finset Function Option

def refs (s : Sys) (f : Nat) : Nat := ∑ t ∈ range taskMax, tally openMax (fun d => d.file = some f) (s.desc t)

def users (s : Sys) (o : Nat) : Nat := tally fsMaxfile (fun e => e.refcnt ≠ 0 && e.fso = o) s.file

structure Exact (s : Sys) (fl os : List Nat) : Prop where
  files : ∀ f, f < fsMaxfile → (s.file f).refcnt = refs s f + fl.count f
  fsos : ∀ o, (s.fso o).refcnt = users s o + os.count o
  table : ∀ t n f, (s.desc t n).file = some f → f < fsMaxfile ∧ n < openMax
  held : ∀ f ∈ fl, f < fsMaxfile
  high : ∀ o, s.fsoHigh ≤ o → (s.fso o).refcnt = 0
  vacant : ∀ t, s.used t = false ∨ s.exited t = true → ∀ n, (s.desc t n).file = none
  curr : s.curr < taskMax

structure Frame (s s' : Sys) : Prop where
  desc : s'.desc = s.desc
  used : s'.used = s.used
  exited : s'.exited = s.exited
  curr : s'.curr = s.curr

theorem Frame.refl (s : Sys) : Frame s s := ⟨rfl, rfl, rfl, rfl⟩

theorem Frame.trans {s s' s'' : Sys} (h : Frame s s') (h' : Frame s' s'') : Frame s s'' :=
  ⟨h'.desc.trans h.desc, h'.used.trans h.used, h'.exited.trans h.exited, h'.curr.trans h.curr⟩

theorem frame_setFso (o : Nat) (g : Fso → Fso) (s : Sys) : Frame s (setFso o g s) := ⟨rfl, rfl, rfl, rfl⟩

theorem frame_setFile (f : Nat) (g : FsFile → FsFile) (s : Sys) : Frame s (setFile f g s) := ⟨rfl, rfl, rfl, rfl⟩

variable {s s' : Sys} {fl os : List Nat} {o f n t : Nat}

theorem refs_desc (same : ∀ t n, (s'.desc t n).file = (s.desc t n).file) (f : Nat) : refs s' f = refs s f := by
  apply sum_congr rfl
  intro t _
  apply tally_congr
  intro n _
  rw [same]

theorem refs_frame (same : Frame s s') (f : Nat) : refs s' f = refs s f := by
  apply refs_desc
  intro t n
  rw [same.desc]

theorem Exact.congr (exact : Exact s fl os) (file : s'.file = s.file) (fso : s'.fso = s.fso)
    (high : s'.fsoHigh = s.fsoHigh) (desc : ∀ t n, (s'.desc t n).file = (s.desc t n).file)
    (vacant : ∀ t, s'.used t = false ∨ s'.exited t = true → ∀ n, (s.desc t n).file = none)
    (curr : s'.curr < taskMax) : Exact s' fl os := by
  refine ⟨?_, ?_, ?_, exact.held, ?_, ?_, curr⟩
  · intro f lt
    rw [file, refs_desc desc]
    exact exact.files f lt
  · intro o
    rw [fso, users, file]
    exact exact.fsos o
  · intro t n f at_slot
    rw [desc] at at_slot
    exact exact.table t n f at_slot
  · intro o past
    rw [high] at past
    rw [fso]
    exact exact.high o past
  · intro t gone n
    rw [desc]
    exact vacant t gone n

theorem users_setFile (lt : f < fsMaxfile) (g : FsFile → FsFile) (o : Nat) :
    users (setFile f g s) o + (if (s.file f).refcnt ≠ 0 ∧ (s.file f).fso = o then 1 else 0) =
      users s o + if (g (s.file f)).refcnt ≠ 0 ∧ (g (s.file f)).fso = o then 1 else 0 := by
  have change := tally_update (P := fun e : FsFile => e.refcnt ≠ 0 && e.fso = o) (g := s.file) lt (g (s.file f))
  simpa [users, setFile] using change

def rowRefs (row : Nat → FsDesc) (f : Nat) : Nat := tally openMax (fun d => d.file = some f) row

theorem refs_row (task : t < taskMax) (desc : s'.desc = update s.desc t row) (f : Nat) :
    refs s' f + rowRefs (s.desc t) f = refs s f + rowRefs row f := by
  have sum := sum_range_update task (fun t => rowRefs (s.desc t) f) (rowRefs row f)
  have same : refs s' f = ∑ i ∈ range taskMax, update (fun t => rowRefs (s.desc t) f) t (rowRefs row f) i := by
    apply sum_congr rfl
    intro i _
    rw [desc]
    by_cases eq : i = t
    · subst eq
      simp [rowRefs]
    · simp [update_of_ne eq, rowRefs]
  rw [same]
  exact sum

theorem refs_setDesc (task : t < taskMax) (slot : n < openMax) (d : FsDesc) (f : Nat) :
    refs (setDesc t n d s) f + (if (s.desc t n).file = some f then 1 else 0) =
      refs s f + if d.file = some f then 1 else 0 := by
  have row := tally_update (P := fun d : FsDesc => d.file = some f) (g := s.desc t) slot d
  have sum : refs (setDesc t n d s) f + _ = refs s f + _ := refs_row task rfl f
  simp only [decide_eq_true_eq] at row
  simp only [rowRefs] at sum
  omega

theorem refs_pos (task : t < taskMax) (slot : n < openMax) (points : (s.desc t n).file = some f) : 0 < refs s f := by
  have change := refs_setDesc (s := s) task slot FsDesc.null f
  simp only [points, if_true, FsDesc.null, reduceCtorEq, if_false] at change
  omega

variable {g : Fso → Fso}

section
variable (exact : Exact s fl os)
include exact

theorem Exact.change (inside : o < s.fsoHigh)
    (here : (g (s.fso o)).refcnt = users s o + os'.count o)
    (rest : ∀ o', o' ≠ o → os'.count o' = os.count o') : Exact (setFso o g s) fl os' := by
  refine ⟨exact.files, ?_, exact.table, exact.held, ?_, exact.vacant, exact.curr⟩
  · intro o'
    by_cases same : o' = o
    · subst same
      simp only [setFso, update_self]
      exact here
    · have fsos := exact.fsos o'
      simp only [setFso, update_of_ne same, rest o' same]
      exact fsos
  · intro o' past
    have ne : o' ≠ o := by
      have : s.fsoHigh ≤ o' := past
      omega
    simp only [setFso, update_of_ne ne]
    exact exact.high o' past

theorem Exact.inside (live : (s.fso o).refcnt ≠ 0) : o < s.fsoHigh := by
  by_contra past
  exact live (exact.high o (Nat.le_of_not_lt past))

theorem Exact.live (mem : o ∈ os) : (s.fso o).refcnt ≠ 0 := by
  have fsos := exact.fsos o
  have pos := List.count_pos_iff.mpr mem
  omega

theorem Exact.take (inside : o < s.fsoHigh)
    (more : (g (s.fso o)).refcnt = (s.fso o).refcnt + 1) : Exact (setFso o g s) fl (o :: os) := by
  apply exact.change inside
  · have fsos := exact.fsos o
    rw [more, List.count_cons_self]
    omega
  · intro o' ne
    rw [List.count_cons_of_ne (Ne.symm ne)]

end

theorem Exact.drop (exact : Exact s fl (o :: os))
    (less : (g (s.fso o)).refcnt + 1 = (s.fso o).refcnt) : Exact (setFso o g s) fl os := by
  have fsos := exact.fsos o
  rw [List.count_cons_self] at fsos
  apply exact.change (exact.inside (exact.live (List.mem_cons_self)))
  · omega
  · intro o' ne
    rw [List.count_cons_of_ne (Ne.symm ne)]

variable {Q : Res Errno Unit → Sys → Prop}

theorem wp_check {x : Option Errno} (ok : x = none → Q (.ok ()) s) (err : ∀ e, Q (.err e) s) : wp (check x) Q s := by
  cases x with
  | none => exact ok rfl
  | some e => exact err e

variable {v : Visit}

theorem wp_fsoSlot {Q : Res Errno Nat → Sys → Prop} (exact : Exact s fl os)
    (ok : ∀ o s', Exact s' fl os → Frame s s' → (s'.fso o).refcnt = 0 → o < s'.fsoHigh → s'.fso = s.fso → Q (.ok o) s')
    (err : ∀ e, Q (.err e) s) : wp (fsoSlot v) Q s := by
  simp only [fsoSlot, wp_bind, wp_get, after_ok]
  split
  · rename_i o found
    have free := List.find?_some found
    have mem := List.mem_of_find?_eq_some found
    simp only [List.mem_reverse, List.mem_range] at mem
    exact ok o s exact (Frame.refl s) (by simpa using free) mem rfl
  · split
    · exact err _
    · simp only [wp_bind]
      apply wp_check
      · intro _
        simp only [after_ok, wp_bind, wp_modify, wp_pure]
        refine ok s.fsoHigh _ ?_ ⟨rfl, rfl, rfl, rfl⟩ (exact.high _ (le_refl _)) (Nat.lt_succ_self _) rfl
        refine ⟨exact.files, exact.fsos, exact.table, exact.held, ?_, exact.vacant, exact.curr⟩
        intro o past
        exact exact.high o (Nat.le_of_succ_le past)
      · intro e
        exact err e

theorem wp_fsGetfso {Q : Res Errno Nat → Sys → Prop} (exact : Exact s fl os)
    (ok : ∀ o s', Exact s' fl (o :: os) → Frame s s' → Q (.ok o) s')
    (err : ∀ e s', Exact s' fl os → Frame s s' → Q (.err e) s') : wp (fsGetfso v) Q s := by
  simp only [fsGetfso, wp_bind, wp_get, after_ok]
  split
  · rename_i o found
    have mem := List.mem_of_find?_eq_some found
    simp only [wp_bind, wp_modify, after_ok, wp_pure]
    have taken : Exact (setFso o (fun e => { e with refcnt := e.refcnt + 1 }) s) fl (o :: os) :=
      exact.take (List.mem_range.mp mem) rfl
    exact ok o _ taken (frame_setFso _ _ _)
  · simp only [wp_bind]
    apply wp_fsoSlot exact
    · intro o s' exact' same free inside _
      have taken : Exact (setFso o (fun _ => ⟨1, v.fs, v.index, 0, 0⟩) s') fl (o :: os) := by
        apply exact'.take inside
        rw [free]
      simp only [after_ok, wp_bind, wp_modify, wp_onError]
      apply wp_check
      · intro _
        simp only [recovered_ok, after_ok, wp_pure]
        exact ok o _ taken (same.trans (frame_setFso _ _ _))
      · intro e
        simp only [recovered_err, wp_modify, after_ok, wp_fail, after_err]
        apply err
        · apply taken.drop
          simp [setFso]
        · exact same.trans ((frame_setFso _ _ _).trans (frame_setFso _ _ _))
    · intro e
      exact err e s exact (Frame.refl s)

theorem wp_fsPutfso (exact : Exact s fl (o :: os))
    (ok : ∀ s', Exact s' fl os → Frame s s' → Q (.ok ()) s') : wp (fsPutfso o) Q s := by
  have live := exact.live List.mem_cons_self
  simp only [fsPutfso, wp_bind, wp_get, after_ok, live, if_false, wp_modify]
  refine ok _ (exact.drop ?_) (frame_setFso _ _ _)
  exact Nat.sub_add_cancel (Nat.pos_of_ne_zero live)

/-- A lookup that does not come to a component too long for the file system. -/
def Lookup.Short (path : Lookup) : Prop := path.found ≠ .long

theorem wp_fsLookup {Q : Res Errno Nat → Sys → Prop} {path : Lookup} (exact : Exact s fl os) (short : path.Short)
    (ok : ∀ o s', Exact s' fl (o :: os) → Frame s s' → Q (.ok o) s')
    (err : ∀ e s', Exact s' fl os → Frame s s' → Q (.err e) s') : wp (fsLookup path) Q s := by
  simp only [fsLookup, wp_bind]
  apply wp_forEach (fun _ s' => Exact s' fl os ∧ Frame s s')
  · exact ⟨exact, Frame.refl s⟩
  · rintro s' ⟨exact', same⟩
    simp only [after_ok]
    split
    · exact err _ s' exact' same
    · apply wp_fsGetfso exact'
      · intro o s'' exact'' same'
        exact ok o s'' exact'' (same.trans same')
      · intro e s'' exact'' same'
        exact err e s'' exact'' (same.trans same')
    · rename_i long
      exact absurd long short
  · rintro v rest s' ⟨exact', same⟩
    simp only [wp_bind]
    apply wp_fsGetfso exact'
    · intro o s'' exact'' same'
      simp only [after_ok]
      apply wp_fsPutfso exact''
      intro s₃ exact₃ same₃
      exact ⟨exact₃, same.trans (same'.trans same₃)⟩
    · intro e s'' exact'' same'
      exact err e s'' exact'' (same.trans same')

theorem Exact.sameFso (exact : Exact s fl os) (o : Nat) (same : (g (s.fso o)).refcnt = (s.fso o).refcnt) :
    Exact (setFso o g s) fl os := by
  have each : ∀ o', ((setFso o g s).fso o').refcnt = (s.fso o').refcnt := by
    intro o'
    by_cases eq : o' = o
    · subst eq
      simpa [setFso] using same
    · simp [setFso, update_of_ne eq]
  refine ⟨exact.files, ?_, exact.table, exact.held, ?_, exact.vacant, exact.curr⟩
  · intro o'
    rw [each]
    exact exact.fsos o'
  · intro o' past
    rw [each]
    exact exact.high o' past

theorem Exact.setLive {g : FsFile → FsFile} {fl' : List Nat} (exact : Exact s fl os) (lt : f < fsMaxfile)
    (live : (s.file f).refcnt ≠ 0 ↔ (g (s.file f)).refcnt ≠ 0) (fso : (g (s.file f)).fso = (s.file f).fso)
    (here : (g (s.file f)).refcnt = refs s f + fl'.count f) (rest : ∀ f', f' ≠ f → fl'.count f' = fl.count f')
    (held : ∀ f ∈ fl', f < fsMaxfile) : Exact (setFile f g s) fl' os := by
  refine ⟨?_, ?_, exact.table, held, exact.high, exact.vacant, exact.curr⟩
  · intro f' lt'
    rw [refs_frame (frame_setFile f g s)]
    by_cases eq : f' = f
    · subst eq
      simpa [setFile] using here
    · rw [rest f' eq]
      simpa [setFile, update_of_ne eq] using exact.files f' lt'
  · intro o
    have users := users_setFile (s := s) lt g o
    simp only [← live, fso] at users
    have same : Fdesc.users (setFile f g s) o = Fdesc.users s o := by omega
    rw [same]
    exact exact.fsos o

theorem wp_fsGetfile {Q : Res Errno Nat → Sys → Prop} {omode : Mode} (exact : Exact s fl (o :: os))
    (ok : ∀ f s', Exact s' (f :: fl) os → Frame s s' → Q (.ok f) s') (err : ∀ e, Q (.err e) s) :
    wp (fsGetfile o omode) Q s := by
  simp only [fsGetfile, wp_bind, wp_get, after_ok]
  split
  · exact err _
  rename_i f found
  have lt : f < fsMaxfile := List.mem_range.mp (List.mem_of_find?_eq_some found)
  have free : (s.file f).refcnt = 0 := by simpa using List.find?_some found
  simp only [wp_bind, wp_modify, after_ok, wp_pure]
  refine ok f _ (Exact.sameFso ?_ o rfl) ((frame_setFile _ _ _).trans (frame_setFso _ _ _))
  refine ⟨?_, ?_, exact.table, ?_, exact.high, exact.vacant, exact.curr⟩
  · intro f' lt'
    have files := exact.files f' lt'
    rw [refs_frame (frame_setFile f _ s)]
    by_cases eq : f' = f
    · subst eq
      simp only [setFile, update_self, List.count_cons_self]
      omega
    · simpa [setFile, update_of_ne eq, List.count_cons_of_ne (Ne.symm eq)] using files
  · intro o'
    have users := users_setFile (s := s) lt (fun _ => ⟨1, o, omode, omode⟩) o'
    have fsos := exact.fsos o'
    rw [List.count_cons] at fsos
    simp only [free, ne_eq, not_true_eq_false, false_and, if_false, one_ne_zero, not_false_eq_true, true_and] at users
    simp only [beq_iff_eq] at fsos
    show (s.fso o').refcnt = _
    omega
  · intro f' mem
    rcases List.mem_cons.mp mem with eq | mem
    · rw [eq]
      exact lt
    · exact exact.held f' mem

theorem wp_fsPutfile (exact : Exact s (f :: fl) os)
    (ok : ∀ s', Exact s' fl os → Frame s s' → Q (.ok ()) s') : wp (fsPutfile f) Q s := by
  have lt : f < fsMaxfile := exact.held f List.mem_cons_self
  have files := exact.files f lt
  rw [List.count_cons_self] at files
  have held : ∀ f ∈ fl, f < fsMaxfile := fun f mem => exact.held f (List.mem_cons_of_mem _ mem)
  have rest : ∀ f', f' ≠ f → fl.count f' = (f :: fl).count f' := by
    intro f' ne
    rw [List.count_cons_of_ne (Ne.symm ne)]
  simp only [fsPutfile, wp_bind, wp_get, after_ok]
  rw [if_neg (by omega)]
  split
  · rename_i last
    -- the last reference: the object loses the file
    have live : (s.file f).refcnt ≠ 0 ∧ (s.file f).fso = (s.file f).fso := ⟨by omega, rfl⟩
    have counted : 0 < users s (s.file f).fso := tally_pos lt (by simpa using live)
    have fsos := exact.fsos (s.file f).fso
    simp only [wp_bind, wp_modify, after_ok, fsPutfso, wp_get]
    rw [if_neg (by simp [setFso, count]; omega)]
    simp only [wp_modify, after_ok]
    refine ok _ ?_ ⟨rfl, rfl, rfl, rfl⟩
    have refcnt : ∀ o, ((setFso (s.file f).fso (fun e => { e with refcnt := e.refcnt - 1 })
        (setFso (s.file f).fso (count (s.file f).omode (-1)) s)).fso o).refcnt =
        (s.fso o).refcnt - if (s.file f).fso = o then 1 else 0 := by
      intro o
      by_cases eq : (s.file f).fso = o
      · subst eq
        simp [setFso, count]
      · simp [setFso, update_of_ne (Ne.symm eq), eq]
    refine ⟨?_, ?_, exact.table, held, ?_, exact.vacant, exact.curr⟩
    · intro f' lt'
      have same : Frame s (setFile f (fun e => { e with refcnt := e.refcnt - 1 })
          (setFso (s.file f).fso (fun e => { e with refcnt := e.refcnt - 1 })
            (setFso (s.file f).fso (count (s.file f).omode (-1)) s))) := ⟨rfl, rfl, rfl, rfl⟩
      rw [refs_frame same]
      by_cases eq : f' = f
      · subst eq
        simp only [setFile, setFso, update_self]
        omega
      · rw [rest f' eq]
        simpa [setFile, setFso, update_of_ne eq] using exact.files f' lt'
    · intro o
      have users := users_setFile (s := s) lt (fun e => { e with refcnt := e.refcnt - 1 }) o
      simp only [last, sub_self, ne_eq, one_ne_zero, not_false_eq_true, true_and, not_true_eq_false, false_and,
        if_false] at users
      have fsos := exact.fsos o
      refine (refcnt o).trans ?_
      show _ = Fdesc.users (setFile f (fun e => { e with refcnt := e.refcnt - 1 }) s) o + os.count o
      omega
    · intro o past
      refine (refcnt o).trans ?_
      have zero := exact.high o past
      omega
  · rename_i more
    rw [wp_modify]
    refine ok _ ?_ (frame_setFile _ _ _)
    apply exact.setLive lt _ rfl _ rest held
    · constructor
      · intro _
        show (s.file f).refcnt - 1 ≠ 0
        omega
      · intro _
        omega
    · show (s.file f).refcnt - 1 = _
      omega

def Runs (s : Sys) : Prop := s.used s.curr = true ∧ s.exited s.curr = false

structure SameTasks (s s' : Sys) : Prop where
  used : s'.used = s.used
  exited : s'.exited = s.exited
  curr : s'.curr = s.curr

theorem SameTasks.refl (s : Sys) : SameTasks s s := ⟨rfl, rfl, rfl⟩

theorem SameTasks.trans {s'' : Sys} (h : SameTasks s s') (h' : SameTasks s' s'') : SameTasks s s'' :=
  ⟨h'.used.trans h.used, h'.exited.trans h.exited, h'.curr.trans h.curr⟩

theorem Frame.tasks (same : Frame s s') : SameTasks s s' := ⟨same.used, same.exited, same.curr⟩

theorem SameTasks.runs (same : SameTasks s s') (runs : Runs s) : Runs s' := by
  rw [Runs, same.used, same.exited, same.curr]
  exact runs

theorem setDesc_file (t n t' n' : Nat) (d : FsDesc) (s : Sys) :
    ((setDesc t n d s).desc t' n').file = if t' = t ∧ n' = n then d.file else (s.desc t' n').file := by
  by_cases task : t' = t
  · subst task
    by_cases slot : n' = n
    · subst slot
      simp [setDesc]
    · simp [setDesc, slot]
  · simp [setDesc, task]

variable {d : FsDesc}

theorem Exact.point (exact : Exact s (f :: fl) os) (task : t < taskMax) (slot : n < openMax)
    (alive : s.used t = true ∧ s.exited t = false) (empty : (s.desc t n).file = none) (points : d.file = some f) :
    Exact (setDesc t n d s) fl os := by
  refine ⟨?_, exact.fsos, ?_, ?_, exact.high, ?_, exact.curr⟩
  · intro f' lt
    have change := refs_setDesc (s := s) task slot d f'
    have files := exact.files f' lt
    simp only [empty, points, reduceCtorEq, if_false, some.injEq] at change
    rw [List.count_cons] at files
    simp only [beq_iff_eq] at files
    show (s.file f').refcnt = _
    omega
  · intro t' n' f' at_slot
    rw [setDesc_file] at at_slot
    split at at_slot
    · rename_i here
      rw [points] at at_slot
      cases at_slot
      rw [here.2]
      exact ⟨exact.held f List.mem_cons_self, slot⟩
    · exact exact.table t' n' f' at_slot
  · intro f' mem
    exact exact.held f' (List.mem_cons_of_mem _ mem)
  · intro t' gone n'
    rw [setDesc_file, if_neg]
    · exact exact.vacant t' gone n'
    · rintro ⟨rfl, -⟩
      change s.used t' = false ∨ s.exited t' = true at gone
      rw [alive.1, alive.2] at gone
      simp at gone

theorem Exact.unpoint (exact : Exact s fl os) (task : t < taskMax) (slot : n < openMax)
    (points : (s.desc t n).file = some f) (empty : d.file = none) : Exact (setDesc t n d s) (f :: fl) os := by
  refine ⟨?_, exact.fsos, ?_, ?_, exact.high, ?_, exact.curr⟩
  · intro f' lt
    have change := refs_setDesc (s := s) task slot d f'
    have files := exact.files f' lt
    simp only [empty, points, reduceCtorEq, if_false, some.injEq] at change
    rw [List.count_cons]
    simp only [beq_iff_eq]
    show (s.file f').refcnt = _
    omega
  · intro t' n' f' at_slot
    rw [setDesc_file] at at_slot
    split at at_slot
    · rw [empty] at at_slot
      cases at_slot
    · exact exact.table t' n' f' at_slot
  · intro f' mem
    rcases List.mem_cons.mp mem with rfl | mem
    · exact (exact.table t n _ points).1
    · exact exact.held f' mem
  · intro t' gone n'
    rw [setDesc_file]
    split
    · exact empty
    · exact exact.vacant t' gone n'

theorem wp_fsGetfd {Q : Res Errno Nat → Sys → Prop} (exact : Exact s (f :: fl) os) (runs : Runs s)
    (ok : ∀ n s', n < openMax → Exact s' fl os → SameTasks s s' → (s'.desc s.curr n).file = some f → Q (.ok n) s')
    (err : ∀ e, Q (.err e) s) : wp (fsGetfd f) Q s := by
  simp only [fsGetfd, wp_bind, wp_get, after_ok]
  split
  · exact err _
  rename_i n found
  have lt : n < openMax := List.mem_range.mp (List.mem_of_find?_eq_some found)
  have empty : (s.desc s.curr n).file = none := by simpa using List.find?_some found
  simp only [wp_bind, wp_modify, after_ok, wp_pure]
  refine ok n _ lt (exact.point exact.curr lt runs empty rfl) ⟨rfl, rfl, rfl⟩ ?_
  rw [setDesc_file, if_pos ⟨rfl, rfl⟩]

theorem fsPutfile_setDesc (f t n : Nat) (d : FsDesc) (s : Sys) :
    fsPutfile f (setDesc t n d s) = ((fsPutfile f s).1, setDesc t n d (fsPutfile f s).2) := by
  have file : (setDesc t n d s).file = s.file := rfl
  simp only [fsPutfile, bind, Cmd.bind, Cmd.get, file]
  split
  · rfl
  · split
    · have fso : ∀ o g, (setFso o g (setDesc t n d s)).fso = (setFso o g s).fso := fun _ _ => rfl
      simp only [Cmd.modify, fsPutfso, bind, Cmd.bind, Cmd.get, fso]
      by_cases zero : ((setFso (s.file f).fso (count (s.file f).omode (-1)) s).fso (s.file f).fso).refcnt = 0
      · simp only [zero, if_true]
        rfl
      · simp only [zero, if_false]
        rfl
    · rfl

theorem fsPutfile_run (exact : Exact s (f :: fl) os) :
    ∃ s', fsPutfile f s = (.ok (), s') ∧ Exact s' fl os ∧ Frame s s' := by
  have run : wp (fsPutfile f) (fun r s' => r = .ok () ∧ Exact s' fl os ∧ Frame s s') s := by
    apply wp_fsPutfile exact
    intro s' exact' same
    exact ⟨rfl, exact', same⟩
  exact ⟨_, Prod.ext run.1 rfl, run.2⟩

theorem wp_fsPutfd (exact : Exact s fl os) (ok : ∀ s', Exact s' fl os → SameTasks s s' →
      (∀ t' n', (s'.desc t' n').file = if t' = s.curr ∧ n' = n then none else (s.desc t' n').file) → Q (.ok ()) s')
    (err : ∀ e, n ≥ openMax ∨ (s.desc s.curr n).file = none → Q (.err e) s) : wp (fsPutfd n) Q s := by
  simp only [fsPutfd, wp_bind, wp_get, after_ok]
  split
  · rename_i past
    exact err _ (.inl past)
  rename_i lt
  have slot : n < openMax := Nat.lt_of_not_le lt
  split
  · rename_i empty
    exact err _ (.inr empty)
  · rename_i f points
    -- clearing the descriptor first does not change what `fs_putfile` does
    obtain ⟨s', run, exact', same⟩ := fsPutfile_run (exact.unpoint exact.curr slot points (d := FsDesc.null) rfl)
    rw [fsPutfile_setDesc] at run
    have first : (fsPutfile f s).1 = .ok () := congrArg Prod.fst run
    have second : setDesc s.curr n FsDesc.null (fsPutfile f s).2 = s' := congrArg Prod.snd run
    rw [wp_bind, wp, first, after_ok, wp_modify, second]
    refine ok s' exact' ⟨same.used, same.exited, same.curr⟩ ?_
    intro t' n'
    rw [same.desc, setDesc_file]
    rfl

/-- A call ends without a crash and holds no reference any more. -/
def Sound {α : Type} (r : Res Errno α) (s : Sys) : Prop := r ≠ .crash ∧ Exact s [] []

theorem wp_ignore {α : Type} {m : FdM α} (sound : wp m Sound s) : wp (m >>= fun _ => pure ()) Sound s := by
  rw [wp_bind]
  apply wp_mono sound
  intro r s' post
  cases r with
  | ok a => exact ⟨nofun, post.2⟩
  | err e => exact ⟨nofun, post.2⟩
  | crash => exact absurd rfl post.1

theorem wp_checkOr {x : Option Errno} (exact : Exact s fl (o :: os)) (ok : Q (.ok ()) s)
    (err : ∀ e s', Exact s' fl os → Q (.err e) s') : wp (onError (check x) (fsPutfso o)) Q s := by
  rw [wp_onError]
  apply wp_check
  · intro _
    exact ok
  · intro e
    rw [recovered_err]
    apply wp_fsPutfso exact
    intro s' exact' _
    exact err e s' exact'

theorem wp_getfileOr {Q : Res Errno Nat → Sys → Prop} {mode : Mode} (exact : Exact s fl (o :: os))
    (ok : ∀ f s', Exact s' (f :: fl) os → Frame s s' → Q (.ok f) s') (err : ∀ e s', Exact s' fl os → Q (.err e) s') :
    wp (onError (fsGetfile o mode) (fsPutfso o)) Q s := by
  rw [wp_onError]
  apply wp_fsGetfile exact
  · exact ok
  · intro e
    rw [recovered_err]
    apply wp_fsPutfso exact
    intro s' exact' _
    exact err e s' exact'

theorem wp_getfdOr {Q : Res Errno Nat → Sys → Prop} (exact : Exact s (f :: fl) os) (runs : Runs s)
    (ok : ∀ n s', Exact s' fl os → Q (.ok n) s') (err : ∀ e s', Exact s' fl os → Q (.err e) s') :
    wp (onError (fsGetfd f) (fsPutfile f)) Q s := by
  rw [wp_onError]
  apply wp_fsGetfd exact runs
  · intro n s' _ exact' _ _
    exact ok n s' exact'
  · intro e
    rw [recovered_err]
    apply wp_fsPutfile exact
    intro s' exact' _
    exact err e s' exact'

theorem wp_openTail {m : Mode} (exact : Exact s [] [o]) (runs : Runs s) :
    wp (onError (fsGetfile o m) (fsPutfso o) >>= fun f => onError (fsGetfd f) (fsPutfile f)) Sound s := by
  rw [wp_bind]
  apply wp_getfileOr exact
  · intro f s' exact' same
    rw [after_ok]
    apply wp_getfdOr exact' (same.tasks.runs runs)
    · intro n s'' exact''
      exact ⟨nofun, exact''⟩
    · intro e s'' exact''
      exact ⟨nofun, exact''⟩
  · intro e s' exact'
    exact ⟨nofun, exact'⟩

theorem wp_sysOpen {a : OpenAnswers} {mode : Mode} (exact : Exact s [] []) (runs : Runs s)
    (short : a.usa = none → a.path.Short) : wp (sysOpen a mode) Sound s := by
  have failed : ∀ e s', Exact s' [] [] → Sound (.err e : Res Errno Nat) s' := fun e s' exact' => ⟨nofun, exact'⟩
  simp only [sysOpen, wp_bind]
  apply wp_check
  swap
  · intro e
    exact failed e s exact
  intro copied
  simp only [after_ok, wp_bind]
  apply wp_fsLookup exact (short copied)
  swap
  · intro e s' exact' _
    exact failed e s' exact'
  intro o s' exact' same
  simp only [after_ok, wp_bind]
  apply wp_checkOr exact' _ failed
  rw [after_ok]
  split
  · simp only [wp_bind]
    apply wp_checkOr exact' _ failed
    rw [after_ok, wp_bind]
    apply wp_checkOr exact' _ failed
    exact wp_openTail exact' (same.tasks.runs runs)
  · exact wp_openTail exact' (same.tasks.runs runs)

theorem wp_sysClose (exact : Exact s [] []) (fd : Int) : wp (sysClose fd) Sound s := by
  apply wp_fsPutfd exact
  · intro s' exact' _ _
    exact ⟨nofun, exact'⟩
  · intro e _
    exact ⟨nofun, exact⟩

theorem Exact.sameFile {g : FsFile → FsFile} (exact : Exact s fl os) (lt : f < fsMaxfile)
    (refcnt : (g (s.file f)).refcnt = (s.file f).refcnt) (fso : (g (s.file f)).fso = (s.file f).fso) :
    Exact (setFile f g s) fl os := by
  apply exact.setLive lt _ fso _ (fun _ _ => rfl) exact.held
  · rw [refcnt]
  · rw [refcnt]
    exact exact.files f lt

theorem Exact.sameDesc (exact : Exact s fl os)
    (same : d.file = (s.desc t n).file) : Exact (setDesc t n d s) fl os := by
  have each : ∀ t' n', ((setDesc t n d s).desc t' n').file = (s.desc t' n').file := by
    intro t' n'
    rw [setDesc_file]
    split
    · rename_i eq
      rw [same, eq.1, eq.2]
    · rfl
  exact exact.congr rfl rfl rfl each exact.vacant exact.curr

theorem Exact.fileLive (exact : Exact s fl os) (task : t < taskMax) (slot : n < openMax)
    (points : (s.desc t n).file = some f) : (s.file f).refcnt ≠ 0 := by
  have files := exact.files f (exact.table t n f points).1
  have pos := refs_pos task slot points
  omega

theorem wp_dupfd {start : Int} (exact : Exact s [] []) (runs : Runs s) (lt : f < fsMaxfile) (live : (s.file f).refcnt ≠ 0)
    (inside : 0 ≤ start) : wp (dupfd f start) Sound s := by
  simp only [dupfd, wp_bind, wp_get, after_ok]
  rw [if_neg (by omega)]
  split
  · exact ⟨nofun, exact⟩
  rename_i n found
  have slot : n < openMax := List.mem_range.mp (List.mem_of_find?_eq_some found)
  have empty : (s.desc s.curr n).file = none := by
    have yes := List.find?_some found
    simp only [Bool.and_eq_true, decide_eq_true_eq] at yes
    exact yes.2
  simp only [wp_bind, wp_modify, after_ok, wp_pure]
  have files := exact.files f lt
  have held : Exact (setFile f (fun e => { e with refcnt := e.refcnt + 1 }) s) [f] [] := by
    apply exact.setLive lt _ rfl
    · show (s.file f).refcnt + 1 = _
      simp only [List.count_nil, List.count_cons_self] at files ⊢
      omega
    · intro f' ne
      rw [List.count_cons_of_ne (Ne.symm ne)]
    · intro f' mem
      rw [List.mem_singleton.mp mem]
      exact lt
    · constructor
      · intro _
        exact Nat.succ_ne_zero _
      · intro _
        exact live
  exact ⟨nofun, held.point exact.curr slot runs empty (d := { s.desc s.curr n with file := some f }) rfl⟩

/-- A call of `F_DUPFD` on an open descriptor does not start in front of the table. -/
def DupInside (s : Sys) (fd cmd arg : Int) (perm : Option Errno) : Prop :=
  cmd = fDupfd → perm = none → unsigned fd < openMax → (s.desc s.curr (unsigned fd)).file ≠ none → 0 ≤ toInt arg

theorem wp_sysFcntl {fd cmd arg : Int} {perm : Option Errno} (exact : Exact s [] []) (runs : Runs s)
    (inside : DupInside s fd cmd arg perm) : wp (sysFcntl fd cmd arg perm) Sound s := by
  simp only [sysFcntl, fsFdaccess, wp_bind, wp_get, after_ok]
  split
  · exact ⟨nofun, exact⟩
  rename_i past
  have slot : unsigned fd < openMax := Nat.lt_of_not_le past
  split
  · exact ⟨nofun, exact⟩
  rename_i f points
  have lt := (exact.table _ _ f points).1
  simp only [wp_bind]
  apply wp_check
  swap
  · intro e
    exact ⟨nofun, exact⟩
  intro access
  simp only [after_ok, wp_pure, wp_bind, wp_get]
  split
  · exact ⟨nofun, exact⟩
  split
  · simp only [wp_bind, wp_modify, after_ok, wp_pure]
    exact ⟨nofun, exact.sameDesc rfl⟩
  split
  · rename_i dup
    have start : 0 ≤ toInt arg := by
      apply inside dup access slot
      rw [points]
      exact nofun
    exact wp_dupfd exact runs lt (exact.fileLive exact.curr slot points) start
  split
  · exact ⟨nofun, exact⟩
  split
  · simp only [wp_bind, wp_modify, after_ok, wp_pure]
    exact ⟨nofun, exact.sameFile lt rfl rfl⟩
  · exact ⟨nofun, exact⟩

theorem Exact.swap {f' : Nat} (exact : Exact s [f, f'] os) : Exact s [f', f] os := by
  have perm : [f, f'].Perm [f', f] := List.Perm.swap _ _ _
  refine ⟨?_, exact.fsos, exact.table, ?_, exact.high, exact.vacant, exact.curr⟩
  · intro g lt
    rw [← perm.count_eq g]
    exact exact.files g lt
  · intro g mem
    exact exact.held g (perm.mem_iff.mpr mem)

theorem wp_closing {Q : Res Errno (Except Errno Unit) → Sys → Prop} (exact : Exact s fl os) (lt : n < openMax)
    (post : ∀ r s', Exact s' fl os → SameTasks s s' → (∀ t' n', (s'.desc t' n').file =
      if t' = s.curr ∧ n' = n then none else (s.desc t' n').file) → Q (.ok r) s') :
    wp (attempt (fsPutfd n)) Q s := by
  rw [wp_attempt]
  apply wp_fsPutfd exact
  · intro s' exact' same desc
    exact post _ s' exact' same desc
  · intro e closed
    refine post _ s exact (SameTasks.refl s) ?_
    intro t' n'
    split
    · rename_i here
      rw [here.1, here.2]
      exact closed.resolve_left (Nat.not_le_of_lt lt)
    · rfl

theorem wp_sysPipe {copied : Option Errno} (exact : Exact s [] []) (runs : Runs s) :
    wp (sysPipe v copied) Sound s := by
  have failed : ∀ e s', Exact s' [] [] → Sound (.err e : Res Errno Unit) s' := fun e s' exact' => ⟨nofun, exact'⟩
  simp only [sysPipe, wp_bind]
  apply wp_fsGetfso exact
  swap
  · intro e s' exact' _
    exact failed e s' exact'
  intro o s₁ exact₁ same₁
  simp only [after_ok, wp_bind, wp_modify]
  have both : Exact (setFso o (fun f => { f with refcnt := f.refcnt + 1 }) s₁) [] [o, o] :=
    exact₁.take (exact₁.inside (exact₁.live List.mem_cons_self)) rfl
  rw [wp_onError]
  apply wp_fsGetfile both
  swap
  · intro e
    simp only [recovered_err, wp_bind]
    apply wp_fsPutfso both
    intro s₂ exact₂ _
    rw [after_ok]
    apply wp_fsPutfso exact₂
    intro s₃ exact₃ _
    exact failed e s₃ exact₃
  intro f₀ s₂ exact₂ same₂
  simp only [recovered_ok, after_ok, wp_bind, wp_onError]
  apply wp_fsGetfile exact₂
  swap
  · intro e
    simp only [recovered_err, wp_bind]
    apply wp_fsPutfile exact₂
    intro s₃ exact₃ _
    rw [after_ok]
    apply wp_fsPutfso exact₃
    intro s₄ exact₄ _
    exact failed e s₄ exact₄
  intro f₁ s₃ exact₃ same₃
  have runs₃ : Runs s₃ := same₃.tasks.runs (same₂.tasks.runs ((frame_setFso _ _ _).tasks.runs (same₁.tasks.runs runs)))
  simp only [recovered_ok, after_ok, wp_bind, wp_onError]
  apply wp_fsGetfd exact₃.swap runs₃
  swap
  · intro e
    simp only [recovered_err, wp_bind]
    apply wp_fsPutfile exact₃.swap
    intro s₄ exact₄ _
    rw [after_ok]
    apply wp_fsPutfile exact₄
    intro s₅ exact₅ _
    exact failed e s₅ exact₅
  intro fd₀ s₄ lt₀ exact₄ same₄ _
  simp only [recovered_ok, after_ok, wp_bind, wp_onError]
  apply wp_fsGetfd exact₄ (same₄.runs runs₃)
  swap
  · intro e
    simp only [recovered_err, wp_bind]
    apply wp_closing exact₄ lt₀
    intro r s₅ exact₅ _ _
    rw [after_ok]
    apply wp_fsPutfile exact₅
    intro s₆ exact₆ _
    exact failed e s₆ exact₆
  intro fd₁ s₅ lt₁ exact₅ _ _
  simp only [recovered_ok, after_ok, wp_onError]
  apply wp_check
  · intro _
    exact ⟨nofun, exact₅⟩
  · intro e
    simp only [recovered_err, wp_bind]
    apply wp_closing exact₅ lt₀
    intro r s₆ exact₆ _ _
    simp only [after_ok, wp_bind]
    apply wp_closing exact₆ lt₁
    intro r' s₇ exact₇ _ _
    exact failed e s₇ exact₇

theorem wp_forEach_exact {ι : Type} {is : List ι} {g : ι → FdM Unit}
    (exact : Exact s fl os) (done : ∀ s', Exact s' fl os → Q (.ok ()) s')
    (step : ∀ i s', Exact s' fl os → wp (g i) (fun r s'' => r = .ok () ∧ Exact s'' fl os) s') :
    wp (forEach is g) Q s := by
  apply wp_forEach (fun _ s' => Exact s' fl os) exact done
  intro i rest s' exact'
  apply wp_mono (step i s' exact')
  rintro r s'' ⟨rfl, exact''⟩
  exact exact''

theorem wp_fsRevoke {path : Lookup} {perm : Option Errno} (exact : Exact s [] []) (short : path.Short) :
    wp (fsRevoke path perm) Sound s := by
  have failed : ∀ e s', Exact s' [] [] → Sound (.err e : Res Errno Unit) s' := fun e s' exact' => ⟨nofun, exact'⟩
  simp only [fsRevoke, wp_bind]
  apply wp_fsLookup exact short
  swap
  · intro e s' exact' _
    exact failed e s' exact'
  intro o s' exact' _
  simp only [after_ok, wp_bind]
  apply wp_checkOr exact'
  swap
  · intro e s'' exact''
    exact failed e s'' exact''
  simp only [after_ok, wp_bind]
  apply wp_forEach_exact exact'
  · intro s'' exact''
    rw [after_ok]
    apply wp_fsPutfso exact''
    intro s₃ exact₃ _
    exact ⟨nofun, exact₃⟩
  intro t s₁ exact₁
  apply wp_forEach_exact exact₁
  · intro s₂ exact₂
    exact ⟨rfl, exact₂⟩
  intro n s₂ exact₂
  simp only [wp_bind, wp_get, after_ok]
  split
  · split
    · exact ⟨rfl, exact₂⟩
    · rename_i f points
      split
      · rw [wp_modify]
        exact ⟨rfl, exact₂.sameFile (exact₂.table t n f points).1 rfl rfl⟩
      · exact ⟨rfl, exact₂⟩
  · exact ⟨rfl, exact₂⟩

theorem rowRefs_empty (empty : ∀ n, (row n).file = none) (f : Nat) : rowRefs row f = 0 := by
  apply tally_eq_zero.mpr
  intro n _
  rw [empty n]
  rfl

variable {mem : Option Errno}

theorem wp_taskGetslot {Q : Res Errno Nat → Sys → Prop} (exact : Exact s fl os)
    (ok : ∀ t s', t < taskMax → Exact s' fl os → s'.used t = true ∧ s'.exited t = false →
      (∀ n, (s'.desc t n).file = none) → Q (.ok t) s') (err : ∀ e, Q (.err e) s) : wp (taskGetslot mem) Q s := by
  simp only [taskGetslot, wp_bind, wp_get, after_ok]
  split
  · exact err _
  rename_i t found
  have lt : t < taskMax := List.mem_range.mp (List.mem_of_find?_eq_some found)
  have free : s.used t = false := by simpa using List.find?_some found
  have empty := exact.vacant t (.inl free)
  simp only [wp_bind]
  apply wp_check
  swap
  · intro e
    exact err e
  intro _
  simp only [after_ok, wp_bind, wp_modify, wp_pure]
  have each : ∀ t' n, ((update s.desc t fun _ => FsDesc.null) t' n).file = (s.desc t' n).file := by
    intro t' n
    by_cases eq : t' = t
    · subst eq
      rw [update_self, empty n]
      rfl
    · rw [update_of_ne eq]
  refine ok t _ lt ?_ ?_ ?_
  · refine exact.congr rfl rfl rfl each ?_ exact.curr
    intro t' gone n
    by_cases eq : t' = t
    · rw [eq]
      exact empty n
    · simp only [update_of_ne eq] at gone
      exact exact.vacant t' gone n
  · simp
  · intro n
    rw [each]
    exact empty n

theorem wp_newtaskLoop (done : ∀ s', (∀ f, s'.file f = { s.file f with refcnt := (s.file f).refcnt + rowRefs (s.desc p) f }) →
      s' = { s with file := s'.file } → Q (.ok ()) s') :
    wp (forEach (List.range openMax) fun n => do
      let s ← Cmd.get
      match (s.desc p n).file with
      | none => pure ()
      | some f => Cmd.modify (setFile f fun e => { e with refcnt := e.refcnt + 1 })) Q s := by
  -- what the rest of the loop adds is what is still missing
  apply wp_forEach (fun rest s' => s' = { s with file := s'.file } ∧ ∀ f, ∃ k,
    s'.file f = { s.file f with refcnt := (s.file f).refcnt + k } ∧
    k + rest.countP (fun n => (s.desc p n).file = some f) = rowRefs (s.desc p) f)
  · refine ⟨rfl, fun f => ⟨0, rfl, ?_⟩⟩
    rw [rowRefs, tally_eq_countP, zero_add]
  · rintro s' ⟨frame, counts⟩
    apply done s' _ frame
    intro f
    obtain ⟨k, file, total⟩ := counts f
    rw [file]
    simp only [List.countP_nil, add_zero] at total
    rw [total]
  · rintro n rest s' ⟨frame, counts⟩
    have desc : s'.desc = s.desc := by rw [frame]
    simp only [wp_bind, wp_get, after_ok]
    split
    · rename_i none
      rw [desc] at none
      refine ⟨frame, fun f => ?_⟩
      obtain ⟨k, file, total⟩ := counts f
      refine ⟨k, file, ?_⟩
      rw [List.countP_cons] at total
      simpa [none] using total
    · rename_i f points
      rw [desc] at points
      rw [wp_modify]
      refine ⟨?_, fun f' => ?_⟩
      · rw [frame]
        rfl
      · obtain ⟨k, file, total⟩ := counts f'
        rw [List.countP_cons] at total
        by_cases eq : f' = f
        · subst eq
          refine ⟨k + 1, ?_, ?_⟩
          · simp [setFile, file, add_assoc]
          · simp only [points, decide_true, if_true] at total
            omega
        · refine ⟨k, ?_, ?_⟩
          · simp [setFile, update_of_ne eq, file]
          · simpa [points, Ne.symm eq] using total

theorem users_file (same : ∀ f, f < fsMaxfile → (s'.file f).fso = (s.file f).fso ∧
    ((s'.file f).refcnt = 0 ↔ (s.file f).refcnt = 0)) (o : Nat) : users s' o = users s o := by
  apply tally_congr
  intro f lt
  simp [(same f lt).1, (same f lt).2]

section
variable (exact : Exact s [] [])
include exact

theorem wp_fsNewtask (lt : p < taskMax)
    (alive : s.used p = true ∧ s.exited p = false) (empty : ∀ n, (s.desc p n).file = none) :
    wp (fsNewtask p) Sound s := by
  simp only [fsNewtask, wp_bind, wp_modify, after_ok]
  apply wp_newtaskLoop
  intro s' file frame
  simp only [update_self] at file
  have desc : s'.desc = update s.desc p (s.desc s.curr) := by rw [frame]
  refine ⟨nofun, ?_, ?_, ?_, exact.held, ?_, ?_, ?_⟩
  · intro f lt'
    have row := refs_row lt desc f
    have files := exact.files f lt'
    rw [rowRefs_empty empty] at row
    rw [file]
    show (s.file f).refcnt + rowRefs (s.desc s.curr) f = _
    omega
  · intro o
    have same : users s' o = users s o := by
      apply users_file
      intro f lt'
      rw [file]
      refine ⟨rfl, ?_⟩
      show (s.file f).refcnt + rowRefs (s.desc s.curr) f = 0 ↔ _
      constructor
      · intro zero
        omega
      · intro zero
        -- a free file is in no descriptor of the current task
        have none : rowRefs (s.desc s.curr) f = 0 := by
          apply tally_eq_zero.mpr
          intro n slot
          apply decide_eq_false
          intro points
          exact exact.fileLive exact.curr slot points zero
        rw [zero, none]
    have fso : s'.fso = s.fso := by rw [frame]
    rw [fso, same]
    exact exact.fsos o
  · intro t n f at_slot
    rw [desc] at at_slot
    by_cases eq : t = p
    · rw [eq, update_self] at at_slot
      exact exact.table _ n f at_slot
    · rw [update_of_ne eq] at at_slot
      exact exact.table t n f at_slot
  · intro o past
    rw [frame] at past ⊢
    exact exact.high o past
  · intro t gone n
    have used : s'.used = s.used := by rw [frame]
    have exited : s'.exited = s.exited := by rw [frame]
    rw [used, exited] at gone
    have ne : t ≠ p := by
      rintro rfl
      rw [alive.1, alive.2] at gone
      simp at gone
    rw [desc, update_of_ne ne]
    exact exact.vacant t gone n
  · rw [frame]
    exact exact.curr

theorem wp_doFork {pages : Option Errno} : wp (doFork mem pages) Sound s := by
  simp only [doFork, wp_bind]
  apply wp_taskGetslot exact
  · intro t s' lt exact' alive empty
    simp only [after_ok, wp_bind]
    apply wp_mono (wp_fsNewtask exact' lt alive empty)
    intro r s'' post
    cases r with
    | ok a =>
      rw [after_ok]
      apply wp_check
      · intro _
        exact ⟨nofun, post.2⟩
      · intro e
        exact ⟨nofun, post.2⟩
    | err e => exact post
    | crash => exact post
  · intro e
    exact ⟨nofun, exact⟩

theorem wp_taskCreat {name pgdir : Option Errno} : wp (taskCreat name mem pgdir) Sound s := by
  simp only [taskCreat, wp_bind]
  apply wp_check
  swap
  · intro e
    exact ⟨nofun, exact⟩
  intro _
  simp only [after_ok, wp_bind]
  apply wp_taskGetslot exact
  swap
  · intro e
    exact ⟨nofun, exact⟩
  intro t s' lt exact' alive empty
  simp only [after_ok, wp_bind, wp_onError]
  apply wp_check
  · intro _
    exact wp_fsNewtask exact' lt alive empty
  · intro e
    simp only [recovered_err, wp_modify, after_ok, wp_fail, after_err]
    refine ⟨nofun, exact'.congr rfl rfl rfl (fun _ _ => rfl) ?_ exact'.curr⟩
    intro t' gone n
    by_cases eq : t' = t
    · rw [eq]
      exact empty n
    · simp only [update_of_ne eq] at gone
      exact exact'.vacant t' gone n

theorem wp_doExec {a : ExecAnswers} (runs : Runs s) (short : a.load = none → a.path.Short) :
    wp (doExec a) Sound s := by
  have failed : ∀ e s', Exact s' [] [] → Sound (.err e : Res Errno Unit) s' := fun e s' exact' => ⟨nofun, exact'⟩
  simp only [doExec, wp_bind]
  apply wp_forEach (fun rest s' => (∀ n ∈ rest, n < openMax) ∧ Exact s' [] [] ∧ SameTasks s s')
  · exact ⟨fun n mem => List.mem_range.mp mem, exact, SameTasks.refl s⟩
  · rintro s₁ ⟨-, exact₁, same₁⟩
    simp only [after_ok, wp_bind]
    apply wp_check
    swap
    · intro e
      exact failed e s₁ exact₁
    intro loaded
    simp only [after_ok, wp_bind]
    apply wp_fsLookup exact₁ (short loaded)
    swap
    · intro e s₂ exact₂ _
      exact failed e s₂ exact₂
    intro o s₂ exact₂ same₂
    simp only [after_ok, wp_bind]
    apply wp_checkOr exact₂
    swap
    · intro e s₃ exact₃
      exact failed e s₃ exact₃
    simp only [after_ok, wp_bind]
    apply wp_checkOr exact₂
    swap
    · intro e s₃ exact₃
      exact failed e s₃ exact₃
    simp only [after_ok]
    have opened := wp_ignore (wp_openTail (m := oRdonly) exact₂ (same₂.tasks.runs (same₁.runs runs)))
    rw [wp_bind, wp_bind] at opened
    rw [wp_bind]
    apply wp_mono opened
    intro r s₃ post
    cases r with
    | ok f =>
      rw [after_ok, wp_bind]
      exact post
    | err e => exact post
    | crash => exact post
  · rintro n rest s₁ ⟨inside, exact₁, same₁⟩
    have later : ∀ n ∈ rest, n < openMax := fun n mem => inside n (List.mem_cons_of_mem _ mem)
    simp only [wp_bind, wp_get, after_ok]
    split
    · simp only [wp_bind]
      apply wp_closing exact₁ (inside n List.mem_cons_self)
      intro r s₂ exact₂ same₂ _
      exact ⟨later, exact₂, same₁.trans same₂⟩
    · exact ⟨later, exact₁, same₁⟩

theorem wp_fsClean
    (done : ∀ s', Exact s' [] [] → SameTasks s s' → (∀ n, (s'.desc s.curr n).file = none) → Q (.ok ()) s') :
    wp fsClean Q s := by
  apply wp_forEach (fun rest s' => (∀ n ∈ rest, n < openMax) ∧ Exact s' [] [] ∧ SameTasks s s' ∧
    ∀ n, n ∉ rest → (s'.desc s.curr n).file = none)
  · refine ⟨fun n mem => List.mem_range.mp mem, exact, SameTasks.refl s, ?_⟩
    intro n out
    by_contra points
    obtain ⟨f, points⟩ := ne_none_iff_exists'.mp points
    exact out (List.mem_range.mpr (exact.table _ n f points).2)
  · rintro s' ⟨-, exact', same, empty⟩
    exact done s' exact' same (fun n => empty n List.not_mem_nil)
  · rintro n rest s₁ ⟨inside, exact₁, same₁, empty⟩
    have lt := inside n List.mem_cons_self
    have later : ∀ n ∈ rest, n < openMax := fun n mem => inside n (List.mem_cons_of_mem _ mem)
    have others : ∀ n', n' ≠ n → n' ∉ rest → (s₁.desc s.curr n').file = none := by
      intro n' ne out
      apply empty n'
      intro mem
      rcases List.mem_cons.mp mem with eq | mem
      · exact ne eq
      · exact out mem
    simp only [wp_bind, wp_get, after_ok]
    split
    · simp only [wp_bind]
      apply wp_closing exact₁ lt
      intro r s₂ exact₂ same₂ desc
      simp only [after_ok, wp_pure]
      refine ⟨later, exact₂, same₁.trans same₂, ?_⟩
      intro n' out
      rw [desc, same₁.curr]
      split
      · rfl
      · rename_i other
        exact others n' (fun eq => other ⟨rfl, eq⟩) out
    · rename_i closed
      rw [same₁.curr] at closed
      rw [wp_pure]
      refine ⟨later, exact₁, same₁, ?_⟩
      intro n' out
      by_cases eq : n' = n
      · rw [eq]
        simpa using closed
      · exact others n' eq out

theorem wp_taskExit : wp taskExit Sound s := by
  simp only [taskExit, wp_bind]
  apply wp_fsClean exact
  intro s' exact' same empty
  simp only [after_ok, wp_modify]
  refine ⟨nofun, exact'.congr rfl rfl rfl (fun _ _ => rfl) ?_ exact'.curr⟩
  intro t gone n
  by_cases eq : t = s'.curr
  · rw [eq, same.curr]
    exact empty n
  · simp only [update_of_ne eq] at gone
    exact exact'.vacant t gone n

/-- The calls that keep to the tables: `F_DUPFD` does not start in front of the table, and no lookup comes
    to a component too long for its file system. -/
def Fits (s : Sys) : Call → Prop
  | .open a _ => a.usa = none → a.path.Short
  | .fcntl fd cmd arg perm => DupInside s fd cmd arg perm
  | .revoke path _ => path.Short
  | .exec a => a.load = none → a.path.Short
  | _ => True

theorem wp_call {c : Call} (runs : Runs s) (fit : Fits s c) : wp c.run Sound s := by
  cases c with
  | «open» a mode => exact wp_ignore (wp_sysOpen exact runs fit)
  | close fd => exact wp_sysClose exact fd
  | fcntl fd cmd arg perm => exact wp_ignore (wp_sysFcntl exact runs fit)
  | pipe v copied => exact wp_sysPipe exact runs
  | revoke path perm => exact wp_fsRevoke exact fit
  | fork mem pages => exact wp_doFork exact
  | creat name mem pgdir => exact wp_taskCreat exact
  | exec a => exact wp_doExec exact runs fit
  | exit => exact wp_taskExit exact

end

theorem exact_start : Exact start [] [] := by
  refine ⟨?_, ?_, nofun, nofun, fun _ _ => rfl, fun _ _ _ => rfl, by decide⟩
  · intro f _
    have none : refs start f = 0 := by
      apply sum_eq_zero
      intro t _
      exact rowRefs_empty (fun _ => rfl) f
    rw [none]
    rfl
  · intro o
    have none : users start o = 0 := by
      apply tally_eq_zero.mpr
      intro f _
      rfl
    rw [none]
    rfl

theorem exact_step (exact : Exact s [] []) (step : Step Fits s s') : Exact s' [] [] := by
  cases step with
  | call c runs fit => exact (wp_call exact runs fit).2
  | sched t lt runs => exact exact.congr rfl rfl rfl (fun _ _ => rfl) exact.vacant lt
  | putslot t ended =>
    refine exact.congr rfl rfl rfl (fun _ _ => rfl) ?_ exact.curr
    intro t' gone n
    by_cases eq : t' = t
    · rw [eq]
      exact exact.vacant t (.inr ended) n
    · simp only [update_of_ne eq] at gone
      exact exact.vacant t' gone n

theorem exact_reached (reached : Reached Fits s) : Exact s [] [] := by
  induction reached with
  | start => exact exact_start
  | next before step ih => exact exact_step ih step

theorem fsGetfile_free : wp (fsGetfile o m) (fun r _ => ∀ f, r = .ok f → (s.file f).refcnt = 0) s := by
  simp only [fsGetfile, wp_bind, wp_get, after_ok]
  split
  · exact nofun
  rename_i f found
  rintro _ ⟨⟩
  simpa using List.find?_some found

theorem fsGetfso_free (exact : Exact s fl os) : wp (fsGetfso v) (fun r s' => ∀ o, r = .ok o →
    (s.fso o).refcnt = 0 ∨ isOpen v (s.fso o) = true ∧ (s'.fso o).refcnt = (s.fso o).refcnt + 1) s := by
  simp only [fsGetfso, wp_bind, wp_get, after_ok]
  split
  · rename_i o found
    simp only [wp_bind, wp_modify, after_ok, wp_pure]
    rintro _ ⟨⟩
    refine .inr ⟨by simpa using List.find?_some found, ?_⟩
    simp [setFso]
  · rw [wp_bind]
    apply wp_fsoSlot exact
    · intro o s' _ _ free _ same
      simp only [after_ok, wp_bind, wp_modify, wp_onError]
      apply wp_check
      · rintro _ _ ⟨⟩
        rw [← same]
        exact .inl free
      · intro e
        exact nofun
    · intro e
      exact nofun

/-- Counts are exact, calls stay inside the tables and do not crash, and nothing in use is handed out again. -/
structure Counted (s : Sys) : Prop where
  files : ∀ f, f < fsMaxfile → (s.file f).refcnt = refs s f
  fsos : ∀ o, (s.fso o).refcnt = users s o
  file_free : ∀ o mode f s', fsGetfile o mode s = (.ok f, s') → (s.file f).refcnt = 0
  fso_free : ∀ v o s', fsGetfso v s = (.ok o, s') → (s.fso o).refcnt = 0 ∨
    isOpen v (s.fso o) = true ∧ (s'.fso o).refcnt = (s.fso o).refcnt + 1

theorem Exact.counted (exact : Exact s [] []) : Counted s := by
  refine ⟨?_, ?_, ?_, ?_⟩
  · intro f lt
    have files := exact.files f lt
    rwa [List.count_nil, add_zero] at files
  · intro o
    have fsos := exact.fsos o
    rwa [List.count_nil, add_zero] at fsos
  · intro o mode f s' got
    have free := fsGetfile_free (s := s) (o := o) (m := mode)
    rw [wp, got] at free
    exact free f rfl
  · intro v o s' got
    have free := fsGetfso_free (v := v) exact
    rw [wp, got] at free
    exact free o rfl

/-- In every run of calls that fit, the counts are exact in every state, and no call leaves the tables. -/
theorem refs_exact (reached : Reached Fits s) :
    Counted s ∧ ∀ c, Runs s → Fits s c → (c.run s).1 ≠ .crash := by
  have exact := exact_reached reached
  exact ⟨exact.counted, fun c runs fit => (wp_call exact runs fit).1⟩

def direct : Lookup := ⟨[], .object ⟨1, 7, none, none⟩⟩

def opening : Call := .open ⟨none, direct, none, none, none⟩ oRdonly

def opened : Sys := (opening.run start).2

theorem reached_opened : Reached Fits opened := by
  refine .next .start (.call opening ⟨rfl, rfl⟩ ?_)
  intro _
  exact nofun

theorem refs_exact_opened : Reached Fits opened ∧ (opened.file 0).refcnt = 1 ∧ Counted opened :=
  ⟨reached_opened, rfl, (refs_exact reached_opened).1⟩

/-- `fcntl(0, F_DUPFD, -1)` looks at a descriptor in front of the table. -/
theorem refs_not_exact_dupfd : Reached (fun _ _ => True) opened ∧ Runs opened ∧
    ((Call.fcntl 0 fDupfd (-1) none).run opened).1 = .crash := by
  refine ⟨.next .start (.call opening ⟨rfl, rfl⟩ trivial), ⟨rfl, rfl⟩, rfl⟩

end Fdesc
