import Newsys.Kern.Refs

/- The reader and writer counts of objects, over any order of fs_getfile, fs_putfile and fs_revoke. The
   descriptors may change in any way in between; `os` lists the references to objects that callers hold. -/
namespace Fdesc
open Cmds Cmd Kern Tally List

/-- The files in use of an object whose mode at `fs_getfile` satisfies `P`. -/
def opens (P : Mode → Bool) (s : Sys) (o : Nat) : Nat :=
  tally fsMaxfile (fun e => e.refcnt ≠ 0 && e.fso = o && P e.opened) s.file

structure CountsKept (s : Sys) (os : List Nat) : Prop where
  fsos : ∀ o, (s.fso o).refcnt = opens (fun _ => true) s o + os.count o
  readers : ∀ o, (s.fso o).readerCount = opens reads s o
  writers : ∀ o, (s.fso o).writerCount = opens writes s o
  high : ∀ o, s.fsoHigh ≤ o → (s.fso o).refcnt = 0 ∧ (s.fso o).readerCount = 0 ∧ (s.fso o).writerCount = 0
  table : ∀ t n f, (s.desc t n).file = some f → f < fsMaxfile

variable {s s' : Sys} {os : List Nat} {o f n t : Nat} {P : Mode → Bool}

theorem opens_setFile (lt : f < fsMaxfile) (g : FsFile → FsFile) (o : Nat) :
    opens P (setFile f g s) o + (if (s.file f).refcnt ≠ 0 ∧ (s.file f).fso = o ∧ P (s.file f).opened then 1 else 0) =
      opens P s o +
        if (g (s.file f)).refcnt ≠ 0 ∧ (g (s.file f)).fso = o ∧ P (g (s.file f)).opened then 1 else 0 := by
  have change := tally_update (P := fun e : FsFile => e.refcnt ≠ 0 && e.fso = o && P e.opened) (g := s.file) lt
    (g (s.file f))
  simpa [opens, setFile, and_assoc] using change

@[simp] theorem opens_setFso (g : Fso → Fso) (o o' : Nat) : opens P (setFso o g s) o' = opens P s o' := rfl

@[simp] theorem setFile_fso (g : FsFile → FsFile) (f : Nat) : (setFile f g s).fso = s.fso := rfl

theorem opens_none (none : opens (fun _ => true) s o = 0) : opens P s o = 0 := by
  rw [opens, tally_eq_zero] at none ⊢
  intro f lt
  have here := none f lt
  simp only [Bool.and_true] at here
  rw [here, Bool.false_and]

variable {os' : List Nat}

theorem CountsKept.change {g : Fso → Fso} (kept : CountsKept s os) (inside : o < s.fsoHigh)
    (refcnt : (g (s.fso o)).refcnt = opens (fun _ => true) s o + os'.count o)
    (readers : (g (s.fso o)).readerCount = opens reads s o) (writers : (g (s.fso o)).writerCount = opens writes s o)
    (rest : ∀ o', o' ≠ o → os'.count o' = os.count o') : CountsKept (setFso o g s) os' := by
  have here : (setFso o g s).fso o = g (s.fso o) := by simp [setFso]
  have other : ∀ o', o' ≠ o → (setFso o g s).fso o' = s.fso o' := by
    intro o' ne
    simp [setFso, Function.update_of_ne ne]
  refine ⟨?_, ?_, ?_, ?_, kept.table⟩
  · intro o'
    by_cases eq : o' = o
    · rw [eq, here]
      exact refcnt
    · rw [other o' eq, rest o' eq]
      exact kept.fsos o'
  · intro o'
    by_cases eq : o' = o
    · rw [eq, here]
      exact readers
    · rw [other o' eq]
      exact kept.readers o'
  · intro o'
    by_cases eq : o' = o
    · rw [eq, here]
      exact writers
    · rw [other o' eq]
      exact kept.writers o'
  · intro o' past
    have high : s.fsoHigh ≤ o' := past
    rw [other o' (by omega)]
    exact kept.high o' past

theorem CountsKept.inside (kept : CountsKept s os) (live : (s.fso o).refcnt ≠ 0) : o < s.fsoHigh := by
  by_contra past
  exact live (kept.high o (Nat.le_of_not_lt past)).1

theorem CountsKept.live (kept : CountsKept s os) (mem : o ∈ os) : (s.fso o).refcnt ≠ 0 := by
  have fsos := kept.fsos o
  have pos := count_pos_iff.mpr mem
  omega

theorem CountsKept.refer {g : Fso → Fso} (kept : CountsKept s os) (inside : o < s.fsoHigh)
    (refcnt : (g (s.fso o)).refcnt = opens (fun _ => true) s o + os'.count o)
    (readers : (g (s.fso o)).readerCount = (s.fso o).readerCount)
    (writers : (g (s.fso o)).writerCount = (s.fso o).writerCount)
    (rest : ∀ o', o' ≠ o → os'.count o' = os.count o') : CountsKept (setFso o g s) os' := by
  apply kept.change inside refcnt _ _ rest
  · rw [readers]
    exact kept.readers o
  · rw [writers]
    exact kept.writers o

variable {Q : Res Errno Nat → Sys → Prop}

theorem wp_getfso_counts (kept : CountsKept s os)
    (ok : ∀ o s', CountsKept s' (o :: os) → Q (.ok o) s') (err : ∀ e s', CountsKept s' os → Q (.err e) s') :
    wp (fsGetfso v) Q s := by
  have apart : ∀ o o', o' ≠ o → (o :: os).count o' = os.count o' := by
    intro o o' ne
    rw [count_cons_of_ne (Ne.symm ne)]
  -- a free entry has no files, so that its counts start from zero
  have fresh : ∀ o s', CountsKept s' os → o < s'.fsoHigh → (s'.fso o).refcnt = 0 →
      wp (do
        modify (setFso o fun _ => ⟨1, v.fs, v.index, 0, 0⟩)
        onError (check v.get) (modify (setFso o fun f => { f with refcnt := 0 }))
        pure o) Q s' := by
    intro o s' kept' inside free
    have fsos := kept'.fsos o
    have none : opens (fun _ => true) s' o = 0 := by omega
    have zero : ∀ P, opens P s' o = 0 := fun P => opens_none none
    have taken : CountsKept (setFso o (fun _ => ⟨1, v.fs, v.index, 0, 0⟩) s') (o :: os) := by
      apply kept'.change inside _ _ _ (apart o)
      · rw [none, count_cons_self]
        show 1 = _
        omega
      · rw [zero]
        rfl
      · rw [zero]
        rfl
    simp only [wp_bind, wp_modify, after_ok, wp_onError]
    apply wp_check
    · intro _
      exact ok o _ taken
    · intro e
      simp only [recovered_err, wp_modify, after_ok, wp_fail, after_err]
      apply err
      apply taken.refer inside _ rfl rfl (fun o' ne => (apart o o' ne).symm)
      show 0 = opens (fun _ => true) s' o + os.count o
      omega
  simp only [fsGetfso, wp_bind, wp_get, after_ok]
  split
  · rename_i o found
    simp only [wp_bind, wp_modify, after_ok, wp_pure]
    apply ok
    apply kept.refer (mem_range.mp (mem_of_find?_eq_some found)) _ rfl rfl (apart o)
    have fsos := kept.fsos o
    rw [count_cons_self]
    show (s.fso o).refcnt + 1 = _
    omega
  · simp only [fsoSlot, wp_bind, wp_get, after_ok]
    split
    · rename_i o found
      have mem := mem_of_find?_eq_some found
      simp only [mem_reverse, mem_range] at mem
      have start := fresh o s kept mem (by simpa using find?_some found)
      simpa only [wp_bind, wp_pure, after_ok] using start
    · split
      · exact err _ s kept
      · simp only [wp_bind]
        apply wp_check
        · intro _
          simp only [after_ok, wp_bind, wp_modify, wp_pure]
          have more : CountsKept { s with fsoHigh := s.fsoHigh + 1 } os := by
            refine ⟨kept.fsos, kept.readers, kept.writers, ?_, kept.table⟩
            intro o past
            exact kept.high o (Nat.le_of_succ_le past)
          have start := fresh s.fsoHigh _ more (Nat.lt_succ_self _) (kept.high _ (le_refl _)).1
          simpa only [wp_bind, wp_modify, after_ok, wp_pure] using start
        · intro e
          exact err e s kept

theorem wp_putfso_counts {Q : Res Errno Unit → Sys → Prop} (kept : CountsKept s (o :: os))
    (ok : ∀ s', CountsKept s' os → Q (.ok ()) s') : wp (fsPutfso o) Q s := by
  have live := kept.live mem_cons_self
  have fsos := kept.fsos o
  rw [count_cons_self] at fsos
  simp only [fsPutfso, wp_bind, wp_get, after_ok, live, if_false, wp_modify]
  apply ok
  apply kept.refer (kept.inside live) _ rfl rfl
  · intro o' ne
    rw [count_cons_of_ne (Ne.symm ne)]
  · show (s.fso o).refcnt - 1 = _
    omega

theorem wp_lookup_counts (kept : CountsKept s os) (short : path.Short)
    (ok : ∀ o s', CountsKept s' (o :: os) → Q (.ok o) s') (err : ∀ e s', CountsKept s' os → Q (.err e) s') :
    wp (fsLookup path) Q s := by
  simp only [fsLookup, wp_bind]
  apply wp_forEach (fun _ s' => CountsKept s' os) kept
  · intro s' kept'
    simp only [after_ok]
    split
    · exact err _ s' kept'
    · exact wp_getfso_counts kept' ok err
    · rename_i long
      exact absurd long short
  · intro v rest s' kept'
    simp only [wp_bind]
    apply wp_getfso_counts kept'
    · intro o s'' kept''
      simp only [after_ok]
      apply wp_putfso_counts kept''
      intro s₃ kept₃
      exact kept₃
    · exact err

theorem CountsKept.sameFile (kept : CountsKept s os) (lt : f < fsMaxfile)
    (live : (g (s.file f)).refcnt ≠ 0 ↔ (s.file f).refcnt ≠ 0) (fso : (g (s.file f)).fso = (s.file f).fso)
    (opened : (g (s.file f)).opened = (s.file f).opened) : CountsKept (setFile f g s) os := by
  have same : ∀ P o, opens P (setFile f g s) o = opens P s o := by
    intro P o
    have change := opens_setFile (P := P) (s := s) lt g o
    simp only [live, fso, opened] at change
    omega
  refine ⟨?_, ?_, ?_, kept.high, kept.table⟩
  · intro o
    rw [same]
    exact kept.fsos o
  · intro o
    rw [same]
    exact kept.readers o
  · intro o
    rw [same]
    exact kept.writers o

theorem wp_getfile_counts (kept : CountsKept s (o :: os))
    (ok : ∀ f s', CountsKept s' os → Q (.ok f) s') (err : ∀ e, Q (.err e) s) : wp (fsGetfile o omode) Q s := by
  simp only [fsGetfile, wp_bind, wp_get, after_ok]
  split
  · exact err _
  rename_i f found
  have lt : f < fsMaxfile := mem_range.mp (mem_of_find?_eq_some found)
  have free : (s.file f).refcnt = 0 := by simpa using find?_some found
  have live := kept.live mem_cons_self
  have more : ∀ P o', opens P (setFile f (fun _ => ⟨1, o, omode, omode⟩) s) o' =
      opens P s o' + if o = o' ∧ P omode then 1 else 0 := by
    intro P o'
    have change := opens_setFile (P := P) (s := s) lt (fun _ => ⟨1, o, omode, omode⟩) o'
    simpa [free] using change
  have fso : ∀ o', ((setFso o (count omode 1) (setFile f (fun _ => ⟨1, o, omode, omode⟩) s)).fso o') =
      if o' = o then count omode 1 (s.fso o) else s.fso o' := by
    intro o'
    by_cases eq : o' = o
    · subst eq
      simp [setFso, setFile]
    · simp [setFso, setFile, eq]
  simp only [wp_bind, wp_modify, after_ok, wp_pure]
  apply ok
  refine ⟨?_, ?_, ?_, ?_, kept.table⟩
  · intro o'
    have fsos := kept.fsos o'
    rw [fso, opens_setFso, more]
    by_cases eq : o' = o
    · subst eq
      rw [count_cons_self] at fsos
      simp only [if_true, count, and_self]
      omega
    · rw [count_cons_of_ne (Ne.symm eq)] at fsos
      simpa [eq, Ne.symm eq] using fsos
  · intro o'
    have readers := kept.readers o'
    rw [fso, opens_setFso, more]
    by_cases eq : o' = o
    · subst eq
      simp only [if_true, count, true_and, readers]
      split <;> rfl
    · rw [if_neg eq, if_neg fun same => eq same.1.symm, add_zero]
      exact readers
  · intro o'
    have writers := kept.writers o'
    rw [fso, opens_setFso, more]
    by_cases eq : o' = o
    · subst eq
      simp only [if_true, count, true_and, writers]
      split <;> rfl
    · rw [if_neg eq, if_neg fun same => eq same.1.symm, add_zero]
      exact writers
  · intro o' past
    have high : s.fsoHigh ≤ o' := past
    have inside := kept.inside live
    rw [fso, if_neg (by omega)]
    exact kept.high o' high

/-- The last `fs_putfile` finds the file open for what it was opened for. -/
def PutFits (s : Sys) (f : Nat) : Prop :=
  (s.file f).refcnt = 1 → reads (s.file f).omode = reads (s.file f).opened ∧
    writes (s.file f).omode = writes (s.file f).opened

theorem wp_putfile_counts {Q : Res Errno Unit → Sys → Prop} (kept : CountsKept s os) (lt : f < fsMaxfile)
    (live : (s.file f).refcnt ≠ 0) (fit : PutFits s f) (ok : ∀ s', CountsKept s' os → Q (.ok ()) s') :
    wp (fsPutfile f) Q s := by
  simp only [fsPutfile, wp_bind, wp_get, after_ok]
  rw [if_neg live]
  split
  · rename_i last
    obtain ⟨sameReads, sameWrites⟩ := fit last
    have less : ∀ P o', opens P (setFile f (fun e => { e with refcnt := e.refcnt - 1 }) s) o' +
        (if (s.file f).fso = o' ∧ P (s.file f).opened then 1 else 0) = opens P s o' := by
      intro P o'
      have change := opens_setFile (P := P) (s := s) lt (fun e => { e with refcnt := e.refcnt - 1 }) o'
      simpa [last] using change
    have used := less (fun _ => true) (s.file f).fso
    have fsos := kept.fsos (s.file f).fso
    simp only [and_self, if_true] at used
    have inside := kept.inside (o := (s.file f).fso) (by omega)
    simp only [wp_bind, wp_modify, after_ok, fsPutfso, wp_get]
    rw [if_neg (by simp [setFso, count]; omega)]
    simp only [wp_modify, after_ok]
    apply ok
    have fso : ∀ o', ((setFso (s.file f).fso (fun e => { e with refcnt := e.refcnt - 1 })
        (setFso (s.file f).fso (count (s.file f).omode (-1)) s)).fso o') =
        if o' = (s.file f).fso then { count (s.file f).omode (-1) (s.fso o') with refcnt := (s.fso o').refcnt - 1 }
        else s.fso o' := by
      intro o'
      by_cases eq : o' = (s.file f).fso
      · subst eq
        simp [setFso, count]
      · simp [setFso, eq]
    have files : ∀ P o', opens P (setFile f (fun e => { e with refcnt := e.refcnt - 1 })
        (setFso (s.file f).fso (fun e => { e with refcnt := e.refcnt - 1 })
        (setFso (s.file f).fso (count (s.file f).omode (-1)) s))) o' =
        opens P (setFile f (fun e => { e with refcnt := e.refcnt - 1 }) s) o' := fun _ _ => rfl
    refine ⟨?_, ?_, ?_, ?_, kept.table⟩
    · intro o'
      have fsos := kept.fsos o'
      have used := less (fun _ => true) o'
      rw [files, setFile_fso, fso]
      split
      · rename_i eq
        simp only [← eq, and_self, if_true] at used
        show (s.fso o').refcnt - 1 = _
        omega
      · rename_i ne
        simp only [Ne.symm ne, false_and, if_false] at used
        omega
    · intro o'
      have readers := kept.readers o'
      have used := less reads o'
      rw [files, setFile_fso, fso]
      split
      · rename_i eq
        simp only [← eq, true_and] at used
        simp only [count, sameReads, readers]
        split at used
        · rename_i yes
          simp only [yes, if_true]
          omega
        · rename_i no
          simp only [no, Bool.false_eq_true, if_false]
          omega
      · rename_i ne
        simp only [Ne.symm ne, false_and, if_false] at used
        omega
    · intro o'
      have writers := kept.writers o'
      have used := less writes o'
      rw [files, setFile_fso, fso]
      split
      · rename_i eq
        simp only [← eq, true_and] at used
        simp only [count, sameWrites, writers]
        split at used
        · rename_i yes
          simp only [yes, if_true]
          omega
        · rename_i no
          simp only [no, Bool.false_eq_true, if_false]
          omega
      · rename_i ne
        simp only [Ne.symm ne, false_and, if_false] at used
        omega
    · intro o' past
      have high : s.fsoHigh ≤ o' := past
      rw [setFile_fso, fso, if_neg (by omega)]
      exact kept.high o' high
  · rename_i more
    rw [wp_modify]
    apply ok
    apply kept.sameFile lt _ rfl rfl
    constructor
    · intro _
      exact live
    · intro _
      show (s.file f).refcnt - 1 ≠ 0
      omega

theorem wp_revoke_counts (kept : CountsKept s os) (short : path.Short) :
    wp (fsRevoke path perm) (fun r s' => r ≠ .crash ∧ CountsKept s' os) s := by
  simp only [fsRevoke, wp_bind]
  apply wp_lookup_counts kept short
  swap
  · intro e s' kept'
    exact ⟨(by rintro ⟨⟩), kept'⟩
  intro o s' kept'
  simp only [after_ok, wp_bind, wp_onError]
  apply wp_check
  swap
  · intro e
    rw [recovered_err]
    apply wp_putfso_counts kept'
    intro s'' kept''
    exact ⟨(by rintro ⟨⟩), kept''⟩
  intro _
  simp only [recovered_ok, after_ok, wp_bind]
  apply wp_forEach (fun _ s'' => CountsKept s'' (o :: os)) kept'
  · intro s'' kept''
    rw [after_ok]
    apply wp_putfso_counts kept''
    intro s₃ kept₃
    exact ⟨(by rintro ⟨⟩), kept₃⟩
  intro t rest s₁ kept₁
  apply wp_forEach (fun _ s₂ => CountsKept s₂ (o :: os)) kept₁
  · intro s₂ kept₂
    exact kept₂
  intro n rest' s₂ kept₂
  simp only [wp_bind, wp_get, after_ok]
  split
  · split
    · exact kept₂
    · rename_i f points
      split
      · rw [wp_modify]
        exact kept₂.sameFile (kept₂.table t n f points) Iff.rfl rfl rfl
      · exact kept₂
  · exact kept₂

/-- The calls in any order, and what happens around them: references to a file are added, and descriptors
    and tasks change. A held reference to an object goes into the file that is made with it. -/
inductive Move (fits : Sys → Nat → Prop) : Sys → List Nat → Sys → List Nat → Prop where
  | getfso {s s' : Sys} {os : List Nat} (v : Visit) (o : Nat) (run : fsGetfso v s = (.ok o, s')) :
      Move fits s os s' (o :: os)
  | nofso {s s' : Sys} {os : List Nat} (v : Visit) (e : Errno) (run : fsGetfso v s = (.err e, s')) :
      Move fits s os s' os
  | putfso {s : Sys} {os : List Nat} (o : Nat) : Move fits s (o :: os) (fsPutfso o s).2 os
  | getfile {s s' : Sys} {os : List Nat} (o : Nat) (omode : Mode) (f : Nat) (run : fsGetfile o omode s = (.ok f, s')) :
      Move fits s (o :: os) s' os
  | nofile {s s' : Sys} {os : List Nat} (o : Nat) (omode : Mode) (e : Errno) (run : fsGetfile o omode s = (.err e, s')) :
      Move fits s (o :: os) s' (o :: os)
  | putfile {s : Sys} {os : List Nat} (f : Nat) (lt : f < fsMaxfile) (live : (s.file f).refcnt ≠ 0) (fit : fits s f) :
      Move fits s os (fsPutfile f s).2 os
  | revoke {s : Sys} {os : List Nat} (path : Lookup) (perm : Option Errno) (short : path.Short) :
      Move fits s os (fsRevoke path perm s).2 os
  | share {s : Sys} {os : List Nat} (f : Nat) (lt : f < fsMaxfile) (live : (s.file f).refcnt ≠ 0) :
      Move fits s os (setFile f (fun e => { e with refcnt := e.refcnt + 1 }) s) os
  | tables {s : Sys} {os : List Nat} (desc : Nat → Nat → FsDesc) (used : Nat → Bool)
      (inside : ∀ t n f, (desc t n).file = some f → f < fsMaxfile) :
      Move fits s os { s with desc := desc, used := used } os
  | order {s : Sys} {os os' : List Nat} (perm : os.Perm os') : Move fits s os s os'

inductive Moved (fits : Sys → Nat → Prop) : Sys → List Nat → Prop where
  | start : Moved fits start []
  | next {s s' : Sys} {os os' : List Nat} (before : Moved fits s os) (move : Move fits s os s' os') : Moved fits s' os'

theorem countsKept_start : CountsKept start [] := by
  have none : ∀ P o, opens P start o = 0 := by
    intro P o
    apply tally_eq_zero.mpr
    intro f _
    rfl
  refine ⟨?_, ?_, ?_, fun _ _ => ⟨rfl, rfl, rfl⟩, nofun⟩
  · intro o
    rw [none]
    rfl
  · intro o
    rw [none]
    rfl
  · intro o
    rw [none]
    rfl

theorem countsKept_move (kept : CountsKept s os) (move : Move PutFits s os s' os') : CountsKept s' os' := by
  cases move with
  | getfso v o run =>
    have post : wp (fsGetfso v) (fun r s' => ∀ o, r = .ok o → CountsKept s' (o :: os)) s := by
      apply wp_getfso_counts kept
      · rintro o s' kept' _ ⟨⟩
        exact kept'
      · intros; contradiction
    rw [wp, run] at post
    exact post o rfl
  | nofso v e run =>
    have post : wp (fsGetfso v) (fun r s' => ∀ e, r = .err e → CountsKept s' os) s := by
      apply wp_getfso_counts kept
      · intros; contradiction
      · rintro e s' kept' _ ⟨⟩
        exact kept'
    rw [wp, run] at post
    exact post e rfl
  | putfso o =>
    have post : wp (fsPutfso o) (fun _ s' => CountsKept s' os') s := wp_putfso_counts kept fun _ kept' => kept'
    exact post
  | getfile o omode f run =>
    have post : wp (fsGetfile o omode) (fun r s' => ∀ f, r = .ok f → CountsKept s' os') s := by
      apply wp_getfile_counts kept
      · rintro f s' kept' _ ⟨⟩
        exact kept'
      · intros; contradiction
    rw [wp, run] at post
    exact post f rfl
  | nofile o omode e run =>
    have post : wp (fsGetfile o omode) (fun r s' => ∀ e, r = .err e → s' = s) s := by
      apply wp_getfile_counts kept
      · intros; contradiction
      · exact fun _ _ _ => rfl
    rw [wp, run] at post
    have same : s' = s := post e rfl
    rw [same]
    exact kept
  | putfile f lt live fit =>
    have post : wp (fsPutfile f) (fun _ s' => CountsKept s' os) s :=
      wp_putfile_counts kept lt live fit fun _ kept' => kept'
    exact post
  | revoke path perm short => exact (wp_revoke_counts kept short).2
  | share f lt live =>
    apply kept.sameFile lt _ rfl rfl
    constructor
    · intro _
      exact live
    · intro _
      exact Nat.succ_ne_zero _
  | tables desc used inside => exact ⟨kept.fsos, kept.readers, kept.writers, kept.high, inside⟩
  | order perm =>
    refine ⟨?_, kept.readers, kept.writers, kept.high, kept.table⟩
    intro o
    rw [← perm.count_eq o]
    exact kept.fsos o

/-- The counts of an object are those of its files, and are zero without files. -/
structure CountsExact (s : Sys) : Prop where
  readers : ∀ o, (s.fso o).readerCount = opens reads s o
  writers : ∀ o, (s.fso o).writerCount = opens writes s o
  last : ∀ o, (∀ f, f < fsMaxfile → (s.file f).refcnt ≠ 0 → (s.file f).fso ≠ o) →
    (s.fso o).readerCount = 0 ∧ (s.fso o).writerCount = 0

theorem CountsKept.exact (kept : CountsKept s os) : CountsExact s := by
  refine ⟨kept.readers, kept.writers, ?_⟩
  intro o gone
  have none : opens (fun _ => true) s o = 0 := by
    apply tally_eq_zero.mpr
    intro f lt
    by_cases live : (s.file f).refcnt = 0
    · simp [live]
    · simp [gone f lt live]
  rw [kept.readers, kept.writers, opens_none none, opens_none none]
  exact ⟨rfl, rfl⟩

/-- In every run in which no file is released after a revoke took away what it was opened for, the counts are
    exact in every state. -/
theorem counts_exact (moved : Moved PutFits s os) : CountsExact s := by
  suffices kept : CountsKept s os from kept.exact
  induction moved with
  | start => exact countsKept_start
  | next before move ih => exact countsKept_move ih move

def oneObject : Sys := (fsGetfso ⟨1, 7, none, none⟩ start).2
def oneReader : Sys := (fsGetfile 0 oRdonly oneObject).2

theorem moved_oneReader (fits : Sys → Nat → Prop) : Moved fits oneReader [] := by
  have object : Moved fits oneObject [0] := .next .start (.getfso ⟨1, 7, none, none⟩ 0 rfl)
  exact .next object (.getfile 0 oRdonly 0 rfl)

theorem counts_exact_reader : (oneReader.fso 0).readerCount = 1 ∧ CountsExact oneReader :=
  ⟨rfl, counts_exact (moved_oneReader PutFits)⟩

def inDescriptor : Sys := setDesc 0 0 ⟨some 0, 0⟩ oneReader
def revoked : Sys := (fsRevoke ⟨[], .object ⟨1, 7, none, none⟩⟩ none inDescriptor).2
def released : Sys := (fsPutfile 0 revoked).2

/-- A file that was opened for reading and revoked leaves a reader behind. -/
theorem counts_not_exact_revoked : Moved (fun _ _ => True) released [] ∧ (released.fso 0).readerCount = 1 ∧
    ¬ CountsExact released := by
  have gone : ∀ f, f < fsMaxfile → (released.file f).refcnt = 0 := by decide +kernel
  have left : (released.fso 0).readerCount = 1 := by decide +kernel
  refine ⟨?_, left, ?_⟩
  · have placed : Moved (fun _ _ => True) inDescriptor [] := by
      refine .next (moved_oneReader _) (.tables inDescriptor.desc inDescriptor.used ?_)
      intro t n f at_slot
      rw [inDescriptor, setDesc_file] at at_slot
      split at at_slot
      · cases at_slot
        decide
      · cases at_slot
    have without : Moved (fun _ _ => True) revoked [] := .next placed (.revoke _ none nofun)
    exact .next without (.putfile 0 (by decide) (by decide +kernel) trivial)
  · intro exact
    have zero := exact.last 0 (fun f lt live => absurd (gone f lt) live)
    rw [left] at zero
    exact absurd zero.1 (by decide)

end Fdesc
