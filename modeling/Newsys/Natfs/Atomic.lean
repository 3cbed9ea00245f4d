import Newsys.Natfs.Format

/- When `nat_rename` fails, has it done nothing? It has, whatever requests fail on the way, unless
   `new_entry` finds no place for the new name. -/
namespace Natfs
open Bytes Cmds Links Cmd

/- The errors of an allocation -/

def SpaceError (cx : Cx) (e : Errno) : Prop := e = .EFBIG ∨ e = .ENOSPC ∨ cx.IoError e

section Errors
variable {cx : Cx}

theorem fails_blkGet (bn : Nat) : Fails (blkGet cx bn) (SpaceError cx) := by
  intro s e eq
  simp only [blkGet] at eq
  split at eq
  · rename_i code found
    cases eq
    exact .inr (.inr ⟨s.tick, found⟩)
  · cases eq

theorem fails_blkRead (bn : Nat) : Fails (blkRead cx bn) (SpaceError cx) :=
  fails_bind (fails_blkGet bn) fun _ => fails_bind fails_get fun _ => fails_pure _

theorem fails_natSwitchBam (blk : Nat) : Fails (natSwitchBam cx blk) (SpaceError cx) := by
  refine fails_bind fails_get fun s => ?_
  split
  · exact fails_pure _
  · refine fails_bind fails_attempt fun _ => ?_
    intro s' e
    have read := @fails_blkRead cx blk s'
    simp only [Bind.bind, Cmd.bind, attempt]
    rcases run : blkRead cx blk s' with ⟨_ | _ | _, _⟩
    · exact fun eq => by cases eq
    · rw [run] at read
      intro eq
      cases eq
      exact read e rfl
    · exact fun eq => by cases eq

theorem fails_natBallocFrom (n : Nat) : ∀ i, Fails (natBallocFrom cx i n) (SpaceError cx) := by
  induction n with
  | zero => exact fun _ => fails_fail (.inr (.inl rfl))
  | succ n ih =>
    intro i
    refine fails_bind fails_get fun s => fails_bind (fails_natSwitchBam _) fun _ => fails_bind fails_get fun s' => ?_
    cases freeWord s'.fs.bamBuf with
    | none => exact ih (i + 1)
    | some w => exact fails_bind (fails_modify _) fun _ => fails_pure _

theorem fails_newBlock : Fails (newBlock cx) (SpaceError cx) :=
  fails_bind (fails_bind fails_get fun _ => fails_natBallocFrom _ _) fun bn =>
    fails_bind (fails_blkGet bn) fun _ => fails_bind (fails_modify _) fun _ => fails_pure _

theorem fails_natBmapDir (i log : Nat) (alloc : Bool) : Fails (natBmapDir cx i log alloc) (SpaceError cx) := by
  unfold natBmapDir
  split
  · exact fails_fail (.inl rfl)
  · refine fails_bind fails_get fun s => ?_
    split
    · exact fails_bind fails_newBlock fun _ => fails_bind (fails_modify _) fun _ => fails_pure _
    · exact fails_pure _

theorem fails_natBmapWalk (i log : Nat) (alloc : Bool) (indl : Nat) :
    ∀ bn, Fails (natBmapWalk cx i log alloc indl bn) (SpaceError cx) := by
  induction indl with
  | zero => exact fun _ => fails_pure _
  | succ indl ih =>
    intro bn
    unfold natBmapWalk
    split
    · exact fails_pure _
    · refine fails_bind (fails_blkRead bn) fun b => ?_
      dsimp only
      split
      · exact ih _
      · split
        · exact fails_bind fails_newBlock fun _ => fails_bind (fails_modify _) fun _ =>
            fails_bind (fails_modify _) fun _ => ih _
        · exact fails_pure _

theorem fails_natBmap (i log : Nat) (alloc : Bool) : Fails (natBmap cx i log alloc) (SpaceError cx) := by
  refine fails_bind fails_get fun s => ?_
  dsimp only
  split
  · exact fails_pure _
  · split
    · exact fails_bind (fails_natBmapDir _ _ _) fun _ => fails_modify _
    · exact fails_bind (fails_natBmapDir _ _ _) fun _ => fails_bind (fails_natBmapWalk _ _ _ _ _) fun _ => fails_modify _

theorem fails_storeEntry (d : Nat) (n : Name) (v : Nat) (free : DirentPtr) :
    Fails (storeEntry cx d n v free) (SpaceError cx) := by
  have fill : ∀ p, Fails (fillEntry cx d n v p) (SpaceError cx) := fun p =>
    fails_bind (fun s e eq => by cases eq) fun _ => fails_bind (fails_modify _) fun _ => fails_modify _
  unfold storeEntry
  split
  · refine fails_bind ?_ fill
    unfold growDir
    refine fails_bind fails_get fun s => ?_
    split
    · exact fails_fail (.inl rfl)
    · exact fails_bind (fails_natBmap _ _ _) fun _ => fails_bind fails_get fun _ => fails_bind (fails_blkGet _) fun _ =>
        fails_bind (fails_modify _) fun _ => fails_bind (fails_modify _) fun _ => fails_pure _
  · exact fails_bind (fails_blkRead _) fun _ => fill free

variable {P : Errno → Prop}

theorem fails_clockTime : Fails (clockTime cx) P := fun _ _ eq => by cases eq

theorem fails_fsPutfso (i : Nat) : Fails (fsPutfso cx i) P := by
  refine fails_bind fails_get fun s => ?_
  split
  · exact fails_crash
  · dsimp only
    split
    · exact fails_bind fails_attempt fun _ => fails_modify _
    · exact fails_modify _

theorem fails_renameOut (od nd : Nat) (p : DirentPtr) : Fails (renameOut cx od nd p) P :=
  fails_bind (fails_modify _) fun _ => fails_bind fails_clockTime fun _ =>
    fails_bind (fails_modify _) fun _ => fails_modify _

end Errors

/- Where a renaming can fail -/

section Renaming
variable {cx : Cx} {s t : Vol} {hold : List Nat}

/-- No device reports that a file exists. -/
def Cx.Tame (cx : Cx) : Prop := ¬ cx.IoError .EEXIST

theorem wp_newEntry_exists (tame : cx.Tame) (q : Quiet s t hold)
    (ref : (t.fso d).refcnt ≠ 0) (ok : isDir s d → DirOk s d)
    (done : ∀ u, Q (.ok ()) u) (exists' : ∀ t', Quiet s t' hold → Q (.err .EEXIST) t')
    (refused : ∀ e u, e ≠ .EEXIST → Q (.err e) u) (crash : ∀ u, Q .crash u) :
    wp (newEntry cx d n v) Q t := by
  have kind := q.kind ref
  simp only [newEntry, wp_bind, wp_get, after_ok]
  split
  · exact refused _ _ (by decide)
  · rename_i dir
    have dir : isDir s d := by
      rw [← kind]
      simpa using dir
    split
    · exact exists' t q
    · simp only [wp_bind]
      apply wp_fsChkPerm
      · intro _
        simp only [after_ok]
        split
        · exact refused _ _ (by decide)
        · rw [q.realSize ref (ok dir)]
          simp only [wp_bind]
          apply wp_newEntryFrom (ok dir) _ q ref (fun log mem => List.mem_range.mp mem) (fun h => absurd rfl h)
          · intro t' free _ _ _
            refine wp_of_fails (fails_storeEntry d n v free) (fun _ => done) ?_ crash
            rintro e u code
            refine refused e u ?_
            rintro rfl
            rcases code with eq | eq | io
            · cases eq
            · cases eq
            · exact tame io
          · exact fun t' b q' _ => exists' t' q'
          · exact fun e t' io _ => refused e t' fun eq => tame (eq ▸ io)
      · intro e code
        refine refused e t ?_
        rcases permError_cases code with rfl | rfl <;> decide

theorem wp_renameOver_failed (sane : Sane s) (file : d ∈ s.files) (q : Quiet s t (d :: hold))
    (done : ∀ u, Q (.ok ()) u) (failed : ∀ e u, Quiet s u (d :: hold) → Q (.err e) u) (crash : ∀ u, Q .crash u) :
    wp (renameOver cx d n p) Q t := by
  have rest : ∀ {c : Nat} {np : DirentPtr} {u : Vol}, wp (do
      dropLink c
      fsPutfso cx c
      modify fun s => s.setDev np.1 (blit (clearDirent (s.dev np.1) np.2) (32 * np.2) (n ++ [0]))
      modify fun s => s.setDev np.1
        (setLE (s.dev np.1) (32 * np.2 + 28) 4 (deFirstBlock (s.dev p.1) p.2))) Q u := by
    intro c np u
    refine wp_of_fails (P := fun _ => False) ?_ (fun _ => done) (fun _ _ h => h.elim) crash
    exact fails_bind (fails_modify _) fun _ => fails_bind (fails_fsPutfso _) fun _ =>
      fails_bind (fails_modify _) fun _ => fails_modify _
  rw [renameOver, wp_bind]
  apply sane.wp_find q file (by rw [q.refcnt, List.count_cons_self]; omega)
  · intro t₁ np k c q₁ found
    have target := sane.bounded.edge_node (found.edge file)
    simp only [after_ok, wp_bind, wp_get, q₁.dev, found.first sane file]
    apply wp_fsGetfso q₁ target
    · intro t₂ q₂
      have ref : (t₂.fso c).refcnt ≠ 0 := by rw [q₂.refcnt, List.count_cons_self]; omega
      simp only [after_ok, wp_bind, wp_get]
      split
      · rw [wp_bind, wp_onError]
        apply wp_isEmpty q₂ ref (sane.dirs c target)
        · exact fun _ _ _ _ => rest
        · exact fun e t₃ q₃ => wp_giveBack sane q₃ fun u q => failed e u q
      · exact rest
    · exact fun e t₂ q₂ => failed e t₂ q₂
  · exact failed

theorem wp_natRename_failed (tame : cx.Tame) (sane : Sane s)
    (entered : ¬ EntryRefused cx s oldname newname) :
    wp (natRename cx oldname newname) (fun r t => ∀ e, r = .err e → Quiet s t []) s := by
  rw [natRename, wp_bind]
  apply wp_run
  apply wp_renameFind sane
  · intro t od nd p k b q sd run
    have done : ∀ {u : Vol}, wp (do fsPutfso cx od; fsPutfso cx nd)
        (fun r t => ∀ e, r = .err e → Quiet s t []) u := by
      intro u
      refine wp_of_fails (P := fun _ => False) ?_ (fun _ _ e eq => by cases eq) (fun _ _ h => h.elim)
        (fun _ e eq => by cases eq)
      exact fails_bind (fails_fsPutfso _) fun _ => fails_fsPutfso _
    have out : ∀ {u : Vol}, wp (renameOut cx od nd p) (recovered (do fsPutfso cx od; fsPutfso cx nd)
        (after (fun _ => do fsPutfso cx od; fsPutfso cx nd) fun r t => ∀ e, r = .err e → Quiet s t [])) u := by
      intro u
      exact wp_of_fails (P := fun _ => False) (fails_renameOut _ _ _) (fun _ _ => done) (fun _ _ h => h.elim)
        (fun _ e eq => by cases eq)
    simp only [after_ok, wp_bind, wp_onError, renameEntry, wp_get, wp_attempt]
    apply wp_run
    apply wp_newEntry_exists tame q (by rw [q.refcnt, List.count_cons_self]; omega) (sane.dirs nd (sd.new sane))
    · exact fun u _ => out
    · intro t' q' _
      simp only [caught_err, after_ok, wp_bind]
      apply wp_renameOver_failed sane (sd.new sane) q'
      · exact fun u => out
      · exact fun e u q'' => wp_giveBoth sane q'' fun v quiet _ _ => quiet
      · exact fun u e eq => by cases eq
    · intro e u other run'
      exact absurd ⟨od, nd, p, t, e, run, other, congrArg Prod.fst run'⟩ entered
    · exact fun u _ e eq => by cases eq
  · exact fun e t q _ _ _ => q
  · exact fun t _ e eq => by cases eq

structure SameLinks (s t : Vol) : Prop where
  entries : ∀ d n b, (tree t).Edge d n b ↔ (tree s).Edge d n b
  files : t.files = s.files
  nlink : ∀ i, (hdr t i).nlink = (hdr s i).nlink

theorem Quiet.sameLinks (q : Quiet s t hold) : SameLinks s t := by
  refine ⟨?_, q.files, fun i => by rw [q.hdr]⟩
  intro d n b
  have kind : isDir t d = isDir s d := by rw [isDir, isDir, q.hdr]
  have ents : (tree t).ents d = (tree s).ents d := by
    show (if isDir t d then live t d else []) = if isDir s d then live s d else []
    simp only [live_congr (q.obj d), kind]
  show d ∈ t.files ∧ _ ↔ d ∈ s.files ∧ _
  rw [ents, q.files]

/-- A renaming that fails leaves all entries and link counts as they are. -/
def RenameAtomic (cx : Cx) (s : Vol) (oldname newname : CStr) : Prop :=
  ∀ e t, natRename cx oldname newname s = (.err e, t) → SameLinks s t

/-- A renaming is atomic on failure as long as `new_entry` makes the entry or finds the name in use,
    and on a working device only then. -/
theorem rename_atomic (tame : cx.Tame) (arises : Arises s) (oldname newname : CStr) :
    (¬ EntryRefused cx s oldname newname → RenameAtomic cx s oldname newname) ∧
    (cx.NoIoError → RenameAtomic cx s oldname newname → ¬ EntryRefused cx s oldname newname) := by
  constructor
  · intro entered e t run
    have quiet := wp_natRename_failed tame arises.sane entered
    rw [wp, run] at quiet
    exact (quiet e rfl).sameLinks
  · intro noio atomic refused
    have outcome : wp (natRename cx oldname newname) (fun r t => ∃ e, r = .err e ∧ ¬ SameLinks s t) s := by
      apply wp_natRename noio arises.sane
      · exact fun t entered _ => absurd refused entered
      · exact fun e t entered _ => absurd refused entered
      · rintro e t _ _ ⟨d, n, b, edge, gone⟩
        exact ⟨e, rfl, fun same => gone ((same.entries d n b).mpr edge)⟩
      · exact fun t entered => absurd refused entered
    obtain ⟨e, err, changed⟩ := outcome
    exact changed (atomic e _ (Prod.ext err rfl))

/-- There is no file of that name, and nothing is lost. -/
theorem rename_atomic_missing : (natRename rootCx (letters 2) (letters 3) withFile).1 = .err .ENOENT ∧
    ¬ EntryRefused rootCx withFile (letters 2) (letters 3) ∧ RenameAtomic rootCx withFile (letters 2) (letters 3) := by
  have tame : rootCx.Tame := by
    rintro ⟨n, io⟩
    cases io
  have missing : (renameFind rootCx (letters 2) (letters 3) withFile).1 = .err .ENOENT := by decide +kernel
  have entered : ¬ EntryRefused rootCx withFile (letters 2) (letters 3) := by
    rintro ⟨od, nd, p, t, e, run, -⟩
    rw [run] at missing
    cases missing
  exact ⟨by decide +kernel, entered, (rename_atomic tame withFile_arises (letters 2) (letters 3)).1 entered⟩

/-- The new name has 28 letters: the call fails with `ENAMETOOLONG`, and the old name is gone. -/
theorem rename_not_atomic_long : Arises withFile ∧
    (natRename rootCx (letters 1) (letters 28) withFile).1 = .err .ENAMETOOLONG ∧
    ¬ RenameAtomic rootCx withFile (letters 1) (letters 28) := by
  have fails : (natRename rootCx (letters 1) (letters 28) withFile).1 = .err .ENAMETOOLONG := by decide +kernel
  refine ⟨withFile_arises, fails, fun atomic => ?_⟩
  have same := atomic _ _ (Prod.ext fails rfl)
  have before : 3 ∈ withFile.files ∧ ((letters 1).base, 4) ∈ (tree withFile).ents 3 := by decide +kernel
  have now : (tree (natRename rootCx (letters 1) (letters 28) withFile).2).ents 3 = [] := by decide +kernel
  have mem := ((same.entries 3 (letters 1).base 4).mpr before).2
  rw [now] at mem
  cases mem

end Renaming

end Natfs
