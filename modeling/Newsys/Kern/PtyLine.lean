import Newsys.Lib.Lines
import Newsys.Kern.Pty

/- What is typed at the master's end of a pseudo-terminal in canonical mode (kern/fs/pty/ptyfs.c): the line
   buffer and the ring behind it hold what line editing makes of the bytes, however they are cut into
   writes. Echoing goes another way. -/
namespace Ptyfs
open Bytes Ring Lines List

/- Echo leaves the line alone -/

structure Aside (s s' : Sys) : Prop where
  tio : s'.pty.tio = s.pty.tio
  inp : s'.pty.inp = s.pty.inp
  canonBuf : s'.pty.canonBuf = s.pty.canonBuf
  canonCount : s'.pty.canonCount = s.pty.canonCount
  canonIntr : s'.pty.canonIntr = s.pty.canonIntr
  pc : s'.pc = s.pc

namespace Aside
variable {s s' s'' : Sys}

theorem refl (s : Sys) : Aside s s := ⟨rfl, rfl, rfl, rfl, rfl, rfl⟩

theorem trans (first : Aside s s') (next : Aside s' s'') : Aside s s'' :=
  ⟨next.tio.trans first.tio, next.inp.trans first.inp, next.canonBuf.trans first.canonBuf,
    next.canonCount.trans first.canonCount, next.canonIntr.trans first.canonIntr, next.pc.trans first.pc⟩

theorem ite {c : Prop} [Decidable c] (yes : c → Aside s s') (no : ¬ c → Aside s s'') :
    Aside s (if c then s' else s'') := by
  split
  · exact yes ‹_›
  · exact no ‹_›

theorem echo (s : Sys) (ch : Byte) : Aside s (ptyEcho s ch) := ite (fun _ => ⟨rfl, rfl, rfl, rfl, rfl, rfl⟩) fun _ => refl s

theorem echoAll (chs : List Byte) : ∀ s : Sys, Aside s (chs.foldl ptyEcho s) := by
  induction chs with
  | nil => exact refl
  | cons ch chs ih => exact fun s => (echo s ch).trans (ih _)

theorem cecho (s : Sys) (ch : Byte) : Aside s (ptyCecho s ch) := by
  unfold ptyCecho
  refine ite (fun _ => (echo s _).trans (echo _ _)) fun _ => ?_
  exact ite (fun _ => (echo s _).trans (echo _ _)) fun _ => echo s ch

theorem eraseCh (s : Sys) (ch : Byte) : Aside s (ptyEraseCh s ch) :=
  ite (fun _ => echoAll _ s) fun _ => echoAll _ s

theorem echoLine (s : Sys) (ch : Byte) : Aside s (echoLine s ch) :=
  ite (fun _ => (cecho s ch).trans (echo _ 10)) fun _ => refl s

theorem reprint (n : Nat) : ∀ (i : Nat) (s : Sys), Aside s (reprint n i s) := by
  induction n with
  | zero => exact fun _ => refl
  | succ n ih =>
    intro i s
    have probed : Aside s (probe s i) := ⟨rfl, rfl, rfl, rfl, rfl, rfl⟩
    exact (probed.trans (cecho _ _)).trans (ih (i + 1) _)

end Aside

def line (s : Sys) : List Byte := slice s.pty.canonBuf 0 s.pty.canonCount

theorem slice_put (m : Mem) (n : Nat) (ch : Byte) : slice (put m n ch) 0 (n + 1) = slice m 0 n ++ [ch] := by
  simp only [slice, range_succ, map_append, map_cons, map_nil, zero_add]
  congr 1
  · apply map_congr_left
    intro k mem
    have lt := List.mem_range.mp mem
    exact if_neg (by omega)
  · simp [put]

theorem slice_dropLast (m : Mem) (n : Nat) : slice m 0 (n - 1) = (slice m 0 n).dropLast := by
  cases n with
  | zero => rfl
  | succ n => simp [slice, range_succ]

theorem Aside.line (aside : Aside s s') : line s' = line s := by
  rw [Ptyfs.line, Ptyfs.line, aside.canonBuf, aside.canonCount]

theorem drop_aside (s : Sys) (n : Nat) : Aside (setCanonCount s n) (dropCanon s n) := by
  unfold dropCanon
  refine Aside.ite (fun _ => ?_) fun _ => Aside.refl _
  have probed : Aside (setCanonCount s n) (probe (setCanonCount s n) n) := ⟨rfl, rfl, rfl, rfl, rfl, rfl⟩
  exact probed.trans (Aside.eraseCh _ _)

theorem kill_aside (n : Nat) : ∀ s : Sys, s.pty.canonCount = n → Aside (setCanonCount s 0) (killLine n s) := by
  induction n with
  | zero =>
    intro s empty
    exact ⟨rfl, rfl, rfl, empty, rfl, rfl⟩
  | succ n ih =>
    intro s _
    have dropped := drop_aside s n
    have rest := ih (dropCanon s n) dropped.canonCount
    exact ⟨rest.tio.trans dropped.tio, rest.inp.trans dropped.inp, rest.canonBuf.trans dropped.canonBuf,
      rest.canonCount, rest.canonIntr.trans dropped.canonIntr, rest.pc.trans dropped.pc⟩

theorem deliver_room (n : Nat) : ∀ {i : Nat} {s : Sys}, s.pty.inp.count + n ≤ bufSize →
    (deliver n i s).pty.inp.stored = s.pty.inp.stored ++ slice s.pty.canonBuf i n ∧
    (deliver n i s).pty.tio = s.pty.tio ∧ (deliver n i s).pty.canonIntr = s.pty.canonIntr ∧
    (deliver n i s).pc = s.pc := by
  induction n with
  | zero =>
    intro i s _
    exact ⟨(append_nil _).symm, rfl, rfl, rfl⟩
  | succ n ih =>
    intro i s room
    rw [deliver, if_neg (by omega)]
    have next : (storeIn (probe s i) (s.pty.canonBuf i)).pty.inp.count + n ≤ bufSize := by
      show s.pty.inp.count + 1 + n ≤ bufSize
      omega
    obtain ⟨stored, tio, intr, pc⟩ := ih (i := i + 1) next
    refine ⟨?_, tio, intr, pc⟩
    rw [stored]
    show s.pty.inp.stored ++ [s.pty.canonBuf i] ++ slice s.pty.canonBuf (i + 1) n = _
    rw [append_assoc]
    simp [slice, range_succ_eq_map, add_comm, add_left_comm]

/-- What a character does to the line: the special characters in the order in which they are looked at. -/
def keyOf (tio : Termios) (ch : Byte) : Key Byte :=
  if ch = tio.cc vKILL then .kill
  else if ch = tio.cc vEOF then .skip
  else if ch = tio.cc vINTR then if tio.lflag &&& fISIG ≠ 0 then .kill else .skip
  else if ch = tio.cc vREPRINT then .skip
  else if ch = tio.cc vQUIT then if tio.lflag &&& fISIG ≠ 0 then .kill else .skip
  else if ch = tio.cc vERASE then .erase
  else if ch = 13 then .skip
  else if ch = 10 then .finish 10
  else .keep ch

/-- The line buffer is not full, and the ring has room for the line that the character finishes. -/
structure Roomy (s : Sys) (ch : Byte) : Prop where
  space : s.pty.canonCount < maxCanon
  ring : s.pty.inp.count + (added (line s) (keyOf s.pty.tio ch)).length ≤ bufSize

structure Edited (s s' : Sys) (k : Key Byte) : Prop where
  tio : s'.pty.tio = s.pty.tio
  line : line s' = (press ⟨[], line s⟩ k).line
  stored : s'.pty.inp.stored = s.pty.inp.stored ++ added (Ptyfs.line s) k
  canonIntr : s'.pty.canonIntr = s.pty.canonIntr
  pc : s'.pc = s.pc

namespace Edited
variable {s s' s'' : Sys} {k : Key Byte}

theorem aside (edited : Edited s s' k) (after : Aside s' s'') : Edited s s'' k :=
  ⟨after.tio.trans edited.tio, after.line.trans edited.line, by rw [after.inp]; exact edited.stored,
    after.canonIntr.trans edited.canonIntr, after.pc.trans edited.pc⟩

theorem skip (after : Aside s s') : Edited s s' .skip :=
  ⟨after.tio, after.line, by rw [after.inp]; exact (append_nil _).symm, after.canonIntr, after.pc⟩

theorem kill (s : Sys) : Edited s (setCanonCount s 0) .kill := ⟨rfl, rfl, (append_nil _).symm, rfl, rfl⟩

theorem push (s : Sys) (ch : Byte) : Edited s (pushCanon s ch) (.keep ch) :=
  ⟨rfl, slice_put _ _ ch, (append_nil _).symm, rfl, rfl⟩

theorem cut (s : Sys) (ch : Byte) : Edited s (echoLine (if s.has fISIG then setCanonCount s 0 else s) ch)
    (if s.pty.tio.lflag &&& fISIG ≠ 0 then .kill else .skip) := by
  by_cases isig : s.pty.tio.lflag &&& fISIG ≠ 0
  · have has : s.has fISIG := isig
    rw [if_pos isig, if_pos has]
    exact (kill s).aside (Aside.echoLine _ ch)
  · have has : ¬ s.has fISIG := isig
    rw [if_neg isig, if_neg has]
    exact skip (Aside.echoLine _ ch)

theorem erase (s : Sys) : Edited s (if s.pty.canonCount = 0 then s else dropCanon s (s.pty.canonCount - 1)) .erase := by
  split
  · rename_i empty
    refine ⟨rfl, ?_, (append_nil _).symm, rfl, rfl⟩
    simp [Ptyfs.line, press, empty, slice]
  · have short : Edited s (setCanonCount s (s.pty.canonCount - 1)) .erase :=
      ⟨rfl, slice_dropLast _ _, (append_nil _).symm, rfl, rfl⟩
    exact short.aside (drop_aside s _)

end Edited

theorem finish_edited {s s' : Sys} (pushed : Edited s s' (.keep 10)) (count : s'.pty.inp.count = s.pty.inp.count)
    (len : s'.pty.canonCount = s.pty.canonCount + 1) (room : s.pty.inp.count + (line s ++ [10]).length ≤ bufSize) :
    Edited s (ptyResumePtsR (setCanonCount (deliver s'.pty.canonCount 0 s') 0)) (.finish 10) := by
  have fits : s'.pty.inp.count + s'.pty.canonCount ≤ bufSize := by
    simp only [line, slice, length_append, length_map, length_range, length_singleton] at room
    omega
  obtain ⟨stored, tio, intr, pc⟩ := deliver_room s'.pty.canonCount (i := 0) fits
  refine ⟨tio.trans pushed.tio, rfl, ?_, intr.trans pushed.canonIntr, pc.trans pushed.pc⟩
  have whole : slice s'.pty.canonBuf 0 s'.pty.canonCount = line s ++ [10] := pushed.line
  rw [whole] at stored
  refine Eq.trans stored ?_
  rw [pushed.stored]
  simp only [added, append_nil]

theorem Edited.ite {c : Prop} [Decidable c] (yes : c → Edited s s' k)
    (no : ¬ c → Edited s s'' k') : Edited s (if c then s' else s'') (if c then k else k') := by
  by_cases h : c
  · rw [if_pos h, if_pos h]
    exact yes h
  · rw [if_neg h, if_neg h]
    exact no h

theorem canonInput_edited (roomy : Roomy s ch) : Edited s (ptyCanonInput s ch) (keyOf s.pty.tio ch) := by
  have room := roomy.ring
  unfold ptyCanonInput
  unfold keyOf at room ⊢
  refine Edited.ite (fun _ => (Edited.kill s).aside (kill_aside _ s rfl)) fun notKill => ?_
  refine Edited.ite (fun _ => ?_) fun notEof => ?_
  · have marked : Aside s { s with pty := { s.pty with canonEot := true } } := ⟨rfl, rfl, rfl, rfl, rfl, rfl⟩
    exact Edited.skip (marked.trans (Aside.echoLine _ ch))
  refine Edited.ite (fun _ => Edited.cut s ch) fun notIntr => ?_
  refine Edited.ite (fun _ => ?_) fun notReprint => ?_
  · exact Edited.skip (Aside.ite (fun _ => (Aside.echoAll _ s).trans (Aside.reprint _ _ _)) fun _ => Aside.refl s)
  refine Edited.ite (fun _ => Edited.cut s ch) fun notQuit => ?_
  refine Edited.ite (fun _ => Edited.erase s) fun notErase => ?_
  refine Edited.ite (fun _ => Edited.skip (Aside.refl s)) fun notReturn => ?_
  refine Edited.ite (fun isNewline => ?_) fun _ => ?_
  · rw [if_neg notKill, if_neg notEof, if_neg notIntr, if_neg notReprint, if_neg notQuit, if_neg notErase,
      if_neg notReturn, if_pos isNewline] at room
    rw [if_pos roomy.space]
    dsimp only
    split
    · have echo := Aside.echo (pushCanon s 10) 10
      refine finish_edited ((Edited.push s 10).aside echo) ?_ echo.canonCount room
      rw [echo.inp]
      rfl
    · exact finish_edited (Edited.push s 10) rfl rfl room
  · rw [if_pos roomy.space]
    exact (Edited.push s ch).aside (Aside.ite (fun _ => Aside.cecho _ ch) fun _ => Aside.refl _)

def fetched (buf : List (Option Byte)) : List Byte := (buf.takeWhile Option.isSome).filterMap id

def Act.typed : Act → List Byte
  | .ptmWrite _ buf _ _ _ => fetched buf
  | _ => []

def AllRoomy (s : Sys) : List (Option Byte) → Prop
  | some ch :: rest => Roomy s ch ∧ AllRoomy (ptyCanonInput s ch) rest
  | _ => True

/-- Neither buffer fills, the settings stay, and no read without delay meets an empty ring. -/
def Calm (s : Sys) : Act → Prop
  | .ptmWrite _ buf _ _ _ => AllRoomy s buf
  | .tcset _ => False
  | a => NotEmpty s a

def newTio (tio : Termios) : Sys := { newPty with pty := { newPty.pty with tio := tio } }

/-- The runs of a terminal in canonical mode, with the bytes that have been typed. -/
inductive Typing (tio : Termios) : Sys → List Byte → Prop where
  | new (canon : tio.lflag &&& fICANON ≠ 0) : Typing tio (newTio tio) []
  | step {s s' : Sys} {bytes : List Byte} {a : Act} (typing : Typing tio s bytes) (calm : Calm s a)
      (done : step s a = some s') : Typing tio s' (bytes ++ a.typed)

structure Untouched (s s' : Sys) : Prop where
  tio : s'.pty.tio = s.pty.tio
  canonBuf : s'.pty.canonBuf = s.pty.canonBuf
  canonCount : s'.pty.canonCount = s.pty.canonCount
  canonIntr : s'.pty.canonIntr = s.pty.canonIntr
  stored : s'.pty.inp.stored = s.pty.inp.stored
  raw : ∀ t ch rest, s'.pc t = .ptmWriting ch rest → s.pc t = .ptmWriting ch rest

namespace Untouched
variable {s s' s'' : Sys} {t count : Nat} {mem : Mem} {noDelay sig intr : Bool}

theorem refl (s : Sys) : Untouched s s := ⟨rfl, rfl, rfl, rfl, rfl, fun _ _ _ => id⟩

theorem trans (first : Untouched s s') (next : Untouched s' s'') : Untouched s s'' :=
  ⟨next.tio.trans first.tio, next.canonBuf.trans first.canonBuf, next.canonCount.trans first.canonCount,
    next.canonIntr.trans first.canonIntr, next.stored.trans first.stored,
    fun t ch rest here => first.raw t ch rest (next.raw t ch rest here)⟩

theorem park (same : Untouched s s') (calm : ∀ ch rest, p ≠ .ptmWriting ch rest) :
    Untouched s (setPc s' t p) := by
  refine ⟨same.tio, same.canonBuf, same.canonCount, same.canonIntr, same.stored, fun u ch rest here => ?_⟩
  have here : Function.update s'.pc t p u = .ptmWriting ch rest := here
  by_cases eq : u = t
  · rw [eq, Function.update_self] at here
    exact absurd here (calm ch rest)
  · rw [Function.update_of_ne eq] at here
    exact same.raw u ch rest here

theorem fetch_stored (left : Nat) : ∀ (off : Nat) (mem : Mem) (q : Half), (q.fetch left off mem).2.stored = q.stored := by
  induction left with
  | zero => exact fun _ _ _ => rfl
  | succ left ih => exact fun off mem q => ih _ _ q.load

theorem ptmTake : Untouched s (ptmTake s t count mem) := by
  simp only [Ptyfs.ptmTake]
  refine park (p := .idle) ?_ (by rintro _ _ ⟨⟩)
  exact ⟨rfl, rfl, rfl, rfl, rfl, fun _ _ _ => id⟩

theorem ptmRead : Untouched s (ptmRead s t count mem noDelay intr) := by
  unfold Ptyfs.ptmRead
  split
  · split
    · exact (refl s).park nofun
    · split
      · exact (refl s).park nofun
      · refine park ?_ (by nofun)
        exact ⟨rfl, rfl, rfl, rfl, rfl, fun _ _ _ => id⟩
  · exact ptmTake

theorem ptsTake : Untouched s (ptsTake s t count mem) := by
  simp only [Ptyfs.ptsTake]
  refine park (p := .idle) ?_ (by rintro _ _ ⟨⟩)
  exact ⟨rfl, rfl, rfl, rfl, fetch_stored _ _ _ _, fun _ _ _ => id⟩

theorem ptsLeave (intr : s.pty.canonIntr = false) (leaves : !s.pty.ptmFso ∨ s.pty.canonIntr) :
    Untouched s (ptsLeave s t) := by
  unfold Ptyfs.ptsLeave
  rcases leaves with gone | here
  · rw [if_pos gone]
    exact (refl s).park nofun
  · rw [intr] at here
    cases here

theorem ptsReadLoop (noIntr : s.pty.canonIntr = false) : Untouched s (ptsReadLoop s t count mem noDelay intr) := by
  unfold Ptyfs.ptsReadLoop
  split
  · split
    · refine park ?_ (by nofun)
      exact ⟨rfl, rfl, rfl, rfl, rfl, fun _ _ _ => id⟩
    · split
      · rename_i leaves
        exact ptsLeave noIntr leaves.symm
      · split
        · have cleared : Untouched s { s with pty := { s.pty with canonEot := false } } :=
            ⟨rfl, rfl, rfl, rfl, rfl, fun _ _ _ => id⟩
          exact cleared.trans ptsTake
        · split
          · exact (refl s).park nofun
          · refine park ?_ (by nofun)
            exact ⟨rfl, rfl, rfl, rfl, rfl, fun _ _ _ => id⟩
  · exact ptsTake

theorem ptsFull (noIntr : s.pty.canonIntr = false) :
    Untouched s (ptsFull s t ch rest noDelay sig intr) := by
  have done : Untouched s (ptsDone s t) := by
    refine park ?_ (by nofun)
    exact ⟨rfl, rfl, rfl, rfl, rfl, fun _ _ _ => id⟩
  unfold Ptyfs.ptsFull
  rw [noIntr]
  split
  · exact done
  split
  · contradiction
  split
  · exact done
  split
  · exact done
  dsimp only
  split
  · refine park ?_ (by nofun)
    exact ⟨rfl, rfl, rfl, rfl, rfl, fun _ _ _ => id⟩
  · refine park ?_ (by nofun)
    exact ⟨rfl, rfl, rfl, rfl, rfl, fun _ _ _ => id⟩

theorem ptsWriteLoop (buf : List (Option Byte)) : ∀ {s : Sys}, s.pty.canonIntr = false →
    Untouched s (ptsWriteLoop s t noDelay sig intr buf) := by
  induction buf with
  | nil =>
    intro s _
    refine park ?_ (by nofun)
    exact ⟨rfl, rfl, rfl, rfl, rfl, fun _ _ _ => id⟩
  | cons b rest ih =>
    intro s noIntr
    cases b with
    | none =>
      refine park ?_ (by nofun)
      exact ⟨rfl, rfl, rfl, rfl, rfl, fun _ _ _ => id⟩
    | some ch =>
      unfold Ptyfs.ptsWriteLoop
      split
      · exact ptsFull noIntr
      · have stored : Untouched s (storeOut s ch) := ⟨rfl, rfl, rfl, rfl, rfl, fun _ _ _ => id⟩
        exact stored.trans (ih noIntr)

theorem ptsWriteOn (noIntr : s.pty.canonIntr = false) :
    Untouched s (ptsWriteOn s t ch rest sig intr) := by
  unfold Ptyfs.ptsWriteOn
  split
  · exact ptsFull noIntr
  · have stored : Untouched s (storeOut s ch) := ⟨rfl, rfl, rfl, rfl, rfl, fun _ _ _ => id⟩
    exact stored.trans (ptsWriteLoop rest noIntr)

theorem step (noIntr : s.pty.canonIntr = false) (noRaw : ∀ t ch rest, s.pc t ≠ .ptmWriting ch rest)
    (calm : Calm s a) (quiet : ∀ t buf noDelay sig intr, a ≠ .ptmWrite t buf noDelay sig intr)
    (done : Ptyfs.step s a = some s') : Untouched s s' := by
  cases a with
  | ptmWrite t buf noDelay sig intr => exact absurd rfl (quiet t buf noDelay sig intr)
  | tcset tio => exact calm.elim
  | resume t =>
    cases done
    unfold taskResume
    split
    · exact ⟨rfl, rfl, rfl, rfl, rfl, fun _ _ _ => id⟩
    · exact refl s
  | ptmRead t count mem noDelay intr =>
    simp only [Ptyfs.step] at done
    split at done
    · split at done
      · cases done
        exact ptmRead
      · cases done
    · cases done
  | ptsRead t count mem noDelay intr =>
    simp only [Ptyfs.step] at done
    split at done
    · split at done
      · cases done
        unfold ptsRead
        split
        · exact ptsLeave noIntr ‹_›
        · exact ptsReadLoop noIntr
      · cases done
    · cases done
  | ptsWrite t buf noDelay sig intr =>
    simp only [Ptyfs.step] at done
    split at done
    · split at done
      · cases done
        unfold ptsWrite
        split
        · exact refl s
        · exact ptsWriteLoop buf noIntr
      · cases done
    · cases done
  | go t sig intr =>
    simp only [Ptyfs.step] at done
    split at done
    · cases done
    · split at done
      · cases done
      · cases done
        exact ptmRead
      · cases done
        exact ptsReadLoop noIntr
      · rename_i here
        exact absurd here (noRaw t _ _)
      · cases done
        exact ptsWriteOn noIntr
  | _ =>
    simp only [Ptyfs.step] at done
    split at done
    · cases done
      exact ⟨rfl, rfl, rfl, rfl, rfl, fun _ _ _ => id⟩
    · cases done

end Untouched

structure Cooked (tio : Termios) (s : Sys) (bytes : List Byte) : Prop where
  settings : s.pty.tio = tio
  line : line s = (typeAll Page.empty (bytes.map (keyOf tio))).line
  stored : s.pty.inp.stored = (typeAll Page.empty (bytes.map (keyOf tio))).done
  noIntr : s.pty.canonIntr = false
  noRaw : ∀ t ch rest, s.pc t ≠ .ptmWriting ch rest

variable {tio : Termios} {s s' : Sys} {bytes : List Byte}

theorem Cooked.keep (cooked : Cooked tio s bytes) (same : Untouched s s') : Cooked tio s' bytes := by
  refine ⟨same.tio.trans cooked.settings, ?_, same.stored.trans cooked.stored, same.canonIntr.trans cooked.noIntr, ?_⟩
  · rw [Ptyfs.line, same.canonBuf, same.canonCount]
    exact cooked.line
  · exact fun t ch rest here => cooked.noRaw t ch rest (same.raw t ch rest here)

theorem press_line (p q : Page Byte) (k : Key Byte) (same : p.line = q.line) : (press p k).line = (press q k).line := by
  cases k <;> simp [press, same]

theorem Cooked.typed (cooked : Cooked tio s bytes) (roomy : Roomy s ch) :
    Cooked tio (ptyCanonInput s ch) (bytes ++ [ch]) := by
  have edited := canonInput_edited roomy
  rw [cooked.settings] at edited
  refine ⟨edited.tio.trans cooked.settings, ?_, ?_, edited.canonIntr.trans cooked.noIntr, ?_⟩
  · rw [map_append, typeAll_append, edited.line]
    exact press_line _ _ _ cooked.line
  · rw [map_append, typeAll_append, edited.stored, cooked.stored, cooked.line]
    exact (press_done _ _).symm
  · rw [edited.pc]
    exact cooked.noRaw

theorem Cooked.write {t : Nat} {noDelay sig intr : Bool} (canon : tio.lflag &&& fICANON ≠ 0) (buf : List (Option Byte)) :
    ∀ {s : Sys} {bytes : List Byte}, Cooked tio s bytes → AllRoomy s buf →
      Cooked tio (ptmWriteLoop s t noDelay sig intr buf) (bytes ++ fetched buf) := by
  have done : ∀ {s : Sys} {bytes : List Byte}, Cooked tio s bytes → Cooked tio (ptmDone s t) bytes := by
    intro s bytes cooked
    refine cooked.keep ?_
    refine Untouched.park ?_ (by nofun)
    exact ⟨rfl, rfl, rfl, rfl, rfl, fun _ _ _ => id⟩
  induction buf with
  | nil =>
    intro s bytes cooked _
    rw [fetched, takeWhile_nil, filterMap_nil, append_nil]
    exact done cooked
  | cons b rest ih =>
    intro s bytes cooked roomy
    cases b with
    | none =>
      have nothing : fetched (none :: rest) = [] := by simp [fetched]
      rw [nothing, append_nil]
      exact done cooked
    | some ch =>
      have mode : s.has fICANON := by
        unfold Sys.has
        rw [cooked.settings]
        exact canon
      have first : fetched (some ch :: rest) = ch :: fetched rest := by simp [fetched]
      have next := ih (cooked.typed roomy.1) roomy.2
      rw [append_assoc, singleton_append] at next
      unfold ptmWriteLoop
      rw [if_pos mode, first]
      exact next

section
variable (typing : Typing tio s bytes)
include typing

theorem Typing.canon : tio.lflag &&& fICANON ≠ 0 := by
  induction typing with
  | new canon => exact canon
  | step _ _ _ ih => exact ih

theorem Typing.cooked : Cooked tio s bytes := by
  induction typing with
  | new _ => exact ⟨rfl, rfl, rfl, rfl, fun _ _ _ => nofun⟩
  | @step s s' bytes a typing calm done ih =>
    by_cases write : ∃ t buf noDelay sig intr, a = .ptmWrite t buf noDelay sig intr
    · obtain ⟨t, buf, noDelay, sig, intr, rfl⟩ := write
      simp only [Ptyfs.step] at done
      split at done
      · split at done
        · cases done
          unfold ptmWrite
          split
          · rename_i empty
            have nothing : fetched buf = [] := by simp [fetched, empty]
            rw [Act.typed, nothing, append_nil]
            exact ih
          · exact ih.write typing.canon buf calm
        · cases done
      · cases done
    · have quiet : ∀ t buf noDelay sig intr, a ≠ .ptmWrite t buf noDelay sig intr :=
        fun t buf noDelay sig intr eq => write ⟨t, buf, noDelay, sig, intr, eq⟩
      have nothing : a.typed = [] := by
        cases a with
        | ptmWrite t buf noDelay sig intr => exact absurd rfl (quiet t buf noDelay sig intr)
        | _ => rfl
      rw [nothing, append_nil]
      exact ih.keep (Untouched.step ih.noIntr ih.noRaw calm quiet done)

theorem Typing.inv : Inv True s := by
  induction typing with
  | new _ => exact (newPty_inv True).congr rfl rfl (le_refl _) rfl rfl rfl
  | @step s s' bytes a _ calm done ih =>
    refine ih.step (fun _ => ?_) done
    cases a with
    | ptsRead => exact calm
    | _ => trivial

end

/-- The slave reads the finished lines, and those that it has not read yet wait in the ring; the line that is
    not finished is in the line buffer. None of it depends on how the bytes are cut into writes. -/
structure Lined (tio : Termios) (s : Sys) (bytes : List Byte) : Prop where
  done : s.ptsGot ++ window s.pty.inp.buf bufSize s.pty.inp.p1 s.pty.inp.count =
    (typeAll Page.empty (bytes.map (keyOf tio))).done
  read : s.pty.inp.count = 0 → s.ptsGot = (typeAll Page.empty (bytes.map (keyOf tio))).done
  line : line s = (typeAll Page.empty (bytes.map (keyOf tio))).line

theorem canon_lines (typing : Typing tio s bytes) : Lined tio s bytes := by
  have cooked := typing.cooked
  have inv := typing.inv
  have all := inv.inp.bytes
  rw [cooked.stored, ← inv.slave trivial] at all
  refine ⟨all.symm, fun empty => ?_, cooked.line⟩
  rw [empty, window_zero, append_nil] at all
  exact all.symm

/-- The key of a character if all that is not one of the four special ones is text. -/
def plainKey (tio : Termios) (ch : Byte) : Key Byte :=
  if ch = tio.cc vKILL then .kill
  else if ch = tio.cc vERASE then .erase
  else if ch = tio.cc vINTR ∨ ch = tio.cc vQUIT then .skip
  else if ch = 10 then .finish 10
  else .keep ch

theorem slaveOpened_typing : Typing initialTio slaveOpened [] :=
  .step (a := .getPts) (.new (by decide)) trivial rfl

def returnTyped : Sys := ptmWrite slaveOpened 1 [some 97, some 13, some 10] false false false
def returnRead : Sys := ptsRead returnTyped 2 100 zero false false

theorem returnRead_typing : Typing initialTio returnRead [97, 13, 10] := by
  have first : Roomy slaveOpened 97 := ⟨by decide, by decide +kernel⟩
  have second : Roomy (ptyCanonInput slaveOpened 97) 13 := ⟨by decide +kernel, by decide +kernel⟩
  have third : Roomy (ptyCanonInput (ptyCanonInput slaveOpened 97) 13) 10 := ⟨by decide +kernel, by decide +kernel⟩
  have typed : Typing initialTio returnTyped [97, 13, 10] :=
    .step (a := .ptmWrite 1 [some 97, some 13, some 10] false false false) slaveOpened_typing
      ⟨first, second, third, trivial⟩ rfl
  have taken : step returnTyped (.ptsRead 2 100 zero false false) = some returnRead := by
    have idle : returnTyped.pc 2 = .idle := rfl
    have opened : returnTyped.pty.ptsFso = true := by decide +kernel
    simp only [step, idle, opened, if_true]
    rfl
  exact .step (a := .ptsRead 2 100 zero false false) typed (fun delay => by cases delay) taken

theorem canon_lines_return : Lined initialTio returnRead [97, 13, 10] := canon_lines returnRead_typing

/-- The carriage return is not in the line that the slave reads, although it is neither an erase nor a kill
    nor a signal character. -/
theorem canon_lines_not_plain : Typing initialTio returnRead [97, 13, 10] ∧ returnRead.pty.inp.count = 0 ∧
    returnRead.ptsGot = [97, 10] ∧ (typeAll Page.empty ([97, 13, 10].map (plainKey initialTio))).done = [97, 13, 10] :=
  ⟨returnRead_typing, by decide +kernel, by decide +kernel, rfl⟩

end Ptyfs
