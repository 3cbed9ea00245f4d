import Newsys.Tar.RoundTrip

/- The two loops of `tar_open2` (lib/tar.c) over any contents of a file: whether they end, and whether they go to the same
   headers. -/
namespace Tar
open Bytes Ints Kern List Option
open Libc (chr)

section Headers
variable (m : Machine) (tape : List Byte)

def NamedAt (pos : Int) : Prop := (readAt tape pos 512).length = 512 ∧ str (readAt tape pos 512) 0 ≠ []

def BlankAt (pos : Int) : Prop := (readAt tape pos 512).length = 512 ∧ str (readAt tape pos 512) 0 = []

def behind (pos : Int) : Int := offT (pos + 512 + skip m (readAt tape pos 512))

def fileAt (pos : Int) : TarFile := parseHdr m (readAt tape pos 512) (pos + 512)

def counted : Nat → Int → Nat → Option (List Int)
  | 0, _, _ => none
  | n + 1, pos, zcnt =>
    let u := readAt tape pos 512
    if u.length ≠ 512 then some []
    else if str u 0 = [] then
      if 2 ≤ zcnt + 1 then some [] else counted n (offT (pos + 512 + skip m u)) (zcnt + 1)
    else (counted n (offT (pos + 512 + skip m u)) zcnt).map (pos :: ·)

def rounded (size : Int) : Int := offT (size + 511) - offT (size + 511) % 512

def Follows (a b : TarFile) : Prop := a.offset < b.offset ∧ a.offset - 512 ≤ b.offset + rounded b.size

/-- Both loops end, the second one has found what the first one has counted in an `int`, and the members are in order. -/
def Opens : Prop :=
  ∃ n ps tar, counted m tape n 0 0 = some ps ∧ ps.length < 2 ^ 31 ∧ tarOpen2 m tape n = some (some tar) ∧
    tar.files = ps.map (fileAt m tape) ∧ tar.files.IsChain Follows

inductive Visits : Int → Nat → Int → Nat → Prop
  | here (pos : Int) (z : Nat) : Visits pos z pos z
  | named {pos p : Int} {z z' : Nat} (named : NamedAt tape pos) (later : Visits (behind m tape pos) z p z') :
    Visits pos z p z'
  | blank {pos p : Int} {z' : Nat} (blank : BlankAt tape pos) (later : Visits (behind m tape pos) 1 p z') :
    Visits pos 0 p z'

def Next (pos : Int) (z : Nat) (c : Int) : Prop :=
  NamedAt tape pos ∧ c = pos ∨ z = 0 ∧ BlankAt tape pos ∧ NamedAt tape (behind m tape pos) ∧ c = behind m tape pos

/-- Where another header is counted behind it, a header leads forward: one with a name to a member that does not reach
    back, and one without over nothing but blank blocks. -/
structure Leads (pos : Int) (z : Nat) : Prop where
  named (named : NamedAt tape pos) {c : Int} (next : Next m tape (behind m tape pos) z c) :
    pos < behind m tape pos ∧ pos ≤ c + 512 + skip m (readAt tape c 512)
  blank (none : z = 0) (blank : BlankAt tape pos) (next : NamedAt tape (behind m tape pos)) :
    pos < behind m tape pos ∧ ∀ k : Nat, pos + 512 * k < behind m tape pos → BlankAt tape (pos + 512 * k)

/-- So it is all along, and the headers are fewer than an `int` can count. -/
def Forward : Prop :=
  (∀ pos z, Visits m tape 0 0 pos z → Leads m tape pos z) ∧
    ∀ ps : List Int, ps.Nodup → (∀ p ∈ ps, NamedAt tape p ∧ ∃ z, Visits m tape 0 0 p z) → ps.length < 2 ^ 31

end Headers

section Loops
variable {m : Machine} {tape : List Byte} {pos c : Int} {n z : Nat} {ps : List Int}

theorem whole_inside (whole : (readAt tape pos 512).length = 512) : 0 ≤ pos ∧ pos + 512 ≤ tape.length := by
  unfold readAt at whole
  split at whole
  · simp at whole
  · rw [length_take, length_drop] at whole
    omega

theorem behind_aligned (aligned : 512 ∣ pos) : 512 ∣ behind m tape pos := by
  have whole : 512 ∣ skip m (readAt tape pos 512) := by
    unfold skip
    dsimp only
    omega
  unfold behind offT signed
  omega

theorem counted_named (named : NamedAt tape pos) (n z : Nat) :
    counted m tape (n + 1) pos z = (counted m tape n (behind m tape pos) z).map (pos :: ·) := by
  rw [counted]
  rw [if_neg (not_not.mpr named.1), if_neg named.2]
  rfl

theorem counted_blank (blank : BlankAt tape pos) (n z : Nat) :
    counted m tape (n + 1) pos z = if z = 0 then counted m tape n (behind m tape pos) 1 else some [] := by
  rw [counted]
  rw [if_neg (not_not.mpr blank.1), if_pos blank.2]
  by_cases none : z = 0
  · rw [if_neg (by omega), if_pos none, none]
    rfl
  · rw [if_pos (by omega), if_neg none]

theorem counted_short (short : (readAt tape pos 512).length ≠ 512) (n z : Nat) :
    counted m tape (n + 1) pos z = some [] := by
  rw [counted]
  exact if_pos short

theorem block_cases (tape : List Byte) (pos : Int) :
    NamedAt tape pos ∨ BlankAt tape pos ∨ (readAt tape pos 512).length ≠ 512 := by
  by_cases whole : (readAt tape pos 512).length = 512
  · by_cases blank : str (readAt tape pos 512) 0 = []
    · exact .inr (.inl ⟨whole, blank⟩)
    · exact .inl ⟨whole, blank⟩
  · exact .inr (.inr whole)

theorem NamedAt.not_blank (named : NamedAt tape pos) : ¬ BlankAt tape pos := fun blank => named.2 blank.2

theorem countHdrs_eq (m : Machine) (tape : List Byte) (n : Nat) (pos : Int) (z f : Nat) :
    countHdrs m tape n pos z f = (counted m tape n pos z).map fun ps => f + ps.length := by
  induction n generalizing pos z f with
  | zero => rfl
  | succ n ih =>
    unfold countHdrs counted
    dsimp only
    split
    · rfl
    split
    · split
      · rfl
      · exact ih _ _ _
    · rw [ih, Option.map_map]
      congr 1
      funext ps
      simp only [Function.comp_apply, length_cons]
      omega

theorem counted_more (done : counted m tape n pos z = some ps) (more : Nat) :
    counted m tape (n + more) pos z = some ps := by
  induction n generalizing pos z ps with
  | zero => cases done
  | succ n ih =>
    rw [Nat.succ_add]
    rcases block_cases tape pos with named | blank | short
    · rw [counted_named named, map_eq_some_iff] at done
      obtain ⟨ps', done, rfl⟩ := done
      rw [counted_named named, ih done]
      rfl
    · rw [counted_blank blank] at done ⊢
      split
      · rw [if_pos (by assumption)] at done
        exact ih done
      · rw [if_neg (by assumption)] at done
        exact done
    · rw [counted_short short] at done ⊢
      exact done

/-- What the first loop counts from a position on, with so many blank headers in front of it. -/
inductive Counts (m : Machine) (tape : List Byte) : Int → Nat → List Int → Prop where
  | named {pos : Int} {z : Nat} {ps : List Int} (named : NamedAt tape pos)
    (rest : Counts m tape (behind m tape pos) z ps) : Counts m tape pos z (pos :: ps)
  | blank {pos : Int} {ps : List Int} (blank : BlankAt tape pos) (rest : Counts m tape (behind m tape pos) 1 ps) :
    Counts m tape pos 0 ps
  | past {pos : Int} {z : Nat} (blank : BlankAt tape pos) (some : z ≠ 0) : Counts m tape pos z []
  | short {pos : Int} {z : Nat} (short : (readAt tape pos 512).length ≠ 512) : Counts m tape pos z []

theorem counts_of_counted (done : counted m tape n pos z = some ps) : Counts m tape pos z ps := by
  induction n generalizing pos z ps with
  | zero => cases done
  | succ n ih =>
    rcases block_cases tape pos with named | blank | short
    · rw [counted_named named, map_eq_some_iff] at done
      obtain ⟨ps', done, rfl⟩ := done
      exact .named named (ih done)
    · rw [counted_blank blank] at done
      split at done
      · rename_i none
        subst none
        exact .blank blank (ih done)
      · rename_i some
        cases done
        exact .past blank some
    · rw [counted_short short] at done
      cases done
      exact .short short

theorem counted_next (done : Counts m tape pos z ps) : Next m tape pos z c ↔ ps.head? = some c := by
  cases done with
  | named named _ =>
    constructor
    · rintro (⟨_, rfl⟩ | ⟨_, blank, _⟩)
      · rfl
      · exact absurd blank named.not_blank
    · intro same
      exact .inl ⟨named, (some.inj same).symm⟩
  | blank blank rest =>
    have next : Next m tape pos 0 c ↔ NamedAt tape (behind m tape pos) ∧ c = behind m tape pos := by
      constructor
      · rintro (⟨named, _⟩ | ⟨_, _, named, same⟩)
        · exact absurd blank named.not_blank
        · exact ⟨named, same⟩
      · rintro ⟨named, same⟩
        exact .inr ⟨rfl, blank, named, same⟩
    rw [next]
    cases rest with
    | named named _ => exact ⟨fun is => congrArg some is.2.symm, fun same => ⟨named, (some.inj same).symm⟩⟩
    | past blank' _ => exact iff_of_false (fun is => is.1.not_blank blank') (by rintro ⟨⟩)
    | short short => exact iff_of_false (fun is => short is.1.1) (by rintro ⟨⟩)
  | past blank some =>
    refine iff_of_false ?_ (by rintro ⟨⟩)
    rintro (⟨named, _⟩ | ⟨none, _⟩)
    · exact named.not_blank blank
    · exact some none
  | short short =>
    refine iff_of_false ?_ (by rintro ⟨⟩)
    rintro (⟨named, _⟩ | ⟨_, blank, _⟩)
    · exact short named.1
    · exact short blank.1

theorem counted_mem (done : Counts m tape pos z ps) : c ∈ ps ↔ NamedAt tape c ∧ ∃ z', Visits m tape pos z c z' := by
  induction done with
  | @named pos z _ named _ ih =>
    rw [mem_cons, ih]
    constructor
    · rintro (rfl | ⟨at_c, z', visits⟩)
      · exact ⟨named, z, .here c z⟩
      · exact ⟨at_c, z', .named named visits⟩
    · rintro ⟨at_c, z', visits⟩
      cases visits with
      | here => exact .inl rfl
      | named _ later => exact .inr ⟨at_c, z', later⟩
      | blank blank _ => exact absurd blank named.not_blank
  | blank blank _ ih =>
    rw [ih]
    constructor
    · rintro ⟨at_c, z', visits⟩
      exact ⟨at_c, z', .blank blank visits⟩
    · rintro ⟨at_c, z', visits⟩
      cases visits with
      | here => exact absurd blank at_c.not_blank
      | named named _ => exact absurd blank named.not_blank
      | blank _ later => exact ⟨at_c, z', later⟩
  | past blank some =>
    refine iff_of_false not_mem_nil ?_
    rintro ⟨at_c, z', visits⟩
    cases visits with
    | here => exact absurd blank at_c.not_blank
    | named named _ => exact absurd blank named.not_blank
    | blank => exact some rfl
  | short short =>
    refine iff_of_false not_mem_nil ?_
    rintro ⟨at_c, z', visits⟩
    cases visits with
    | here => exact short at_c.1
    | named named _ => exact short named.1
    | blank blank _ => exact short blank.1

/- The second loop -/

theorem readHdrs_done (m : Machine) (tape : List Byte) (n : Nat) (pos off : Int) (tar : Tar) :
    readHdrs m tape n pos off 0 tar = some (some tar) := by
  cases n <;> rfl

theorem readHdrs_named (room : tape.length < 2 ^ 63) (named : NamedAt tape pos) (n left : Nat) (tar : Tar) :
    readHdrs m tape (n + 1) pos pos (left + 1) tar = readHdrs m tape n (behind m tape pos) (behind m tape pos) left
      ⟨tar.files ++ [fileAt m tape pos], behind m tape pos⟩ := by
  obtain ⟨low, high⟩ := whole_inside named.1
  have same : pos + (skip m (readAt tape pos 512) + 512) = pos + 512 + skip m (readAt tape pos 512) := by omega
  rw [readHdrs]
  dsimp only
  rw [if_neg (by rw [named.1]; omega), if_neg named.2, same, offT_eq (n := pos + 512) (by omega) (by omega)]
  rfl

theorem readHdrs_blank (room : tape.length < 2 ^ 63) (blank : BlankAt tape pos) (n left : Nat) (tar : Tar) :
    readHdrs m tape (n + 1) pos pos (left + 1) tar = readHdrs m tape n (pos + 512) (pos + 512) (left + 1) tar := by
  obtain ⟨low, high⟩ := whole_inside blank.1
  rw [readHdrs]
  dsimp only
  rw [if_neg (by rw [blank.1]; omega), if_pos blank.2, offT_eq (n := pos + 512) (by omega) (by omega)]

theorem readHdrs_short (short : (readAt tape pos 512).length ≠ 512) (n left : Nat) (off : Int) (tar : Tar) :
    readHdrs m tape (n + 1) pos off (left + 1) tar = some none := by
  have fewer : (readAt tape pos 512).length ≤ 512 := by
    unfold readAt
    split
    · exact Nat.zero_le _
    · exact length_take_le _ _
  rw [readHdrs]
  exact if_pos (by omega)

theorem readHdrs_more (done : readHdrs m tape n pos off left tar = some r) (more : Nat) :
    readHdrs m tape (n + more) pos off left tar = some r := by
  induction n generalizing pos off left tar with
  | zero =>
    cases left with
    | zero => rwa [readHdrs_done] at done ⊢
    | succ left => cases done
  | succ n ih =>
    cases left with
    | zero => rwa [readHdrs_done] at done ⊢
    | succ left =>
      rw [Nat.succ_add]
      unfold readHdrs at done ⊢
      dsimp only at done ⊢
      split
      · rwa [if_pos (by assumption)] at done
      split
      · rw [if_neg (by assumption), if_pos (by assumption)] at done
        exact ih done
      · rw [if_neg (by assumption), if_neg (by assumption)] at done
        exact ih done

theorem readHdrs_blanks (room : tape.length < 2 ^ 63) (k : Nat) (blanks : ∀ i < k, BlankAt tape (pos + 512 * (i : Nat)))
    (n left : Nat) (tar : Tar) : readHdrs m tape (n + k) pos pos (left + 1) tar =
      readHdrs m tape n (pos + 512 * k) (pos + 512 * k) (left + 1) tar := by
  induction k generalizing pos with
  | zero => simp
  | succ k ih =>
    have first := blanks 0 (by omega)
    rw [Nat.cast_zero, mul_zero, add_zero] at first
    rw [← add_assoc, readHdrs_blank room first, ih ?_]
    · rw [show pos + 512 + 512 * (k : Int) = pos + 512 * (k + 1 : Nat) by omega]
    · intro i less
      have next := blanks (i + 1) (by omega)
      rwa [show pos + 512 * ((i + 1 : Nat) : Int) = pos + 512 + 512 * (i : Int) by omega] at next

theorem readHdrs_first (room : tape.length < 2 ^ 63)
    (done : readHdrs m tape n pos pos (left + 1) tar = some (some tar')) :
    ∃ k n' : Nat, (∀ i < k, BlankAt tape (pos + 512 * (i : Nat))) ∧ NamedAt tape (pos + 512 * k) ∧
      readHdrs m tape n' (pos + 512 * k) (pos + 512 * k) (left + 1) tar = some (some tar') := by
  induction n generalizing pos with
  | zero => cases done
  | succ n ih =>
    rcases block_cases tape pos with named | blank | short
    · refine ⟨0, n + 1, fun i less => absurd less (Nat.not_lt_zero i), ?_, ?_⟩
      · simpa using named
      · simpa using done
    · rw [readHdrs_blank room blank] at done
      obtain ⟨k, n', blanks, named, rest⟩ := ih done
      have shift : ∀ i : Nat, pos + 512 + 512 * (i : Int) = pos + 512 * (i + 1 : Nat) := by
        intro i
        omega
      rw [shift] at named rest
      refine ⟨k + 1, n', ?_, named, rest⟩
      intro i less
      cases i with
      | zero => simpa using blank
      | succ i =>
        rw [← shift]
        exact blanks i (by omega)
    · rw [readHdrs_short short] at done
      cases done

theorem ends_of_none (none : ∀ c, ¬ Next m tape pos z c) : ∃ n, counted m tape n pos z = some [] := by
  rcases block_cases tape pos with named | blank | short
  · exact absurd (.inl ⟨named, rfl⟩) (none pos)
  · by_cases first : z = 0
    · refine ⟨2, ?_⟩
      rw [counted_blank blank, if_pos first]
      rcases block_cases tape (behind m tape pos) with named | blank' | short
      · exact absurd (.inr ⟨first, blank, named, rfl⟩) (none _)
      · rw [counted_blank blank', if_neg (by omega)]
      · exact counted_short short 0 1
    · exact ⟨1, by rw [counted_blank blank, if_neg first]⟩
  · exact ⟨1, counted_short short 0 z⟩

theorem counted_ends (leads : ∀ p z', Visits m tape pos z p z' → Leads m tape p z') :
    ∃ n ps, counted m tape n pos z = some ps := by
  induction left : (tape.length - pos).toNat using Nat.strong_induction_on generalizing pos z with
  | _ left ih =>
    subst left
    have go : ∀ {z' : Nat}, (readAt tape pos 512).length = 512 →
        (∀ c, Next m tape (behind m tape pos) z' c → pos < behind m tape pos) →
        (∀ p z'', Visits m tape (behind m tape pos) z' p z'' → Leads m tape p z'') →
        ∃ n ps, counted m tape n (behind m tape pos) z' = some ps := by
      intro z' whole forward leads'
      obtain ⟨low, high⟩ := whole_inside whole
      by_cases next : ∃ c, Next m tape (behind m tape pos) z' c
      · obtain ⟨c, next⟩ := next
        have less := forward c next
        exact ih _ (by omega) leads' rfl
      · obtain ⟨n, done⟩ := ends_of_none fun c is => next ⟨c, is⟩
        exact ⟨n, [], done⟩
    rcases block_cases tape pos with named | blank | short
    · obtain ⟨n, ps, done⟩ := @go z named.1 (fun c next => ((leads pos z (.here pos z)).named named next).1)
        fun p z' later => leads p z' (.named named later)
      exact ⟨n + 1, pos :: ps, by rw [counted_named named, done]; rfl⟩
    · by_cases first : z = 0
      · subst first
        have forward : ∀ c, Next m tape (behind m tape pos) 1 c → pos < behind m tape pos := by
          rintro c (⟨named, _⟩ | ⟨more, _⟩)
          · exact ((leads pos 0 (.here pos 0)).blank rfl blank named).1
          · exact absurd more (by decide)
        obtain ⟨n, ps, done⟩ := @go 1 blank.1 forward fun p z' later => leads p z' (.blank blank later)
        exact ⟨n + 1, ps, by rw [counted_blank blank, if_pos rfl, done]⟩
      · exact ⟨1, [], by rw [counted_blank blank, if_neg first]⟩
    · exact ⟨1, [], counted_short short 0 z⟩

theorem reads_counted (room : tape.length < 2 ^ 63) (aligned : 512 ∣ pos)
    (leads : ∀ p z', Visits m tape pos z p z' → Leads m tape p z') (done : Counts m tape pos z ps) (tar : Tar) :
    ∃ n' tar', readHdrs m tape n' pos pos ps.length tar = some (some tar') ∧
      tar'.files = tar.files ++ ps.map (fileAt m tape) := by
  have none : ∀ (pos : Int) (tar : Tar), ∃ n' tar', readHdrs m tape n' pos pos 0 tar = some (some tar') ∧
      tar'.files = tar.files ++ [].map (fileAt m tape) :=
    fun pos tar => ⟨0, tar, rfl, (append_nil _).symm⟩
  induction done generalizing tar with
  | @named pos z ps named _ ih =>
    obtain ⟨n', tar', read, files⟩ := ih (behind_aligned aligned) (fun p z' later => leads p z' (.named named later))
      ⟨tar.files ++ [fileAt m tape pos], behind m tape pos⟩
    refine ⟨n' + 1, tar', ?_, ?_⟩
    · rw [length_cons, readHdrs_named room named]
      exact read
    · rw [files, append_assoc]
      rfl
  | @blank pos ps blank rest ih =>
    cases ps with
    | nil => exact none pos tar
    | cons c ps =>
      obtain ⟨named, _⟩ | ⟨more, _⟩ := (counted_next rest).mpr rfl
      · obtain ⟨less, blanks⟩ := (leads pos 0 (.here pos 0)).blank rfl blank named
        have aligned' : 512 ∣ behind m tape pos := behind_aligned aligned
        obtain ⟨k, far⟩ : ∃ k : Nat, behind m tape pos = pos + 512 * k :=
          ⟨((behind m tape pos - pos) / 512).toNat, by omega⟩
        obtain ⟨n', tar', read, files⟩ := ih aligned' (fun p z' later => leads p z' (.blank blank later)) tar
        refine ⟨n' + k, tar', ?_, files⟩
        rw [length_cons, readHdrs_blanks room k fun i less' => blanks i (by omega), ← far]
        exact read
      · exact absurd more (by decide)
  | past => exact none _ tar
  | short => exact none _ tar

theorem counted_chain (leads : ∀ p z', Visits m tape pos z p z' → Leads m tape p z') (done : Counts m tape pos z ps) :
    (ps.map (fileAt m tape)).IsChain Follows := by
  induction done with
  | @named pos z ps named done ih =>
    have rest := ih fun p z' later => leads p z' (.named named later)
    cases ps with
    | nil => exact isChain_singleton _
    | cons c ps =>
      have next := (counted_next (c := c) done).mpr rfl
      obtain ⟨less, back⟩ := (leads pos z (.here pos z)).named named next
      have le : behind m tape pos ≤ c := by
        obtain ⟨_, rfl⟩ | ⟨first, blank, named', rfl⟩ := next
        · exact le_refl _
        · exact le_of_lt ((leads _ z (.named named (.here _ z))).blank first blank named').1
      rw [map_cons, map_cons, isChain_cons_cons]
      refine ⟨⟨?_, ?_⟩, rest⟩
      · change pos + 512 < c + 512
        omega
      · change pos + 512 - 512 ≤ c + 512 + skip m (readAt tape c 512)
        omega
  | blank blank _ ih => exact ih fun p z' later => leads p z' (.blank blank later)
  | past => exact isChain_nil
  | short => exact isChain_nil

theorem leads_of_reads (room : tape.length < 2 ^ 63) (aligned : 512 ∣ pos) (done : Counts m tape pos z ps)
    (read : readHdrs m tape n' pos pos ps.length tar = some (some tar'))
    (files : tar'.files = tar.files ++ ps.map (fileAt m tape)) (chain : (ps.map (fileAt m tape)).IsChain Follows)
    (visits : Visits m tape pos z p z') : Leads m tape p z' := by
  induction done generalizing n' tar tar' p z' with
  | @named pos z ps named done ih =>
    cases n' with
    | zero => cases read
    | succ n' =>
      rw [length_cons, readHdrs_named room named] at read
      have later : ∀ {p z'}, Visits m tape (behind m tape pos) z p z' → Leads m tape p z' := by
        intro p z' visits
        refine ih (behind_aligned aligned) read ?_ ?_ visits
        · rw [files, append_assoc]
          rfl
        · exact chain.tail
      cases visits with
      | here =>
        refine ⟨fun _ c next => ?_, fun _ blank => absurd blank named.not_blank⟩
        have head := (counted_next done).mp next
        cases ps with
        | nil => cases head
        | cons d ps =>
          obtain rfl := some.inj head
          rw [map_cons, map_cons, isChain_cons_cons] at chain
          obtain ⟨less, back⟩ := chain.1
          change pos + 512 < d + 512 at less
          change pos + 512 - 512 ≤ d + 512 + skip m (readAt tape d 512) at back
          refine ⟨?_, by omega⟩
          obtain ⟨_, rfl⟩ | ⟨first, blank, named', rfl⟩ := next
          · omega
          · -- a blank header in front of this one would lead over it
            have aligned' : 512 ∣ behind m tape pos := behind_aligned aligned
            obtain ⟨_, blanks⟩ := (later (.here _ z)).blank first blank named'
            by_contra back'
            have here := blanks ((pos - behind m tape pos) / 512).toNat (by omega)
            rw [show behind m tape pos + 512 * (((pos - behind m tape pos) / 512).toNat : Int) = pos by omega] at here
            exact named.not_blank here
      | named _ visits => exact later visits
      | blank blank _ => exact absurd blank named.not_blank
  | @blank pos ps blank done ih =>
    have aligned' : 512 ∣ behind m tape pos := behind_aligned aligned
    obtain ⟨leads, later⟩ : (NamedAt tape (behind m tape pos) → pos < behind m tape pos ∧
        ∀ k : Nat, pos + 512 * k < behind m tape pos → BlankAt tape (pos + 512 * k)) ∧
        ∀ {p z'}, Visits m tape (behind m tape pos) 1 p z' → Leads m tape p z' := by
      cases ps with
      | nil =>
        refine ⟨fun named => ?_, ih aligned' (readHdrs_done m tape 0 _ _ tar) (append_nil _).symm chain⟩
        have head := (counted_next done).mp (.inl ⟨named, rfl⟩)
        cases head
      | cons c ps =>
        obtain ⟨k, n'', blanks, named, read'⟩ := readHdrs_first room read
        obtain ⟨_, rfl⟩ | ⟨more, _⟩ := (counted_next (c := c) done).mpr rfl
        · have found : pos + 512 * k = behind m tape pos := by
            cases n'' with
            | zero => cases read'
            | succ n'' =>
              rw [readHdrs_named room named] at read'
              obtain ⟨fs, files', -, -⟩ := read_files read'
              rw [files', append_assoc] at files
              have same := (cons.inj (append_cancel_left files)).1
              have offset := congrArg TarFile.offset same
              change pos + 512 * k + 512 = behind m tape pos + 512 at offset
              omega
          rw [found] at read'
          refine ⟨fun named' => ⟨?_, fun i less => blanks i (by omega)⟩, ih aligned' read' files chain⟩
          by_contra not
          have none : k = 0 := by omega
          rw [none, Nat.cast_zero, mul_zero, add_zero] at named
          exact named.not_blank blank
        · exact absurd more (by decide)
    cases visits with
    | here => exact ⟨fun named => absurd blank named.not_blank, fun _ _ => leads⟩
    | named named _ => exact absurd blank named.not_blank
    | blank _ visits => exact later visits
  | past blank more =>
    cases visits with
    | here => exact ⟨fun named => absurd blank named.not_blank, fun first => absurd first more⟩
    | named named _ => exact absurd blank named.not_blank
    | blank => exact absurd rfl more
  | short short =>
    cases visits with
    | here => exact ⟨fun named => absurd named.1 short, fun _ blank => absurd blank.1 short⟩
    | named named _ => exact absurd named.1 short
    | blank blank _ => exact absurd blank.1 short

end Loops

/-- The loops agree if every header leads forward, and a blank one over nothing but blank blocks, where another header is
    counted behind it. -/
theorem opens_iff (m : Machine) (tape : List Byte) (room : tape.length < 2 ^ 63) : Opens m tape ↔ Forward m tape := by
  constructor
  · rintro ⟨n, ps, tar, done, few, opened, files, chain⟩
    rw [tarOpen2_eq, countHdrs_eq, done, map_some, bind_some, zero_add] at opened
    rw [files] at chain
    have counts := counts_of_counted done
    refine ⟨fun p z visits => leads_of_reads room ⟨0, rfl⟩ counts opened files chain visits, ?_⟩
    intro l nodup named
    have inside : l ⊆ ps := fun p mem => (counted_mem counts).mpr (named p mem)
    exact lt_of_le_of_lt (subperm_of_subset nodup inside).length_le few
  · rintro ⟨leads, few⟩
    obtain ⟨n, ps, done⟩ := counted_ends leads
    have counts := counts_of_counted done
    obtain ⟨n', tar, read, files⟩ := reads_counted room ⟨0, rfl⟩ leads counts ⟨[], 0⟩
    have chain := counted_chain leads counts
    have increasing : ps.IsChain (· < ·) := by
      rw [isChain_map] at chain
      refine chain.imp ?_
      intro a b follows
      have less : a + 512 < b + 512 := follows.1
      omega
    have nodup : ps.Nodup := (isChain_iff_pairwise.mp increasing).imp fun less => ne_of_lt less
    refine ⟨n + n', ps, tar, counted_more done n', ?_, ?_, files, ?_⟩
    · exact few ps nodup fun p mem => (counted_mem counts).mp mem
    · rw [tarOpen2_eq, countHdrs_eq, counted_more done n', map_some, bind_some, zero_add, add_comm]
      exact readHdrs_more read n
    · rw [files]
      exact chain

/-- A header without a name that says that 512 bytes follow, one with the name "a" there, and one with the name "b". -/
def strayTape : List Byte :=
  replicate 124 0 ++ [chr '1', chr '0', chr '0', chr '0'] ++ replicate 384 0 ++
    chr 'a' :: replicate 511 0 ++ chr 'b' :: replicate 511 0

/-- Two members without content. -/
def plainTape : List Byte := chr 'a' :: replicate 511 0 ++ chr 'b' :: replicate 511 0

theorem opens_iff_plain : Opens .i386 plainTape ∧ Forward .i386 plainTape := by
  have both : Opens .i386 plainTape :=
    ⟨3, [0, 512], ⟨[0, 512].map (fileAt .i386 plainTape), 1024⟩, by decide +kernel, by decide, by decide +kernel, rfl,
      .cons_cons ⟨by decide +kernel, by decide +kernel⟩ (.singleton _)⟩
  exact ⟨both, (opens_iff .i386 plainTape (by decide +kernel)).mp both⟩

/-- The first loop counts "b" and the second one finds "a". -/
theorem not_opens : ¬ Opens .i386 strayTape := by
  rintro ⟨n, ps, tar, done, _, opened, files, chain⟩
  rw [tarOpen2_eq, countHdrs_eq, done, map_some, bind_some, zero_add] at opened
  rw [files] at chain
  have leads := leads_of_reads (by decide +kernel) ⟨0, rfl⟩ (counts_of_counted done) opened files chain (.here 0 0)
  have far : behind .i386 strayTape 0 = 1024 := by decide +kernel
  have blank : BlankAt strayTape 0 := by
    constructor <;> decide +kernel
  have named : NamedAt strayTape 1024 := by
    constructor <;> decide +kernel
  obtain ⟨_, blanks⟩ := leads.blank rfl blank (by rw [far]; exact named)
  have between := (blanks 1 (by rw [far]; decide)).2
  exact absurd between (by decide +kernel)

end Tar
