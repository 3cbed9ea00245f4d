import Newsys.Tar.Stored

/- From the archiver (cmd/bin/tar.c) to the library (lib/tar.c): which archives come back as they were meant. -/
namespace Tar
open Bytes Ints Kern Cstr Libc Cmds Cmd List Nat Option

def pathMax : Nat := 256

/-- What is found is the member, and a read delivers its data; `ssize_t` has to hold the length. -/
structure ReadsBack (m : Machine) (tape : List Byte) (member : Member × List Byte) (file : TarFile) : Prop where
  fields : file = member.1.file file.offset
  data (off len : Nat) (low : off < 2 ^ 63) (small : len < 2 ^ (longBits m - 1)) :
    tarRead m tape file len off = some ((member.2.drop off).take len)

/-- The library finds in the archive the members that have not been warned of, in their order. -/
def RoundTrips (m : Machine) (members : List (List Byte × Node)) : Prop :=
  let vs := (visits [] members).1
  let out := create m members
  out.1 = .ok () ∧ out.2.warned = vs.flatMap Visit.warnings ∧ ∃ n tar, tarOpen2 m out.2.tape n = some (some tar) ∧
    List.Forall₂ (ReadsBack m out.2.tape) (vs.filterMap Visit.expected) tar.files

/-- Path names are strings that the system accepts, and files have as many bytes as `stat` says. -/
def Visit.Sound : Visit → Prop
  | .lost _ => True
  | .seen mem data _ => (0 : Byte) ∉ mem.pathname ∧ (0 : Byte) ∉ mem.link ∧ mem.link.length < pathMax ∧
      mem.size = data.length

/-- No number overflows into the next field, and headers and data go together: a file that cannot be opened has a header
    and no data, and one with a name that is too long has data and no header. -/
def Visit.Framed : Visit → Prop
  | .lost _ => True
  | .seen mem data opens => mem.Narrow ∧ (mem.linkType ≠ tarLtDir → opens) ∧ (TooLong mem.pathname → data = [])

def Visit.Held : Visit → Prop
  | .lost _ => True
  | .seen mem _ _ => ¬ TooLong mem.pathname → mem.pathname ≠ [] ∧ mem.Fits

def Visit.long : Visit → Bool
  | .lost _ => false
  | .seen mem _ _ => TooLong mem.pathname

/-- Not more than one header without a name comes before any member, as there have been some before. -/
def Clear (before : Nat) (vs : List Visit) : Prop :=
  ∀ pre v post, vs = pre ++ v :: post → v.expected.isSome → before + pre.countP Visit.long ≤ 1

/- The pieces of an archive -/

inductive Piece (m : Machine) : Visit → List Byte → Prop where
  | lost (pathname : List Byte) : Piece m (.lost pathname) []
  | long {mem : Member} {opens : Bool} {u : List Byte} (long : TooLong mem.pathname) (length : u.length = 512)
      (blank : Blank m u) : Piece m (.seen mem [] opens) u
  | kept {mem : Member} {data : List Byte} {hd : Mem} (short : ¬ TooLong mem.pathname) (filled : Filled m hd mem)
      (narrow : mem.Narrow) (link : mem.link.length < pathMax) (size : mem.size = data.length) :
      Piece m (.seen mem data true) (slice hd 0 512 ++ padded512 data)

section Reader
variable {m : Machine} {tape rest u data : List Byte} {vs : List Visit} {chunks : List (List Byte)}

variable {v : Visit}

theorem piece_of_chunk (chunk : Chunk m v c) (sound : v.Sound) (framed : v.Framed)
    (enters : v.Enters) : Piece m v c := by
  cases chunk with
  | lost pathname => exact .lost pathname
  | @seen mem data opens hd heads =>
    obtain ⟨noNul, noNul', link, size⟩ := sound
    obtain ⟨narrow, opened, empty⟩ := framed
    have opens : opens = true := by
      by_cases dir : mem.linkType = tarLtDir
      · exact enters dir
      · exact opened dir
    subst opens
    rw [if_pos rfl]
    by_cases long : TooLong mem.pathname
    · obtain rfl := empty long
      have none : padded512 [] = [] := rfl
      rw [none, append_nil]
      exact .long long (slice_length _ _ _) (heads.blank long)
    · exact .kept long (heads.filled long noNul noNul' narrow) narrow link size

theorem offT_eq (low : 0 ≤ n) (high : n < 2 ^ 63) : offT n = n :=
  signed_eq (by decide) ⟨le_trans (by decide) low, high⟩

variable {pos : Nat}

section
variable (here : tape.drop pos = u ++ rest)
include here

theorem readAt_eq (length : u.length = 512) : readAt tape pos 512 = u := by
  rw [readAt, if_neg (by omega), Int.toNat_natCast, here, ← length]
  exact take_left

theorem drop_behind : tape.drop (pos + u.length) = rest := by
  rw [← drop_drop, here]
  exact drop_left

theorem below_end (some : u ≠ []) : pos + u.length ≤ tape.length := by
  have length := congrArg length here
  have pos' := length_pos_iff.mpr some
  rw [length_drop, length_append] at length
  omega

end

variable {n : Nat}

theorem skip_of_size (m : Machine) (size : valueAt m u atSize = n) (small : n < 2 ^ 62) : skip m u = roundUp n := by
  have first : offT n = n := offT_eq (by omega) (by omega)
  unfold skip roundUp
  rw [size, first]
  dsimp only
  rw [offT_eq (by omega) (by omega)]
  omega

theorem skip_blank (blank : Blank m u) : skip m u = 0 := skip_of_size m blank.size (by decide)

theorem tarRead_eq {file : TarFile} (here : tape.drop pos = data ++ rest) (low : pos + data.length < 2 ^ 63)
    (size : file.size = data.length) (small : data.length < 2 ^ 32) (offset : file.offset = pos) (off len : Nat)
    (fits : len < 2 ^ (longBits m - 1)) : tarRead m tape file len off = some ((data.drop off).take len) := by
  rw [tarRead]
  by_cases past : (off : Int) > file.size
  · rw [if_pos past, drop_of_length_le (by omega), take_nil]
  · rw [if_neg past, size, offset]
    have le : off ≤ data.length := by omega
    have room : len < 2 ^ 63 := by cases m <;> simp only [longBits] at fits <;> omega
    have compare : pastEnd m data.length off len = decide (data.length < off + len) := by
      cases m with
      | i386 =>
        have room : len < 2 ^ 31 := fits
        rw [pastEnd, offT_eq (by omega) (by omega)]
        exact decide_eq_decide.mpr (by omega)
      | amd64 =>
        rw [pastEnd, unsigned_eq (by omega) (by omega), unsigned_eq (by omega) (by omega)]
        exact decide_eq_decide.mpr (by omega)
    have left : (unsigned (longBits m) ((data.length : Int) - off)).toNat = data.length - off := by
      rw [unsigned_eq (by omega) (by cases m <;> simp only [longBits] <;> omega)]
      omega
    have cut : ∀ n, n ≤ data.length - off → readAt tape (pos + off : Nat) n = (data.drop off).take n := by
      intro n within
      rw [readAt, if_neg (by omega), Int.toNat_natCast, ← drop_drop, here, drop_append_of_le_length le,
        take_append_of_le_length (by rw [length_drop]; exact within)]
    dsimp only
    rw [compare, left, offT_eq (by omega) (by omega), if_neg (by omega), ← cast_add]
    by_cases long : data.length < off + len
    · rw [if_pos (decide_eq_true long), cut _ (le_refl _), take_of_length_le (by rw [length_drop]),
        take_of_length_le (by rw [length_drop]; omega)]
    · rw [if_neg (by simpa using long), cut _ (by omega)]

/- The two loops, at a block -/

section Steps
variable {pos : Nat} (here : tape.drop pos = u ++ rest) (length : u.length = 512)

include here length

theorem count_blank (blank : Blank m u) (room : pos + 512 < 2 ^ 63) (n z f : Nat) :
    countHdrs m tape (n + 1) pos z f = if 2 ≤ z + 1 then some f else countHdrs m tape n (pos + 512 : Nat) (z + 1) f := by
  rw [countHdrs, readAt_eq here length]
  rw [if_neg (not_not.mpr length), if_pos blank.pathname, skip_blank blank, offT_eq (by omega) (by omega), add_zero]
  rfl

theorem count_named (named : str u 0 ≠ []) (n z f : Nat) :
    countHdrs m tape (n + 1) pos z f = countHdrs m tape n (offT (pos + 512 + skip m u)) z (f + 1) := by
  rw [countHdrs, readAt_eq here length]
  rw [if_neg (not_not.mpr length), if_neg named]

theorem read_blank (blank : Blank m u) (room : pos + 512 < 2 ^ 63) (n left : Nat) (tar : Tar) :
    readHdrs m tape (n + 1) pos pos (left + 1) tar =
      readHdrs m tape n (pos + 512 : Nat) (pos + 512 : Nat) (left + 1) tar := by
  rw [readHdrs, readAt_eq here length]
  dsimp only
  rw [if_neg (by omega), if_pos blank.pathname, offT_eq (by omega) (by omega)]
  rfl

theorem read_named (named : str u 0 ≠ []) (room : pos + 512 < 2 ^ 63) (n left : Nat) (tar : Tar) :
    readHdrs m tape (n + 1) pos pos (left + 1) tar = readHdrs m tape n (offT (pos + 512 + skip m u))
      (offT (pos + 512 + skip m u)) left ⟨tar.files ++ [parseHdr m u (pos + 512 : Nat)], offT (pos + 512 + skip m u)⟩ := by
  have same : (pos : Int) + (skip m u + 512) = pos + 512 + skip m u := by omega
  rw [readHdrs, readAt_eq here length]
  dsimp only
  rw [if_neg (by omega), if_neg named, same, offT_eq (n := pos + 512) (by omega) (by omega)]
  rfl

end Steps

/- What the two loops do, whatever there is -/

theorem count_ge : ∀ {pos : Int} {z f c : Nat}, countHdrs m tape n pos z f = some c → f ≤ c := by
  induction n with
  | zero => exact fun done => absurd done (by simp [countHdrs])
  | succ n ih =>
    intro pos z f c done
    rw [countHdrs] at done
    split at done
    · exact le_of_eq (some.inj done)
    · split at done
      · split at done
        · exact le_of_eq (some.inj done)
        · exact ih done
      · exact le_of_succ_le (ih done)

theorem read_files : ∀ {pos off : Int} {left : Nat} {tar tar' : Tar},
    readHdrs m tape n pos off left tar = some (some tar') →
    ∃ fs, tar'.files = tar.files ++ fs ∧ fs.length = left ∧ ∀ file ∈ fs, file.pathname ≠ [] := by
  have none : ∀ {n : Nat} {pos off : Int} {tar tar' : Tar}, readHdrs m tape n pos off 0 tar = some (some tar') →
      ∃ fs, tar'.files = tar.files ++ fs ∧ fs.length = 0 ∧ ∀ file ∈ fs, file.pathname ≠ [] := by
    intro n pos off tar tar' done
    cases n <;> rw [readHdrs] at done <;> cases done <;> exact ⟨[], (append_nil _).symm, rfl, nofun⟩
  induction n with
  | zero =>
    intro pos off left tar tar' done
    cases left with
    | zero => exact none done
    | succ left => exact absurd done (by simp [readHdrs])
  | succ n ih =>
    intro pos off left tar tar' done
    cases left with
    | zero => exact none done
    | succ left =>
      rw [readHdrs] at done
      dsimp only at done
      split at done
      · exact absurd done (by simp)
      · split at done
        · exact ih done
        · rename_i named
          obtain ⟨fs, files, length, names⟩ := ih done
          refine ⟨parseHdr m _ (offT (off + 512)) :: fs, ?_, congrArg Nat.succ length, forall_mem_cons.mpr ⟨named, names⟩⟩
          rw [files, append_assoc]
          rfl

/- One piece after another -/

theorem clear_cons :
    Clear before (v :: vs) ↔ (v.expected.isSome → before ≤ 1) ∧ Clear (before + if v.long then 1 else 0) vs := by
  constructor
  · intro clear
    refine ⟨fun some => clear [] v vs rfl some, fun pre w post eq some => ?_⟩
    have all := clear (v :: pre) w post (congrArg (v :: ·) eq) some
    rw [countP_cons] at all
    omega
  · rintro ⟨first, others⟩ pre w post eq some
    cases pre with
    | nil =>
      obtain ⟨rfl, rfl⟩ := cons.inj eq
      exact first some
    | cons x pre =>
      obtain ⟨rfl, same⟩ := cons.inj eq
      have all := others pre w post same some
      rw [countP_cons]
      omega

theorem clear_of_none (none : vs.filterMap Visit.expected = []) : Clear before vs := by
  intro pre v post eq some
  rw [eq, filterMap_append, filterMap_cons] at none
  obtain ⟨member, got⟩ := isSome_iff_exists.mp some
  rw [got] at none
  exact absurd none (by simp)

theorem expected_long (long : TooLong mem.pathname) : (Visit.seen mem data opens).expected = none := if_neg fun h => h.1 long

theorem expected_kept (short : ¬ TooLong mem.pathname) :
    (Visit.seen mem data true).expected = some (mem, data) := if_pos ⟨short, rfl⟩

theorem held_of_unexpected (piece : Piece m v c) (none : v.expected = none) : v.Held := by
  cases piece with
  | lost pathname => trivial
  | long long length blank => exact fun short => absurd long short
  | kept short => exact absurd none (by rw [expected_kept short]; exact some_ne_none _)

theorem all_held_of_none (pieces : List.Forall₂ (Piece m) vs chunks) (none : vs.filterMap Visit.expected = []) :
    ∀ v ∈ vs, v.Held := by
  induction pieces with
  | nil => exact nofun
  | @cons v c vs chunks piece pieces ih =>
    rw [filterMap_cons] at none
    cases got : v.expected with
    | none =>
      rw [got] at none
      exact forall_mem_cons.mpr ⟨held_of_unexpected piece got, ih none⟩
    | some member =>
      rw [got] at none
      exact absurd none (by simp)

theorem block_ne_nil (hd : Mem) (s : List Byte) : slice hd 0 512 ++ s ≠ [] := by
  refine ne_nil_of_length_pos ?_
  rw [length_append, slice_length]
  omega

section Kept
variable {mem : Member} {hd : Mem} (filled : Filled m hd mem)

include filled

theorem str_kept (short : ¬ TooLong mem.pathname) : str (slice hd 0 512) 0 = mem.pathname := by
  have name : mem.pathname.length < 100 := Nat.lt_of_not_le short
  exact str_of_holds filled.pathname (by omega)

theorem skip_kept (size : mem.size = data.length) (small : mem.size < 2 ^ 32) :
    skip m (slice hd 0 512) = roundUp data.length := by
  refine skip_of_size m ?_ (by omega)
  have value : (valueAt m (slice hd 0 512) atSize : Int) = data.length := by
    rw [← size]
    exact valueAt_octal filled.size (by rw [length_eleven]; decide) (by decide) (by omega) small
  exact_mod_cast value

theorem next_kept (size : mem.size = data.length) (small : mem.size < 2 ^ 32)
    (room : pos + (512 + roundUp data.length) < 2 ^ 63) :
    offT (pos + 512 + skip m (slice hd 0 512)) = (pos + (512 + roundUp data.length) : Nat) := by
  rw [skip_kept filled size small, offT_eq (by omega) (by omega)]
  omega

theorem reads_kept {pos : Nat} (here : tape.drop pos = (slice hd 0 512 ++ padded512 data) ++ rest)
    (room : tape.length < 2 ^ 63) (short : ¬ TooLong mem.pathname) (narrow : mem.Narrow)
    (link : mem.link.length < pathMax) (size : mem.size = data.length) (fits : mem.Fits) :
    ReadsBack m tape (mem, data) (parseHdr m (slice hd 0 512) (pos + 512 : Nat)) := by
  have file := parse_filled filled narrow fits short link (pos + 512 : Nat)
  have small := fits.size.2
  have behind : tape.drop (pos + 512) = padded512 data ++ rest := by
    rw [append_assoc] at here
    have behind := drop_behind here
    rw [slice_length] at behind
    exact behind
  have all := below_end here (block_ne_nil _ _)
  rw [length_append, slice_length, padded512_length] at all
  have le := le_roundUp data.length
  rw [padded512, append_assoc] at behind
  refine ⟨by rw [file]; rfl, fun off len low fits' => ?_⟩
  rw [file]
  exact tarRead_eq behind (by omega) size (by omega) rfl off len fits'

end Kept

theorem reads_back (pieces : List.Forall₂ (Piece m) vs chunks) (room : tape.length < 2 ^ 63) :
    ∀ {pos z : Nat}, tape.drop pos = chunks.flatten ++ replicate 1024 0 → z ≤ 1 → (∀ v ∈ vs, v.Held) →
    Clear z vs → ∀ {n : Nat} (f : Nat) (tar : Tar), vs.length + 2 ≤ n →
    countHdrs m tape n pos z f = some (f + (vs.filterMap Visit.expected).length) ∧
    ∃ tar' fs, readHdrs m tape n pos pos (vs.filterMap Visit.expected).length tar = some (some tar') ∧
      tar'.files = tar.files ++ fs ∧ List.Forall₂ (ReadsBack m tape) (vs.filterMap Visit.expected) fs := by
  have none : ∀ (n : Nat) (pos : Int) (tar : Tar), ∃ tar' fs, readHdrs m tape n pos pos 0 tar = some (some tar') ∧
      tar'.files = tar.files ++ fs ∧ List.Forall₂ (ReadsBack m tape) [] fs := by
    intro n pos tar
    refine ⟨tar, [], ?_, (append_nil _).symm, .nil⟩
    cases n <;> rfl
  induction pieces with
  | nil =>
    intro pos z here le held clear n f tar fuel
    refine ⟨?_, none n pos tar⟩
    -- the two blocks at the end
    obtain ⟨n, rfl⟩ : ∃ n', n = n' + 2 := ⟨n - 2, by simp at fuel; omega⟩
    rw [flatten_nil, nil_append, show 1024 = 512 + 512 from rfl, replicate_add] at here
    have length : (replicate 512 (0 : Byte)).length = 512 := length_replicate
    have blank := blank_zeros m
    generalize replicate 512 (0 : Byte) = u at here length blank
    have some : u ≠ [] := ne_nil_of_length_pos (by omega)
    have within := below_end here some
    have behind := drop_behind here
    rw [length, ← append_nil u] at behind
    have within' := below_end behind some
    rw [length] at within within'
    rw [count_blank here length blank (by omega)]
    split
    · rfl
    · rw [count_blank behind length blank (by omega), if_pos (by omega)]
      rfl
  | @cons v c vs chunks piece pieces ih =>
    intro pos z here le held clear n f tar fuel
    obtain ⟨n, rfl⟩ : ∃ n', n = n' + 1 := ⟨n - 1, by omega⟩
    obtain ⟨first, helds⟩ := forall_mem_cons.mp held
    obtain ⟨counted, clears⟩ := clear_cons.mp clear
    have fuel' : vs.length + 2 ≤ n := by simp at fuel; omega
    rw [flatten_cons, append_assoc] at here
    cases piece with
    | lost pathname => exact ih here le helds clears f tar (by omega)
    | @long mem opens u long length blank =>
      have within := below_end here (ne_nil_of_length_pos (by omega))
      have behind := drop_behind here
      rw [length] at within behind
      have one : (Visit.seen mem [] opens).long = true := decide_eq_true long
      rw [one, if_pos rfl] at clears
      rw [filterMap_cons, expected_long long, count_blank here length blank (by omega)]
      dsimp only
      by_cases last : 2 ≤ z + 1
      · -- no member may come behind it
        have all : vs.filterMap Visit.expected = [] := by
          rw [filterMap_eq_nil_iff]
          intro v mem
          by_contra some
          obtain ⟨pre, post, eq⟩ := append_of_mem mem
          have bound := clears pre v post eq (isSome_iff_ne_none.mpr some)
          omega
        rw [if_pos last, all]
        exact ⟨rfl, none _ _ _⟩
      · rw [if_neg last]
        obtain ⟨count, read⟩ := ih behind (by omega) helds clears f tar fuel'
        refine ⟨count, ?_⟩
        cases left : (vs.filterMap Visit.expected).length with
        | zero =>
          rw [length_eq_zero_iff.mp left]
          exact none _ _ _
        | succ left =>
          rw [read_blank here length blank (by omega)]
          rw [left] at read
          exact read
    | @kept mem data hd short filled narrow link size =>
      obtain ⟨some, fits⟩ := first short
      have named : str (slice hd 0 512) 0 ≠ [] := by
        rw [str_kept filled short]
        exact some
      have within := below_end here (block_ne_nil _ _)
      have behind := drop_behind here
      rw [length_append, slice_length, padded512_length] at within behind
      have back := reads_kept filled here room short narrow link size fits
      rw [append_assoc] at here
      have length := slice_length hd 0 512
      have zero : (Visit.seen mem data true).long = false := decide_eq_false short
      rw [zero, if_neg Bool.false_ne_true, add_zero] at clears
      rw [filterMap_cons, expected_kept short]
      dsimp only
      rw [length_cons, count_named here length named, read_named here length named (by omega),
        next_kept filled size fits.size.2 (by omega)]
      obtain ⟨count, tar', fs, read, files, reads⟩ := ih behind le helds clears (f + 1)
        ⟨tar.files ++ [parseHdr m (slice hd 0 512) (pos + 512 : Nat)], (pos + (512 + roundUp data.length) : Nat)⟩ fuel'
      refine ⟨by rw [count, add_assoc, add_comm 1], tar', _ :: fs, read, ?_, .cons back reads⟩
      rw [files, append_assoc]
      rfl

theorem held_of_reads (pieces : List.Forall₂ (Piece m) vs chunks) (room : tape.length < 2 ^ 63) :
    ∀ {pos z : Nat}, tape.drop pos = chunks.flatten ++ rest → z ≤ 1 → ∀ {n n' f c : Nat} {tar tar' : Tar},
    countHdrs m tape n pos z f = some c → readHdrs m tape n' pos pos (c - f) tar = some (some tar') →
    ∀ {fs : List TarFile}, tar'.files = tar.files ++ fs →
    List.Forall₂ (ReadsBack m tape) (vs.filterMap Visit.expected) fs → (∀ v ∈ vs, v.Held) ∧ Clear z vs := by
  induction pieces with
  | nil =>
    intros
    exact ⟨nofun, clear_of_none rfl⟩
  | @cons v c vs chunks piece pieces ih =>
    intro pos z here le n n' f count tar tar' counted read fs files reads
    obtain ⟨fs', files', length', names⟩ := read_files read
    obtain rfl : fs = fs' := append_cancel_left (files.symm.trans files')
    -- where no file is left, no member is expected any more
    have ended : count - f = 0 → (∀ w ∈ v :: vs, w.Held) ∧ Clear z (v :: vs) := by
      intro zero
      obtain rfl : fs = [] := length_eq_zero_iff.mp (length'.trans zero)
      have none := forall₂_nil_right_iff.mp reads
      exact ⟨all_held_of_none (.cons piece pieces) none, clear_of_none none⟩
    rw [clear_cons, forall_mem_cons]
    rw [clear_cons, forall_mem_cons] at ended
    rw [flatten_cons, append_assoc] at here
    cases n with
    | zero => exact absurd counted (by simp [countHdrs])
    | succ n =>
      cases piece with
      | lost pathname =>
        obtain ⟨held, clear⟩ := ih here le counted read files reads
        exact ⟨⟨trivial, held⟩, fun _ => le, clear⟩
      | @long mem opens u long length blank =>
        have within := below_end here (ne_nil_of_length_pos (by omega))
        have behind := drop_behind here
        rw [length] at within behind
        have one : (Visit.seen mem [] opens).long = true := decide_eq_true long
        rw [count_blank here length blank (by omega)] at counted
        by_cases last : 2 ≤ z + 1
        · rw [if_pos last] at counted
          obtain rfl := some.inj counted
          exact ended (Nat.sub_self _)
        · rw [if_neg last] at counted
          cases left : count - f with
          | zero => exact ended left
          | succ left =>
            cases n' with
            | zero => exact absurd read (by rw [left]; simp [readHdrs])
            | succ n' =>
              rw [left, read_blank here length blank (by omega), ← left] at read
              rw [filterMap_cons, expected_long long] at reads
              obtain ⟨held, clear⟩ := ih behind (by omega) counted read files reads
              refine ⟨⟨fun short => absurd long short, held⟩, fun _ => le, ?_⟩
              rw [one, if_pos rfl]
              exact clear
      | @kept mem data hd short filled narrow link size =>
        have within := below_end here (block_ne_nil _ _)
        have behind := drop_behind here
        rw [length_append, slice_length, padded512_length] at within behind
        rw [append_assoc] at here
        have length := slice_length hd 0 512
        have zero : (Visit.seen mem data true).long = false := decide_eq_false short
        rw [filterMap_cons, expected_kept short] at reads
        cases reads with
        | @cons _ file _ fs back reads =>
          have some : mem.pathname ≠ [] := by
            have name := names file mem_cons_self
            rw [back.fields] at name
            exact name
          have named : str (slice hd 0 512) 0 ≠ [] := by
            rw [str_kept filled short]
            exact some
          rw [count_named here length named] at counted
          have more := count_ge counted
          obtain ⟨left, eq⟩ : ∃ left, count - f = left + 1 := ⟨count - (f + 1), by omega⟩
          have eq' : count - (f + 1) = left := by omega
          cases n' with
          | zero => exact absurd read (by rw [eq]; simp [readHdrs])
          | succ n' =>
            rw [eq, read_named here length named (by omega), ← eq'] at read
            obtain ⟨fs', files', -, -⟩ := read_files read
            have first : file :: fs = parseHdr m (slice hd 0 512) (pos + 512 : Nat) :: fs' := by
              refine append_cancel_left (files.symm.trans (files'.trans ?_))
              rw [append_assoc]
              rfl
            obtain ⟨rfl, rfl⟩ := cons.inj first
            have fits := fits_of_parse filled back.fields
            rw [next_kept filled size fits.size.2 (by omega)] at counted read
            obtain ⟨held, clear⟩ := ih behind le counted read files' reads
            refine ⟨⟨fun _ => ⟨some, fits⟩, held⟩, fun _ => le, ?_⟩
            rw [zero, if_neg Bool.false_ne_true]
            exact clear

theorem tarOpen2_eq (m : Machine) (tape : List Byte) (n : Nat) : tarOpen2 m tape n =
    (countHdrs m tape n 0 0 0).bind fun fcnt => readHdrs m tape n 0 0 fcnt ⟨[], 0⟩ := by
  rw [tarOpen2]
  cases countHdrs m tape n 0 0 0 with
  | none => rfl
  | some fcnt =>
    cases fcnt with
    | zero => cases n <;> rfl
    | succ fcnt => rfl

theorem pieces_of_chunks (each : List.Forall₂ (Chunk m) vs chunks) (sound : ∀ v ∈ vs, v.Sound)
    (framed : ∀ v ∈ vs, v.Framed) (enters : ∀ v ∈ vs, v.Enters) : List.Forall₂ (Piece m) vs chunks := by
  induction each with
  | nil => exact .nil
  | cons chunk each ih =>
    rw [forall_mem_cons] at sound framed enters
    exact .cons (piece_of_chunk chunk sound.1 framed.1 enters.1) (ih sound.2 framed.2 enters.2)

end Reader

/-- Archives whose headers and data go together come back just if every directory can be opened, every header holds its
    member, and no member is behind two headers without a name. -/
theorem round_trips_iff (m : Machine) (members : List (List Byte × Node))
    (sound : ∀ v ∈ (visits [] members).1, v.Sound) (framed : ∀ v ∈ (visits [] members).1, v.Framed)
    (room : (create m members).2.tape.length < 2 ^ 63) :
    RoundTrips m members ↔ (∀ v ∈ (visits [] members).1, v.Enters) ∧ (∀ v ∈ (visits [] members).1, v.Held) ∧
      Clear 0 (visits [] members).1 := by
  have spec := create_spec m members
  rw [RoundTrips]
  generalize (visits [] members).1 = vs at sound framed spec ⊢
  rw [wp, ← create] at spec
  generalize create m members = out at room spec ⊢
  obtain ⟨r, o⟩ := out
  rcases r with _ | _ | _
  · obtain ⟨enters, ⟨chunks, each, tape⟩, warned⟩ := spec
    have pieces := pieces_of_chunks each sound framed enters
    have here : o.tape.drop 0 = chunks.flatten ++ replicate 1024 0 := tape
    constructor
    · rintro ⟨-, -, n, tar, opened, reads⟩
      rw [tarOpen2_eq] at opened
      obtain ⟨fcnt, counted, read⟩ := bind_eq_some_iff.mp opened
      obtain ⟨held, clear⟩ := held_of_reads pieces room here (zero_le 1) counted read rfl reads
      exact ⟨enters, held, clear⟩
    · rintro ⟨-, held, clear⟩
      obtain ⟨counted, tar, fs, read, files, reads⟩ :=
        reads_back pieces room here (zero_le 1) held clear 0 ⟨[], 0⟩ (le_refl _)
      refine ⟨rfl, warned, vs.length + 2, tar, ?_, ?_⟩
      · rw [zero_add] at counted
        rw [tarOpen2_eq]
        exact bind_eq_some_iff.mpr ⟨_, counted, read⟩
      · rw [files]
        exact reads
  · exact spec.elim
  · obtain ⟨v, mem, not⟩ := spec
    exact iff_of_false (fun trips => by cases trips.1) fun good => not (good.1 v mem)

section Link

def linkStat : Stat := { dev := 1, ino := 7, mode := 0o644, nlink := 2, uid := 3, gid := 4, size := 2, mtime := 1000 }

def linkMembers : List (List Byte × Node) :=
  [([chr 'a'], .found linkStat true [1, 2] .nil), ([chr 'b'], .found linkStat true [1, 2] .nil)]

theorem round_trips_iff_link : RoundTrips .amd64 linkMembers := by
  have list : (visits [] linkMembers).1 =
      [.seen ⟨[chr 'a'], 0o644, 3, 4, 2, 1000, [], tarLtReg⟩ [1, 2] true,
        .seen ⟨[chr 'b'], 0o644, 3, 4, 0, 1000, [chr 'a'], tarLtHard⟩ [] true] := by
    rfl
  have enters : ∀ v ∈ (visits [] linkMembers).1, v.Enters := by
    rw [list]
    exact forall_mem_cons.mpr ⟨fun _ => rfl, forall_mem_cons.mpr ⟨fun _ => rfl, nofun⟩⟩
  refine (round_trips_iff .amd64 linkMembers ?_ ?_ ?_).mpr ⟨?_, ?_, ?_⟩
  · rw [list]
    refine forall_mem_cons.mpr ⟨?_, forall_mem_cons.mpr ⟨?_, nofun⟩⟩
    · exact ⟨by decide, by decide, by decide, rfl⟩
    · exact ⟨by decide, by decide, by decide, rfl⟩
  · rw [list]
    refine forall_mem_cons.mpr ⟨?_, forall_mem_cons.mpr ⟨?_, nofun⟩⟩
    · exact ⟨⟨by decide, by decide, by decide⟩, fun _ => rfl, fun long => absurd long (by decide)⟩
    · exact ⟨⟨by decide, by decide, by decide⟩, fun _ => rfl, fun _ => rfl⟩
  · rw [tape_length .amd64 linkMembers enters, list]
    decide
  · exact enters
  · rw [list]
    refine forall_mem_cons.mpr ⟨?_, forall_mem_cons.mpr ⟨?_, nofun⟩⟩
    · exact fun _ => ⟨by decide, by decide, by decide⟩
    · exact fun _ => ⟨by decide, by decide, by decide⟩
  · rw [list]
    exact clear_cons.mpr ⟨fun _ => by decide, clear_cons.mpr ⟨fun _ => by decide, clear_of_none rfl⟩⟩

end Link

section Long

def longMembers : List (List Byte × Node) :=
  [(replicate 100 (chr 'x'), .found { linkStat with nlink := 1, size := 1 } true [chr 'x'] .nil)]

/-- It has been warned of, and the library takes its data for a header. -/
theorem not_round_trips_long : ¬ RoundTrips .amd64 longMembers := by
  rintro ⟨ok, -, n, tar, opened, reads⟩
  have list : (visits [] longMembers).1 = [.seen ⟨replicate 100 (chr 'x'), 0o644, 3, 4, 1, 1000, [], tarLtReg⟩
      [chr 'x'] true] := by
    rfl
  have long : TooLong (replicate 100 (chr 'x')) := le_of_eq length_replicate.symm
  have spec := create_spec .amd64 longMembers
  rw [wp, ← create, ok, list] at spec
  obtain ⟨-, ⟨chunks, each, tape⟩, -⟩ := spec
  rw [list, filterMap_cons, expected_long long] at reads
  have none : tar.files = [] := forall₂_nil_left_iff.mp reads
  cases each with
  | cons chunk each =>
    cases each
    cases chunk with
    | seen hd heads =>
      rw [if_pos rfl, flatten_singleton, append_assoc] at tape
      generalize (create .amd64 longMembers).2.tape = tape' at opened tape
      -- the header, the data, and what the library makes of them
      have header : tape'.drop (0 : Nat) = slice hd 0 512 ++ (padded512 [chr 'x'] ++ replicate 1024 0) := tape
      have data := drop_behind header
      rw [slice_length] at data
      have block : (padded512 [chr 'x']).length = 512 := by
        rw [padded512_length]
        rfl
      have named : str (padded512 [chr 'x']) 0 ≠ [] := by
        rw [str, drop_zero, padded512, cons_append, takeWhile_cons_of_pos (by decide)]
        exact cons_ne_nil _ _
      rw [tarOpen2_eq] at opened
      obtain ⟨fcnt, counted, read⟩ := bind_eq_some_iff.mp opened
      obtain ⟨fs, files, length, -⟩ := read_files read
      have some : 1 ≤ fcnt := by
        rcases n with _ | _ | n
        · exact absurd counted (by simp [countHdrs])
        · rw [zero_add, ← cast_zero, count_blank header (slice_length _ _ _) (heads.blank long) (by decide),
            if_neg (by decide)] at counted
          exact absurd counted (by simp [countHdrs])
        · rw [← cast_zero, count_blank header (slice_length _ _ _) (heads.blank long) (by decide),
            if_neg (by decide), count_named data block named] at counted
          exact count_ge counted
      rw [none] at files
      obtain rfl : fs = [] := files.symm
      rw [← length] at some
      exact absurd some (by decide)

end Long

end Tar
