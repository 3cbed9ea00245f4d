import Newsys.Lib.Cstr
import Newsys.Libc.Vfprintf

/- The header of a member of an archive (include/tar.h): how the archiver fills it in (cmd/bin/tar.c) and how the
   library reads it (lib/tar.c). -/
namespace Tar
open Bytes Ints Kern Cstr Libc List Int

/- Where the fields of `struct tar_hdr` are -/

abbrev atMode : Nat := 100
abbrev atOwner : Nat := 108
abbrev atGroup : Nat := 116
abbrev atSize : Nat := 124
abbrev atMtime : Nat := 136
abbrev atCksum : Nat := 148
abbrev atLinkType : Nat := 156
abbrev atLink : Nat := 157
def sizeofHdr : Nat := 257
def sizeofPathname : Nat := 100

def tarLtReg : Byte := chr '0'
def tarLtHard : Byte := chr '1'
def tarLtDir : Byte := chr '5'

def sIfmt : Nat := 0o70000
def sIfdir : Nat := 0o30000
def sIfreg : Nat := 0

structure Stat where
  dev : Nat
  ino : Nat
  mode : Nat
  nlink : Nat
  uid : Int
  gid : Int
  size : Int
  mtime : Int

def Stat.isReg (st : Stat) : Bool := st.mode &&& sIfmt = sIfreg

def Stat.isDir (st : Stat) : Bool := st.mode &&& sIfmt = sIfdir

def octalSpec (width : Nat) : Spec :=
  { zero := true, left := false, width := width, precision := none, size := .int, conv := .o }

def octal (m : Machine) (width : Nat) (v : Int) : List Byte := (octalSpec width).output m v

def TooLong (pathname : List Byte) : Prop := sizeofPathname ≤ pathname.length

instance (pathname : List Byte) : Decidable (TooLong pathname) := inferInstanceAs (Decidable (_ ≤ _))

/-- `init_head` on a cleared header; it returns early where it has warned of the name. -/
def initHead (m : Machine) (st : Stat) (pathname : List Byte) : Mem :=
  if TooLong pathname then zero
  else
    let hd := strcpy zero 0 pathname
    let hd := strcpy hd atMode (octal m 7 st.mode)
    let hd := strcpy hd atOwner (octal m 7 st.uid)
    let hd := strcpy hd atGroup (octal m 7 st.gid)
    let hd := strcpy hd atSize (octal m 11 st.size)
    let hd := strcpy hd atMtime (octal m 11 st.mtime)
    put hd atLinkType (if st.isReg then tarLtReg else if st.isDir then tarLtDir else chr '0')

def noSize : List Byte := "00000000000".toList.map chr

/-- What `store1` changes in the header of a file that it has stored under another name. -/
def linkHead (hd : Mem) (link : List Byte) : Mem :=
  let hd := strcpy hd atSize noSize
  let hd := strcpy hd atLink link
  put hd atLinkType tarLtHard

def cksum (m : Machine) (hd : Mem) : Mem :=
  let hd := fill hd atCksum (atCksum + 8) (chr ' ')
  let sum := ((List.range sizeofHdr).map fun k => (hd k).toNat).sum
  strcpy hd atCksum (octal m 6 sum ++ [chr ' '])

structure TarFile where
  pathname : List Byte
  mode : Nat
  owner : Int
  group : Int
  size : Int
  mtime : Int
  link : List Byte
  linkType : Byte
  offset : Int
  deriving DecidableEq

/-- The string that starts at a field of a block; it may run into the next fields. -/
def str (u : List Byte) (field : Nat) : List Byte := (u.drop field).takeWhile (· ≠ 0)

def valueAt (m : Machine) (u : List Byte) (field : Nat) : Nat := (strtoul m (str u field) 8).value

def parseHdr (m : Machine) (u : List Byte) (offset : Int) : TarFile where
  pathname := str u 0
  mode := valueAt m u atMode % 2 ^ 32
  owner := signed 32 (valueAt m u atOwner)
  group := signed 32 (valueAt m u atGroup)
  size := signed 64 (valueAt m u atSize)
  mtime := signed 64 (valueAt m u atMtime)
  link := str u atLink
  linkType := u.getD atLinkType 0
  offset := offset

section Octal
variable (m : Machine) (width : Nat) (v : Int)

theorem octal_value : (octalSpec width).value m v = unsigned 32 v := rfl

section
variable (narrow : width < 2 ^ 31)
include narrow

theorem octal_shape : octal m width v =
    replicate (width - (padded 8 1 (unsigned 32 v).toNat).length) (chr '0') ++
      padded 8 1 (unsigned 32 v).toNat := by
  have nonneg : 0 ≤ unsigned 32 v := emod_nonneg _ (by decide)
  have high : unsigned 32 v < 2 ^ 32 := emod_lt_of_pos _ (by decide)
  have sign : (octalSpec width).sign m v = [] := by
    rw [Spec.sign, octal_value, if_neg (by omega)]
  have abs : ((octalSpec width).value m v).natAbs = (unsigned 32 v).toNat := by
    rw [octal_value]
    omega
  have small : (padded 8 1 (unsigned 32 v).toNat).length ≤ 11 := by
    have le : (numeral 8 (unsigned 32 v).toNat).length ≤ 11 := numeral_length_le (by decide) (by omega)
    rw [padded_length]
    omega
  obtain ⟨l, z, r, shape, -, right, free⟩ := output_shape m (octalSpec width) v
  obtain ⟨rfl, none'⟩ := right rfl
  obtain rfl : l = 0 := none'
  rw [Spec.free, sign, abs] at free
  have count : z = width - (padded 8 1 (unsigned 32 v).toNat).length := by
    change 0 + z + 0 = (int (width - ((0 + (padded 8 1 (unsigned 32 v).toNat).length : Nat)))).toNat at free
    rw [int_eq (by omega) (by omega)] at free
    omega
  rw [octal, shape, sign, abs, ← count]
  simp only [replicate_zero, nil_append, append_nil]
  rfl

theorem octal_length (fits : (unsigned 32 v).toNat < 8 ^ width) (pos : 0 < width) :
    (octal m width v).length = width := by
  have le := numeral_length_le (by decide) fits
  rw [octal_shape m width v narrow, length_append, length_replicate, padded_length]
  omega

theorem octal_noNul : (0 : Byte) ∉ octal m width v := by
  rw [octal_shape m width v narrow, padded_zeros]
  intro mem
  obtain ⟨d, mem, eq⟩ := mem_map.mp mem
  have lt := small_digits (by decide) _ _ d mem
  interval_cases d <;> exact absurd eq (by decide)

theorem strtoul_octal :
    ((strtoul m (octal m width v) 8).value : Int) = unsigned 32 v := by
  have nonneg : 0 ≤ unsigned 32 v := emod_nonneg _ (by decide)
  have read := read_text m (octalSpec width) v 0 (width - (padded 8 1 (unsigned 32 v).toNat).length) 0 1
  have sign : (octalSpec width).sign m v = [] := by
    rw [Spec.sign, octal_value, if_neg (by omega)]
  have abs : ((octalSpec width).value m v).natAbs = (unsigned 32 v).toNat := by
    rw [octal_value]
    omega
  rw [sign, abs, octal_value] at read
  simp only [replicate_zero, nil_append, append_nil] at read
  rw [octal_shape m width v narrow]
  exact read

end

end Octal

/- What a header says -/

structure Member where
  pathname : List Byte
  mode : Nat
  owner : Int
  group : Int
  size : Int
  mtime : Int
  link : List Byte
  linkType : Byte

def Member.file (mem : Member) (offset : Int) : TarFile :=
  ⟨mem.pathname, mem.mode, mem.owner, mem.group, mem.size, mem.mtime, mem.link, mem.linkType, offset⟩

structure Member.Narrow (mem : Member) : Prop where
  mode : mem.mode < 8 ^ 7
  owner : 0 ≤ mem.owner ∧ mem.owner < 8 ^ 7
  group : 0 ≤ mem.group ∧ mem.group < 8 ^ 7

structure Member.Fits (mem : Member) : Prop where
  size : 0 ≤ mem.size ∧ mem.size < 2 ^ 32
  mtime : 0 ≤ mem.mtime ∧ mem.mtime < 2 ^ 32

/-- What is recorded of a path name under which `stat` finds something, and of one that is a link to another. -/
def Member.ofStat (st : Stat) (pathname : List Byte) : Member :=
  { pathname := pathname, mode := st.mode, owner := st.uid, group := st.gid, size := st.size, mtime := st.mtime, link := []
    linkType := if st.isReg then tarLtReg else if st.isDir then tarLtDir else chr '0' }

def Member.linkTo (mem : Member) (link : List Byte) : Member :=
  { mem with size := 0, link := link, linkType := tarLtHard }

structure Filled (m : Machine) (hd : Mem) (mem : Member) : Prop where
  pathname : Holds hd 0 mem.pathname
  mode : Holds hd atMode (octal m 7 mem.mode)
  owner : Holds hd atOwner (octal m 7 mem.owner)
  group : Holds hd atGroup (octal m 7 mem.group)
  size : Holds hd atSize (octal m 11 mem.size)
  mtime : Holds hd atMtime (octal m 11 mem.mtime)
  linkType : hd atLinkType = mem.linkType
  link : Holds hd atLink mem.link

section Fields
variable {m : Machine} {hd hd' : Mem} {mem : Member} {s : List Byte}

-- whether a text is held never depends on how it is printed
attribute [local irreducible] octal

theorem str_of_holds (held : Holds hd field s) (room : field + s.length < 512) :
    str (slice hd 0 512) field = s := by
  obtain ⟨n, eq⟩ : ∃ n, 512 = field + n := ⟨512 - field, by omega⟩
  rw [str, eq, slice_drop, zero_add]
  exact held.takeWhile (by omega)

theorem valueAt_octal (held : Holds hd field (octal m width v))
    (room : field + (octal m width v).length < 512) (narrow : width < 2 ^ 31) (low : 0 ≤ v) (high : v < 2 ^ 32) :
    (valueAt m (slice hd 0 512) field : Int) = v := by
  rw [valueAt, str_of_holds held room, strtoul_octal m width v narrow]
  exact unsigned_eq low high

theorem length_seven (low : 0 ≤ v) (high : v < 8 ^ 7) : (octal m 7 v).length = 7 := by
  refine octal_length m 7 v (by decide) ?_ (by decide)
  rw [unsigned_eq low (by omega)]
  omega

theorem length_eleven (m : Machine) (v : Int) : (octal m 11 v).length = 11 := by
  refine octal_length m 11 v (by decide) ?_ (by decide)
  have high : unsigned 32 v < 2 ^ 32 := emod_lt_of_pos _ (by decide)
  omega

theorem parse_filled (filled : Filled m hd mem) (narrow : mem.Narrow) (fits : mem.Fits) (short : ¬ TooLong mem.pathname)
    (link : mem.link.length < 256) (offset : Int) : parseHdr m (slice hd 0 512) offset = mem.file offset := by
  have seven := fun v low high => length_seven (m := m) (v := v) low high
  have short : mem.pathname.length < 100 := Nat.lt_of_not_le short
  have mode := valueAt_octal filled.mode (by rw [seven _ (by omega) (by have := narrow.mode; omega)]; decide) (by decide)
    (by omega) (by have := narrow.mode; omega)
  have owner := valueAt_octal filled.owner (by rw [seven _ narrow.owner.1 narrow.owner.2]; decide) (by decide)
    narrow.owner.1 (by have := narrow.owner.2; omega)
  have group := valueAt_octal filled.group (by rw [seven _ narrow.group.1 narrow.group.2]; decide) (by decide)
    narrow.group.1 (by have := narrow.group.2; omega)
  have size := valueAt_octal filled.size (by rw [length_eleven]; decide) (by decide) fits.size.1 fits.size.2
  have mtime := valueAt_octal filled.mtime (by rw [length_eleven]; decide) (by decide) fits.mtime.1 fits.mtime.2
  have lt := narrow.mode
  have ownerFits := narrow.owner
  have groupFits := narrow.group
  have sizeFits := fits.size
  have mtimeFits := fits.mtime
  have mode' : valueAt m (slice hd 0 512) atMode % 2 ^ 32 = mem.mode := by omega
  have room : atLink + mem.link.length < 512 := by
    show 157 + mem.link.length < 512
    omega
  rw [parseHdr, Member.file, mode', owner, group, size, mtime, str_of_holds filled.pathname (by omega),
    str_of_holds filled.link room, signed_eq (by decide) ⟨by omega, by omega⟩,
    signed_eq (by decide) ⟨by omega, by omega⟩, signed_eq (by decide) ⟨by omega, by omega⟩,
    signed_eq (by decide) ⟨by omega, by omega⟩, slice_getD _ _ _ _ (by decide), zero_add, filled.linkType]

theorem fits_of_parse (filled : Filled m hd mem)
    (read : parseHdr m (slice hd 0 512) offset = mem.file offset') : mem.Fits := by
  have back : ∀ {field : Nat} {v : Int}, Holds hd field (octal m 11 v) → field + 11 < 512 →
      signed 64 (valueAt m (slice hd 0 512) field) = v → 0 ≤ v ∧ v < 2 ^ 32 := by
    intro field v held room same
    have value : (valueAt m (slice hd 0 512) field : Int) = unsigned 32 v := by
      rw [valueAt, str_of_holds held (by rw [length_eleven]; exact room)]
      exact strtoul_octal m 11 v (by decide)
    have low : 0 ≤ unsigned 32 v := emod_nonneg _ (by decide)
    have high : unsigned 32 v < 2 ^ 32 := emod_lt_of_pos _ (by decide)
    rw [value, signed_eq (by decide) ⟨by omega, by omega⟩] at same
    rw [← same]
    exact ⟨low, high⟩
  have size := congrArg TarFile.size read
  have mtime := congrArg TarFile.mtime read
  exact ⟨back filled.size (by decide) size, back filled.mtime (by decide) mtime⟩

theorem filled_initHead (noNul : (0 : Byte) ∉ pathname) (short : ¬ TooLong pathname)
    (narrow : (Member.ofStat st pathname).Narrow) : Filled m (initHead m st pathname) (Member.ofStat st pathname) := by
  have mode : (octal m 7 st.mode).length = 7 := length_seven (by omega) (by have := narrow.mode; exact_mod_cast this)
  have owner : (octal m 7 st.uid).length = 7 := length_seven narrow.owner.1 narrow.owner.2
  have group : (octal m 7 st.gid).length = 7 := length_seven narrow.group.1 narrow.group.2
  have size := length_eleven m st.size
  have mtime := length_eleven m st.mtime
  have name : pathname.length < 100 := Nat.lt_of_not_le short
  rw [initHead, if_neg short]
  constructor
  · refine (((((holds_strcpy zero 0 noNul).strcpy_behind ?_ _).strcpy_behind ?_ _).strcpy_behind ?_ _).strcpy_behind
      ?_ _).strcpy_behind ?_ _ |>.put_behind ?_ _
    all_goals
      simp only [atMode, atOwner, atGroup, atSize, atMtime, atLinkType]
      omega
  · refine ((((holds_strcpy _ atMode (octal_noNul m 7 _ (by decide))).strcpy_behind ?_ _).strcpy_behind ?_ _).strcpy_behind
      ?_ _).strcpy_behind ?_ _ |>.put_behind ?_ _
    all_goals
      simp only [mode, atMode, atOwner, atGroup, atSize, atMtime, atLinkType]
      decide
  · refine (((holds_strcpy _ atOwner (octal_noNul m 7 _ (by decide))).strcpy_behind ?_ _).strcpy_behind ?_ _).strcpy_behind
      ?_ _ |>.put_behind ?_ _
    all_goals
      simp only [owner, atOwner, atGroup, atSize, atMtime, atLinkType]
      decide
  · refine ((holds_strcpy _ atGroup (octal_noNul m 7 _ (by decide))).strcpy_behind ?_ _).strcpy_behind
      ?_ _ |>.put_behind ?_ _
    all_goals
      simp only [group, atGroup, atSize, atMtime, atLinkType]
      decide
  · refine (holds_strcpy _ atSize (octal_noNul m 11 _ (by decide))).strcpy_behind ?_ _ |>.put_behind ?_ _
    all_goals
      simp only [size, atSize, atMtime, atLinkType]
      decide
  · refine (holds_strcpy _ atMtime (octal_noNul m 11 _ (by decide))).put_behind ?_ _
    simp only [mtime, atMtime, atLinkType]
    decide
  · exact if_pos rfl
  · show put _ atLinkType _ atLink = 0
    rw [put, if_neg (by decide)]
    rw [strcpy_outside _ _ (.inr (by rw [mtime]; decide)), strcpy_outside _ _ (.inr (by rw [size]; decide)),
      strcpy_outside _ _ (.inr (by rw [group]; decide)), strcpy_outside _ _ (.inr (by rw [owner]; decide)),
      strcpy_outside _ _ (.inr (by rw [mode]; decide)),
      strcpy_outside _ _ (.inr (by show 0 + pathname.length < 157; omega))]
    rfl

theorem octal_zero (m : Machine) : octal m 11 0 = noSize := by
  cases m <;> decide +kernel

theorem filled_linkHead (filled : Filled m hd mem) (narrow : mem.Narrow) (short : ¬ TooLong mem.pathname)
    (noNul : (0 : Byte) ∉ link) : Filled m (linkHead hd link) (mem.linkTo link) := by
  have mode : (octal m 7 mem.mode).length = 7 := length_seven (by omega) (by have := narrow.mode; omega)
  have owner : (octal m 7 mem.owner).length = 7 := length_seven narrow.owner.1 narrow.owner.2
  have group : (octal m 7 mem.group).length = 7 := length_seven narrow.group.1 narrow.group.2
  have mtime := length_eleven m mem.mtime
  have zeros : noSize.length = 11 := rfl
  have name : mem.pathname.length < 100 := Nat.lt_of_not_le short
  obtain ⟨atName, theMode, theOwner, theGroup, -, theTime, -, -⟩ := filled
  have early : ∀ {a : Nat} {s : List Byte}, Holds hd a s → a + s.length < atSize → Holds (linkHead hd link) a s := by
    intro a s held lt
    rw [linkHead]
    refine ((held.strcpy_behind lt _).strcpy_behind ?_ _).put_behind ?_ _
    all_goals
      simp only [atSize, atLink, atLinkType] at *
      omega
  have lateTime : ∀ {s : List Byte}, Holds hd atMtime s → s.length = 11 → Holds (linkHead hd link) atMtime s := by
    intro s held length
    rw [linkHead]
    refine ((held.strcpy (.inl ?_)).strcpy_behind ?_ _).put_behind ?_ _
    all_goals
      simp only [length, zeros, atMtime, atSize, atLink, atLinkType]
      decide
  have theName := early atName (show 0 + mem.pathname.length < 124 by omega)
  have theMode := early theMode (by rw [mode]; decide)
  have theOwner := early theOwner (by rw [owner]; decide)
  have theGroup := early theGroup (by rw [group]; decide)
  have theTime := lateTime theTime mtime
  refine ⟨theName, theMode, theOwner, theGroup, ?_, theTime, ?_, ?_⟩
  · show Holds _ atSize (octal m 11 0)
    rw [octal_zero, linkHead]
    refine ((holds_strcpy hd atSize (by decide)).strcpy_behind ?_ _).put_behind ?_ _
    all_goals
      simp only [zeros, atSize, atLink, atLinkType]
      decide
  · rw [linkHead]
    exact if_pos rfl
  · exact (holds_strcpy _ atLink noNul).put (by decide) _

theorem sum_le (f : Nat → Byte) (n : Nat) : ((List.range n).map fun k => (f k).toNat).sum ≤ n * 255 := by
  induction n with
  | zero => exact le_refl _
  | succ n ih =>
    have byte := (f n).isLt
    rw [range_succ, map_append, sum_append, map_singleton, sum_singleton]
    omega

theorem cksum_outside (out : k < atCksum ∨ atLinkType ≤ k) : cksum m hd k = hd k := by
  have out : k < 148 ∨ 156 ≤ k := out
  rw [cksum]
  generalize sum_eq : ((List.range sizeofHdr).map fun k => (fill hd atCksum (atCksum + 8) (chr ' ') k).toNat).sum = sum
  have small := sum_le (fill hd atCksum (atCksum + 8) (chr ' ')) sizeofHdr
  rw [sum_eq] at small
  have small : sum ≤ 257 * 255 := small
  have low : unsigned 32 (sum : Int) = sum := unsigned_eq (by omega) (by omega)
  have length : (octal m 6 sum).length = 6 := octal_length m 6 sum (by decide) (by rw [low]; omega) (by decide)
  have behind : (octal m 6 sum ++ [chr ' ']).length = 7 := by rw [length_append, length]; rfl
  rw [strcpy_outside _ _ (by rw [behind]; show k < 148 ∨ 148 + 7 < k; omega)]
  exact if_neg (by show ¬ (148 ≤ k ∧ k < 148 + 8); omega)

theorem filled_cksum (filled : Filled m hd mem) (narrow : mem.Narrow) (short : ¬ TooLong mem.pathname) :
    Filled m (cksum m hd) mem := by
  have mode : (octal m 7 mem.mode).length = 7 := length_seven (by omega) (by have := narrow.mode; omega)
  have owner : (octal m 7 mem.owner).length = 7 := length_seven narrow.owner.1 narrow.owner.2
  have group : (octal m 7 mem.group).length = 7 := length_seven narrow.group.1 narrow.group.2
  have name : mem.pathname.length < 100 := Nat.lt_of_not_le short
  have below : ∀ {a : Nat} {s : List Byte}, Holds hd a s → a + s.length < 148 → Holds (cksum m hd) a s :=
    fun held lt => held.congr fun k _ hi => cksum_outside (.inl (show k < 148 by omega))
  obtain ⟨atName, theMode, theOwner, theGroup, theSize, theTime, linkType, theLink⟩ := filled
  constructor
  · exact below atName (by omega)
  · exact below theMode (by rw [mode]; decide)
  · exact below theOwner (by rw [owner]; decide)
  · exact below theGroup (by rw [group]; decide)
  · exact below theSize (by rw [length_eleven]; decide)
  · exact below theTime (by rw [length_eleven]; decide)
  · rw [cksum_outside (.inr (le_refl _))]
    exact linkType
  · exact theLink.congr fun k lo _ => cksum_outside (.inr (show 156 ≤ k by have : 157 ≤ k := lo; omega))

/- Headers without a name -/

structure Blank (m : Machine) (u : List Byte) : Prop where
  pathname : str u 0 = []
  size : valueAt m u atSize = 0

theorem blank_of_holds (first : hd 0 = 0) (size : Holds hd atSize [] ∨ Holds hd atSize noSize) :
    Blank m (slice hd 0 512) := by
  have none : (strtoul m [] 8).value = 0 := by cases m <;> rfl
  have zero : (strtoul m noSize 8).value = 0 := by
    have read := strtoul_octal m 11 0 (by decide)
    rw [octal_zero, show unsigned 32 0 = 0 from rfl] at read
    exact_mod_cast read
  refine ⟨str_of_holds (s := []) first (by decide), ?_⟩
  rw [valueAt]
  rcases size with held | held
  · rw [str_of_holds held (by decide), none]
  · rw [str_of_holds held (by decide), zero]

theorem blank_zeros (m : Machine) : Blank m (replicate 512 0) := by
  have eq : replicate 512 (0 : Byte) = slice zero 0 512 := by
    rw [slice, eq_replicate_of_mem (a := (0 : Byte)) (l := (List.range 512).map _) fun b mem => ?_]
    · rw [length_map, length_range]
    · obtain ⟨_, _, rfl⟩ := mem_map.mp mem
      rfl
  rw [eq]
  exact blank_of_holds rfl (.inl rfl)

theorem blank_cksum (m : Machine) : Blank m (slice (cksum m zero) 0 512) := by
  refine blank_of_holds ?_ (.inl ?_)
  · exact cksum_outside (.inl (by decide))
  · exact cksum_outside (.inl (by decide))

theorem blank_linkHead (m : Machine) (link : List Byte) : Blank m (slice (cksum m (linkHead zero link)) 0 512) := by
  have size : Holds (linkHead zero link) atSize noSize :=
    ((holds_strcpy zero atSize (by decide)).strcpy_behind (by decide) _).put_behind (by decide) _
  refine blank_of_holds ?_ (.inr ?_)
  · rw [cksum_outside (.inl (by decide)), linkHead, put, if_neg (by decide), strcpy_outside _ _ (.inl (by decide)),
      strcpy_outside _ _ (.inl (by decide))]
    rfl
  · exact size.congr fun k _ hi => cksum_outside (.inl (lt_of_le_of_lt hi (by decide)))

end Fields

end Tar
