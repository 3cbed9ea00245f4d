import Newsys.Lib.Sha256

/- SHA-256 of the library (lib/sha/sha.c). What `sha256_step` does to the hash is a parameter of `sha256_init` and
   `sha256_feed`, so that one definition says both which blocks are hashed and what comes out. -/
namespace Sha
open List Nat
open Fips (Byte Word Hash)

/-- `struct sha256`; the members `a` to `h` are not used. -/
structure Sha256 (σ : Type) where
  hash : σ
  length : Nat
  resid : Nat

def sha256Ihash : Hash :=
  { a := 0x6a09e667, b := 0xbb67ae85, c := 0x3c6ef372, d := 0xa54ff53a
    e := 0x510e527f, f := 0x9b05688c, g := 0x1f83d9ab, h := 0x5be0cd19 }

def sha256Cpfrac : List Word :=
  [0x428a2f98, 0x71374491, 0xb5c0fbcf, 0xe9b5dba5, 0x3956c25b, 0x59f111f1, 0x923f82a4, 0xab1c5ed5,
    0xd807aa98, 0x12835b01, 0x243185be, 0x550c7dc3, 0x72be5d74, 0x80deb1fe, 0x9bdc06a7, 0xc19bf174,
    0xe49b69c1, 0xefbe4786, 0x0fc19dc6, 0x240ca1cc, 0x2de92c6f, 0x4a7484aa, 0x5cb0a9dc, 0x76f988da,
    0x983e5152, 0xa831c66d, 0xb00327c8, 0xbf597fc7, 0xc6e00bf3, 0xd5a79147, 0x06ca6351, 0x14292967,
    0x27b70a85, 0x2e1b2138, 0x4d2c6dfc, 0x53380d13, 0x650a7354, 0x766a0abb, 0x81c2c92e, 0x92722c85,
    0xa2bfe8a1, 0xa81a664b, 0xc24b8b70, 0xc76c51a3, 0xd192e819, 0xd6990624, 0xf40e3585, 0x106aa070,
    0x19a4c116, 0x1e376c08, 0x2748774c, 0x34b0bcb5, 0x391c0cb3, 0x4ed8aa4a, 0x5b9cca4f, 0x682e6ff3,
    0x748f82ee, 0x78a5636f, 0x84c87814, 0x8cc70208, 0x90befffa, 0xa4506ceb, 0xbef9a3f7, 0xc67178f2]

abbrev sha256Chunk : Nat := 64

def shaRotr32 (v : Word) (cnt : Nat) : Word := (v >>> cnt) ||| (v <<< (32 - cnt))

def sha256Ch (x y z : Word) : Word := (x &&& y) ^^^ (~~~x &&& z)

def sha256Maj (x y z : Word) : Word := (x &&& y) ^^^ (x &&& z) ^^^ (y &&& z)

def sha256E0 (v : Word) : Word := shaRotr32 v 2 ^^^ shaRotr32 v 13 ^^^ shaRotr32 v 22

def sha256E1 (v : Word) : Word := shaRotr32 v 6 ^^^ shaRotr32 v 11 ^^^ shaRotr32 v 25

def sha256R0 (v : Word) : Word := shaRotr32 v 7 ^^^ shaRotr32 v 18 ^^^ (v >>> 3)

def sha256R1 (v : Word) : Word := shaRotr32 v 17 ^^^ shaRotr32 v 19 ^^^ (v >>> 10)

def fillW : Nat → Nat → List Word → List Word
  | 0, _, w => w
  | n + 1, i, w =>
    fillW n (i + 1) (w.set i (sha256R1 (w.getD (i - 2) 0) + w.getD (i - 7) 0 + sha256R0 (w.getD (i - 15) 0) +
      w.getD (i - 16) 0))

def stepRound (w : List Word) (v : Hash) (i : Nat) : Hash :=
  let t1 := v.h + sha256E1 v.e + sha256Ch v.e v.f v.g + sha256Cpfrac.getD i 0 + w.getD i 0
  let t2 := sha256E0 v.a + sha256Maj v.a v.b v.c
  { h := v.g, g := v.f, f := v.e, e := v.d + t1, d := v.c, c := v.b, b := v.a, a := t1 + t2 }

/-- `sha256_step`: the hash behind it; the words of `w` behind `src` are not initialised. -/
def sha256Step (hash : Hash) (src : List Word) : Hash :=
  let w := fillW 48 16 (src.take 16 ++ replicate 48 0)
  let v := (range 64).foldl (stepRound w) hash
  { a := hash.a + v.a, b := hash.b + v.b, c := hash.c + v.c, d := hash.d + v.d
    e := hash.e + v.e, f := hash.f + v.f, g := hash.g + v.g, h := hash.h + v.h }

def betoh (v : Word) : Word :=
  let v := ((v &&& 0x00ff00ff) <<< 8) ||| ((v &&& 0xff00ff00) >>> 8)
  ((v &&& 0x0000ffff) <<< 16) ||| (v >>> 16)

def leWords : List Byte → List Word
  | a :: b :: c :: d :: rest => Fips.word d c b a :: leWords rest
  | _ => []

def mark (ws : List Word) (n : Nat) : List Word := ws.set (n / 4) (ws.getD (n / 4) 0 ||| ((0x80000000 : Word) >>> (n % 4 * 8)))

section Feed
variable {σ : Type} (step : σ → List Word → σ)

def sha256Init (start : σ) (len : Nat) : Sha256 σ :=
  { hash := if len = 0 then step start (0x80000000 :: replicate 15 0) else start, length := len, resid := len }

def sha256Feed (sha : Sha256 σ) (src : List Byte) : Sha256 σ :=
  let bsz := if sha.resid > sha256Chunk then sha256Chunk else sha.resid
  let src32 := (leWords (src.take bsz ++ replicate (sha256Chunk - bsz) 0)).map betoh
  let src32 :=
    if bsz < sha256Chunk then
      let src32 :=
        if bsz < sha256Chunk - 8 then
          -- the upper word of the length is overwritten by the lower one
          (src32.set 15 (BitVec.ofNat 32 (sha.length >>> 29))).set 15 (BitVec.ofNat 32 (sha.length <<< 3))
        else src32
      mark src32 bsz
    else src32
  let sha := { sha with hash := step sha.hash src32, resid := sha.resid - bsz }
  if sha.resid = 0 ∧ bsz ≥ sha256Chunk - 8 then
    let src32 := ((replicate 16 0).set 14 (BitVec.ofNat 32 (sha.length >>> 29))).set 15
      (BitVec.ofNat 32 (sha.length <<< 3))
    let src32 := if bsz ≥ sha256Chunk then src32.set 0 0x80000000 else src32
    { sha with hash := step sha.hash src32 }
  else sha

def pieces : Nat → List Byte → List (List Byte)
  | 0, _ => []
  | n + 1, msg => msg.take sha256Chunk :: pieces n (msg.drop sha256Chunk)

def hashed (start : σ) (msg : List Byte) : σ :=
  ((pieces ((msg.length + 63) / 64) msg).foldl (sha256Feed step) (sha256Init step start msg.length)).hash

end Feed

def sha256Read (hash : Hash) : List Byte :=
  [hash.a, hash.b, hash.c, hash.d, hash.e, hash.f, hash.g, hash.h].flatMap fun (w : Word) =>
    [(w >>> 24).setWidth 8, (w >>> 16).setWidth 8, (w >>> 8).setWidth 8, w.setWidth 8]

/-- `sha256_init`, `sha256_feed` of the pieces and `sha256_read`. -/
def sha256 (msg : List Byte) : List Byte := sha256Read (hashed sha256Step sha256Ihash msg)

def stepped (msg : List Byte) : List (List Word) := hashed (fun blocks src => blocks ++ [src]) [] msg

/- The compression -/

theorem cpfrac_eq : sha256Cpfrac = Fips.constants := by decide +kernel

theorem ihash_eq : sha256Ihash = Fips.initial := by decide +kernel

theorem rotr_eq (v : Word) (lt : cnt < 32) : shaRotr32 v cnt = Fips.rotr cnt v := by
  rw [shaRotr32, Fips.rotr, BitVec.rotateRight_def, mod_eq_of_lt lt]

theorem r1_eq (v : Word) : sha256R1 v = Fips.smallSigma1 v := by
  rw [sha256R1, Fips.smallSigma1, rotr_eq v (by decide), rotr_eq v (by decide)]

theorem r0_eq (v : Word) : sha256R0 v = Fips.smallSigma0 v := by
  rw [sha256R0, Fips.smallSigma0, rotr_eq v (by decide), rotr_eq v (by decide)]

theorem e1_eq (v : Word) : sha256E1 v = Fips.bigSigma1 v := by
  rw [sha256E1, Fips.bigSigma1, rotr_eq v (by decide), rotr_eq v (by decide), rotr_eq v (by decide)]

theorem e0_eq (v : Word) : sha256E0 v = Fips.bigSigma0 v := by
  rw [sha256E0, Fips.bigSigma0, rotr_eq v (by decide), rotr_eq v (by decide), rotr_eq v (by decide)]

theorem fillW_take (n i : Nat) (w : List Word) (first : 16 ≤ i) (room : i + n ≤ w.length) :
    (fillW n i w).take (i + n) = Fips.extend n (w.take i) := by
  induction n generalizing i w with
  | zero => rfl
  | succ n ih =>
    have length : (w.take i).length = i := by rw [length_take]; omega
    have get : ∀ j, j < i → (w.take i).getD j 0 = w.getD j 0 := by
      intro j lt
      rw [getD_eq_getElem?_getD, getD_eq_getElem?_getD, getElem?_take_of_lt lt]
    have next : Fips.nextWord (w.take i) = sha256R1 (w.getD (i - 2) 0) + w.getD (i - 7) 0 +
        sha256R0 (w.getD (i - 15) 0) + w.getD (i - 16) 0 := by
      rw [Fips.nextWord, length, get _ (by omega), get _ (by omega), get _ (by omega), get _ (by omega), r1_eq, r0_eq]
    rw [fillW, ← next, Fips.extend, show i + (n + 1) = i + 1 + n by omega, ih (i + 1) _ (by omega)
      (by rw [length_set]; omega)]
    congr 1
    rw [take_add_one, getElem?_set_self (by omega), take_set_of_le (le_refl i)]
    rfl

theorem round_eq (w : List Word) (v : Hash) (i : Nat) :
    stepRound w v i = Fips.round v (sha256Cpfrac.getD i 0, w.getD i 0) := by
  simp only [stepRound, Fips.round, e1_eq, e0_eq, sha256Ch, Fips.ch, sha256Maj, Fips.maj]

theorem step_eq (hash : Hash) (length : src.length = 16) :
    sha256Step hash src = Fips.compress hash src := by
  have front : (src.take 16 ++ replicate 48 0).take 16 = src := by
    rw [take_append_of_le_length (by rw [length_take]; omega), take_take, min_self,
      take_of_length_le (by omega)]
  have filled := fillW_take 48 16 (src.take 16 ++ replicate 48 0) (le_refl _)
    (by rw [length_append, length_take, length_replicate]; omega)
  rw [front] at filled
  rw [sha256Step]
  generalize fillW 48 16 (src.take 16 ++ replicate 48 0) = w at filled ⊢
  have words : (Fips.schedule src).length = 64 := by rw [Fips.schedule, Fips.extend_length, length]
  have get : ∀ i, i < 64 → w.getD i 0 = (Fips.schedule src).getD i 0 := by
    intro i lt
    rw [Fips.schedule, ← filled, getD_eq_getElem?_getD, getD_eq_getElem?_getD,
      getElem?_take_of_lt (by omega)]
  have rounds : (range 64).foldl (stepRound w) hash =
      (range 64).foldl (fun s i => Fips.round s (Fips.constants.getD i 0, (Fips.schedule src).getD i 0)) hash := by
    apply foldl_ext
    intro v i mem
    rw [round_eq, cpfrac_eq, get i (mem_range.mp mem)]
  rw [Fips.compress, Fips.rounds_eq _ words, ← rounds]
  simp only [Fips.Hash.add, BitVec.add_comm]

/- Words of bytes -/

theorem betoh_le (a b c d : Byte) : betoh (Fips.word d c b a) = Fips.word a b c d := by
  apply BitVec.eq_of_getLsbD_eq
  intro i lt
  rw [betoh, Fips.word, Fips.word]
  interval_cases i <;> simp

theorem betoh_leWords (bs : List Byte) : (leWords bs).map betoh = Fips.words bs := by
  induction bs using leWords.induct with
  | case1 a b c d rest ih => rw [leWords, map_cons, betoh_le, ih, Fips.words]
  | case2 bs short =>
    rcases bs with _ | ⟨a, _ | ⟨b, _ | ⟨c, _ | ⟨d, rest⟩⟩⟩⟩
    · rfl
    · rfl
    · rfl
    · rfl
    · exact absurd rfl (short a b c d rest)

theorem mark_cons (w : Word) (ws : List Word) (n : Nat) : mark (w :: ws) (n + 4) = w :: mark ws n := by
  rw [mark, mark, show (n + 4) / 4 = n / 4 + 1 by omega, show (n + 4) % 4 = n % 4 by omega]
  rfl

theorem mark_head (w : Word) (ws : List Word) (lt : n < 4) :
    mark (w :: ws) n = (w ||| ((0x80000000 : Word) >>> (n * 8))) :: ws := by
  rw [mark, div_eq_of_lt lt, mod_eq_of_lt lt]
  rfl

theorem mark_word (a b c : Byte) : (Fips.word 0 0 0 0 ||| (0x80000000 : Word) >>> 0 = Fips.word 0x80 0 0 0) ∧
    (Fips.word a 0 0 0 ||| (0x80000000 : Word) >>> 8 = Fips.word a 0x80 0 0) ∧
    (Fips.word a b 0 0 ||| (0x80000000 : Word) >>> 16 = Fips.word a b 0x80 0) ∧
    (Fips.word a b c 0 ||| (0x80000000 : Word) >>> 24 = Fips.word a b c 0x80) := by
  refine ⟨by decide, ?_, ?_, ?_⟩
  all_goals
    apply BitVec.eq_of_getLsbD_eq
    intro i lt
    rw [Fips.word, Fips.word]
    interval_cases i <;> simp

theorem mark_words (rest : List Byte) (z : Nat) (whole : (rest.length + z + 1) % 4 = 0) :
    mark (Fips.words (rest ++ replicate (z + 1) 0)) rest.length = Fips.words (rest ++ 0x80 :: replicate z 0) := by
  induction rest using leWords.induct with
  | case1 a b c d rest ih =>
    simp only [length_cons] at whole
    simp only [cons_append, Fips.words, length_cons, mark_cons, ih (by omega)]
  | case2 rest short =>
    rcases rest with _ | ⟨a, _ | ⟨b, _ | ⟨c, _ | ⟨d, rest⟩⟩⟩⟩
    · obtain ⟨y, rfl⟩ : ∃ y, z = y + 3 := ⟨z - 3, by simp only [length_nil] at whole; omega⟩
      exact (mark_head _ _ (by simp)).trans (congrArg (· :: Fips.words (replicate y 0)) (mark_word 0 0 0).1)
    · obtain ⟨y, rfl⟩ : ∃ y, z = y + 2 := ⟨z - 2, by simp only [length_cons, length_nil] at whole; omega⟩
      exact (mark_head _ _ (by simp)).trans (congrArg (· :: Fips.words (replicate y 0)) (mark_word a 0 0).2.1)
    · obtain ⟨y, rfl⟩ : ∃ y, z = y + 1 := ⟨z - 1, by simp only [length_cons, length_nil] at whole; omega⟩
      exact (mark_head _ _ (by simp)).trans (congrArg (· :: Fips.words (replicate y 0)) (mark_word a b 0).2.2.1)
    · exact (mark_head _ _ (by simp)).trans (congrArg (· :: Fips.words (replicate z 0)) (mark_word a b c).2.2.2)
    · exact absurd rfl (short a b c d rest)

theorem word_shifts (v : Nat) : Fips.word (BitVec.ofNat 8 (v >>> 24)) (BitVec.ofNat 8 (v >>> 16))
    (BitVec.ofNat 8 (v >>> 8)) (BitVec.ofNat 8 v) = BitVec.ofNat 32 v := by
  apply BitVec.eq_of_getLsbD_eq
  intro i lt
  rw [Fips.word]
  interval_cases i <;> simp [- BitVec.getLsbD_eq_getElem, BitVec.getLsbD_ofNat]

def upper (len : Nat) : Word := BitVec.ofNat 32 (len >>> 29)

def lower (len : Nat) : Word := BitVec.ofNat 32 (len <<< 3)

theorem words_lengthBytes (len : Nat) : Fips.words (Fips.lengthBytes len) = [upper len, lower len] := by
  rw [upper, lower]
  have upper : len >>> 29 = (len <<< 3) >>> 32 := by
    rw [shiftLeft_eq, shiftRight_eq_div_pow, shiftRight_eq_div_pow]
    omega
  rw [← word_shifts, ← word_shifts (len <<< 3), upper, Fips.lengthBytes,
    show 8 * len = len <<< 3 by rw [shiftLeft_eq]; omega]
  simp only [← shiftRight_add]
  rfl

/- The blocks of a message -/

/-- The lengths of which the whole length is hashed. -/
def Met (len : Nat) : Prop := len < 2 ^ 29 ∨ len % 64 = 0 ∨ 56 ≤ len % 64

def padTo (len : Nat) (rest : List Byte) : List Byte :=
  rest ++ (0x80 :: replicate (Fips.zeros rest.length) 0 ++ Fips.lengthBytes len)

/-- A run that steps through given blocks, but for the last where the length is not met: there the upper word of the
    length is 0. -/
def Agrees (len : Nat) (spec : List (List Word)) (run : ∀ σ : Type, (σ → List Word → σ) → σ → σ) : Prop :=
  ∃ front last last', spec = front ++ [last] ∧ (∀ b ∈ last' :: spec, b.length = 16) ∧
    (∀ σ step hash, run σ step hash = (front ++ [last']).foldl step hash) ∧
    (last = last' ∧ Met len ∨
      ¬ Met len ∧ ∃ w, last = w ++ [upper len, lower len] ∧ last' = w ++ [0, lower len])

theorem Agrees.cons {len : Nat} {spec : List (List Word)} {run : ∀ σ : Type, (σ → List Word → σ) → σ → σ}
    (agrees : Agrees len spec run) {block : List Word} (length : block.length = 16) :
    Agrees len (block :: spec) fun σ step hash => run σ step (step hash block) := by
  obtain ⟨front, last, last', eq, lengths, runs, ends⟩ := agrees
  refine ⟨block :: front, last, last', by rw [eq, cons_append], ?_, ?_, ends⟩
  · intro b mem
    simp only [mem_cons] at mem lengths
    rcases mem with rfl | rfl | mem
    · exact lengths b (Or.inl rfl)
    · exact length
    · exact lengths b (Or.inr mem)
  · intro σ step hash
    exact runs σ step (step hash block)

theorem lengthBytes_length (len : Nat) : (Fips.lengthBytes len).length = 8 := rfl

theorem feed_full {σ : Type} (step : σ → List Word → σ) (hash : σ) (len resid : Nat) (more : 64 < resid) (src : List Byte)
    (length : src.length = 64) :
    sha256Feed step ⟨hash, len, resid⟩ src = ⟨step hash (Fips.words src), len, resid - 64⟩ := by
  have some : resid - 64 ≠ 0 := by omega
  simp only [sha256Feed, sha256Chunk, gt_iff_lt, more, if_true, Nat.lt_irrefl, if_false, some, false_and, Nat.sub_self,
    replicate_zero, append_nil, take_of_length_le (Nat.le_of_eq length), betoh_leWords]

def restWords (len : Nat) (rest : List Byte) : List Word :=
  let src32 := Fips.words (rest ++ replicate (64 - rest.length) 0)
  if rest.length < 64 then
    mark (if rest.length < 56 then
      (src32.set 15 (upper len)).set 15 (lower len) else src32) rest.length
  else src32

def lengthWords (len : Nat) (whole : Bool) : List Word :=
  (if whole then 0x80000000 else 0) :: (replicate 13 (0 : Word) ++ [upper len, lower len])

theorem feed_rest {σ : Type} (step : σ → List Word → σ) (hash : σ) (len : Nat) (le : rest.length ≤ 64) :
    (sha256Feed step ⟨hash, len, rest.length⟩ rest).hash =
      if rest.length < 56 then step hash (restWords len rest)
      else step (step hash (restWords len rest)) (lengthWords len (rest.length = 64)) := by
  have size : (if rest.length > 64 then 64 else rest.length) = rest.length := if_neg (Nat.not_lt.mpr le)
  simp only [sha256Feed, sha256Chunk, size, take_length, betoh_leWords, Nat.sub_self, true_and, Nat.reduceSub]
  by_cases room : rest.length < 56
  · simp only [restWords, room, if_true, ge_iff_le, if_neg (Nat.not_le.mpr room), upper, lower]
  · simp only [restWords, room, if_false, ge_iff_le, if_pos (Nat.not_lt.mp room), lengthWords]
    by_cases full : rest.length = 64
    · simp only [full, Nat.le_refl, if_true, decide_true]
      rfl
    · have below : ¬ 64 ≤ rest.length := by omega
      simp only [below, if_false, full, decide_false, Bool.false_eq_true]
      rfl

theorem words_zeros_length (len : Nat) : Fips.words (replicate 56 0 ++ Fips.lengthBytes len) =
    replicate 14 (0 : Word) ++ [upper len, lower len] := by
  rw [Fips.words_append (by rw [length_replicate]), words_lengthBytes]
  rfl

theorem mark_append (lt : n / 4 < a.length) (b : List Word) : mark (a ++ b) n = mark a n ++ b := by
  rw [mark, mark, set_append_left _ _ lt, getD_eq_getElem?_getD, getD_eq_getElem?_getD,
    getElem?_append_left lt]

theorem upper_zero (short : len < 2 ^ 61) : upper len = 0 ↔ len < 2 ^ 29 := by
  rw [upper, shiftRight_eq_div_pow, ← BitVec.toNat_inj, BitVec.toNat_ofNat]
  simp only [BitVec.ofNat_eq_ofNat, BitVec.toNat_ofNat, zero_mod]
  omega

section Last
variable {len : Nat} {rest : List Byte} (mod : len % 64 = rest.length % 64)
include mod

theorem feed_room (pos : 0 < rest.length) (lt : rest.length < 56) (short : len < 2 ^ 61) :
    Agrees len (Fips.blocks ((padTo len rest).length / 64) (Fips.words (padTo len rest))) fun _ step hash =>
      (sha256Feed step ⟨hash, len, rest.length⟩ rest).hash := by
  obtain ⟨front, def_front⟩ : ∃ front, front = Fips.words (rest ++ 0x80 :: replicate (55 - rest.length) 0) := ⟨_, rfl⟩
  have length : front.length = 14 := by
    rw [def_front, Fips.words_length, length_append, length_cons, length_replicate]
    omega
  have spec : Fips.words (padTo len rest) = front ++ [upper len, lower len] := by
    rw [padTo, Fips.zeros, show (119 - rest.length % 64) % 64 = 55 - rest.length by omega, ← append_assoc,
      Fips.words_append (by rw [length_append, length_cons, length_replicate]; omega), words_lengthBytes,
      ← def_front]
  have bytes : (padTo len rest).length / 64 = 1 := by
    rw [padTo, Fips.zeros]
    simp only [length_append, length_cons, length_replicate, lengthBytes_length]
    omega
  have raw : Fips.words (rest ++ replicate (64 - rest.length) 0) =
      Fips.words (rest ++ replicate (55 - rest.length + 1) 0) ++ [0, 0] := by
    rw [show 64 - rest.length = (55 - rest.length + 1) + 8 by omega, replicate_add, ← append_assoc,
      Fips.words_append (by rw [length_append, length_replicate]; omega)]
    rfl
  have raw_length : (Fips.words (rest ++ replicate (55 - rest.length + 1) 0)).length = 14 := by
    rw [Fips.words_length, length_append, length_replicate]
    omega
  have marked : ∀ lo : Word, mark ((Fips.words (rest ++ replicate (55 - rest.length + 1) 0)) ++ [0, lo]) rest.length =
      front ++ [0, lo] := by
    intro lo
    rw [mark_append (by omega), mark_words _ _ (by omega), ← def_front]
  refine ⟨[], front ++ [upper len, lower len],
    front ++ [0, lower len], ?_, ?_, ?_, ?_⟩
  · rw [bytes, spec, Fips.blocks, Fips.blocks, take_of_length_le (by simp [length])]
    rfl
  · rw [bytes, spec, Fips.blocks, Fips.blocks, take_of_length_le (by simp [length])]
    simp [length]
  · intro σ step hash
    have fed : restWords len rest = front ++ [0, lower len] := by
      rw [restWords, if_pos (by omega), if_pos lt, raw, set_append_right _ _ (by omega),
        set_append_right _ _ (by omega), raw_length, ← marked]
      rfl
    have run := feed_rest step hash len (show rest.length ≤ 64 by omega)
    rwa [if_pos lt, fed] at run
  · by_cases small : len < 2 ^ 29
    · exact Or.inl ⟨by rw [(upper_zero short).mpr small], Or.inl small⟩
    · exact Or.inr ⟨by rw [Met]; omega, front, rfl, rfl⟩

theorem feed_more (low : 56 ≤ rest.length) (le : rest.length ≤ 64) :
    Agrees len (Fips.blocks ((padTo len rest).length / 64) (Fips.words (padTo len rest))) fun _ step hash =>
      (sha256Feed step ⟨hash, len, rest.length⟩ rest).hash := by
  have bytes : (padTo len rest).length / 64 = 2 := by
    rw [padTo, Fips.zeros]
    simp only [length_append, length_cons, length_replicate, lengthBytes_length]
    omega
  have spec : Fips.blocks 2 (Fips.words (padTo len rest)) = [restWords len rest, lengthWords len (rest.length = 64)] := by
    by_cases full : rest.length = 64
    · have text : padTo len rest = rest ++ ([0x80, 0, 0, 0] ++ (replicate 52 0 ++ Fips.lengthBytes len)) := by
        rw [padTo, full]
        rfl
      have words : Fips.words (replicate 52 0 ++ Fips.lengthBytes len) =
          replicate 13 (0 : Word) ++ [upper len, lower len] := by
        rw [Fips.words_append (by rw [length_replicate]), words_lengthBytes]
        rfl
      rw [text, Fips.blocks_chunk 1 full, Fips.words_append (by decide), words, restWords, if_neg (by omega), full,
        replicate_zero, append_nil]
      rfl
    · have text : padTo len rest = (rest ++ 0x80 :: replicate (63 - rest.length) 0) ++
          (replicate 56 0 ++ Fips.lengthBytes len) := by
        rw [padTo, Fips.zeros, show (119 - rest.length % 64) % 64 = (63 - rest.length) + 56 by omega, replicate_add]
        simp only [append_assoc, cons_append]
      rw [text, Fips.blocks_chunk 1 (by rw [length_append, length_cons, length_replicate]; omega),
        words_zeros_length, ← mark_words _ _ (by omega), restWords, if_pos (by omega), if_neg (by omega),
        show 63 - rest.length + 1 = 64 - rest.length by omega, lengthWords, if_neg (by simpa using full)]
      rfl
  have length : (restWords len rest).length = 16 := by
    have words := Fips.words_length (rest ++ replicate (64 - rest.length) 0)
    rw [length_append, length_replicate] at words
    rw [restWords, if_neg (by omega : ¬ rest.length < 56)]
    split
    · rw [mark, length_set]
      omega
    · omega
  refine ⟨[restWords len rest], lengthWords len (rest.length = 64), lengthWords len (rest.length = 64), ?_, ?_, ?_, ?_⟩
  · rw [bytes, spec]
    rfl
  · rw [bytes, spec]
    simp [length, lengthWords]
  · intro σ step hash
    have run := feed_rest step hash len le
    rwa [if_neg (by omega)] at run
  · exact Or.inl ⟨rfl, by rw [Met]; omega⟩

end Last

theorem padTo_append {a : List Byte} (length : a.length = 64) (len : Nat) (b : List Byte) :
    padTo len (a ++ b) = a ++ padTo len b := by
  have same : Fips.zeros (a ++ b).length = Fips.zeros b.length := by
    rw [Fips.zeros, Fips.zeros, length_append, length, add_mod_left]
  rw [padTo, padTo, same, append_assoc]

theorem feed_pieces {len : Nat} (short : len < 2 ^ 61) (n : Nat) {rest : List Byte} (mod : len % 64 = rest.length % 64)
    (pos : 64 * n < rest.length) (le : rest.length ≤ 64 * (n + 1)) :
    Agrees len (Fips.blocks ((padTo len rest).length / 64) (Fips.words (padTo len rest))) fun _ step hash =>
      ((pieces (n + 1) rest).foldl (sha256Feed step) ⟨hash, len, rest.length⟩).hash := by
  induction n generalizing rest with
  | zero =>
    have one : ∀ {σ : Type} (step : σ → List Word → σ) (hash : σ),
        ((pieces 1 rest).foldl (sha256Feed step) ⟨hash, len, rest.length⟩).hash =
          (sha256Feed step ⟨hash, len, rest.length⟩ rest).hash := by
      intro σ step hash
      rw [pieces, take_of_length_le (by rw [sha256Chunk]; omega)]
      rfl
    simp only [one]
    by_cases room : rest.length < 56
    · exact feed_room mod (by omega) room short
    · exact feed_more mod (by omega) (by omega)
  | succ n ih =>
    have length : (rest.take 64).length = 64 := by
      rw [length_take]
      omega
    have left : (rest.drop 64).length = rest.length - 64 := length_drop
    have later := @ih (rest.drop 64) (by omega) (by omega) (by omega)
    have count : (padTo len rest).length / 64 = (padTo len (rest.drop 64)).length / 64 + 1 := by
      have whole := padTo_append length len (rest.drop 64)
      rw [take_append_drop] at whole
      rw [whole, length_append, length]
      omega
    have next := @Agrees.cons _ _ _ later (Fips.words (rest.take 64)) (by rw [Fips.words_length, length])
    rw [← Fips.blocks_chunk _ length, ← count, ← padTo_append length, take_append_drop] at next
    have first : ∀ {σ : Type} (step : σ → List Word → σ) (hash : σ),
        ((pieces (n + 1 + 1) rest).foldl (sha256Feed step) ⟨hash, len, rest.length⟩).hash =
          ((pieces (n + 1) (rest.drop 64)).foldl (sha256Feed step)
            ⟨step hash (Fips.words (rest.take 64)), len, (rest.drop 64).length⟩).hash := by
      intro σ step hash
      rw [pieces, foldl_cons, sha256Chunk, feed_full step hash len _ (by omega) _ length, left]
    simp only [first]
    exact next

theorem hashed_agrees (short : msg.length < 2 ^ 61) :
    Agrees msg.length (Fips.parse msg) fun _ step start => hashed step start msg := by
  by_cases empty : msg = []
  · subst empty
    refine ⟨[], 0x80000000 :: replicate 15 0, 0x80000000 :: replicate 15 0, by decide +kernel, by decide +kernel,
      fun _ _ _ => rfl, ?_⟩
    simp [Met]
  · have pos := length_pos_iff.mpr empty
    have fed := feed_pieces short ((msg.length - 1) / 64) rfl (by omega) (by omega)
    rw [show (msg.length - 1) / 64 + 1 = (msg.length + 63) / 64 by omega] at fed
    have start : ∀ {σ : Type} (step : σ → List Word → σ) (hash : σ), sha256Init step hash msg.length =
        ⟨hash, msg.length, msg.length⟩ := by
      intro σ step hash
      rw [sha256Init, if_neg (by omega)]
    simp only [hashed, start]
    exact fed

theorem read_eq (hash : Hash) : sha256Read hash = hash.bytes := by
  simp [sha256Read, Fips.Hash.bytes, Fips.bytes]

theorem stepped_iff (short : msg.length < 2 ^ 61) : stepped msg = Fips.parse msg ↔ Met msg.length := by
  obtain ⟨front, last, last', spec, _, runs, ends⟩ := hashed_agrees short
  have all : ∀ (bs acc : List (List Word)), bs.foldl (fun blocks src => blocks ++ [src]) acc = acc ++ bs := by
    intro bs
    induction bs with
    | nil => simp
    | cons b bs ih => simp [ih]
  have trace : stepped msg = front ++ [last'] := (runs _ _ _).trans (all _ _)
  rw [trace, spec, append_cancel_left_eq, cons.injEq, eq_self, and_true]
  rcases ends with ⟨same, met⟩ | ⟨unmet, w, eq, eq'⟩
  · exact iff_of_true same.symm met
  · refine iff_of_false ?_ unmet
    rw [eq, eq']
    intro same
    have zero : 0 = upper msg.length := by simpa using same
    exact unmet (Or.inl ((upper_zero short).mp zero.symm))

theorem digests (short : msg.length < 2 ^ 61) :
    ∃ x last last', Fips.digest msg = (Fips.compress x last).bytes ∧ sha256 msg = (Fips.compress x last').bytes ∧
      (last = last' ∧ Met msg.length ∨ ¬ Met msg.length ∧
        ∃ w, last = w ++ [upper msg.length, lower msg.length] ∧ last' = w ++ [0, lower msg.length]) := by
  obtain ⟨front, last, last', spec, lengths, runs, ends⟩ := hashed_agrees short
  have step : (front ++ [last']).foldl sha256Step sha256Ihash = (front ++ [last']).foldl Fips.compress Fips.initial := by
    rw [ihash_eq]
    refine foldl_ext _ _ _ fun hash b mem => step_eq hash ?_
    rcases mem_append.mp mem with mem | mem
    · exact lengths b (by rw [spec]; simp [mem])
    · exact lengths b (by rw [mem_singleton.mp mem]; simp)
  refine ⟨front.foldl Fips.compress Fips.initial, last, last', ?_, ?_, ends⟩
  · rw [Fips.digest, spec, foldl_append]
    rfl
  · rw [sha256, read_eq, show hashed sha256Step sha256Ihash msg = _ from runs _ _ _, step, foldl_append]
    rfl

/-- The blocks of the standard are hashed if and only if the upper word of the length is; then the digest is that of the
    standard, and otherwise the last block has 0 for that word. -/
theorem sha256_fips (msg : List Byte) (short : msg.length < 2 ^ 61) :
    (stepped msg = Fips.parse msg ↔ Met msg.length) ∧
    (Met msg.length → sha256 msg = Fips.digest msg) ∧
    (¬ Met msg.length → ∃ x w, upper msg.length ≠ 0 ∧
      Fips.digest msg = (Fips.compress x (w ++ [upper msg.length, lower msg.length])).bytes ∧
      sha256 msg = (Fips.compress x (w ++ [0, lower msg.length])).bytes) := by
  obtain ⟨x, last, last', standard, code, ends⟩ := digests short
  refine ⟨stepped_iff short, ?_, ?_⟩
  · intro met
    rcases ends with ⟨same, _⟩ | ⟨unmet, _⟩
    · rw [code, standard, same]
    · exact absurd met unmet
  · intro unmet
    rcases ends with ⟨_, met⟩ | ⟨_, w, eq, eq'⟩
    · exact absurd met unmet
    · subst eq eq'
      exact ⟨x, w, fun zero => unmet (Or.inl ((upper_zero short).mp zero)), standard, code⟩

theorem sha256_fips_abc : sha256 [0x61, 0x62, 0x63] = Fips.digest [0x61, 0x62, 0x63] :=
  (sha256_fips [0x61, 0x62, 0x63] (by decide)).2.1 (Or.inl (by decide))

/-- The last block of 2^29 + 1 zero bytes lacks the upper word of the length, 1. -/
theorem feed_not_fips : stepped (replicate (2 ^ 29 + 1) 0) ≠ Fips.parse (replicate (2 ^ 29 + 1) 0) ∧
    ∃ x w, Fips.digest (replicate (2 ^ 29 + 1) 0) = (Fips.compress x (w ++ [1, 8])).bytes ∧
      sha256 (replicate (2 ^ 29 + 1) 0) = (Fips.compress x (w ++ [0, 8])).bytes := by
  obtain ⟨msg, eq⟩ : ∃ msg : List Byte, msg = replicate (2 ^ 29 + 1) 0 := ⟨_, rfl⟩
  have length : msg.length = 2 ^ 29 + 1 := by rw [eq, length_replicate]
  have unmet : ¬ Met msg.length := by
    rw [length, Met]
    omega
  have short : msg.length < 2 ^ 61 := by omega
  rw [← eq]
  refine ⟨fun same => unmet ((stepped_iff short).mp same), ?_⟩
  obtain ⟨x, last, last', standard, code, ends⟩ := digests short
  rcases ends with ⟨_, met⟩ | ⟨_, w, rfl, rfl⟩
  · exact absurd met unmet
  · have words : upper msg.length = 1 ∧ lower msg.length = 8 := by
      rw [length]
      decide
    rw [words.1, words.2] at standard
    rw [words.2] at code
    exact ⟨x, w, standard, code⟩

end Sha
