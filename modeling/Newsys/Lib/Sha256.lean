import Mathlib.Data.List.Basic
import Mathlib.Tactic.IntervalCases

/- SHA-256 as the standard (FIPS 180-4) gives it: words of 32 bits, the constants as fractional parts of roots of
   primes, the padding of a message of whole bytes, the message schedule and the rounds. -/
namespace Fips
open List

abbrev Byte := BitVec 8

abbrev Word := BitVec 32

/- Functions of words -/

def rotr (n : Nat) (x : Word) : Word := x.rotateRight n

def ch (x y z : Word) : Word := (x &&& y) ^^^ (~~~x &&& z)

def maj (x y z : Word) : Word := (x &&& y) ^^^ (x &&& z) ^^^ (y &&& z)

def bigSigma0 (x : Word) : Word := rotr 2 x ^^^ rotr 13 x ^^^ rotr 22 x

def bigSigma1 (x : Word) : Word := rotr 6 x ^^^ rotr 11 x ^^^ rotr 25 x

def smallSigma0 (x : Word) : Word := rotr 7 x ^^^ rotr 18 x ^^^ (x >>> 3)

def smallSigma1 (x : Word) : Word := rotr 17 x ^^^ rotr 19 x ^^^ (x >>> 10)

def primes (n : Nat) : List Nat :=
  (range n).filter fun p => decide (2 ≤ p) && (range p).all fun d => decide (d < 2) || p % d != 0

/-- The largest number of `b` bits above `r` whose `n`-th power is not more than `t`. -/
def rootBits (n t : Nat) : Nat → Nat → Nat
  | 0, r => r
  | b + 1, r => if (r + 2 ^ b) ^ n ≤ t then rootBits n t b (r + 2 ^ b) else rootBits n t b r

/-- The first 32 bits of the fractional part of the `n`-th root of a number below 256 ^ n. -/
def fracRoot (n p : Nat) : Word := BitVec.ofNat 32 (rootBits n (p * 2 ^ (32 * n)) 40 0)

def constants : List Word := (primes 312).map (fracRoot 3)

structure Hash where
  a : Word
  b : Word
  c : Word
  d : Word
  e : Word
  f : Word
  g : Word
  h : Word
  deriving DecidableEq

def initial : Hash :=
  { a := fracRoot 2 2, b := fracRoot 2 3, c := fracRoot 2 5, d := fracRoot 2 7
    e := fracRoot 2 11, f := fracRoot 2 13, g := fracRoot 2 17, h := fracRoot 2 19 }

/- Compression -/

def nextWord (w : List Word) : Word :=
  smallSigma1 (w.getD (w.length - 2) 0) + w.getD (w.length - 7) 0 + smallSigma0 (w.getD (w.length - 15) 0) +
    w.getD (w.length - 16) 0

def extend : Nat → List Word → List Word
  | 0, w => w
  | n + 1, w => extend n (w ++ [nextWord w])

theorem extend_length (n : Nat) (w : List Word) : (extend n w).length = w.length + n := by
  induction n generalizing w with
  | zero => rfl
  | succ n ih =>
    rw [extend, ih, length_append, length_singleton]
    omega

def schedule (block : List Word) : List Word := extend 48 block

def round (s : Hash) (kw : Word × Word) : Hash :=
  let t1 := s.h + bigSigma1 s.e + ch s.e s.f s.g + kw.1 + kw.2
  let t2 := bigSigma0 s.a + maj s.a s.b s.c
  { a := t1 + t2, b := s.a, c := s.b, d := s.c, e := s.d + t1, f := s.e, g := s.f, h := s.g }

def Hash.add (x y : Hash) : Hash :=
  { a := x.a + y.a, b := x.b + y.b, c := x.c + y.c, d := x.d + y.d
    e := x.e + y.e, f := x.f + y.f, g := x.g + y.g, h := x.h + y.h }

def compress (x : Hash) (block : List Word) : Hash := ((constants.zip (schedule block)).foldl round x).add x

theorem constants_length : constants.length = 64 := by decide +kernel

theorem rounds_eq (w : List Word) (length : w.length = 64) (x : Hash) :
    (constants.zip w).foldl round x =
      (range 64).foldl (fun s i => round s (constants.getD i 0, w.getD i 0)) x := by
  have pairs : constants.zip w = (range 64).map fun i => (constants.getD i 0, w.getD i 0) := by
    apply ext_getElem
    · rw [length_zip, constants_length, length, length_map, length_range, Nat.min_self]
    · intro i lt _
      rw [length_zip, constants_length, length, Nat.min_self] at lt
      rw [getElem_zip, getElem_map, getElem_range, getD_eq_getElem?_getD,
        getD_eq_getElem?_getD, getElem?_eq_getElem (by rw [constants_length]; exact lt),
        getElem?_eq_getElem (by rw [length]; exact lt)]
      rfl
  rw [pairs, foldl_map]

def zeros (len : Nat) : Nat := (119 - len % 64) % 64

def lengthBytes (len : Nat) : List Byte := [56, 48, 40, 32, 24, 16, 8, 0].map fun n => BitVec.ofNat 8 ((8 * len) >>> n)

def pad (msg : List Byte) : List Byte :=
  msg ++ (0x80 :: replicate (zeros msg.length) 0 ++ lengthBytes msg.length)

def word (a b c d : Byte) : Word :=
  (a.setWidth 32 <<< 24) ||| (b.setWidth 32 <<< 16) ||| (c.setWidth 32 <<< 8) ||| d.setWidth 32

def words : List Byte → List Word
  | a :: b :: c :: d :: rest => word a b c d :: words rest
  | _ => []

theorem words_append (whole : a.length % 4 = 0) (b : List Byte) : words (a ++ b) = words a ++ words b := by
  induction a using words.induct with
  | case1 w x y z rest ih =>
    simp only [length_cons] at whole
    simp only [cons_append, words, ih (by omega)]
  | case2 a short =>
    match a, short, whole with
    | [], _, _ => rfl
    | [_], _, whole => simp at whole
    | [_, _], _, whole => simp at whole
    | [_, _, _], _, whole => simp at whole
    | w :: x :: y :: z :: rest, short, _ => exact absurd rfl (short w x y z rest)

theorem words_length (a : List Byte) : (words a).length = a.length / 4 := by
  induction a using words.induct with
  | case1 w x y z rest ih =>
    simp only [words, length_cons, ih]
    omega
  | case2 a short =>
    match a, short with
    | [], _ => rfl
    | [_], _ => simp [words]
    | [_, _], _ => simp [words]
    | [_, _, _], _ => simp [words]
    | w :: x :: y :: z :: rest, short => exact absurd rfl (short w x y z rest)

def blocks : Nat → List Word → List (List Word)
  | 0, _ => []
  | n + 1, ws => ws.take 16 :: blocks n (ws.drop 16)

theorem blocks_chunk (n : Nat) (length : chunk.length = 64) (rest : List Byte) :
    blocks (n + 1) (words (chunk ++ rest)) = words chunk :: blocks n (words rest) := by
  have sixteen : (words chunk).length = 16 := by rw [words_length, length]
  rw [words_append (by omega), blocks, take_append_of_le_length (by omega), take_of_length_le (by omega),
    drop_append_of_le_length (by omega), drop_of_length_le (by omega), nil_append]

def parse (msg : List Byte) : List (List Word) := blocks ((pad msg).length / 64) (words (pad msg))

def bytes (w : Word) : List Byte := [24, 16, 8, 0].map fun n => (w >>> n).setWidth 8

def Hash.bytes (x : Hash) : List Byte := [x.a, x.b, x.c, x.d, x.e, x.f, x.g, x.h].flatMap Fips.bytes

def digest (msg : List Byte) : List Byte := ((parse msg).foldl compress initial).bytes

/-- The first example of the standard. -/
example : digest [0x61, 0x62, 0x63] = [0xba, 0x78, 0x16, 0xbf, 0x8f, 0x01, 0xcf, 0xea, 0x41, 0x41, 0x40, 0xde,
    0x5d, 0xae, 0x22, 0x23, 0xb0, 0x03, 0x61, 0xa3, 0x96, 0x17, 0x7a, 0x9c, 0xb4, 0x10, 0xff, 0x61, 0xf2, 0x00,
    0x15, 0xad] := by decide +kernel

end Fips
