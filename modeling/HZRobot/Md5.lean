import HZRobot.Blocks
import HZRobot.Bytes

/-!
util/md5.hpp. init takes the message in block by block; getDigest pads it, and puts the state
and the count back afterwards, but not the buffer.
-/

namespace HZRobot.Md5

open Blocks

section Transform

/-- state[4]. -/
structure Words where
  a : UInt32
  b : UInt32
  c : UInt32
  d : UInt32
  deriving DecidableEq

def rotateLeft (num n : UInt32) : UInt32 := (num <<< n) ||| (num >>> (32 - n))

/-- lin_FF, lin_GG, lin_HH and lin_II with their function f. The words are passed on
one place further, as the next use of the macro names them. -/
def turn (f : UInt32 → UInt32 → UInt32 → UInt32) (x : List UInt32) (s : Words)
    (row : Nat × UInt32 × UInt32) : Words :=
  let a := s.a + (f s.b s.c s.d + x.getD row.1 0 + row.2.2)
  let a := rotateLeft a row.2.1 + s.b
  ⟨s.d, a, s.b, s.c⟩

/-- The rows of a round: the index into x, the shift and the constant. -/
def round1 : List (Nat × UInt32 × UInt32) := [
  (0, 7, 0xd76aa478), (1, 12, 0xe8c7b756), (2, 17, 0x242070db), (3, 22, 0xc1bdceee),
  (4, 7, 0xf57c0faf), (5, 12, 0x4787c62a), (6, 17, 0xa8304613), (7, 22, 0xfd469501),
  (8, 7, 0x698098d8), (9, 12, 0x8b44f7af), (10, 17, 0xffff5bb1), (11, 22, 0x895cd7be),
  (12, 7, 0x6b901122), (13, 12, 0xfd987193), (14, 17, 0xa679438e), (15, 22, 0x49b40821)]

def round2 : List (Nat × UInt32 × UInt32) := [
  (1, 5, 0xf61e2562), (6, 9, 0xc040b340), (11, 14, 0x265e5a51), (0, 20, 0xe9b6c7aa),
  (5, 5, 0xd62f105d), (10, 9, 0x2441453), (15, 14, 0xd8a1e681), (4, 20, 0xe7d3fbc8),
  (9, 5, 0x21e1cde6), (14, 9, 0xc33707d6), (3, 14, 0xf4d50d87), (8, 20, 0x455a14ed),
  (13, 5, 0xa9e3e905), (2, 9, 0xfcefa3f8), (7, 14, 0x676f02d9), (12, 20, 0x8d2a4c8a)]

def round3 : List (Nat × UInt32 × UInt32) := [
  (5, 4, 0xfffa3942), (8, 11, 0x8771f681), (11, 16, 0x6d9d6122), (14, 23, 0xfde5380c),
  (1, 4, 0xa4beea44), (4, 11, 0x4bdecfa9), (7, 16, 0xf6bb4b60), (10, 23, 0xbebfbc70),
  (13, 4, 0x289b7ec6), (0, 11, 0xeaa127fa), (3, 16, 0xd4ef3085), (6, 23, 0x4881d05),
  (9, 4, 0xd9d4d039), (12, 11, 0xe6db99e5), (15, 16, 0x1fa27cf8), (2, 23, 0xc4ac5665)]

def round4 : List (Nat × UInt32 × UInt32) := [
  (0, 6, 0xf4292244), (7, 10, 0x432aff97), (14, 15, 0xab9423a7), (5, 21, 0xfc93a039),
  (12, 6, 0x655b59c3), (3, 10, 0x8f0ccc92), (10, 15, 0xffeff47d), (1, 21, 0x85845dd1),
  (8, 6, 0x6fa87e4f), (15, 10, 0xfe2ce6e0), (6, 15, 0xa3014314), (13, 21, 0x4e0811a1),
  (4, 6, 0xf7537e82), (11, 10, 0xbd3af235), (2, 15, 0x2ad7d2bb), (9, 21, 0xeb86d391)]

/-- decode, one word of it. -/
def word (block : List UInt8) (i : Nat) : UInt32 :=
  (block.getD (4 * i) 0).toUInt32 ||| (block.getD (4 * i + 1) 0).toUInt32 <<< 8 |||
    (block.getD (4 * i + 2) 0).toUInt32 <<< 16 ||| (block.getD (4 * i + 3) 0).toUInt32 <<< 24

def transform (state : Words) (block : List UInt8) : Words :=
  let x := (List.range 16).map (word block)
  let s := round1.foldl (turn (fun x y z => (x &&& y) ||| (~~~x &&& z)) x) state
  let s := round2.foldl (turn (fun x y z => (x &&& z) ||| (y &&& ~~~z)) x) s
  let s := round3.foldl (turn (fun x y z => x ^^^ y ^^^ z) x) s
  let s := round4.foldl (turn (fun x y z => y ^^^ (x ||| ~~~z)) x) s
  ⟨state.a + s.a, state.b + s.b, state.c + s.c, state.d + s.d⟩

end Transform

section Object

/-- PADDING. -/
def padding64 : List UInt8 := 0x80 :: List.replicate 63 0

/-- encode. -/
def encode (words : List UInt32) : List UInt8 :=
  words.flatMap fun (w : UInt32) =>
    [w.toUInt8, (w >>> 8).toUInt8, (w >>> 16).toUInt8, (w >>> 24).toUInt8]

/-- memcpy into the buffer. -/
def copy (buffer : List UInt8) (at_ : Nat) (input : List UInt8) : List UInt8 :=
  buffer.take at_ ++ input ++ buffer.drop (at_ + input.length)

structure Object where
  finished : Bool
  state : Words
  count0 : UInt32
  count1 : UInt32
  buffer : List UInt8
  digest : List UInt8

/-- The loop of init; i is 32 bits wide, len 64. Without fuel left it still runs. -/
def transformLoop (input : List UInt8) : Nat → UInt32 → Words → Option (Words × UInt32)
  | 0, _, _ => none
  | fuel + 1, i, state =>
      if (i + 63).toNat < input.length then
        transformLoop input fuel (i + 64) (transform state ((input.drop i.toNat).take 64))
      else some (state, i)

def index (count0 : UInt32) : UInt32 := (count0 >>> 3) &&& 0x3f

def Object.init (fuel : Nat) (s : Object) (input : List UInt8) : Option Object :=
  let index := index s.count0
  let bits := UInt32.ofNat input.length <<< 3
  let count0 := s.count0 + bits
  let count1 := (if count0 < bits then s.count1 + 1 else s.count1) +
    (UInt32.ofNat input.length >>> 29)
  let partLen := 64 - index
  if partLen.toNat ≤ input.length then
    let buffer := copy s.buffer index.toNat (input.take partLen.toNat)
    (transformLoop input fuel partLen (transform s.state buffer)).map fun (state, i) =>
      { s with finished := false, state := state, count0 := count0, count1 := count1,
               buffer := copy buffer 0 (input.drop i.toNat) }
  else
    some { s with finished := false, count0 := count0, count1 := count1,
                  buffer := copy s.buffer index.toNat input }

def S0 : Words := ⟨0x67452301, 0xefcdab89, 0x98badcfe, 0x10325476⟩

/-- The constructor; buffer and digest hold what the memory held. -/
def Object.new (fuel : Nat) (buffer digest message : List UInt8) : Option Object :=
  Object.init fuel ⟨false, S0, 0, 0, buffer, digest⟩ message

def Object.getDigest (fuel : Nat) (s : Object) : Option (Object × List UInt8) :=
  if s.finished then some (s, s.digest)
  else
    let bits := encode [s.count0, s.count1]
    let index := index s.count0
    let padLen := if index < 56 then 56 - index else 120 - index
    (Object.init fuel { s with finished := true } (padding64.take padLen.toNat)).bind fun s1 =>
      (Object.init fuel s1 bits).map fun s2 =>
        let digest := encode [s2.state.a, s2.state.b, s2.state.c, s2.state.d]
        ({ s2 with state := s.state, count0 := s.count0, count1 := s.count1, digest := digest },
          digest)

/-- HEX_NUMBERS. -/
def hexNumbers : List UInt8 := bytes "0123456789abcdef"

def hex (digest : List UInt8) : List UInt8 :=
  digest.flatMap fun t =>
    [hexNumbers.getD (t.toNat / 16) 0, hexNumbers.getD (t.toNat % 16) 0]

def Object.toString32 (fuel : Nat) (s : Object) : Option (Object × List UInt8) :=
  (s.getDigest fuel).map fun (s, digest) => (s, hex digest)

def Object.toString16 (fuel : Nat) (s : Object) : Option (Object × List UInt8) :=
  (s.toString32 fuel).map fun (s, str) => (s, (str.drop 8).take 16)

end Object

end HZRobot.Md5
