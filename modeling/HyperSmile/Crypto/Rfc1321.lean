/-
# Crypto.Rfc1321 — the MD5 message-digest algorithm

The algorithm as the RFC describes it, over bytes. A message is padded with 0x80, zeros and its
length in bits, so that it is a multiple of 64 bytes (`padded`); each block of sixteen words is
compressed into four words (`compress`), and these are the digest, low-order byte first.

The RFC lists the 64 operations of a block one by one, `[ABCD k s i]`, each of which replaces the
first of its four registers. Here the registers move on after each operation instead, and `k` and
`s` are given by their rules.
-/
import HyperSmile.Theory.StreamHash
import Mathlib.Data.BitVec

namespace HyperSmile.Crypto.Rfc1321

open HyperSmile.Theory.StreamHash

set_option autoImplicit false

abbrev Byte := BitVec 8

abbrev Word := BitVec 32

/-- The registers A, B, C and D. -/
structure Words where
  a : Word
  b : Word
  c : Word
  d : Word
  deriving DecidableEq, Repr

/-! ## Bytes and words -/

/-- The word of four bytes, the low-order byte first. -/
def wordOf (b0 b1 b2 b3 : Byte) : Word := b3 ++ b2 ++ b1 ++ b0

/-- The bytes of a word, the low-order byte first. -/
def bytesOf (w : Word) : List Byte :=
  [w.extractLsb' 0 8, w.extractLsb' 8 8, w.extractLsb' 16 8, w.extractLsb' 24 8]

/-- `X[k]` -/
def wordAt (block : List Byte) (k : Nat) : Word :=
  wordOf (block.getD (4 * k) 0) (block.getD (4 * k + 1) 0) (block.getD (4 * k + 2) 0)
    (block.getD (4 * k + 3) 0)

/-! ## The operations of a block -/

/-- In each bit, if `x` then `y` else `z` -/
def F (x y z : Word) : Word := x &&& y ||| ~~~x &&& z

/-- In each bit, if `z` then `x` else `y` -/
def G (x y z : Word) : Word := x &&& z ||| y &&& ~~~z

/-- The parity of the three bits -/
def H (x y z : Word) : Word := x ^^^ y ^^^ z

def I (x y z : Word) : Word := y ^^^ (x ||| ~~~z)

/-- `T[i + 1]`, the integer part of 4294967296 times abs(sin(i + 1)) -/
def T : List Word :=
  [0xd76aa478, 0xe8c7b756, 0x242070db, 0xc1bdceee, 0xf57c0faf, 0x4787c62a, 0xa8304613, 0xfd469501,
    0x698098d8, 0x8b44f7af, 0xffff5bb1, 0x895cd7be, 0x6b901122, 0xfd987193, 0xa679438e, 0x49b40821,
    0xf61e2562, 0xc040b340, 0x265e5a51, 0xe9b6c7aa, 0xd62f105d, 0x02441453, 0xd8a1e681, 0xe7d3fbc8,
    0x21e1cde6, 0xc33707d6, 0xf4d50d87, 0x455a14ed, 0xa9e3e905, 0xfcefa3f8, 0x676f02d9, 0x8d2a4c8a,
    0xfffa3942, 0x8771f681, 0x6d9d6122, 0xfde5380c, 0xa4beea44, 0x4bdecfa9, 0xf6bb4b60, 0xbebfbc70,
    0x289b7ec6, 0xeaa127fa, 0xd4ef3085, 0x04881d05, 0xd9d4d039, 0xe6db99e5, 0x1fa27cf8, 0xc4ac5665,
    0xf4292244, 0x432aff97, 0xab9423a7, 0xfc93a039, 0x655b59c3, 0x8f0ccc92, 0xffeff47d, 0x85845dd1,
    0x6fa87e4f, 0xfe2ce6e0, 0xa3014314, 0x4e0811a1, 0xf7537e82, 0xbd3af235, 0x2ad7d2bb, 0xeb86d391]

/-- The function of operation `i`: one for each round. -/
def function (i : Nat) : Word → Word → Word → Word :=
  match i / 16 with
  | 0 => F
  | 1 => G
  | 2 => H
  | _ => I

/-- The word that operation `i` adds. -/
def index (i : Nat) : Nat :=
  match i / 16 with
  | 0 => i % 16
  | 1 => (5 * i + 1) % 16
  | 2 => (3 * i + 5) % 16
  | _ => 7 * i % 16

/-- The bits by which operation `i` rotates. -/
def shift (i : Nat) : Nat :=
  match i / 16 with
  | 0 => [7, 12, 17, 22].getD (i % 4) 0
  | 1 => [5, 9, 14, 20].getD (i % 4) 0
  | 2 => [4, 11, 16, 23].getD (i % 4) 0
  | _ => [6, 10, 15, 21].getD (i % 4) 0

/-- `a = b + ((a + f(b,c,d) + X[k] + T[i]) <<< s)`, and the registers move on -/
def operation (x : Nat → Word) (w : Words) (i : Nat) : Words where
  a := w.d
  b := w.b + (w.a + function i w.b w.c w.d + x (index i) + T.getD i 0).rotateLeft (shift i)
  c := w.b
  d := w.c

/-- Four rounds of sixteen operations, added to what the registers were. -/
def compress (s : Words) (block : List Byte) : Words :=
  let w := (List.range 64).foldl (operation (wordAt block)) s
  ⟨s.a + w.a, s.b + w.b, s.c + w.c, s.d + w.d⟩

/-! ## The digest -/

def initial : Words := ⟨0x67452301, 0xefcdab89, 0x98badcfe, 0x10325476⟩

/-- The zeros after 0x80: up to 56 bytes modulo 64. -/
def zeros (length : Nat) : Nat := (119 - length % 64) % 64

/-- The low-order 64 bits of the length in bits, as two words. -/
def lengthBytes (length : Nat) : List Byte :=
  bytesOf (BitVec.ofNat 32 (8 * length)) ++ bytesOf (BitVec.ofNat 32 (8 * length / 2 ^ 32))

def padding (length : Nat) : List Byte := 0x80 :: List.replicate (zeros length) 0

def padded (message : List Byte) : List Byte :=
  message ++ padding message.length ++ lengthBytes message.length

/-- The digest of a state. -/
def digest (w : Words) : List Byte := bytesOf w.a ++ bytesOf w.b ++ bytesOf w.c ++ bytesOf w.d

def md5 (message : List Byte) : List Byte := digest (absorb 64 compress initial (padded message))

/-- The digest of "abc", from the test suite of the RFC. -/
example : md5 [0x61, 0x62, 0x63] =
    [0x90, 0x01, 0x50, 0x98, 0x3c, 0xd2, 0x4f, 0xb0, 0xd6, 0x96, 0x3f, 0x7d, 0x28, 0xe1, 0x7f, 0x72] := by
  decide +kernel

end HyperSmile.Crypto.Rfc1321
