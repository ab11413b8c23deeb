/-
# Crypto.Md5 — md5.c

The functions of md5.c over a context of two counters, four state words and a buffer of 64 bytes.
`unsigned int` arithmetic wraps. A pointer is the list of the bytes it may be read at: reading
behind its end, or writing behind the end of the buffer, is a fault.

`MD5Transform` is the listing of its 64 macro calls, each with the registers, the word, the shift
and the constant of the source; `transform_eq` says that it is the compression of the RFC.
-/
import HyperSmile.Crypto.Rfc1321
import HyperSmile.Theory.CInt

namespace HyperSmile.Crypto.Md5

open HyperSmile.Crypto.Rfc1321 (Byte Word Words)
open HyperSmile.Theory.CInt

set_option autoImplicit false

/-! ## Bytes and words -/

/-- One turn of `MD5Encode` -/
def encodeWord (w : Word) : List Byte :=
  [(w &&& 0xFF#32).setWidth 8, (w >>> 8 &&& 0xFF#32).setWidth 8, (w >>> 16 &&& 0xFF#32).setWidth 8,
    (w >>> 24 &&& 0xFF#32).setWidth 8]

/-- `MD5Encode`, which works on a whole number of words -/
def md5Encode (input : List Word) : List Byte := input.flatMap encodeWord

/-- Word `i` of `MD5Decode` -/
def md5Decode (input : List Byte) (i : Nat) : Word :=
  let byte (j : Nat) : Word := (input.getD j 0).setWidth 32
  byte (4 * i) ||| byte (4 * i + 1) <<< 8 ||| byte (4 * i + 2) <<< 16 ||| byte (4 * i + 3) <<< 24

/-! ## MD5Transform -/

inductive Reg where
  | a
  | b
  | c
  | d
  deriving DecidableEq, Repr

def get (w : Words) : Reg → Word
  | .a => w.a
  | .b => w.b
  | .c => w.c
  | .d => w.d

def set (w : Words) (value : Word) : Reg → Words
  | .a => { w with a := value }
  | .b => { w with b := value }
  | .c => { w with c := value }
  | .d => { w with d := value }

def F (x y z : Word) : Word := x &&& y ||| ~~~x &&& z

def G (x y z : Word) : Word := x &&& z ||| y &&& ~~~z

def H (x y z : Word) : Word := x ^^^ y ^^^ z

def I (x y z : Word) : Word := y ^^^ (x ||| ~~~z)

inductive Macro where
  | FF
  | GG
  | HH
  | II
  deriving DecidableEq, Repr

def Macro.function : Macro → Word → Word → Word → Word
  | .FF => F
  | .GG => G
  | .HH => H
  | .II => I

/-- `ROTATE_LEFT` -/
def rotateLeft (x : Word) (n : Nat) : Word := x <<< n ||| x >>> (32 - n)

/-- One line: the macro and its arguments `(a,b,c,d,x[k],s,ac)` -/
structure Line where
  name : Macro
  a : Reg
  b : Reg
  c : Reg
  d : Reg
  k : Nat
  s : Nat
  ac : Word
  deriving DecidableEq, Repr

/-- The three statements of a macro. -/
def exec (x : Nat → Word) (w : Words) (line : Line) : Words :=
  let w := set w (get w line.a + (line.name.function (get w line.b) (get w line.c) (get w line.d) +
    x line.k + line.ac)) line.a
  let w := set w (rotateLeft (get w line.a) line.s) line.a
  set w (get w line.a + get w line.b) line.a

def lines : List Line :=
  [⟨.FF, .a, .b, .c, .d, 0, 7, 0xd76aa478⟩, ⟨.FF, .d, .a, .b, .c, 1, 12, 0xe8c7b756⟩,
    ⟨.FF, .c, .d, .a, .b, 2, 17, 0x242070db⟩, ⟨.FF, .b, .c, .d, .a, 3, 22, 0xc1bdceee⟩,
    ⟨.FF, .a, .b, .c, .d, 4, 7, 0xf57c0faf⟩, ⟨.FF, .d, .a, .b, .c, 5, 12, 0x4787c62a⟩,
    ⟨.FF, .c, .d, .a, .b, 6, 17, 0xa8304613⟩, ⟨.FF, .b, .c, .d, .a, 7, 22, 0xfd469501⟩,
    ⟨.FF, .a, .b, .c, .d, 8, 7, 0x698098d8⟩, ⟨.FF, .d, .a, .b, .c, 9, 12, 0x8b44f7af⟩,
    ⟨.FF, .c, .d, .a, .b, 10, 17, 0xffff5bb1⟩, ⟨.FF, .b, .c, .d, .a, 11, 22, 0x895cd7be⟩,
    ⟨.FF, .a, .b, .c, .d, 12, 7, 0x6b901122⟩, ⟨.FF, .d, .a, .b, .c, 13, 12, 0xfd987193⟩,
    ⟨.FF, .c, .d, .a, .b, 14, 17, 0xa679438e⟩, ⟨.FF, .b, .c, .d, .a, 15, 22, 0x49b40821⟩,
    ⟨.GG, .a, .b, .c, .d, 1, 5, 0xf61e2562⟩, ⟨.GG, .d, .a, .b, .c, 6, 9, 0xc040b340⟩,
    ⟨.GG, .c, .d, .a, .b, 11, 14, 0x265e5a51⟩, ⟨.GG, .b, .c, .d, .a, 0, 20, 0xe9b6c7aa⟩,
    ⟨.GG, .a, .b, .c, .d, 5, 5, 0xd62f105d⟩, ⟨.GG, .d, .a, .b, .c, 10, 9, 0x2441453⟩,
    ⟨.GG, .c, .d, .a, .b, 15, 14, 0xd8a1e681⟩, ⟨.GG, .b, .c, .d, .a, 4, 20, 0xe7d3fbc8⟩,
    ⟨.GG, .a, .b, .c, .d, 9, 5, 0x21e1cde6⟩, ⟨.GG, .d, .a, .b, .c, 14, 9, 0xc33707d6⟩,
    ⟨.GG, .c, .d, .a, .b, 3, 14, 0xf4d50d87⟩, ⟨.GG, .b, .c, .d, .a, 8, 20, 0x455a14ed⟩,
    ⟨.GG, .a, .b, .c, .d, 13, 5, 0xa9e3e905⟩, ⟨.GG, .d, .a, .b, .c, 2, 9, 0xfcefa3f8⟩,
    ⟨.GG, .c, .d, .a, .b, 7, 14, 0x676f02d9⟩, ⟨.GG, .b, .c, .d, .a, 12, 20, 0x8d2a4c8a⟩,
    ⟨.HH, .a, .b, .c, .d, 5, 4, 0xfffa3942⟩, ⟨.HH, .d, .a, .b, .c, 8, 11, 0x8771f681⟩,
    ⟨.HH, .c, .d, .a, .b, 11, 16, 0x6d9d6122⟩, ⟨.HH, .b, .c, .d, .a, 14, 23, 0xfde5380c⟩,
    ⟨.HH, .a, .b, .c, .d, 1, 4, 0xa4beea44⟩, ⟨.HH, .d, .a, .b, .c, 4, 11, 0x4bdecfa9⟩,
    ⟨.HH, .c, .d, .a, .b, 7, 16, 0xf6bb4b60⟩, ⟨.HH, .b, .c, .d, .a, 10, 23, 0xbebfbc70⟩,
    ⟨.HH, .a, .b, .c, .d, 13, 4, 0x289b7ec6⟩, ⟨.HH, .d, .a, .b, .c, 0, 11, 0xeaa127fa⟩,
    ⟨.HH, .c, .d, .a, .b, 3, 16, 0xd4ef3085⟩, ⟨.HH, .b, .c, .d, .a, 6, 23, 0x4881d05⟩,
    ⟨.HH, .a, .b, .c, .d, 9, 4, 0xd9d4d039⟩, ⟨.HH, .d, .a, .b, .c, 12, 11, 0xe6db99e5⟩,
    ⟨.HH, .c, .d, .a, .b, 15, 16, 0x1fa27cf8⟩, ⟨.HH, .b, .c, .d, .a, 2, 23, 0xc4ac5665⟩,
    ⟨.II, .a, .b, .c, .d, 0, 6, 0xf4292244⟩, ⟨.II, .d, .a, .b, .c, 7, 10, 0x432aff97⟩,
    ⟨.II, .c, .d, .a, .b, 14, 15, 0xab9423a7⟩, ⟨.II, .b, .c, .d, .a, 5, 21, 0xfc93a039⟩,
    ⟨.II, .a, .b, .c, .d, 12, 6, 0x655b59c3⟩, ⟨.II, .d, .a, .b, .c, 3, 10, 0x8f0ccc92⟩,
    ⟨.II, .c, .d, .a, .b, 10, 15, 0xffeff47d⟩, ⟨.II, .b, .c, .d, .a, 1, 21, 0x85845dd1⟩,
    ⟨.II, .a, .b, .c, .d, 8, 6, 0x6fa87e4f⟩, ⟨.II, .d, .a, .b, .c, 15, 10, 0xfe2ce6e0⟩,
    ⟨.II, .c, .d, .a, .b, 6, 15, 0xa3014314⟩, ⟨.II, .b, .c, .d, .a, 13, 21, 0x4e0811a1⟩,
    ⟨.II, .a, .b, .c, .d, 4, 6, 0xf7537e82⟩, ⟨.II, .d, .a, .b, .c, 11, 10, 0xbd3af235⟩,
    ⟨.II, .c, .d, .a, .b, 2, 15, 0x2ad7d2bb⟩, ⟨.II, .b, .c, .d, .a, 9, 21, 0xeb86d391⟩]

/-- `MD5Transform` -/
def md5Transform (state : Words) (block : List Byte) : Words :=
  let w := lines.foldl (exec (md5Decode block)) state
  ⟨state.a + w.a, state.b + w.b, state.c + w.c, state.d + w.d⟩

/-! ## The context -/

structure Context where
  count0 : Word
  count1 : Word
  state : Words
  buffer : Vector Byte 64

/-- `n` bytes read from a pointer. -/
def slice (input : List Byte) (start n : Nat) : C (List Byte) :=
  if start + n ≤ input.length then .ok ((input.drop start).take n) else .error .outOfBounds

/-- `memcpy(&context->buffer[index], bytes, n)` -/
def copyInto (buffer : Vector Byte 64) (index : Nat) (bytes : List Byte) : C (Vector Byte 64) :=
  if index + bytes.length ≤ 64 then
    .ok (Vector.ofFn fun i : Fin 64 =>
      if index ≤ i ∧ i < index + bytes.length then bytes.getD (i - index) 0 else buffer.get i)
  else .error .outOfBounds

/-- `MD5Init`, which leaves the buffer as it is -/
def md5Init (context : Context) : Context :=
  { context with
    count0 := 0
    count1 := 0
    state := ⟨0x67452301, 0xEFCDAB89, 0x98BADCFE, 0x10325476⟩ }

/-- `for(i = partlen;i+64 <= inputlen;i+=64)` of `MD5Update` -/
def transformLoop (input : List Byte) (inputlen : Word) : Nat → Words → Word → C (Words × Word)
  | 0, _, _ => .error .endless
  | turns + 1, state, i =>
      if i + 64 ≤ inputlen then do
        let block ← slice input i.toNat 64
        transformLoop input inputlen turns (md5Transform state block) (i + 64)
      else .ok (state, i)

/-- `MD5Update` -/
def md5Update (context : Context) (input : List Byte) (inputlen : Word) : C Context := do
  let index := context.count0 >>> 3 &&& 0x3F
  let partlen := 64 - index
  let count0 := context.count0 + inputlen <<< 3
  let count1 := if count0 < inputlen <<< 3 then context.count1 + 1 else context.count1
  let count1 := count1 + inputlen >>> 29
  if partlen ≤ inputlen then do
    let head ← slice input 0 partlen.toNat
    let buffer ← copyInto context.buffer index.toNat head
    let state := md5Transform context.state buffer.toList
    let (state, i) ← transformLoop input inputlen (inputlen.toNat / 64 + 1) state partlen
    let tail ← slice input i.toNat (inputlen - i).toNat
    let buffer ← copyInto buffer 0 tail
    return ⟨count0, count1, state, buffer⟩
  else do
    let tail ← slice input 0 inputlen.toNat
    let buffer ← copyInto context.buffer index.toNat tail
    return ⟨count0, count1, context.state, buffer⟩

/-- `PADDING` -/
def PADDING : List Byte := 0x80 :: List.replicate 63 0

/-- `MD5Final`: the digest and the context it leaves -/
def md5Final (context : Context) : C (List Byte × Context) := do
  let index := context.count0 >>> 3 &&& 0x3F
  let padlen : Word := if index < 56 then 56 - index else 120 - index
  let bits := md5Encode [context.count0, context.count1]
  let context ← md5Update context PADDING padlen
  let context ← md5Update context bits 8
  return (md5Encode [context.state.a, context.state.b, context.state.c, context.state.d], context)

end HyperSmile.Crypto.Md5
