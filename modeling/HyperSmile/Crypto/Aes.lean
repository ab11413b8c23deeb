/-
# Crypto.Aes — AES-128 in ECB mode: aes.h

The model follows aes.h function by function. A state is a 4 by 4 matrix of bytes,
row first, and the bytes of a block fill it column by column. The rows are rotated
as the source does it, packed into 32-bit words; a shift by 32, which row 0 asks for,
is taken modulo 32 as the processor does.

The 44 words of a key schedule are kept as eleven round keys of four words, the unit
in which the pointers `w`, `v` and `rk` move. A buffer is a map from offsets to
bytes, a pointer that may be NULL is an `Option`, and input and output are different
buffers. The loop over the blocks counts in an `int`, so the model is of lengths
below 2^31. The unused `out` array and `Nr` are left out.

After the model, each of the four layers is undone by its counterpart: the key is
added twice, the tables are inverse to each other, the rows, packed into words and
rotated, come back byte for byte, and the two matrices are inverse over the Galois
field. The last is checked on single bits only, since `gMul` distributes over xor.
-/
import HyperSmile.Theory.BlockCipher
import Mathlib.Logic.Function.Iterate

namespace HyperSmile.Crypto.Aes

open HyperSmile.Theory.BlockCipher

set_option autoImplicit false

/-! ## Words and tables -/

/-- `LOAD32H`: four bytes, high byte first. -/
def load32h (y : Vector (BitVec 8) 4) : BitVec 32 :=
  ((y[0] &&& 0xff).setWidth 32 <<< 24) ||| ((y[1] &&& 0xff).setWidth 32 <<< 16) |||
    ((y[2] &&& 0xff).setWidth 32 <<< 8) ||| (y[3] &&& 0xff).setWidth 32

/-- `STORE32H` -/
def store32h (x : BitVec 32) : Vector (BitVec 8) 4 :=
  #v[((x >>> 24) &&& 0xff).setWidth 8, ((x >>> 16) &&& 0xff).setWidth 8,
    ((x >>> 8) &&& 0xff).setWidth 8, (x &&& 0xff).setWidth 8]

/-- `BYTE`: byte `n` from the low end. -/
def byte (x : BitVec 32) (n : Nat) : BitVec 32 := (x >>> (8 * n)) &&& 0xff

/-- `ROF32`, with shift counts modulo 32 -/
def rof32 (x : BitVec 32) (n : Nat) : BitVec 32 := (x <<< (n % 32)) ||| (x >>> ((32 - n) % 32))

/-- `ROR32`, with shift counts modulo 32 -/
def ror32 (x : BitVec 32) (n : Nat) : BitVec 32 := (x >>> (n % 32)) ||| (x <<< ((32 - n) % 32))

def rcon : Vector (BitVec 32) 10 :=
  #v[0x01000000, 0x02000000, 0x04000000, 0x08000000, 0x10000000, 0x20000000, 0x40000000, 0x80000000,
    0x1B000000, 0x36000000]

def S : List (BitVec 8) :=
  [0x63, 0x7c, 0x77, 0x7b, 0xf2, 0x6b, 0x6f, 0xc5, 0x30, 0x01, 0x67, 0x2b, 0xfe, 0xd7, 0xab, 0x76,
    0xca, 0x82, 0xc9, 0x7d, 0xfa, 0x59, 0x47, 0xf0, 0xad, 0xd4, 0xa2, 0xaf, 0x9c, 0xa4, 0x72, 0xc0,
    0xb7, 0xfd, 0x93, 0x26, 0x36, 0x3f, 0xf7, 0xcc, 0x34, 0xa5, 0xe5, 0xf1, 0x71, 0xd8, 0x31, 0x15,
    0x04, 0xc7, 0x23, 0xc3, 0x18, 0x96, 0x05, 0x9a, 0x07, 0x12, 0x80, 0xe2, 0xeb, 0x27, 0xb2, 0x75,
    0x09, 0x83, 0x2c, 0x1a, 0x1b, 0x6e, 0x5a, 0xa0, 0x52, 0x3b, 0xd6, 0xb3, 0x29, 0xe3, 0x2f, 0x84,
    0x53, 0xd1, 0x00, 0xed, 0x20, 0xfc, 0xb1, 0x5b, 0x6a, 0xcb, 0xbe, 0x39, 0x4a, 0x4c, 0x58, 0xcf,
    0xd0, 0xef, 0xaa, 0xfb, 0x43, 0x4d, 0x33, 0x85, 0x45, 0xf9, 0x02, 0x7f, 0x50, 0x3c, 0x9f, 0xa8,
    0x51, 0xa3, 0x40, 0x8f, 0x92, 0x9d, 0x38, 0xf5, 0xbc, 0xb6, 0xda, 0x21, 0x10, 0xff, 0xf3, 0xd2,
    0xcd, 0x0c, 0x13, 0xec, 0x5f, 0x97, 0x44, 0x17, 0xc4, 0xa7, 0x7e, 0x3d, 0x64, 0x5d, 0x19, 0x73,
    0x60, 0x81, 0x4f, 0xdc, 0x22, 0x2a, 0x90, 0x88, 0x46, 0xee, 0xb8, 0x14, 0xde, 0x5e, 0x0b, 0xdb,
    0xe0, 0x32, 0x3a, 0x0a, 0x49, 0x06, 0x24, 0x5c, 0xc2, 0xd3, 0xac, 0x62, 0x91, 0x95, 0xe4, 0x79,
    0xe7, 0xc8, 0x37, 0x6d, 0x8d, 0xd5, 0x4e, 0xa9, 0x6c, 0x56, 0xf4, 0xea, 0x65, 0x7a, 0xae, 0x08,
    0xba, 0x78, 0x25, 0x2e, 0x1c, 0xa6, 0xb4, 0xc6, 0xe8, 0xdd, 0x74, 0x1f, 0x4b, 0xbd, 0x8b, 0x8a,
    0x70, 0x3e, 0xb5, 0x66, 0x48, 0x03, 0xf6, 0x0e, 0x61, 0x35, 0x57, 0xb9, 0x86, 0xc1, 0x1d, 0x9e,
    0xe1, 0xf8, 0x98, 0x11, 0x69, 0xd9, 0x8e, 0x94, 0x9b, 0x1e, 0x87, 0xe9, 0xce, 0x55, 0x28, 0xdf,
    0x8c, 0xa1, 0x89, 0x0d, 0xbf, 0xe6, 0x42, 0x68, 0x41, 0x99, 0x2d, 0x0f, 0xb0, 0x54, 0xbb, 0x16]

def invS : List (BitVec 8) :=
  [0x52, 0x09, 0x6a, 0xd5, 0x30, 0x36, 0xa5, 0x38, 0xbf, 0x40, 0xa3, 0x9e, 0x81, 0xf3, 0xd7, 0xfb,
    0x7c, 0xe3, 0x39, 0x82, 0x9b, 0x2f, 0xff, 0x87, 0x34, 0x8e, 0x43, 0x44, 0xc4, 0xde, 0xe9, 0xcb,
    0x54, 0x7b, 0x94, 0x32, 0xa6, 0xc2, 0x23, 0x3d, 0xee, 0x4c, 0x95, 0x0b, 0x42, 0xfa, 0xc3, 0x4e,
    0x08, 0x2e, 0xa1, 0x66, 0x28, 0xd9, 0x24, 0xb2, 0x76, 0x5b, 0xa2, 0x49, 0x6d, 0x8b, 0xd1, 0x25,
    0x72, 0xf8, 0xf6, 0x64, 0x86, 0x68, 0x98, 0x16, 0xd4, 0xa4, 0x5c, 0xcc, 0x5d, 0x65, 0xb6, 0x92,
    0x6c, 0x70, 0x48, 0x50, 0xfd, 0xed, 0xb9, 0xda, 0x5e, 0x15, 0x46, 0x57, 0xa7, 0x8d, 0x9d, 0x84,
    0x90, 0xd8, 0xab, 0x00, 0x8c, 0xbc, 0xd3, 0x0a, 0xf7, 0xe4, 0x58, 0x05, 0xb8, 0xb3, 0x45, 0x06,
    0xd0, 0x2c, 0x1e, 0x8f, 0xca, 0x3f, 0x0f, 0x02, 0xc1, 0xaf, 0xbd, 0x03, 0x01, 0x13, 0x8a, 0x6b,
    0x3a, 0x91, 0x11, 0x41, 0x4f, 0x67, 0xdc, 0xea, 0x97, 0xf2, 0xcf, 0xce, 0xf0, 0xb4, 0xe6, 0x73,
    0x96, 0xac, 0x74, 0x22, 0xe7, 0xad, 0x35, 0x85, 0xe2, 0xf9, 0x37, 0xe8, 0x1c, 0x75, 0xdf, 0x6e,
    0x47, 0xf1, 0x1a, 0x71, 0x1d, 0x29, 0xc5, 0x89, 0x6f, 0xb7, 0x62, 0x0e, 0xaa, 0x18, 0xbe, 0x1b,
    0xfc, 0x56, 0x3e, 0x4b, 0xc6, 0xd2, 0x79, 0x20, 0x9a, 0xdb, 0xc0, 0xfe, 0x78, 0xcd, 0x5a, 0xf4,
    0x1f, 0xdd, 0xa8, 0x33, 0x88, 0x07, 0xc7, 0x31, 0xb1, 0x12, 0x10, 0x59, 0x27, 0x80, 0xec, 0x5f,
    0x60, 0x51, 0x7f, 0xa9, 0x19, 0xb5, 0x4a, 0x0d, 0x2d, 0xe5, 0x7a, 0x9f, 0x93, 0xc9, 0x9c, 0xef,
    0xa0, 0xe0, 0x3b, 0x4d, 0xae, 0x2a, 0xf5, 0xb0, 0xc8, 0xeb, 0xbb, 0x3c, 0x83, 0x53, 0x99, 0x61,
    0x17, 0x2b, 0x04, 0x7e, 0xba, 0x77, 0xd6, 0x26, 0xe1, 0x69, 0x14, 0x63, 0x55, 0x21, 0x0c, 0x7d]

/-- `MIX`: substitute the bytes of a word and rotate it by one byte. -/
def mix (x : BitVec 32) : BitVec 32 :=
  let sub (n : Nat) : BitVec 32 := (S.getD (byte x n).toNat 0).setWidth 32
  ((sub 2 <<< 24) &&& 0xff000000) ^^^ ((sub 1 <<< 16) &&& 0xff0000) ^^^
    ((sub 0 <<< 8) &&& 0xff00) ^^^ (sub 3 &&& 0xff)

/-! ## The key schedule -/

abbrev Buffer := Nat → BitVec 8

abbrev RoundKey := Vector (BitVec 32) 4

structure AesKey where
  eK : Vector RoundKey 11
  dK : Vector RoundKey 11

def AesKey.blank : AesKey := ⟨.replicate 11 (.replicate 4 0), .replicate 11 (.replicate 4 0)⟩

/-- One turn of the loop that fills `W[4-43]`. -/
def nextRoundKey (w : RoundKey) (rc : BitVec 32) : RoundKey :=
  let w4 := w[0] ^^^ mix w[3] ^^^ rc
  let w5 := w[1] ^^^ w4
  let w6 := w[2] ^^^ w5
  let w7 := w[3] ^^^ w6
  #v[w4, w5, w6, w7]

/-- The encryption keys, round by round. -/
def expandKey (key : Buffer) : Nat → RoundKey
  | 0 => Vector.ofFn fun i => load32h (Vector.ofFn fun j => key (4 * i + j))
  | i + 1 => nextRoundKey (expandKey key i) (rcon.get (Fin.ofNat 10 i))

/-- `keyExpansion`; both callers pass the address of a local `AesKey`. The decryption
keys are the encryption keys in reverse order. -/
def keyExpansion (key : Option Buffer) (keyLen : BitVec 32) (aesKey : AesKey) : Int × AesKey :=
  match key with
  | none => (-1, aesKey)
  | some key =>
      if keyLen ≠ 16 then (-1, aesKey)
      else
        let eK : Vector RoundKey 11 := Vector.ofFn fun j => expandKey key j
        (0, ⟨eK, eK.reverse⟩)

/-! ## The four layers -/

/-- `uint8_t state[4][4]`, row first -/
abbrev State := Vector (Vector (BitVec 8) 4) 4

/-- A state by its bytes; `i` is the row and `j` the column, as in the source. -/
def State.ofBytes (f : Fin 4 → Fin 4 → BitVec 8) : State :=
  Vector.ofFn fun i => Vector.ofFn fun j => f i j

/-- `state[j][i] = *in++` -/
def loadStateArray (input : Fin 16 → BitVec 8) : State :=
  .ofBytes fun j i => input ⟨4 * i + j, by omega⟩

/-- `*out++ = state[j][i]` -/
def storeStateArray (state : State) : Fin 16 → BitVec 8 := fun n => state[n.val % 4][n.val / 4]

def addRoundKey (state : State) (key : RoundKey) : State :=
  .ofBytes fun i j => state[i][j] ^^^ (byte key[j] (3 - i)).setWidth 8

def subBytes (state : State) : State := .ofBytes fun i j => S.getD state[i][j].toNat 0

def invSubBytes (state : State) : State := .ofBytes fun i j => invS.getD state[i][j].toNat 0

def shiftRows (state : State) : State :=
  Vector.ofFn fun i => store32h (rof32 (load32h state[i]) (8 * i))

def invShiftRows (state : State) : State :=
  Vector.ofFn fun i => store32h (ror32 (load32h state[i]) (8 * i))

/-- The variables of the loop in `GMul`. -/
structure GMulLoop where
  p : BitVec 8
  u : BitVec 8
  v : BitVec 8

def GMulLoop.step (s : GMulLoop) : GMulLoop :=
  let p := if s.u &&& 0x01 ≠ 0 then s.p ^^^ s.v else s.p
  let flag := s.v &&& 0x80
  let v := s.v <<< 1
  let v := if flag ≠ 0 then v ^^^ 0x1B else v
  ⟨p, s.u >>> 1, v⟩

/-- Galois field multiplication. -/
def gMul (u v : BitVec 8) : BitVec 8 := (GMulLoop.step^[8] ⟨0, u, v⟩).p

/-- The matrix product both column layers compute. -/
def mulColumns (M : Vector (Vector (BitVec 8) 4) 4) (state : State) : State :=
  .ofBytes fun i j => gMul M[i][0] state[0][j] ^^^ gMul M[i][1] state[1][j] ^^^
    gMul M[i][2] state[2][j] ^^^ gMul M[i][3] state[3][j]

/-- `M` of `mixColumns` -/
def mixM : Vector (Vector (BitVec 8) 4) 4 :=
  #v[#v[0x02, 0x03, 0x01, 0x01],
    #v[0x01, 0x02, 0x03, 0x01],
    #v[0x01, 0x01, 0x02, 0x03],
    #v[0x03, 0x01, 0x01, 0x02]]

/-- `M` of `invMixColumns` -/
def invMixM : Vector (Vector (BitVec 8) 4) 4 :=
  #v[#v[0x0E, 0x0B, 0x0D, 0x09],
    #v[0x09, 0x0E, 0x0B, 0x0D],
    #v[0x0D, 0x09, 0x0E, 0x0B],
    #v[0x0B, 0x0D, 0x09, 0x0E]]

def mixColumns : State → State := mulColumns mixM

def invMixColumns : State → State := mulColumns invMixM

/-! ## A block, and a buffer -/

/-- `for (int j = 1; j < 10; ++j)`, with `rk` at round key `j` -/
def middleRounds (keys : Vector RoundKey 11) : List RoundKey :=
  [keys[1], keys[2], keys[3], keys[4], keys[5], keys[6], keys[7], keys[8], keys[9]]

def encRound (state : State) (rk : RoundKey) : State :=
  addRoundKey (mixColumns (shiftRows (subBytes state))) rk

def decRound (state : State) (rk : RoundKey) : State :=
  invMixColumns (addRoundKey (invSubBytes (invShiftRows state)) rk)

/-- What `aesEncrypt` does to the state of a block. -/
def encryptState (aesKey : AesKey) (state : State) : State :=
  let state := addRoundKey state aesKey.eK[0]
  let state := (middleRounds aesKey.eK).foldl encRound state
  addRoundKey (shiftRows (subBytes state)) aesKey.eK[10]

/-- What `aesDecrypt` does to the state of a block. -/
def decryptState (aesKey : AesKey) (state : State) : State :=
  let state := addRoundKey state aesKey.dK[0]
  let state := (middleRounds aesKey.dK).foldl decRound state
  addRoundKey (invShiftRows (invSubBytes state)) aesKey.dK[10]

/-- What a call returns, prints and leaves in its output buffer. -/
structure Call where
  code : Int
  printed : String
  output : Option Buffer

/-- `memcpy(actualKey, key, keyLen)` over sixteen zeros -/
def actualKey (key : Buffer) (keyLen : BitVec 32) : Buffer :=
  fun i => if i < keyLen.toNat then key i else 0

/-- The body `aesEncrypt` and `aesDecrypt` share, but for the work on one block. -/
def aesCrypt (cryptState : AesKey → State → State) (key : Option Buffer) (keyLen : BitVec 32)
    (input output : Option Buffer) (len : BitVec 32) : Call :=
  match key, input, output with
  | some key, some input, some output =>
      if 16 < keyLen then ⟨-1, "keyLen must be 16.\n", some output⟩
      else if len % 16 ≠ 0 then ⟨-1, "inLen is invalid.\n", some output⟩
      else
        -- the local AesKey is not initialised in the source; keyExpansion fills all of it
        let aesKey := (keyExpansion (some (actualKey key keyLen)) 16 .blank).2
        let cryptBlock block := storeStateArray (cryptState aesKey (loadStateArray block))
        ⟨0, "", some (mapBlocks cryptBlock input (len.toNat / 16) output)⟩
  | _, _, _ => ⟨-1, "param err.\n", output⟩

def aesEncrypt : Option Buffer → BitVec 32 → Option Buffer → Option Buffer → BitVec 32 → Call :=
  aesCrypt encryptState

def aesDecrypt : Option Buffer → BitVec 32 → Option Buffer → Option Buffer → BitVec 32 → Call :=
  aesCrypt decryptState

/-! ## States by their bytes -/

@[simp] theorem State.ofBytes_get (f : Fin 4 → Fin 4 → BitVec 8) {i j : Nat} (row : i < 4)
    (column : j < 4) : (State.ofBytes f)[i][j] = f ⟨i, row⟩ ⟨j, column⟩ := by
  simp [State.ofBytes]

theorem State.ext {s t : State}
    (same : ∀ (i j : Nat) (_ : i < 4) (_ : j < 4), s[i][j] = t[i][j]) : s = t :=
  Vector.ext fun i row => Vector.ext fun j column => same i j row column

theorem loadStateArray_storeStateArray (state : State) :
    loadStateArray (storeStateArray state) = state := by
  apply State.ext
  intro i j row column
  simp only [loadStateArray, storeStateArray, State.ofBytes_get]
  congr 2 <;> omega

theorem storeStateArray_loadStateArray (block : Fin 16 → BitVec 8) :
    storeStateArray (loadStateArray block) = block := by
  funext n
  simp only [loadStateArray, storeStateArray, State.ofBytes_get]
  congr 1
  exact Fin.ext (by simp; omega)

/-! ## Adding the key, substituting bytes -/

theorem addRoundKey_addRoundKey (state : State) (key : RoundKey) :
    addRoundKey (addRoundKey state key) key = state := by
  apply State.ext
  intro i j row column
  have cancel (x k : BitVec 8) : x ^^^ k ^^^ k = x := by
    rw [BitVec.xor_assoc, BitVec.xor_self, BitVec.xor_zero]
  simp only [addRoundKey, State.ofBytes_get, Fin.getElem_fin, cancel]

theorem invS_S : ∀ x : BitVec 8, invS.getD (S.getD x.toNat 0).toNat 0 = x := by decide +kernel

theorem invSubBytes_subBytes (state : State) : invSubBytes (subBytes state) = state := by
  apply State.ext
  intro i j row column
  simpa [invSubBytes, subBytes] using invS_S state[i][j]

/-! ## Rotating rows -/

theorem index_cases {i : Nat} (inside : i < 4) : i = 0 ∨ i = 1 ∨ i = 2 ∨ i = 3 := by omega

theorem store32h_bit (x : BitVec 32) {j b : Nat} (inside : j < 4) (bit : b < 8) :
    (store32h x)[j].getLsbD b = x.getLsbD (8 * (3 - j) + b) := by
  have mask : ∀ x : BitVec 32, ((x &&& 0xff).setWidth 8).getLsbD b = x.getLsbD b := by
    intro x
    have low : (0xff : BitVec 32) = BitVec.setWidth 32 (BitVec.allOnes 8) := by decide
    rw [BitVec.getLsbD_setWidth, BitVec.getLsbD_and, low, BitVec.getLsbD_setWidth,
      BitVec.getLsbD_allOnes]
    simp [bit, Nat.lt_trans bit (by decide : 8 < 32)]
  rcases index_cases inside with rfl | rfl | rfl | rfl
  · exact (mask _).trans (BitVec.getLsbD_ushiftRight ..)
  · exact (mask _).trans (BitVec.getLsbD_ushiftRight ..)
  · exact (mask _).trans (BitVec.getLsbD_ushiftRight ..)
  · exact (mask _).trans (by simp)

theorem load32h_bit (y : Vector (BitVec 8) 4) {j b : Nat} (inside : j < 4) (bit : b < 8) :
    (load32h y).getLsbD (8 * (3 - j) + b) = y[j].getLsbD b := by
  have mask : ∀ x : BitVec 8, x &&& 0xff = x := fun x => BitVec.and_allOnes
  simp only [load32h, mask, BitVec.getLsbD_or, BitVec.getLsbD_shiftLeft, BitVec.getLsbD_setWidth]
  rcases index_cases inside with rfl | rfl | rfl | rfl <;> grind

theorem rof32_bit (x : BitVec 32) {k c : Nat} (bytes : k ≤ 4) (bit : c < 32) :
    (rof32 x (8 * k)).getLsbD c = x.getLsbD ((c + 32 - 8 * k) % 32) := by
  simp only [rof32, BitVec.getLsbD_or, BitVec.getLsbD_shiftLeft, BitVec.getLsbD_ushiftRight]
  rcases (by omega : k = 0 ∨ k = 1 ∨ k = 2 ∨ k = 3 ∨ k = 4) with rfl | rfl | rfl | rfl | rfl <;>
    grind

/-- A rotation to the right is one to the left by the rest of the word. -/
theorem ror32_eq (x : BitVec 32) {k : Nat} (bytes : k ≤ 4) :
    ror32 x (8 * k) = rof32 x (8 * (4 - k)) := by
  have rest : 8 * (4 - k) = 32 - 8 * k := by omega
  have back : 32 - (32 - 8 * k) = 8 * k := by omega
  rw [ror32, rof32, rest, back, BitVec.or_comm]

/-- A row rotated by `k` bytes, byte by byte. -/
theorem rotated_get (y : Vector (BitVec 8) 4) {k j : Nat} (bytes : k ≤ 4) (column : j < 4) :
    (store32h (rof32 (load32h y) (8 * k)))[j] = y[(j + k) % 4] := by
  refine BitVec.eq_of_getLsbD_eq fun b bit => ?_
  rw [store32h_bit _ column bit, rof32_bit _ bytes (by omega),
    ← load32h_bit y (by omega : (j + k) % 4 < 4) bit]
  congr 1
  omega

/-- Row `i` moves `i` bytes to the left. -/
theorem shiftRows_get (state : State) {i j : Nat} (row : i < 4) (column : j < 4) :
    (shiftRows state)[i][j] = state[i][(j + i) % 4] := by
  simp only [shiftRows, Vector.getElem_ofFn, Fin.getElem_fin]
  exact rotated_get state[i] row.le column

/-- Row `i` moves `i` bytes to the right. -/
theorem invShiftRows_get (state : State) {i j : Nat} (row : i < 4) (column : j < 4) :
    (invShiftRows state)[i][j] = state[i][(j + (4 - i)) % 4] := by
  simp only [invShiftRows, Vector.getElem_ofFn, Fin.getElem_fin]
  have left := ror32_eq (load32h state[i]) row.le
  simp only [left]
  exact rotated_get state[i] (by omega) column

theorem invShiftRows_shiftRows (state : State) : invShiftRows (shiftRows state) = state := by
  apply State.ext
  intro i j row column
  rw [invShiftRows_get _ row column, shiftRows_get _ row (by omega)]
  congr 1
  omega

/-- Bytes are substituted wherever they are. -/
theorem invSubBytes_invShiftRows (state : State) :
    invShiftRows (invSubBytes state) = invSubBytes (invShiftRows state) := by
  apply State.ext
  intro i j row column
  rw [invShiftRows_get _ row column]
  simp only [invSubBytes, State.ofBytes_get, Fin.getElem_fin]
  rw [invShiftRows_get _ row column]

/-! ## Mixing columns -/

namespace GMulLoop

/-- The new `v`: the old one times x. -/
def xtime (v : BitVec 8) : BitVec 8 :=
  if v &&& 0x80 ≠ 0 then v <<< 1 ^^^ 0x1B else v <<< 1

theorem step_eq (s : GMulLoop) :
    s.step = ⟨if s.u &&& 0x01 ≠ 0 then s.p ^^^ s.v else s.p, s.u >>> 1, xtime s.v⟩ := rfl

theorem flag_iff (v : BitVec 8) : v &&& 0x80 ≠ 0 ↔ v.getLsbD 7 := by
  rw [show (0x80 : BitVec 8) = BitVec.twoPow 8 7 from rfl, BitVec.and_twoPow]
  cases v.getLsbD 7 <;> decide

theorem xtime_additive : XorAdditive xtime := by
  intro v w
  simp only [xtime, flag_iff, BitVec.getLsbD_xor, BitVec.shiftLeft_xor_distrib]
  generalize v <<< 1 = v'
  generalize w <<< 1 = w'
  cases v.getLsbD 7 <;> cases w.getLsbD 7
  · rfl
  · exact BitVec.xor_assoc ..
  · show v' ^^^ w' ^^^ 0x1B = v' ^^^ 0x1B ^^^ w'
    ac_rfl
  · -- the two reductions cancel
    show v' ^^^ w' = v' ^^^ 0x1B ^^^ (w' ^^^ 0x1B)
    rw [BitVec.xor_comm w', BitVec.xor_assoc, ← BitVec.xor_assoc 0x1B, BitVec.xor_self,
      BitVec.zero_xor]

/-- Two loops with one multiplier, added. -/
def add (a b : GMulLoop) : GMulLoop := ⟨a.p ^^^ b.p, a.u, a.v ^^^ b.v⟩

theorem step_add {a b : GMulLoop} (same : a.u = b.u) : (a.add b).step = a.step.add b.step := by
  simp only [step_eq, add, same, xtime_additive a.v b.v]
  split
  · congr 1
    ac_rfl
  · rfl

theorem iterate_add {a b : GMulLoop} (same : a.u = b.u) (n : Nat) :
    step^[n] (a.add b) = (step^[n] a).add (step^[n] b) := by
  induction n generalizing a b with
  | zero => rfl
  | succ n ih =>
      rw [Function.iterate_succ_apply, step_add same]
      exact ih (by rw [step_eq, step_eq, same])

end GMulLoop

theorem gMul_additive (u : BitVec 8) : XorAdditive (gMul u) := by
  intro v w
  have start : GMulLoop.mk 0 u (v ^^^ w) = (GMulLoop.mk 0 u v).add ⟨0, u, w⟩ := by
    simp [GMulLoop.add]
  have run := @GMulLoop.iterate_add ⟨0, u, v⟩ ⟨0, u, w⟩ rfl 8
  rw [gMul, start, run]
  rfl

/-- Entry `i, l` of a product of two matrices, as a map of bytes. -/
def mulEntry (N M : Vector (Vector (BitVec 8) 4) 4) (i l : Fin 4) (x : BitVec 8) : BitVec 8 :=
  gMul N[i][0] (gMul M[0][l] x) ^^^ gMul N[i][1] (gMul M[1][l] x) ^^^
    gMul N[i][2] (gMul M[2][l] x) ^^^ gMul N[i][3] (gMul M[3][l] x)

theorem mulEntry_additive (N M : Vector (Vector (BitVec 8) 4) 4) (i l : Fin 4) :
    XorAdditive (mulEntry N M i l) := by
  have term (k : Fin 4) : XorAdditive fun x => gMul N[i][k] (gMul M[k][l] x) :=
    (gMul_additive _).comp (gMul_additive _)
  exact (((term 0).xor (term 1)).xor (term 2)).xor (term 3)

/-- The two matrices are inverse, checked on single bits. -/
theorem mulEntry_bits : ∀ i l : Fin 4, ∀ n < 8,
    mulEntry invMixM mixM i l (BitVec.twoPow 8 n) = if i = l then BitVec.twoPow 8 n else 0 := by
  decide

theorem mulEntry_mix (i l : Fin 4) (x : BitVec 8) :
    mulEntry invMixM mixM i l x = if i = l then x else 0 := by
  by_cases diagonal : i = l
  · subst diagonal
    rw [if_pos rfl]
    refine XorAdditive.ext (mulEntry_additive invMixM mixM i i) .id (fun n inside => ?_) x
    simpa using mulEntry_bits i i n inside
  · rw [if_neg diagonal]
    refine XorAdditive.ext (mulEntry_additive invMixM mixM i l) .const_zero (fun n inside => ?_) x
    simpa [diagonal] using mulEntry_bits i l n inside

/-- A product of matrices, applied to a column. -/
theorem mulColumns_mulColumns (N M : Vector (Vector (BitVec 8) 4) 4) (state : State) (i j : Fin 4) :
    (mulColumns N (mulColumns M state))[i][j] =
      mulEntry N M i 0 state[0][j] ^^^ mulEntry N M i 1 state[1][j] ^^^
        mulEntry N M i 2 state[2][j] ^^^ mulEntry N M i 3 state[3][j] := by
  have expand (u x y : BitVec 8) : gMul u (x ^^^ y) = gMul u x ^^^ gMul u y := gMul_additive u x y
  simp only [mulColumns, mulEntry, State.ofBytes_get, Fin.getElem_fin, expand]
  ac_rfl

theorem invMixColumns_mixColumns (state : State) : invMixColumns (mixColumns state) = state := by
  apply State.ext
  intro i j row column
  have entry := mulColumns_mulColumns invMixM mixM state ⟨i, row⟩ ⟨j, column⟩
  simp only [mulEntry_mix, Fin.getElem_fin] at entry
  rw [invMixColumns, mixColumns, entry]
  rcases index_cases row with rfl | rfl | rfl | rfl <;> simp

end HyperSmile.Crypto.Aes
