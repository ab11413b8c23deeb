/-
# Crypto.Gcm — Galois/Counter Mode, as NIST SP 800-38D defines it

The reference for the GCM routine of the enclave, over any block cipher `ciph` and for
96-bit initialisation vectors. A block is a 128-bit string whose leftmost bit is the most
significant one; the product of two blocks (`mul`) is the algorithm of the standard, with
its bit order and its reduction constant `11100001 || 0^120`.

Decryption of what was sealed returns the plaintext (`open_seal`), and the product is
additive in its first argument (`mul_xor`).
-/
import Mathlib.Data.BitVec
import Mathlib.Data.List.Basic
import Mathlib.Logic.Function.Iterate

namespace HyperSmile.Crypto.Gcm

set_option autoImplicit false

abbrev Block := BitVec 128

/-! ## Bytes and blocks -/

/-- Byte `n` from the left. -/
def byteOf (x : Block) (n : Nat) : BitVec 8 := x.extractLsb' (8 * (15 - n)) 8

/-- The bytes of a block, from the left. -/
def bytesOf (x : Block) : List (BitVec 8) := (List.range 16).map (byteOf x)

/-- The first `n` bytes of a text, padded with zeros, on the right of a block. -/
def joined (text : List (BitVec 8)) : Nat → Block
  | 0 => 0
  | n + 1 => joined text n <<< 8 ||| (text.getD n 0).setWidth 128

/-- The first sixteen bytes of a text, padded with zeros. -/
def block (text : List (BitVec 8)) : Block := joined text 16

/-- The blocks of a text, the last one padded with zeros. -/
def blocks (text : List (BitVec 8)) : List Block :=
  (List.range ((text.length + 15) / 16)).map fun i => block (text.drop (16 * i))

/-! ## The product of blocks, and GHASH -/

/-- `11100001 || 0^120` -/
def R : Block := 0xe1 <<< 120

/-- `V_(i+1)` from `V_i` -/
def mulNext (v : Block) : Block := if v.getLsbD 0 then v >>> 1 ^^^ R else v >>> 1

/-- `n` turns of the loop, from bit `i` of `x` on. -/
def mulFrom (x : Block) : Nat → Nat → Block → Block → Block
  | 0, _, _, z => z
  | n + 1, i, v, z => mulFrom x n (i + 1) (mulNext v) (if x.getMsbD i then z ^^^ v else z)

/-- `X • Y` -/
def mul (x y : Block) : Block := mulFrom x 128 0 y 0

/-- `GHASH_H` -/
def ghash (h : Block) (xs : List Block) : Block := xs.foldl (fun y x => mul (y ^^^ x) h) 0

/-! ## Counter mode -/

/-- `inc_32` -/
def inc32 (x : Block) : Block := x.extractLsb' 32 96 ++ (x.extractLsb' 0 32 + 1)

/-- `GCTR_K`: byte `i` is added to byte `i % 16` of the cipher of counter block `i / 16`. -/
def gctr (ciph : Block → Block) (icb : Block) (text : List (BitVec 8)) : List (BitVec 8) :=
  text.mapIdx fun i b => b ^^^ byteOf (ciph (inc32^[i / 16] icb)) (i % 16)

/-! ## Authenticated encryption -/

/-- `J_0` for a 96-bit IV -/
def j0 (iv : BitVec 96) : Block := iv ++ 1#32

/-- `[len(A)]_64 || [len(C)]_64`, in bits -/
def lengths (a c : List (BitVec 8)) : Block :=
  BitVec.ofNat 64 (8 * a.length) ++ BitVec.ofNat 64 (8 * c.length)

/-- The tag of a ciphertext `c` with additional data `a`. -/
def tag (ciph : Block → Block) (iv : BitVec 96) (a c : List (BitVec 8)) : List (BitVec 8) :=
  let s := ghash (ciph 0) (blocks a ++ blocks c ++ [lengths a c])
  gctr ciph (j0 iv) (bytesOf s)

/-- `GCM-AE_K(IV, P, A)`: the ciphertext and the tag. -/
def encrypt (ciph : Block → Block) (iv : BitVec 96) (p a : List (BitVec 8)) :
    List (BitVec 8) × List (BitVec 8) :=
  let c := gctr ciph (inc32 (j0 iv)) p
  (c, tag ciph iv a c)

/-- `GCM-AD_K(IV, C, A, T)` -/
def decrypt (ciph : Block → Block) (iv : BitVec 96) (c a t : List (BitVec 8)) :
    Option (List (BitVec 8)) :=
  if tag ciph iv a c = t then some (gctr ciph (inc32 (j0 iv)) c) else none

/-! ## Properties -/

theorem gctr_gctr (ciph : Block → Block) (icb : Block) (text : List (BitVec 8)) :
    gctr ciph icb (gctr ciph icb text) = text := by
  apply List.ext_getElem
  · simp [gctr]
  · intro i inside inside'
    simp only [gctr, List.getElem_mapIdx]
    rw [BitVec.xor_assoc, BitVec.xor_self, BitVec.xor_zero]

/-- **What was sealed opens again.** -/
theorem open_seal (ciph : Block → Block) (iv : BitVec 96) (p a : List (BitVec 8)) :
    decrypt ciph iv (encrypt ciph iv p a).1 a (encrypt ciph iv p a).2 = some p := by
  rw [decrypt, encrypt, if_pos rfl, gctr_gctr]

theorem mulFrom_xor (x y : Block) (n i : Nat) (v z z' : Block) :
    mulFrom (x ^^^ y) n i v (z ^^^ z') = mulFrom x n i v z ^^^ mulFrom y n i v z' := by
  induction n generalizing i v z z' with
  | zero => rfl
  | succ n ih =>
      rw [mulFrom, mulFrom, mulFrom, ← ih, BitVec.getMsbD_xor]
      congr 1
      cases x.getMsbD i <;> cases y.getMsbD i
      · rfl
      · exact BitVec.xor_assoc ..
      · show z ^^^ z' ^^^ v = z ^^^ v ^^^ z'
        ac_rfl
      · show z ^^^ z' = z ^^^ v ^^^ (z' ^^^ v)
        rw [BitVec.xor_comm z' v, BitVec.xor_assoc z, ← BitVec.xor_assoc v, BitVec.xor_self,
          BitVec.zero_xor]

theorem mul_xor (x y h : Block) : mul (x ^^^ y) h = mul x h ^^^ mul y h := by
  have both := mulFrom_xor x y 128 0 h 0 0
  rwa [BitVec.xor_self] at both

/-- The turns of the loop on numbers: the form to compute with. -/
def mulNat (x : Nat) : Nat → Nat → Nat → Nat
  | 0, _, z => z
  | n + 1, v, z => mulNat x n (v >>> 1 ^^^ (v % 2) * (0xe1 <<< 120)) (z ^^^ v * ((x >>> n) % 2))

theorem toNat_mulNext (v : Block) :
    (mulNext v).toNat = v.toNat >>> 1 ^^^ (v.toNat % 2) * (0xe1 <<< 120) := by
  rw [mulNext, BitVec.getLsbD, Nat.testBit_zero]
  rcases Nat.mod_two_eq_zero_or_one v.toNat with clear | set
  · simp [clear]
  · simp [set, R]

theorem mul_eq_ofNat (x y : Block) :
    mul x y = BitVec.ofNat 128 (mulNat x.toNat 128 y.toNat 0) := by
  suffices turns : ∀ n ≤ 128, ∀ v z : Block,
      mulFrom x n (128 - n) v z = BitVec.ofNat 128 (mulNat x.toNat n v.toNat z.toNat) by
    exact turns 128 le_rfl y 0
  intro n
  induction n with
  | zero =>
      intro _ v z
      exact (BitVec.ofNat_toNat 128 z).symm
  | succ n ih =>
      intro inside v z
      have next : 128 - (n + 1) + 1 = 128 - n := by omega
      have bit : x.getMsbD (128 - (n + 1)) = decide (x.toNat >>> n % 2 = 1) := by
        rw [BitVec.getMsbD, BitVec.getLsbD, Nat.testBit_eq_decide_div_mod_eq, Nat.shiftRight_eq_div_pow,
          show 128 - 1 - (128 - (n + 1)) = n by omega]
        simp [show 127 - n < 128 by omega]
      have sum : (if x.getMsbD (128 - (n + 1)) then z ^^^ v else z).toNat =
          z.toNat ^^^ v.toNat * ((x.toNat >>> n) % 2) := by
        rw [bit]
        rcases Nat.mod_two_eq_zero_or_one (x.toNat >>> n) with clear | set
        · simp [clear]
        · simp [set]
      rw [mulFrom, mulNat, next, ih (by omega), toNat_mulNext, sum]

/-- The bits of the bytes joined so far. -/
theorem getLsbD_joined (text : List (BitVec 8)) {n i : Nat} (room : n ≤ 16) :
    (joined text n).getLsbD i = (decide (i < 8 * n) && (text.getD (n - 1 - i / 8) 0).getLsbD (i % 8)) := by
  induction n generalizing i with
  | zero => simp [joined]
  | succ n ih =>
      rw [joined, BitVec.getLsbD_or, BitVec.getLsbD_shiftLeft, ih (by omega), BitVec.getLsbD_setWidth]
      by_cases last : i < 8
      · have byte : i / 8 = 0 := by omega
        have bit : i % 8 = i := by omega
        have inside : i < 8 * (n + 1) := by omega
        simp [last, byte, bit, inside, Nat.lt_trans last (by decide : 8 < 128)]
      · have outside : (text.getD n 0).getLsbD i = false := BitVec.getLsbD_of_ge _ _ (by omega)
        have byte : n - 1 - (i - 8) / 8 = n + 1 - 1 - i / 8 := by omega
        have bit : (i - 8) % 8 = i % 8 := by omega
        have range : (decide (i < 128) && decide (i - 8 < 8 * n)) = decide (i < 8 * (n + 1)) := by
          rw [← Bool.decide_and]
          exact decide_eq_decide.2 (by omega)
        simp only [outside, byte, bit, last, Bool.and_false, Bool.or_false, decide_false, Bool.not_false,
          Bool.and_true, ← Bool.and_assoc, range]

theorem byteOf_block (text : List (BitVec 8)) {n : Nat} (inside : n < 16) :
    byteOf (block text) n = text.getD n 0 := by
  refine BitVec.eq_of_getLsbD_eq fun b bit => ?_
  have byte : 16 - 1 - (8 * (15 - n) + b) / 8 = n := by omega
  have low : (8 * (15 - n) + b) % 8 = b := by omega
  have range : 8 * (15 - n) + b < 8 * 16 := by omega
  rw [byteOf, BitVec.getLsbD_extractLsb', block, getLsbD_joined text le_rfl, byte, low]
  simp [bit, range]

end HyperSmile.Crypto.Gcm
