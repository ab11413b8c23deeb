/-
# Crypto.AesFips — aes.h is AES-128

Layer by layer, the routines of aes.h compute what the standard defines: the table `S`
is the inverse in GF(2^8) and the affine map (`sBox_eq_S`), `GMul` is the product of
that field (`gMul_eq_gfMul`) and its matrix the polynomial product of a column
(`bytes_mixColumns`), the packed rotations move the rows (`bytes_shiftRows`), and the
words of `keyExpansion`, high byte first, are those of the key schedule
(`keyWord_expandKey`). `aes_is_fips` is the result for whole buffers.
-/
import HyperSmile.Crypto.AesRoundTrip
import HyperSmile.Crypto.Fips197

namespace HyperSmile.Crypto.Aes

open HyperSmile.Theory.BlockCipher
open HyperSmile.Theory.BinaryPolynomial
open HyperSmile.Crypto.Fips197 (sBox sBox_of_product sBox_zero affine gfMul xtime mixBytes mixColumn_eq
  keyWord cipher rconByte_eq xPower)

set_option autoImplicit false

/-! ## The table and the product -/

/-- The inverse of the affine map of SubBytes. -/
def invAffine (b : BitVec 8) : BitVec 8 :=
  b.rotateRight 2 ^^^ b.rotateRight 5 ^^^ b.rotateRight 7 ^^^ 0x05

theorem affine_invAffine : ∀ x : BitVec 8, affine (invAffine x) = x := by decide

/-- The table, freed of the affine map, inverts. -/
theorem gfMul_table : ∀ x : BitVec 8, x ≠ 0 → gfMul x (invAffine (S.getD x.toNat 0)) = 1 := by
  decide +kernel

/-- **The table is the substitution of the standard.** -/
theorem sBox_eq_S (b : BitVec 8) : sBox b = S.getD b.toNat 0 := by
  by_cases zero : b = 0
  · rw [zero, sBox_zero]
    rfl
  · rw [sBox_of_product (gfMul_table b zero), affine_invAffine]

theorem xtime_eq_timesX (v : BitVec 8) : GMulLoop.xtime v = timesX 0x1b v := by
  have top : v.msb = v.getLsbD 7 := by simp [BitVec.msb_eq_getLsbD_last]
  simp only [GMulLoop.xtime, GMulLoop.flag_iff, timesX, top]

theorem bit_iff (u : BitVec 8) : u &&& 0x01 ≠ 0 ↔ u.getLsbD 0 := by
  rw [show (0x01 : BitVec 8) = BitVec.twoPow 8 0 from rfl, BitVec.and_twoPow]
  cases u.getLsbD 0 <;> decide

/-- The loop of `GMul`, from its turn `i` on. -/
theorem iterate_step (u : BitVec 8) (n i : Nat) (p v : BitVec 8) :
    (GMulLoop.step^[n] ⟨p, u >>> i, v⟩).p = mulModFrom 0x1b u n i v p := by
  induction n generalizing i p v with
  | zero => rfl
  | succ n ih =>
      have shifted : (u >>> i) >>> 1 = u >>> (i + 1) := (BitVec.shiftRight_add u i 1).symm
      have bit : (u >>> i).getLsbD 0 = u.getLsbD i := by simp
      rw [Function.iterate_succ_apply, GMulLoop.step_eq, mulModFrom, ← ih]
      simp only [bit_iff, bit, shifted, xtime_eq_timesX]

theorem gMul_eq_gfMul (u v : BitVec 8) : gMul u v = gfMul u v := by
  have start := iterate_step u 8 0 0 v
  rw [BitVec.ushiftRight_zero] at start
  exact start

/-! ## Layers -/

theorem get_eq_getElem {α : Type} {n : Nat} (xs : Vector α n) (i : Fin n) : xs.get i = xs[i.val] := rfl

/-- The bytes of a state. -/
def bytes (state : State) : Fips197.State := fun r c => (state.get r).get c

@[simp] theorem bytes_ofBytes (f : Fin 4 → Fin 4 → BitVec 8) : bytes (.ofBytes f) = f := by
  funext r c
  simp [bytes, get_eq_getElem]

theorem bytes_subBytes (state : State) : bytes (subBytes state) = Fips197.subBytes (bytes state) := by
  rw [subBytes, bytes_ofBytes]
  funext r c
  rw [Fips197.subBytes, sBox_eq_S, bytes]
  rfl

theorem bytes_shiftRows (state : State) : bytes (shiftRows state) = Fips197.shiftRows (bytes state) := by
  funext r c
  show (shiftRows state)[r.val][c.val] = state[r.val][(c + r).val]
  rw [shiftRows_get state r.isLt c.isLt]
  congr 1

/-- The entries of the matrix, as the field has them. -/
theorem gMul_one (x : BitVec 8) : gMul 1#8 x = x := by
  apply Fips197.element.injective
  rw [gMul_eq_gfMul, Fips197.element_gfMul]
  exact (congrArg (· * _) Fips197.element_one).trans (one_mul _)

theorem gMul_two (x : BitVec 8) : gMul 2#8 x = xtime x := by
  apply Fips197.element.injective
  rw [gMul_eq_gfMul, Fips197.element_gfMul, Fips197.element_xtime]
  rfl

theorem gMul_three (x : BitVec 8) : gMul 3#8 x = xtime x ^^^ x := by
  have sum : Fips197.element 3#8 = Fips197.element 0x02 + 1 := by
    rw [← Fips197.element_one, ← Fips197.element_xor]
    rfl
  apply Fips197.element.injective
  rw [gMul_eq_gfMul, Fips197.element_gfMul, Fips197.element_xor, Fips197.element_xtime, sum, add_mul,
    one_mul]

theorem bytes_mixColumns (state : State) :
    bytes (mixColumns state) = Fips197.mixColumns (bytes state) := by
  rw [mixColumns, mulColumns, bytes_ofBytes]
  funext r c
  rw [Fips197.mixColumns, mixColumn_eq]
  have rows : r = 0 ∨ r = 1 ∨ r = 2 ∨ r = 3 := by omega
  rcases rows with rfl | rfl | rfl | rfl
  · simp [mixM, gMul_one, gMul_two, gMul_three, mixBytes, bytes, get_eq_getElem]
  · simp [mixM, gMul_one, gMul_two, gMul_three, mixBytes, bytes, get_eq_getElem]
    ac_rfl
  · simp [mixM, gMul_one, gMul_two, gMul_three, mixBytes, bytes, get_eq_getElem]
    ac_rfl
  · simp [mixM, gMul_one, gMul_two, gMul_three, mixBytes, bytes, get_eq_getElem]
    ac_rfl

/-! ## The key schedule -/

/-- A word, high byte first. -/
def wordBytes (w : BitVec 32) : Fips197.Word := fun r => (byte w (3 - r)).setWidth 8

theorem wordBytes_eq (w : BitVec 32) (r : Fin 4) : wordBytes w r = (store32h w).get r := by
  have rows : r = 0 ∨ r = 1 ∨ r = 2 ∨ r = 3 := by omega
  rcases rows with rfl | rfl | rfl | rfl <;> rfl

theorem wordBytes_load32h (y : Vector (BitVec 8) 4) (r : Fin 4) : wordBytes (load32h y) r = y.get r := by
  rw [wordBytes_eq]
  refine BitVec.eq_of_getLsbD_eq fun b bit => ?_
  rw [get_eq_getElem, get_eq_getElem, store32h_bit _ r.isLt bit, load32h_bit y r.isLt bit]

theorem wordBytes_xor (a b : BitVec 32) (r : Fin 4) :
    wordBytes (a ^^^ b) r = wordBytes a r ^^^ wordBytes b r := by
  refine BitVec.eq_of_getLsbD_eq fun i bit => ?_
  simp only [wordBytes_eq, get_eq_getElem, store32h_bit _ r.isLt bit, BitVec.getLsbD_xor]

/-- A byte moved into its place in a word, under the mask of that place. -/
def placed (a : BitVec 8) (k : Nat) : BitVec 32 := (a.setWidth 32 <<< k) &&& (0xff#32 <<< k)

theorem placed_bit (a : BitVec 8) {k i : Nat} (bit : i < 32) :
    (placed a k).getLsbD i = (decide (k ≤ i) && a.getLsbD (i - k)) := by
  have low : 0xff#32 = BitVec.setWidth 32 (BitVec.allOnes 8) := by decide
  simp only [placed, low, BitVec.getLsbD_and, BitVec.getLsbD_shiftLeft, BitVec.getLsbD_setWidth,
    BitVec.getLsbD_allOnes]
  grind

theorem load32h_eq_placed (y : Vector (BitVec 8) 4) :
    load32h y = placed (y.get 0) 24 ^^^ placed (y.get 1) 16 ^^^ placed (y.get 2) 8 ^^^ placed (y.get 3) 0 := by
  have full : ∀ x : BitVec 8, x &&& 0xff = x := fun x => BitVec.and_allOnes
  refine BitVec.eq_of_getLsbD_eq fun i bit => ?_
  simp only [BitVec.getLsbD_xor, placed_bit _ bit]
  show _ = (((decide (24 ≤ i) && y[0].getLsbD (i - 24)) ^^ (decide (16 ≤ i) && y[1].getLsbD (i - 16))) ^^
    (decide (8 ≤ i) && y[2].getLsbD (i - 8)) ^^ (decide (0 ≤ i) && y[3].getLsbD (i - 0)))
  simp only [load32h, full, BitVec.getLsbD_or, BitVec.getLsbD_shiftLeft, BitVec.getLsbD_setWidth]
  have place : i < 8 ∨ (8 ≤ i ∧ i < 16) ∨ (16 ≤ i ∧ i < 24) ∨ 24 ≤ i := by omega
  rcases place with here | here | here | here <;> grind

/-- `MIX` puts the substituted bytes together in the order 2, 1, 0, 3. -/
theorem mix_eq (x : BitVec 32) :
    mix x = load32h #v[S.getD (byte x 2).toNat 0, S.getD (byte x 1).toNat 0, S.getD (byte x 0).toNat 0,
      S.getD (byte x 3).toNat 0] := by
  rw [load32h_eq_placed]
  simp only [mix, placed, BitVec.shiftLeft_zero]
  rfl

theorem byte_toNat (x : BitVec 32) (n : Nat) : (byte x n).toNat = ((byte x n).setWidth 8).toNat := by
  have small : (byte x n).toNat ≤ 0xff := by
    rw [byte, BitVec.toNat_and]
    exact Nat.and_le_right
  rw [BitVec.toNat_setWidth, Nat.mod_eq_of_lt (by omega)]

theorem wordBytes_mix (x : BitVec 32) :
    wordBytes (mix x) = Fips197.subWord (Fips197.rotWord (wordBytes x)) := by
  funext r
  have rows : r = 0 ∨ r = 1 ∨ r = 2 ∨ r = 3 := by omega
  simp only [mix_eq, wordBytes_load32h, Fips197.subWord, Fips197.rotWord, sBox_eq_S, byte_toNat]
  rcases rows with rfl | rfl | rfl | rfl <;> rfl

/-- The constants are the powers of x. -/
theorem rcon_xPower : ∀ i : Fin 10, ∀ r : Fin 4,
    wordBytes (rcon.get i) r = if r = 0 then xPower i else 0 := by decide

theorem wordBytes_rcon {i : Nat} (inside : i < 10) :
    wordBytes (rcon.get (Fin.ofNat 10 i)) = Fips197.rcon (i + 1) := by
  funext r
  have index : (Fin.ofNat 10 i).val = i := Nat.mod_eq_of_lt inside
  rw [rcon_xPower, index, Fips197.rcon, rconByte_eq, Nat.add_sub_cancel]

/-- The first sixteen bytes of a buffer. -/
def keyBytes (key : Buffer) : Fin 16 → BitVec 8 := fun n => key n

/-- A word of the schedule by the words before it. -/
theorem keyWord_next (key : Fin 16 → BitVec 8) (i : Nat) (r : Fin 4) :
    keyWord key (i + 4) r = keyWord key i r ^^^
      if i % 4 = 0 then Fips197.subWord (Fips197.rotWord (keyWord key (i + 3))) r ^^^
        Fips197.rcon (i / 4 + 1) r
      else keyWord key (i + 3) r := by
  have later : ¬ i + 4 < 4 := by omega
  have phase : (i + 4) % 4 = i % 4 := by omega
  have index : (i + 4) / 4 = i / 4 + 1 := by omega
  rw [keyWord, dif_neg later]
  simp only [Nat.add_sub_cancel, phase, index, show i + 4 - 1 = i + 3 from rfl]
  split <;> rfl

/-- **The words of `keyExpansion` are those of the standard.** -/
theorem keyWord_expandKey (key : Buffer) {i : Nat} (inside : i ≤ 10) (j : Fin 4) :
    keyWord (keyBytes key) (4 * i + j) = wordBytes (expandKey key i)[j] := by
  induction i generalizing j with
  | zero =>
      have first : 4 * 0 + j.val < 4 := by omega
      rw [keyWord, dif_pos first]
      funext r
      simp [expandKey, wordBytes_load32h, get_eq_getElem, keyBytes]
  | succ i ih =>
      let w := expandKey key i
      let w' := nextRoundKey w (rcon.get (Fin.ofNat 10 i))
      have old (j : Fin 4) : keyWord (keyBytes key) (4 * i + j) = wordBytes w[j] := ih (by omega) j
      have turn : 4 * i / 4 + 1 = i + 1 := by omega
      have word4 : keyWord (keyBytes key) (4 * i + 4) = wordBytes w'[0] := by
        have first : keyWord (keyBytes key) (4 * i) = wordBytes w[0] := old 0
        have last : keyWord (keyBytes key) (4 * i + 3) = wordBytes w[3] := old 3
        funext r
        rw [keyWord_next, if_pos (by omega), turn, ← wordBytes_rcon (by omega), first, last,
          ← wordBytes_mix, ← wordBytes_xor, ← wordBytes_xor, ← BitVec.xor_assoc]
        rfl
      -- the other words take up the one before them
      have later (k : Nat) (here : k < 4) (other : (4 * i + k) % 4 ≠ 0) {w₀ : BitVec 32}
          (before : keyWord (keyBytes key) (4 * i + k + 3) = wordBytes w₀) :
          keyWord (keyBytes key) (4 * i + k + 4) = wordBytes (w[k] ^^^ w₀) := by
        have above : keyWord (keyBytes key) (4 * i + k) = wordBytes w[k] := old ⟨k, here⟩
        funext r
        rw [keyWord_next, if_neg other, before, above, wordBytes_xor]
      have word5 : keyWord (keyBytes key) (4 * i + 5) = wordBytes w'[1] :=
        later 1 (by decide) (by omega) word4
      have word6 : keyWord (keyBytes key) (4 * i + 6) = wordBytes w'[2] :=
        later 2 (by decide) (by omega) word5
      have word7 : keyWord (keyBytes key) (4 * i + 7) = wordBytes w'[3] :=
        later 3 (by decide) (by omega) word6
      have index : j = 0 ∨ j = 1 ∨ j = 2 ∨ j = 3 := by omega
      rcases index with rfl | rfl | rfl | rfl
      · exact word4
      · exact word5
      · exact word6
      · exact word7

/-! ## Rounds and blocks -/

theorem bytes_addRoundKey (key : Buffer) {round : Nat} (inside : round ≤ 10) (state : State) :
    bytes (addRoundKey state (expandKey key round)) =
      Fips197.addRoundKey (keyBytes key) round (bytes state) := by
  rw [addRoundKey, bytes_ofBytes]
  funext r c
  rw [Fips197.addRoundKey, keyWord_expandKey key inside]
  rfl

/-- One full round. -/
theorem bytes_encRound (key : Buffer) {round : Nat} (inside : round ≤ 10) (state : State) :
    bytes (encRound state (expandKey key round)) = Fips197.addRoundKey (keyBytes key) round
      (Fips197.mixColumns (Fips197.shiftRows (Fips197.subBytes (bytes state)))) := by
  rw [encRound, bytes_addRoundKey key inside, bytes_mixColumns, bytes_shiftRows, bytes_subBytes]

/-- The first `n` turns of the loop over the rounds. -/
theorem bytes_rounds (key : Buffer) {n : Nat} (inside : n ≤ 9) (state : State) :
    bytes (((List.range n).map fun j => expandKey key (j + 1)).foldl encRound
      (addRoundKey state (expandKey key 0))) = Fips197.rounds (keyBytes key) (bytes state) n := by
  induction n with
  | zero => exact bytes_addRoundKey key (by decide) state
  | succ n ih =>
      rw [List.range_succ, List.map_append, List.foldl_append]
      show bytes (encRound _ _) = _
      rw [bytes_encRound key (by omega), ih (by omega)]
      rfl

/-- The block `aesEncrypt` computes with a key buffer of sixteen bytes. -/
def encryptBlock (key : Buffer) (block : Fin 16 → BitVec 8) : Fin 16 → BitVec 8 :=
  storeStateArray (encryptState (schedule key 16) (loadStateArray block))

theorem actualKey_bytes (key : Buffer) : keyBytes (actualKey key 16) = keyBytes key := by
  funext n
  exact if_pos n.isLt

theorem encryptBlock_eq_cipher (key : Buffer) (block : Fin 16 → BitVec 8) :
    encryptBlock key block = cipher (keyBytes key) block := by
  let k := actualKey key 16
  have middle : middleRounds (schedule key 16).eK =
      (List.range 9).map fun j => expandKey k (j + 1) := rfl
  have rounds := bytes_rounds k (le_refl 9) (loadStateArray block)
  have load : bytes (loadStateArray block) = Fips197.stateOf block := by
    rw [loadStateArray, bytes_ofBytes]
    funext r c
    exact congrArg block (Fin.ext (Nat.add_comm ..))
  show Fips197.blockOf (bytes (encryptState (schedule key 16) (loadStateArray block))) = _
  rw [encryptState, middle]
  show Fips197.blockOf (bytes (addRoundKey (shiftRows (subBytes (((List.range 9).map fun j =>
    expandKey k (j + 1)).foldl encRound (addRoundKey (loadStateArray block) (expandKey k 0)))))
      (expandKey k 10))) = _
  rw [bytes_addRoundKey k (le_refl 10), bytes_shiftRows, bytes_subBytes, rounds, load,
    actualKey_bytes, cipher]

theorem aesEncrypt_accepted (key pt ct : Buffer) {len : BitVec 32} (whole : len % 16 = 0) :
    aesEncrypt (some key) 16 (some pt) (some ct) len =
      ⟨0, "", some (mapBlocks (encryptBlock key) pt (len.toNat / 16) ct)⟩ :=
  aesCrypt_accepted encryptState key pt ct (by decide) whole

theorem readBlock_aesEncrypt (key pt ct : Buffer) {n b : Nat} (inside : b < n) :
    readBlock 16 (mapBlocks (encryptBlock key) pt n ct) (16 * b) =
      cipher (keyBytes key) (readBlock 16 pt (16 * b)) := by
  rw [readBlock_mapBlocks _ pt ct inside, encryptBlock_eq_cipher]

/-- **aes.h is AES-128 in ECB mode.**  With a key of sixteen bytes and a length that
is a multiple of 16, the call returns 0 and every block of its output is the cipher
of the block of the input. -/
theorem aes_is_fips (key pt ct : Buffer) (len : BitVec 32) (_ : len.toNat < 2 ^ 31)
    (whole : len % 16 = 0) :
    ∃ ct', aesEncrypt (some key) 16 (some pt) (some ct) len = ⟨0, "", some ct'⟩ ∧
      ∀ b < len.toNat / 16,
        readBlock 16 ct' (16 * b) = cipher (keyBytes key) (readBlock 16 pt (16 * b)) :=
  ⟨_, aesEncrypt_accepted key pt ct whole, fun _ inside => readBlock_aesEncrypt key pt ct inside⟩

namespace Example

def exampleKey : Buffer := fun i => BitVec.ofNat 8 i

def exampleBlock : Buffer := fun i => BitVec.ofNat 8 (0x11 * i)

/-- Two blocks. -/
theorem two_blocks_enciphered :
    ∃ ct', aesEncrypt (some exampleKey) 16 (some exampleBlock) (some fun _ => 0) 32 =
        ⟨0, "", some ct'⟩ ∧
      ∀ b < 2, readBlock 16 ct' (16 * b) =
        cipher (keyBytes exampleKey) (readBlock 16 exampleBlock (16 * b)) :=
  aes_is_fips exampleKey exampleBlock (fun _ => 0) 32 (by decide) (by decide)

end Example

end HyperSmile.Crypto.Aes
