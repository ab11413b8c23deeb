/-
# Crypto.AesRoundTrip — decryption undoes encryption

`dec_enc_round` puts a round together from its layers. The decryption enters each round with
`shiftRows (subBytes s)` in place of `s`, so the rounds cancel through that layer,
against the reversed key schedule; in the last round the source undoes the table
before the rotation, which is the same since one works on bytes and the other moves
them. `aes_round_trip` is the result for whole buffers.
-/
import HyperSmile.Crypto.Aes

namespace HyperSmile.Crypto.Aes

open HyperSmile.Theory.BlockCipher

set_option autoImplicit false

/-! ## Rounds -/

/-- **A decryption round undoes an encryption round** through the layer between them. -/
theorem dec_enc_round (state : State) (rk : RoundKey) :
    decRound (shiftRows (subBytes (encRound state rk))) rk = shiftRows (subBytes state) := by
  rw [decRound, invShiftRows_shiftRows, invSubBytes_subBytes, encRound, addRoundKey_addRoundKey,
    invMixColumns_mixColumns]

theorem middleRounds_reverse (keys : Vector RoundKey 11) :
    middleRounds keys.reverse = (middleRounds keys).reverse := by
  simp [middleRounds]

theorem decryptState_encryptState {aesKey : AesKey} (reversed : aesKey.dK = aesKey.eK.reverse)
    (state : State) : decryptState aesKey (encryptState aesKey state) = state := by
  have first : aesKey.eK.reverse[0] = aesKey.eK[10] := by simp
  have last : aesKey.eK.reverse[10] = aesKey.eK[0] := by simp
  have rounds (s : State) : (middleRounds aesKey.eK).reverse.foldl decRound
      (shiftRows (subBytes ((middleRounds aesKey.eK).foldl encRound s))) =
        shiftRows (subBytes s) :=
    @foldl_reverse_undo _ _ encRound decRound (fun s => shiftRows (subBytes s)) dec_enc_round _ s
  simp only [decryptState, encryptState, reversed, first, last, middleRounds_reverse]
  rw [addRoundKey_addRoundKey, rounds, invSubBytes_invShiftRows, invShiftRows_shiftRows,
    invSubBytes_subBytes, addRoundKey_addRoundKey]

/-! ## Blocks and buffers -/

/-- The key schedule both directions compute. -/
def schedule (key : Buffer) (keyLen : BitVec 32) : AesKey :=
  (keyExpansion (some (actualKey key keyLen)) 16 .blank).2

theorem schedule_reversed (key : Buffer) (keyLen : BitVec 32) :
    (schedule key keyLen).dK = (schedule key keyLen).eK.reverse := rfl

theorem aesCrypt_accepted (cryptState : AesKey → State → State) (key : Buffer) {keyLen : BitVec 32}
    (input output : Buffer) {len : BitVec 32} (short : keyLen ≤ 16) (whole : len % 16 = 0) :
    aesCrypt cryptState (some key) keyLen (some input) (some output) len =
      ⟨0, "", some (mapBlocks (fun block =>
        storeStateArray (cryptState (schedule key keyLen) (loadStateArray block))) input
        (len.toNat / 16) output)⟩ := by
  have : ¬ 16 < keyLen := by simpa using short
  simp only [aesCrypt, if_neg this, whole, ne_eq, not_true, if_false]
  rfl

theorem aesCrypt_refused (cryptState : AesKey → State → State) (key : Buffer) {keyLen : BitVec 32}
    (input output : Buffer) {len : BitVec 32} (bad : 16 < keyLen ∨ len % 16 ≠ 0) :
    (aesCrypt cryptState (some key) keyLen (some input) (some output) len).code = -1 ∧
      (aesCrypt cryptState (some key) keyLen (some input) (some output) len).output =
        some output := by
  simp only [aesCrypt]
  split
  · exact ⟨rfl, rfl⟩
  · rw [if_pos (bad.resolve_left (by assumption))]
    exact ⟨rfl, rfl⟩

theorem decryptBlock_encryptBlock (key : Buffer) (keyLen : BitVec 32) (block : Fin 16 → BitVec 8) :
    storeStateArray (decryptState (schedule key keyLen) (loadStateArray
      (storeStateArray (encryptState (schedule key keyLen) (loadStateArray block))))) = block := by
  rw [loadStateArray_storeStateArray,
    decryptState_encryptState (schedule_reversed key keyLen), storeStateArray_loadStateArray]

/-- **Decryption undoes encryption.**  With a key of at most 16 bytes and a length
that is a multiple of 16, both calls return 0 and the plaintext comes back into the
output buffer, of which nothing else is touched; with a longer key or another length
both return -1 and leave the output buffer as it was. -/
theorem aes_round_trip (key pt ct out : Buffer) (keyLen len : BitVec 32) :
    (keyLen ≤ 16 → len.toNat < 2 ^ 31 → len % 16 = 0 →
      ∃ ct' out', aesEncrypt (some key) keyLen (some pt) (some ct) len = ⟨0, "", some ct'⟩ ∧
        aesDecrypt (some key) keyLen (some ct') (some out) len = ⟨0, "", some out'⟩ ∧
        ∀ i, out' i = if i < len.toNat then pt i else out i) ∧
      (16 < keyLen ∨ len % 16 ≠ 0 →
        ((aesEncrypt (some key) keyLen (some pt) (some out) len).code = -1 ∧
          (aesEncrypt (some key) keyLen (some pt) (some out) len).output = some out) ∧
        (aesDecrypt (some key) keyLen (some ct) (some out) len).code = -1 ∧
          (aesDecrypt (some key) keyLen (some ct) (some out) len).output = some out) := by
  constructor
  · intro short _ whole
    refine ⟨_, _, aesCrypt_accepted encryptState key pt ct short whole,
      aesCrypt_accepted decryptState key _ out short whole, fun i => ?_⟩
    have remainder : len.toNat % 16 = 0 := congrArg BitVec.toNat whole
    have blocks : 16 * (len.toNat / 16) = len.toNat := by omega
    rw [mapBlocks_mapBlocks (decryptBlock_encryptBlock key keyLen), blocks]
  · intro bad
    exact ⟨aesCrypt_refused encryptState key pt out bad,
      aesCrypt_refused decryptState key ct out bad⟩

namespace Example

/-- Two blocks under a key of ten bytes. -/
theorem two_blocks_come_back :
    ∃ ct' out', aesEncrypt (some fun i => BitVec.ofNat 8 i) 10
          (some fun i => BitVec.ofNat 8 (3 * i)) (some fun _ => 0) 32 = ⟨0, "", some ct'⟩ ∧
        aesDecrypt (some fun i => BitVec.ofNat 8 i) 10 (some ct') (some fun _ => 0xee) 32 =
          ⟨0, "", some out'⟩ ∧
        ∀ i, out' i = if i < 32 then BitVec.ofNat 8 (3 * i) else 0xee :=
  (aes_round_trip (fun i => BitVec.ofNat 8 i) (fun i => BitVec.ofNat 8 (3 * i)) (fun _ => 0)
    (fun _ => 0xee) 10 32).1 (by decide) (by decide) (by decide)

end Example

end HyperSmile.Crypto.Aes
