/-
# Guest.CrcPolynomial — crc32 as division by the generator

`crc32` of crc.c is the CRC-32 of the standard: the remainder of the message by the generator,
in reflected order (`crc32_standard`). It notices every change inside 32 consecutive bits
(`crc32_burst`), and four trailing bytes give it any value (`crc32_steer`): a checksum against
accidents, not against someone who can write four bytes of the measured window.
-/
import HyperSmile.Guest.Crc
import HyperSmile.Theory.ReflectedCrc

namespace HyperSmile.Guest.Crc

open Polynomial
open HyperSmile.Theory.BinaryPolynomial
open HyperSmile.Theory.ReflectedCrc

set_option autoImplicit false

/-! ## The standard -/

/-- The generator of CRC-32. -/
noncomputable def generator : (ZMod 2)[X] :=
  X ^ 32 + X ^ 26 + X ^ 23 + X ^ 22 + X ^ 16 + X ^ 12 + X ^ 11 + X ^ 10 + X ^ 8 + X ^ 7 + X ^ 5 + X ^ 4 +
    X ^ 2 + X + 1

/-- The message moved up by 32, with ones over its first 32 bits. -/
noncomputable def dividend (bytes : List (BitVec 8)) : (ZMod 2)[X] :=
  message bytes * X ^ 32 + toPoly 0xffffffff#32 * X ^ (8 * bytes.length)

/-- The CRC-32 of a message. -/
noncomputable def standardCrc32 (bytes : List (BitVec 8)) : BitVec 32 :=
  ~~~(ofPoly 32 (dividend bytes %ₘ generator)).reverse

/-! ## The register of crc.c -/

theorem crcBit_eq (crc : BitVec 32) : crcBit crc = shiftOut 0xEDB88320 crc := by
  rw [crcBit, shiftOut, BitVec.and_one_eq_setWidth_ofBool_getLsbD]
  cases crc.getLsbD 0 with
  | false => simp
  | true => simp

theorem crcBits_eq (j : Nat) (crc : BitVec 32) : crcBits j crc = (shiftOut 0xEDB88320)^[j] crc := by
  induction j generalizing crc with
  | zero => rfl
  | succ j ih => rw [crcBits, ih, crcBit_eq, Function.iterate_succ_apply]

theorem crc32_eq_register (bytes : List (BitVec 8)) :
    crc32 bytes = register 0xEDB88320#32 0xffffffff#32 bytes ^^^ 0xffffffff#32 := by
  have step : crcByte = feed 0xEDB88320 := by
    funext crc byte
    rw [crcByte, crcBits_eq, feed]
  rw [crc32, step]
  rfl

set_option maxRecDepth 2000 in
theorem reverse_poly : (0xEDB88320#32).reverse = 0x04C11DB7#32 := by decide

set_option maxRecDepth 2000 in
theorem reverse_ones : (0xffffffff#32).reverse = 0xffffffff#32 := by decide

theorem generator_shape : generator = X ^ 32 + toPoly (0xEDB88320#32).reverse := by
  rw [reverse_poly]
  simp [generator, toPoly, Finset.sum_range_succ]
  ring

theorem generator_constant : generator.coeff 0 = 1 := by
  simp [generator, coeff_X_zero]

/-- **`crc32` is the CRC-32 of the standard.** -/
theorem crc32_standard (bytes : List (BitVec 8)) : crc32 bytes = standardCrc32 bytes := by
  have remainder := toPoly_register generator_shape (by decide) 0xffffffff#32 bytes
  rw [reverse_ones] at remainder
  have register : (register 0xEDB88320#32 0xffffffff#32 bytes).reverse =
      ofPoly 32 (dividend bytes %ₘ generator) := by
    rw [dividend, ← remainder, ofPoly_toPoly]
  rw [crc32_eq_register, standardCrc32, ← register, BitVec.reverse_reverse_eq]
  exact BitVec.xor_allOnes

/-! ## Tampering -/

/-- **A change inside 32 consecutive bits changes the checksum.** -/
theorem crc32_burst {bytes bytes' : List (BitVec 8)} (length : bytes.length = bytes'.length)
    (different : bytes ≠ bytes') (start : Nat)
    (window : ∀ i, bitAt bytes i ≠ bitAt bytes' i → start ≤ i ∧ i < start + 32) :
    crc32 bytes ≠ crc32 bytes' := by
  intro same
  rw [crc32_eq_register, crc32_eq_register, BitVec.xor_left_inj] at same
  exact different (register_burst generator_shape generator_constant (by decide) _ length start window same)

/-- **Four trailing bytes give the checksum any value**, each in one way. -/
theorem crc32_steer (p : List (BitVec 8)) (t : BitVec 32) :
    ∃! s : List (BitVec 8), s.length = 4 ∧ crc32 (p ++ s) = t := by
  have complement (x : BitVec 32) : x ^^^ 0xffffffff#32 = t ↔ x = t ^^^ 0xffffffff#32 := by
    rw [← BitVec.xor_left_inj (x := x ^^^ 0xffffffff#32) 0xffffffff#32, BitVec.xor_assoc, BitVec.xor_self,
      BitVec.xor_zero]
  simp only [crc32_eq_register, register_append, complement]
  exact register_steer generator_shape generator_constant (by decide) (by decide) _ _

namespace Example

/-- Seven bytes. -/
def sent : List (BitVec 8) := [0x09, 0xF5, 0x01, 0x02, 0x03, 0xAC, 0x07]

/-- The bits 12 to 43 are others, in five of the bytes. -/
def tampered : List (BitVec 8) := [0x09, 0x25, 0xFF, 0x02, 0x30, 0xA1, 0x07]

theorem burst_noticed : crc32 sent ≠ crc32 tampered := by
  refine crc32_burst (rfl : sent.length = tampered.length) (by decide) 12 ?_
  intro i differ
  by_cases inside : i < 8 * 7
  · have window : ∀ i < 8 * 7, bitAt sent i ≠ bitAt tampered i → 12 ≤ i ∧ i < 12 + 32 := by decide
    exact window i inside differ
  · have beyond : 8 * 7 ≤ i := by omega
    exact absurd ((bitAt_outside sent beyond).trans (bitAt_outside tampered beyond).symm) differ

end Example

end HyperSmile.Guest.Crc
