/-
# Guest.Hcrc — the processor's checksum: hcrc.c and the kernel module crc.c

`crcr` is `crc32` again. `crch` starts and ends like it, with ones and a complement, and takes the
low bit first like it; in between stands the CRC32 instruction, or `crc32c` in the kernel module.
Both divide by the generator of Castagnoli and not by that of `crcr`. The two generators have no
common factor, so the checksums agree exactly if the remainder by the product of the two is short
(`crch_eq_crcr_iff`).

An array is the list of its bytes. The first use of the instruction in hcrc.c, on `buffer[0]`, is
there for its time and its value is dropped, so it is left out: the caller owes it one byte that may be
read even if `size` is 0. The length of `crcr` is a `uint32_t`: the lists it is called with are
shorter than 2^32, which `crch` with its `size_t` does not ask.
-/
import HyperSmile.Guest.CrcPolynomial

namespace HyperSmile.Guest.Hcrc

open Polynomial
open HyperSmile.Theory.BinaryPolynomial
open HyperSmile.Theory.ReflectedCrc
open HyperSmile.Guest.Crc

set_option autoImplicit false

/-! ## The functions -/

/-- `crcr`, the body of `crc32` -/
def crcr (bytes : List (BitVec 8)) : BitVec 32 := crc32 bytes

/-- `_mm_crc32_u8(crc, v)`, as the manual of the instruction has it: bit reflection, then the
remainder of a polynomial division by `0x11EDC6F41`. -/
def mmCrc32U8 (crc : BitVec 32) (v : BitVec 8) : BitVec 32 :=
  let temp1 := v.reverse
  let temp2 := crc.reverse
  let temp3 := temp1.setWidth 40 <<< 32
  let temp4 := temp2.setWidth 40 <<< 8
  let temp5 := temp3 ^^^ temp4
  let temp6 := (divide 0x11EDC6F41#40 32 8 temp5).setWidth 32
  temp6.reverse

/-- `crch` of hcrc.c -/
def crch (bytes : List (BitVec 8)) : BitVec 32 :=
  bytes.foldl mmCrc32U8 0xffffffff#32 ^^^ 0xffffffff#32

/-- `crc32c(crc, data, len)` of the kernel, which neither inverts at the start nor at the end -/
def crc32c (crc : BitVec 32) (bytes : List (BitVec 8)) : BitVec 32 := register 0x82F63B78#32 crc bytes

/-- `crch` of the kernel module -/
def crchModule (bytes : List (BitVec 8)) : BitVec 32 := ~~~crc32c (~~~0#32) bytes

/-! ## The generator of Castagnoli -/

noncomputable def castagnoli : (ZMod 2)[X] :=
  X ^ 32 + X ^ 28 + X ^ 27 + X ^ 26 + X ^ 25 + X ^ 23 + X ^ 22 + X ^ 20 + X ^ 19 + X ^ 18 + X ^ 14 + X ^ 13 +
    X ^ 11 + X ^ 10 + X ^ 9 + X ^ 8 + X ^ 6 + 1

set_option maxRecDepth 2000 in
theorem reverse_castagnoli : (0x82F63B78#32).reverse = 0x1EDC6F41#32 := by decide

theorem castagnoli_shape : castagnoli = X ^ 32 + toPoly (0x82F63B78#32).reverse := by
  rw [reverse_castagnoli]
  simp [castagnoli, toPoly, Finset.sum_range_succ]
  ring

theorem toPoly_castagnoli : toPoly 0x11EDC6F41#40 = castagnoli := by
  simp [castagnoli, toPoly, Finset.sum_range_succ]
  ring

theorem toPoly_generator : toPoly 0x104C11DB7#40 = generator := by
  simp [generator, toPoly, Finset.sum_range_succ]
  ring

/-- The coefficients of Euclid's algorithm. -/
theorem bezout : clmul 0x732ee6ea#40 0x104C11DB7#40 ^^^ clmul 0x771f74b7#40 0x11EDC6F41#40 = 1#80 := by
  rw [clmul_eq_ofNat, clmul_eq_ofNat]
  decide

/-- The two generators have no common factor. -/
theorem generators_coprime : IsCoprime generator castagnoli := by
  have one : toPoly 1#80 = 1 := by
    ext n
    rw [coeff_toPoly, coeff_one]
    simp [BitVec.getLsbD_one]
  refine ⟨toPoly 0x732ee6ea#40, toPoly 0x771f74b7#40, ?_⟩
  rw [← toPoly_generator, ← toPoly_castagnoli, ← toPoly_clmul, ← toPoly_clmul, ← toPoly_xor, bezout, one]

/-! ## The instruction -/

/-- **The instruction is a byte of the register** of Castagnoli. -/
theorem mmCrc32U8_eq (crc : BitVec 32) (v : BitVec 8) : mmCrc32U8 crc v = feed 0x82F63B78#32 crc v := by
  let temp5 : BitVec 40 := v.reverse.setWidth 40 <<< 32 ^^^ crc.reverse.setWidth 40 <<< 8
  have value : toPoly temp5 = message [v] * X ^ 32 + toPoly crc.reverse * X ^ (8 * [v].length) := by
    rw [toPoly_xor, toPoly_shiftLeft_setWidth _ (by decide), toPoly_shiftLeft_setWidth _ (by decide)]
    simp only [message, List.length_nil, List.length_singleton]
    ring
  have top : (0x11EDC6F41#40).getLsbD 32 = true := by decide
  have above : ∀ i, 32 < i → (0x11EDC6F41#40).getLsbD i = false := by
    intro i beyond
    rw [BitVec.getLsbD, Nat.testBit_lt_two_pow]
    exact lt_of_lt_of_le (by decide : (0x11EDC6F41#40).toNat < 2 ^ 33) (Nat.pow_le_pow_right (by decide) beyond)
  have remainder := toPoly_divide castagnoli_shape top above toPoly_castagnoli (by decide : 32 + 8 ≤ 40)
    (fun i outside => BitVec.getLsbD_of_ge temp5 i outside)
  rw [value, ← toPoly_register castagnoli_shape (by decide) crc [v]] at remainder
  rw [mmCrc32U8, toPoly_injective remainder, BitVec.reverse_reverse_eq]
  rfl

theorem crch_eq_register (bytes : List (BitVec 8)) :
    crch bytes = register 0x82F63B78#32 0xffffffff#32 bytes ^^^ 0xffffffff#32 := by
  have step : mmCrc32U8 = feed 0x82F63B78#32 := by
    funext crc v
    exact mmCrc32U8_eq crc v
  rw [crch, step, register]

/-- The module computes what the instruction does. -/
theorem crchModule_eq (bytes : List (BitVec 8)) : crchModule bytes = crch bytes := by
  rw [crch_eq_register, crchModule, crc32c]
  exact BitVec.xor_allOnes.symm

/-! ## The two checksums -/

/-- **When the two agree**: if the remainder by the product of the generators has degree below 32. -/
theorem crch_eq_crcr_iff (bytes : List (BitVec 8)) :
    (crch bytes = crcr bytes ↔ (dividend bytes %ₘ (generator * castagnoli)).degree < 32) ∧
      (crchModule bytes = crcr bytes ↔ (dividend bytes %ₘ (generator * castagnoli)).degree < 32) := by
  have software := toPoly_register generator_shape (by decide) 0xffffffff#32 bytes
  have hardware := toPoly_register castagnoli_shape (by decide) 0xffffffff#32 bytes
  rw [reverse_ones] at software hardware
  have agree : crch bytes = crcr bytes ↔ dividend bytes %ₘ generator = dividend bytes %ₘ castagnoli := by
    rw [crch_eq_register, crcr, crc32_eq_register, BitVec.xor_left_inj, dividend, ← software, ← hardware]
    constructor
    · intro same
      rw [same]
    · intro same
      exact (reverse_injective (toPoly_injective same)).symm
  have both := remainders_eq_iff (monic_of_shape generator_shape) (monic_of_shape castagnoli_shape)
    (degree_of_shape generator_shape) (degree_of_shape castagnoli_shape) generators_coprime
    (p := dividend bytes)
  rw [crchModule_eq, agree]
  exact ⟨both, both⟩

namespace Example

/-- One byte of zero tells them apart. -/
theorem zero_byte_differs : crch [0] = 0x527D5351#32 ∧ crcr [0] = 0xD202EF8D#32 ∧ crch [0] ≠ crcr [0] := by
  decide +kernel

end Example

end HyperSmile.Guest.Hcrc
