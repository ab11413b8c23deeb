/-
# Guest.CrcDistance — how few bits a forger can change

`crc32` guards the SSA and the anchor, `crch` is the processor's checksum beside it. X has order
2^32 - 1 modulo the generator of the first and 2^31 - 1 modulo the one of the second
(`orderOf_generator`, `orderOf_castagnoli`), and X + 1 divides the second only.

So `crc32` misses a change of two bits exactly if they are a multiple of 2^32 - 1 bits apart, which is
never the case in a buffer below 512 MiB (`crc32_two_bits`), and `crch` misses such a change from half
that distance on, but no change of an odd number of bits (`crch_few_bits`).
-/
import HyperSmile.Guest.Hcrc
import HyperSmile.Theory.BitErrors
import Mathlib.NumberTheory.LucasLehmer
import Mathlib.Tactic.NormNum.Prime

namespace HyperSmile.Guest.CrcDistance

open Polynomial
open HyperSmile.Theory.BinaryPolynomial
open HyperSmile.Theory.ReflectedCrc
open HyperSmile.Theory.BitErrors
open HyperSmile.Guest.Crc
open HyperSmile.Guest.Hcrc

set_option autoImplicit false

/-! ## The orders -/

theorem generator_tail : generator = X ^ 32 + toPoly 0x04C11DB7#32 := by
  rw [generator_shape, reverse_poly]

/-- The prime factors of 2^32 - 1. -/
theorem prime_factors {p : Nat} (prime : p.Prime) (divides : p ∣ 2 ^ 32 - 1) :
    p ∈ [3, 5, 17, 257, 65537] := by
  have primes : ∀ q ∈ [3, 5, 17, 257, 65537], Prime q := by
    intro q member
    refine Nat.prime_iff.mp ?_
    fin_cases member <;> norm_num
  have product : [3, 5, 17, 257, 65537].prod = 2 ^ 32 - 1 := by norm_num
  rw [← product] at divides
  exact mem_list_primes_of_dvd_prod (Nat.prime_iff.mp prime) primes divides

/-- **The generator of CRC-32 is primitive.** -/
theorem orderOf_generator : orderOf (AdjoinRoot.root generator) = 2 ^ 32 - 1 := by
  refine orderOf_eq_of_pow_and_pow_div_prime (by norm_num) ?_ ?_
  · rw [root_pow_eq_one_iff generator_tail (by decide) (by norm_num : 2 ^ 32 - 1 < 2 ^ 32)]
    decide +kernel
  · intro p prime divides
    have member := prime_factors prime divides
    have small : (2 ^ 32 - 1) / p < 2 ^ 32 := by
      have := Nat.div_le_self (2 ^ 32 - 1) p
      omega
    rw [Ne, root_pow_eq_one_iff generator_tail (by decide) small]
    fin_cases member <;> decide +kernel

theorem castagnoli_tail : castagnoli = X ^ 32 + toPoly 0x1EDC6F41#32 := by
  rw [castagnoli_shape, reverse_castagnoli]

theorem castagnoli_constant : castagnoli.coeff 0 = 1 := by
  simp [castagnoli]

theorem orderOf_castagnoli : orderOf (AdjoinRoot.root castagnoli) = 2 ^ 31 - 1 := by
  have prime : Nat.Prime (2 ^ 31 - 1) := lucas_lehmer_sufficiency 31 (by norm_num) (by norm_num)
  have := Fact.mk prime
  refine orderOf_eq_prime ?_ ?_
  · rw [root_pow_eq_one_iff castagnoli_tail (by decide) (by norm_num : 2 ^ 31 - 1 < 2 ^ 32)]
    decide +kernel
  · rw [← pow_one (AdjoinRoot.root castagnoli), Ne,
      root_pow_eq_one_iff castagnoli_tail (by decide) (by norm_num : 1 < 2 ^ 32)]
    decide +kernel

theorem castagnoli_parity : X + 1 ∣ castagnoli := by
  have root : IsRoot castagnoli 1 := by
    simp [castagnoli]
    decide
  have factor := dvd_iff_isRoot.mpr root
  rwa [C_1, sub_eq_add_neg, CharTwo.neg_eq] at factor

/-! ## The checksums -/

/-- **`crc32` misses two changed bits exactly if they are a multiple of 2^32 - 1 apart.** -/
theorem crc32_two_bits (bytes bytes' : List (BitVec 8)) (length : bytes.length = bytes'.length)
    (i j : Nat) (before : i < j) (two : changed bytes bytes' = {i, j}) :
    crc32 bytes = crc32 bytes' ↔ 2 ^ 32 - 1 ∣ j - i := by
  rw [crc32_eq_register, crc32_eq_register, BitVec.xor_left_inj, ← orderOf_generator]
  exact register_two_bits generator_shape generator_constant (by decide) _ length before two

/-- **`crch` misses no odd number of changed bits**, and two of them exactly if they are a multiple of
2^31 - 1 apart. -/
theorem crch_few_bits (bytes bytes' : List (BitVec 8)) (length : bytes.length = bytes'.length) :
    (Odd (changed bytes bytes').card → crch bytes ≠ crch bytes') ∧
      ∀ i j, i < j → changed bytes bytes' = {i, j} → (crch bytes = crch bytes' ↔ 2 ^ 31 - 1 ∣ j - i) := by
  rw [crch_eq_register, crch_eq_register, Ne, BitVec.xor_left_inj, ← orderOf_castagnoli]
  exact ⟨register_odd castagnoli_shape castagnoli_constant (by decide) castagnoli_parity _ length,
    fun _ _ => register_two_bits castagnoli_shape castagnoli_constant (by decide) _ length⟩

namespace Example

/-- The first and the last bit of five bytes. -/
theorem two_bits_noticed : crc32 [1, 0, 0, 0, 0x80] ≠ crc32 [0, 0, 0, 0, 0] := by
  have two : changed [1, 0, 0, 0, 0x80] [0, 0, 0, 0, 0] = {0, 39} := by decide
  exact fun same => absurd ((crc32_two_bits [1, 0, 0, 0, 0x80] [0, 0, 0, 0, 0] rfl 0 39 (by decide) two).mp same)
    (by decide)

/-- Three bits in three bytes. -/
theorem three_bits_noticed : crch [1, 2, 4] ≠ crch [0, 0, 0] := by
  refine (crch_few_bits [1, 2, 4] [0, 0, 0] rfl).1 ?_
  decide

end Example

end HyperSmile.Guest.CrcDistance
