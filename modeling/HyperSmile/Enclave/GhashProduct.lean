/-
# Enclave.GhashProduct — the two products of aes_gcm_encrypt

The first block is the product in GF(2^128) of the registers read backwards
(`first_block_multiplies`): the four products of halves are the product of the polynomials, the move
by one bit makes up for the reversal, and the two phases are the remainder, since a shift by lanes
and the bits carried between the lanes are a shift of the whole register.

The second block adds the high half of the product where the first adds the carried bits, so the two
agree exactly if these are the same (`blocks_agree_iff`).
-/
import HyperSmile.Enclave.AesGcm
import HyperSmile.Theory.ReflectedProduct

namespace HyperSmile.Enclave.GhashProduct

open Polynomial
open HyperSmile.Enclave.Sse
open HyperSmile.Enclave.AesGcm
open HyperSmile.Theory.BinaryPolynomial
open HyperSmile.Theory.ReflectedProduct

set_option autoImplicit false

/-! ## The product -/

/-- What a register loses by eight bytes up, it keeps by eight bytes down. -/
theorem toPoly_middle (x : Xmm) :
    toPoly (pslldq 8 x) + X ^ 128 * toPoly (psrldq 8 x) = X ^ 64 * toPoly x := by
  have up : pslldq 8 x = x <<< 64 := rfl
  have down : psrldq 8 x = x >>> (128 - 64) := rfl
  rw [up, down, toPoly_shiftLeft_add x (by omega)]

/-- The four products of halves are the product of the registers. -/
theorem toPoly_product (a b : Xmm) :
    toPoly (product a b).1 + X ^ 128 * toPoly (product a b).2 = toPoly (clmul a b) := by
  have low : toPoly (pclmulqdq 0x00 b a) = toPoly (a.extractLsb' 0 64) * toPoly (b.extractLsb' 0 64) :=
    toPoly_clmul _ _
  have high : toPoly (pclmulqdq 0x11 b a) = toPoly (a.extractLsb' 64 64) * toPoly (b.extractLsb' 64 64) :=
    toPoly_clmul _ _
  have first : toPoly (pclmulqdq 0x10 b a) = toPoly (a.extractLsb' 0 64) * toPoly (b.extractLsb' 64 64) :=
    toPoly_clmul _ _
  have second : toPoly (pclmulqdq 0x01 b a) = toPoly (a.extractLsb' 64 64) * toPoly (b.extractLsb' 0 64) :=
    toPoly_clmul _ _
  have middle := toPoly_middle (pclmulqdq 0x10 b a ^^^ pclmulqdq 0x01 b a)
  rw [toPoly_xor, first, second] at middle
  rw [toPoly_clmul, toPoly_halves (v := 64) (u := 64) rfl a, toPoly_halves (v := 64) (u := 64) rfl b]
  dsimp only [product]
  rw [toPoly_xor, toPoly_xor, low, high]
  linear_combination middle

/-- The bits of the product after `moveUp`. -/
theorem moved_product_bits (a b : Xmm) {i : Nat} (inside : i < 128) :
    (moved (product a b)).1.getLsbD i = (decide (1 ≤ i) && (clmul a b).getLsbD (i - 1)) ∧
      (moved (product a b)).2.getLsbD i = (clmul a b).getLsbD (127 + i) := by
  obtain ⟨low, high⟩ := bits_of_halves (toPoly_product a b)
  rw [moved_eq]
  constructor
  · rw [BitVec.getLsbD_shiftLeft, decide_eq_true inside, low _ (by omega)]
    by_cases first : i < 1 <;> simp [first]
    omega
  · rw [BitVec.getLsbD_xor, BitVec.getLsbD_shiftLeft, BitVec.getLsbD_ushiftRight, decide_eq_true inside, high]
    by_cases first : i = 0
    · subst first
      rw [low _ (by decide)]
      simp
    · have place : 128 + (i - 1) = 127 + i := by omega
      rw [BitVec.getLsbD_of_ge _ (127 + i) (by omega), place]
      simp [first]

/-- Read backwards, the two registers are the product of the operands, the high one first. -/
theorem reverse_product (a b : Xmm) :
    toPoly a.reverse * toPoly b.reverse =
      toPoly (moved (product a b)).2.reverse + X ^ 128 * toPoly (moved (product a b)).1.reverse := by
  ext n
  rw [coeff_reverse_mul (by decide), coeff_add, coeff_X_pow_mul', coeff_toPoly, coeff_toPoly,
    BitVec.getLsbD_reverse, BitVec.getLsbD_reverse, BitVec.getMsbD_eq_getLsbD, BitVec.getMsbD_eq_getLsbD]
  by_cases low : n < 128
  · have place : 127 + (128 - 1 - n) = 128 + 128 - 2 - n := by omega
    have inside : n + 2 ≤ 128 + 128 := by omega
    rw [if_neg (by omega : ¬ 128 ≤ n), add_zero, (moved_product_bits a b (by omega)).2, place]
    simp only [inside, low, true_and, decide_true, Bool.true_and]
  · rw [if_pos (by omega : 128 ≤ n), decide_eq_false low, Bool.false_and, if_neg Bool.false_ne_true, zero_add,
      (moved_product_bits a b (by omega)).1]
    by_cases inside : n + 2 ≤ 128 + 128
    · have place : 128 - 1 - (n - 128) - 1 = 128 + 128 - 2 - n := by omega
      have within : n - 128 < 128 := by omega
      have shifted : 1 ≤ 128 - 1 - (n - 128) := by omega
      rw [place]
      simp only [inside, within, shifted, true_and, decide_true, Bool.true_and]
    · have outside : ¬ 1 ≤ 128 - 1 - (n - 128) := by omega
      simp only [inside, outside, false_and, decide_false, Bool.false_and, Bool.and_false, if_false]
      rfl

/-! ## The remainder -/

/-- The low half after the first phase. -/
def fold (x : Xmm) : Xmm := x ^^^ (x <<< 127 ^^^ x <<< 126 ^^^ x <<< 121)

/-- The first phase is three shifts of the whole register. -/
theorem pslldq_folded (x : Xmm) : pslldq 12 (folded x) = x <<< 127 ^^^ x <<< 126 ^^^ x <<< 121 := by
  rw [folded, pslldq_additive, pslldq_additive, pslldq_pslld (by decide : 1 ≤ 32) x,
    pslldq_pslld (by decide : 2 ≤ 32) x, pslldq_pslld (by decide : 7 ≤ 32) x]

/-- What the first phase adds stands in the highest bits, which the shifts of the lanes drop. -/
theorem pslld_fold {n : Nat} (far : 25 ≤ n) (x : Xmm) : pslld n (fold x) = pslld n x := by
  refine BitVec.eq_of_getLsbD_eq fun b inside => ?_
  rw [getLsbD_pslld _ _ inside, getLsbD_pslld _ _ inside, fold]
  simp only [BitVec.getLsbD_xor, BitVec.getLsbD_shiftLeft]
  have low : b - n < 127 ∧ b - n < 126 ∧ b - n < 121 := by omega
  simp [low]

/-- The second phase, with the bits carried between the lanes. -/
theorem shifted_fold (x : Xmm) :
    shifted (fold x) ^^^ psrldq 4 (folded x) = fold x >>> 1 ^^^ fold x >>> 2 ^^^ fold x >>> 7 := by
  have carried : folded x = folded (fold x) := by
    rw [folded, folded, pslld_fold (by decide), pslld_fold (by decide), pslld_fold (by decide)]
  have one : psrld 1 (fold x) ^^^ psrldq 4 (pslld 31 (fold x)) = fold x >>> 1 :=
    psrld_carried (k := 1) (by decide) _
  have two : psrld 2 (fold x) ^^^ psrldq 4 (pslld 30 (fold x)) = fold x >>> 2 :=
    psrld_carried (k := 2) (by decide) _
  have seven : psrld 7 (fold x) ^^^ psrldq 4 (pslld 25 (fold x)) = fold x >>> 7 :=
    psrld_carried (k := 7) (by decide) _
  rw [carried, shifted, folded, psrldq_additive, psrldq_additive, ← one, ← two, ← seven]
  ac_rfl

theorem productFirst_eq (a b : Xmm) :
    productFirst a b =
      (moved (product a b)).2 ^^^ (fold (moved (product a b)).1 ^^^ (fold (moved (product a b)).1 >>> 1 ^^^
        fold (moved (product a b)).1 >>> 2 ^^^ fold (moved (product a b)).1 >>> 7)) := by
  rw [← shifted_fold, fold, ← pslldq_folded]
  rfl

/-- The exponents below 128 of the modulus. -/
def exponents : List Nat := [0, 1, 2, 7]

theorem reverse_fold (x : Xmm) : (fold x).reverse = x.reverse ^^^ spill exponents x.reverse := by
  have gone : x.reverse >>> (128 - 0) = 0#128 := by
    refine BitVec.eq_of_getLsbD_eq fun b _ => ?_
    rw [BitVec.getLsbD_ushiftRight, BitVec.getLsbD_of_ge _ _ (by omega), BitVec.getLsbD_zero]
  rw [fold, reverse_xor, reverse_xor, reverse_xor, reverse_shiftLeft, reverse_shiftLeft, reverse_shiftLeft, spill,
    exponents]
  simp only [List.foldr_cons, List.foldr_nil, gone, BitVec.xor_zero, BitVec.zero_xor, BitVec.xor_assoc]

theorem reverse_productFirst (a b : Xmm) :
    (productFirst a b).reverse = (moved (product a b)).2.reverse ^^^
      shifts exponents ((moved (product a b)).1.reverse ^^^ spill exponents (moved (product a b)).1.reverse) := by
  rw [productFirst_eq, ← reverse_fold]
  simp only [reverse_xor, reverse_ushiftRight, shifts, exponents, List.foldr_cons, List.foldr_nil,
    BitVec.xor_zero, BitVec.shiftLeft_zero, BitVec.xor_assoc]

/-- **The first block multiplies in GF(2^128)**, with the bits of the registers read backwards. -/
theorem first_block_multiplies (s : Cpu) :
    (run (multiply ++ reduceFirst) s).xmm 6 =
      (ofPoly 128 (toPoly (s.xmm 0).reverse * toPoly (s.xmm 1).reverse %ₘ
        (X ^ 128 + X ^ 7 + X ^ 2 + X + 1))).reverse := by
  have modulus : (X ^ 128 + X ^ 7 + X ^ 2 + X + 1 : (ZMod 2)[X]) = X ^ 128 + powers exponents := by
    rw [powers, exponents]
    simp only [List.map_cons, List.map_nil, List.sum_cons, List.sum_nil, pow_zero, pow_one]
    ring
  have remainder := toPoly_fold exponents (by decide : 0 < 128) (by decide)
    (moved (product (s.xmm 0) (s.xmm 1))).2.reverse (moved (product (s.xmm 0) (s.xmm 1))).1.reverse
  rw [first_run, modulus, reverse_product, ← remainder, ofPoly_toPoly, ← reverse_productFirst,
    BitVec.reverse_reverse_eq]

/-! ## The two blocks -/

/-- Bit `i` of what the first phase carries between the lanes, from the product `p` of the
operands. -/
def carriedBit (p : BitVec 256) (i : Nat) : Bool :=
  decide (i < 96) && (((decide (31 ≤ i % 32) && p.getLsbD i) ^^ (decide (30 ≤ i % 32) && p.getLsbD (i + 1))) ^^
    (decide (25 ≤ i % 32) && p.getLsbD (i + 6)))

theorem carried_bit (a b : Xmm) {i : Nat} (inside : i < 128) :
    (psrldq 4 (folded (moved (product a b)).1)).getLsbD i = carriedBit (clmul a b) i := by
  rw [getLsbD_psrldq, carriedBit]
  by_cases low : i < 96
  · have room : 8 * 4 + i < 128 := by omega
    have lane : (8 * 4 + i) % 32 = i % 32 := by omega
    have bit (n m : Nat) (sum : n + m = 31) : (pslld n (moved (product a b)).1).getLsbD (8 * 4 + i) =
        (decide (n ≤ i % 32) && (clmul a b).getLsbD (i + m)) := by
      have place : 8 * 4 + i - n - 1 = i + m := by omega
      have first : 1 ≤ 8 * 4 + i - n := by omega
      rw [getLsbD_pslld _ _ room, lane, (moved_product_bits a b (by omega)).1, place, decide_eq_true first,
        Bool.true_and]
    rw [folded, BitVec.getLsbD_xor, BitVec.getLsbD_xor, bit 31 0 rfl, bit 30 1 rfl, bit 25 6 rfl,
      decide_eq_true low, Bool.true_and, Nat.add_zero i]
  · rw [BitVec.getLsbD_of_ge _ _ (by omega), decide_eq_false low, Bool.false_and]

/-- The reductions agree where the carried bits are the high half of the product. -/
theorem products_agree_iff (a b : Xmm) :
    productFirst a b = productSecond a b ↔
      ∀ i < 128, (clmul a b).getLsbD (127 + i) = carriedBit (clmul a b) i := by
  have cancelled : productFirst a b = productSecond a b ↔
      psrldq 4 (folded (moved (product a b)).1) = (moved (product a b)).2 := by
    dsimp only [productFirst, productSecond]
    rw [BitVec.xor_right_inj, BitVec.xor_right_inj, BitVec.xor_right_inj]
  rw [cancelled]
  constructor
  · intro same i inside
    rw [← carried_bit a b inside, same, (moved_product_bits a b inside).2]
  · intro same
    refine BitVec.eq_of_getLsbD_eq fun i inside => ?_
    rw [carried_bit a b inside, ← same i inside, (moved_product_bits a b inside).2]

/-- **When the two blocks are the same function.**  On operands whose product has, in its upper 128
bits, exactly the bits that the first phase of the reduction carries between the lanes. -/
theorem blocks_agree_iff (s s' : Cpu) (first : s.xmm 0 = s'.xmm 0) (second : s.xmm 1 = s'.xmm 1) :
    (run (multiply ++ reduceFirst) s).xmm 6 = (run (multiply ++ reduceSecond) s').xmm 6 ↔
      ∀ i < 128, (clmul (s.xmm 0) (s.xmm 1)).getLsbD (127 + i) =
        carriedBit (clmul (s.xmm 0) (s.xmm 1)) i := by
  rw [first_run, second_run, ← first, ← second, products_agree_iff]

namespace Example

/-- Two registers, the others zero. -/
def registers (a b : Xmm) : Cpu where
  xmm := fun i => if i = 0 then a else if i = 1 then b else 0
  reg := fun _ => 0
  mem := fun _ => 0

/-- Bit 31 of the product is carried into the next lane by the first block only. -/
theorem carry_lost :
    (run (multiply ++ reduceFirst) (registers 0x80000000 1)).xmm 6 ≠
      (run (multiply ++ reduceSecond) (registers 0x80000000 1)).xmm 6 := by
  rw [first_run, second_run, Ne, products_agree_iff]
  intro agree
  have bit := agree 31 (by decide)
  revert bit
  decide

set_option maxRecDepth 4000 in
/-- A product of small operands has nothing to carry. -/
theorem small_operands_agree :
    (run (multiply ++ reduceFirst) (registers 3 5)).xmm 6 =
      (run (multiply ++ reduceSecond) (registers 3 5)).xmm 6 := by
  refine (blocks_agree_iff (registers 3 5) (registers 3 5) rfl rfl).mpr ?_
  have product : clmul (3 : Xmm) 5 = 15 := by decide
  have operands : clmul ((registers 3 5).xmm 0) ((registers 3 5).xmm 1) = 15 := product
  rw [operands]
  decide

end Example

end HyperSmile.Enclave.GhashProduct
