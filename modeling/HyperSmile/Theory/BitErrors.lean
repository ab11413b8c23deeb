/-
# Theory.BitErrors — which bit errors a shift register notices

Two messages of one length differ in a set of bits (`changed`), and the difference of their polynomials
is the sum of the powers at these bits (`message_sub`). So what a register of `Theory.ReflectedCrc`
notices is a question about the generator `P`:

* a change of two bits is lost exactly if the order of X modulo `P` divides their distance
  (`register_two_bits`);
* a change of an odd number of bits is never lost if X + 1 divides `P` (`register_odd`).

The order of X is found with powers by square and multiply over bit vectors (`powMod`).
-/
import HyperSmile.Theory.ReflectedCrc
import Mathlib.GroupTheory.OrderOfElement

namespace HyperSmile.Theory.BitErrors

open Polynomial
open HyperSmile.Theory.BinaryPolynomial
open HyperSmile.Theory.ReflectedCrc

set_option autoImplicit false

/-! ## Messages that differ -/

/-- The bits two messages differ in. -/
def changed (bytes bytes' : List (BitVec 8)) : Finset Nat :=
  {i ∈ Finset.range (8 * bytes.length) | bitAt bytes i ≠ bitAt bytes' i}

theorem lt_of_changed {bytes bytes' : List (BitVec 8)} {i : Nat} (member : i ∈ changed bytes bytes') :
    i < 8 * bytes.length := Finset.mem_range.mp (Finset.mem_filter.mp member).1

/-- Bit `i` has the power `8 * length - 1 - i`. -/
theorem message_sub {bytes bytes' : List (BitVec 8)} (length : bytes.length = bytes'.length) :
    message bytes - message bytes' = ∑ i ∈ changed bytes bytes', X ^ (8 * bytes.length - 1 - i) := by
  ext n
  rw [coeff_sub, coeff_message, coeff_message, ← length, finsetSum_coeff]
  simp only [coeff_X_pow]
  by_cases inside : n < 8 * bytes.length
  · have place (i : Nat) (member : i ∈ changed bytes bytes') :
        n = 8 * bytes.length - 1 - i ↔ i = 8 * bytes.length - 1 - n := by
      have := lt_of_changed member
      omega
    have own : 8 * bytes.length - 1 - n < 8 * bytes.length := by omega
    rw [Finset.sum_congr rfl fun i member => if_congr (place i member) rfl rfl, Finset.sum_ite_eq']
    simp only [changed, Finset.mem_filter, Finset.mem_range, own, inside, true_and]
    cases bitAt bytes (8 * bytes.length - 1 - n) <;> cases bitAt bytes' (8 * bytes.length - 1 - n) <;> decide
  · have none (i : Nat) (member : i ∈ changed bytes bytes') : n ≠ 8 * bytes.length - 1 - i := by
      have := lt_of_changed member
      omega
    rw [Finset.sum_eq_zero fun i member => if_neg (none i member)]
    simp [inside]

/-! ## What is lost -/

section Lost

variable {w : Nat} {poly : BitVec w} {P : (ZMod 2)[X]} (shape : P = X ^ w + toPoly poly.reverse)
  (constant : P.coeff 0 = 1) (wide : 8 ≤ w)
include shape constant wide

/-- **A change of two bits is lost exactly if their distance is a multiple of the order of X.** -/
theorem register_two_bits (r : BitVec w) {bytes bytes' : List (BitVec 8)}
    (length : bytes.length = bytes'.length) {i j : Nat} (before : i < j)
    (two : changed bytes bytes' = {i, j}) :
    register poly r bytes = register poly r bytes' ↔ orderOf (AdjoinRoot.root P) ∣ j - i := by
  have inside : j < 8 * bytes.length := lt_of_changed (by rw [two]; simp)
  have exponent : 8 * bytes.length - 1 - i = (8 * bytes.length - 1 - j) + (j - i) := by omega
  have minus : (1 : (ZMod 2)[X]) = -1 := (CharTwo.neg_eq 1).symm
  have difference : message bytes - message bytes' =
      X ^ (8 * bytes.length - 1 - j) * (X ^ (j - i) - 1) := by
    rw [message_sub length, two, Finset.sum_pair before.ne, exponent, pow_add]
    linear_combination X ^ (8 * bytes.length - 1 - j) * minus
  rw [register_eq_iff shape constant wide r length, difference, orderOf_dvd_iff_pow_eq_one]
  constructor
  · intro divides
    have core := AdjoinRoot.mk_eq_zero.mpr (dvd_of_dvd_X_pow_mul constant divides)
    rw [map_sub, map_pow, AdjoinRoot.mk_X, map_one] at core
    exact sub_eq_zero.mp core
  · intro one
    refine Dvd.dvd.mul_left (AdjoinRoot.mk_eq_zero.mp ?_) _
    rw [map_sub, map_pow, AdjoinRoot.mk_X, map_one, one, sub_self]

/-- **No odd number of changes is lost** where X + 1 divides the generator. -/
theorem register_odd (parity : X + 1 ∣ P) (r : BitVec w) {bytes bytes' : List (BitVec 8)}
    (length : bytes.length = bytes'.length) (odd : Odd (changed bytes bytes').card) :
    register poly r bytes ≠ register poly r bytes' := by
  intro same
  have divides := parity.trans ((register_eq_iff shape constant wide r length).mp same)
  have root : (message bytes - message bytes').eval 1 = 0 := by
    obtain ⟨quotient, product⟩ := divides
    rw [product, eval_mul, eval_add, eval_X, eval_one, CharTwo.add_self_eq_zero, zero_mul]
  rw [message_sub length, eval_finsetSum] at root
  simp only [eval_pow, eval_X, one_pow, Finset.sum_const, nsmul_eq_mul, mul_one] at root
  rw [ZMod.natCast_eq_zero_iff] at root
  exact (Nat.not_even_iff_odd.mpr odd) (even_iff_two_dvd.mpr root)

end Lost

/-! ## The order of X -/

section Powers

variable {w : Nat} {tail : BitVec w} {P : (ZMod 2)[X]} (shape : P = X ^ w + toPoly tail)

/-- The power by square and multiply, for an exponent of at most `fuel` bits. -/
def powMod (tail a : BitVec w) : Nat → Nat → BitVec w
  | 0, _ => 1#w
  | fuel + 1, n =>
      let half := powMod tail a fuel (n / 2)
      let square := mulMod tail half half
      if n % 2 = 1 then mulMod tail a square else square

theorem toPoly_one (positive : 0 < w) : toPoly 1#w = 1 := by
  ext n
  rw [coeff_toPoly, coeff_one, BitVec.getLsbD_one]
  by_cases zero : n = 0
  · subst zero
    simp [positive]
  · simp [zero]

theorem toPoly_two (wide : 1 < w) : toPoly 2#w = X := by
  have shifted : 2#w = 1#w <<< 1 := by
    refine BitVec.eq_of_toNat_eq ?_
    rw [← BitVec.twoPow_eq, BitVec.toNat_twoPow, BitVec.toNat_ofNat, pow_one]
  have clear (i : Nat) (beyond : w ≤ i + 1) : (1#w).getLsbD i = false := by
    rw [BitVec.getLsbD_one, decide_eq_false (by omega : ¬ i = 0), Bool.and_false]
  rw [shifted, toPoly_shiftLeft clear, toPoly_one (by omega), mul_one, pow_one]

theorem residue_powMod (positive : 0 < w) (a : BitVec w) (fuel n : Nat) (small : n < 2 ^ fuel) :
    residue shape (powMod tail a fuel n) = residue shape a ^ n := by
  induction fuel generalizing n with
  | zero =>
      obtain rfl : n = 0 := by omega
      rw [powMod, residue_apply, toPoly_one positive, map_one, pow_zero]
  | succ fuel ih =>
      have half : residue shape (powMod tail a fuel (n / 2)) = residue shape a ^ (n / 2) := ih _ (by omega)
      rw [powMod]
      split
      · rename_i odd
        rw [residue_mulMod, residue_mulMod, half, ← pow_add, ← pow_succ']
        congr 1
        omega
      · rw [residue_mulMod, half, ← pow_add]
        congr 1
        omega

include shape in
/-- A power of X is 1 exactly if the computed one is. -/
theorem root_pow_eq_one_iff (wide : 1 < w) {fuel n : Nat} (small : n < 2 ^ fuel) :
    AdjoinRoot.root P ^ n = 1 ↔ powMod tail 2#w fuel n = 1#w := by
  have root : AdjoinRoot.root P = residue shape 2#w := by
    rw [residue_apply, toPoly_two wide, AdjoinRoot.mk_X]
  have one : (1 : AdjoinRoot P) = residue shape 1#w := by
    rw [residue_apply, toPoly_one (by omega), map_one]
  rw [root, one, ← residue_powMod shape (by omega) _ _ _ small]
  exact (residue shape).injective.eq_iff

end Powers

end HyperSmile.Theory.BitErrors
