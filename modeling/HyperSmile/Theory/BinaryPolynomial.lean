/-
# Theory.BinaryPolynomial — bit vectors as polynomials over GF(2)

A bit vector is the polynomial whose coefficients are its bits (`toPoly`): xor is
addition, a shift to the left is multiplication by X as long as no bit falls out, and
the carry-less product is the product (`toPoly_clmul`).

Modulo a polynomial of degree `w`, given by its lower bits (`P = X^w + toPoly tail`),
the vectors of width `w` are the elements of the quotient ring, each once (`residue`).
There a shift is completed to a multiplication by X by adding `tail` when a bit falls
out (`timesX`), and shift-and-add is the product (`mulMod`, `residue_mulMod`).
-/
import Mathlib.RingTheory.AdjoinRoot
import Mathlib.Algebra.Field.ZMod
import Mathlib.Data.BitVec
import Mathlib.Algebra.CharP.Two
import Mathlib.Algebra.CharP.Algebra

namespace HyperSmile.Theory.BinaryPolynomial

open Polynomial

set_option autoImplicit false

variable {w : Nat}

/-! ## Coefficients -/

/-- Bit `i` is the coefficient of `X ^ i`. -/
noncomputable def toPoly (x : BitVec w) : (ZMod 2)[X] :=
  ∑ i ∈ Finset.range w, if x.getLsbD i then X ^ i else 0

theorem coeff_toPoly (x : BitVec w) (n : Nat) :
    (toPoly x).coeff n = if x.getLsbD n then 1 else 0 := by
  have term (i : Nat) : (if x.getLsbD i then X ^ i else 0 : (ZMod 2)[X]).coeff n =
      if n = i then (if x.getLsbD i then 1 else 0) else 0 := by
    cases x.getLsbD i <;> simp [coeff_X_pow]
  simp only [toPoly, finsetSum_coeff, term]
  rw [Finset.sum_ite_eq]
  split
  · rfl
  · rename_i outside
    have : x.getLsbD n = false := BitVec.getLsbD_of_ge x n (by simpa using outside)
    simp [this]

theorem degree_toPoly_lt (x : BitVec w) : (toPoly x).degree < w := by
  rw [degree_lt_iff_coeff_zero]
  intro n outside
  rw [coeff_toPoly, BitVec.getLsbD_of_ge x n outside]
  rfl

theorem toPoly_injective : Function.Injective (toPoly : BitVec w → (ZMod 2)[X]) := by
  intro x y same
  refine BitVec.eq_of_getLsbD_eq fun i _ => ?_
  have bit := congrArg (fun p => p.coeff i) same
  simp only [coeff_toPoly] at bit
  cases hx : x.getLsbD i <;> cases hy : y.getLsbD i <;> simp_all

theorem toPoly_xor (x y : BitVec w) : toPoly (x ^^^ y) = toPoly x + toPoly y := by
  ext n
  rw [coeff_add, coeff_toPoly, coeff_toPoly, coeff_toPoly, BitVec.getLsbD_xor]
  cases x.getLsbD n <;> cases y.getLsbD n <;> decide

@[simp] theorem toPoly_zero : toPoly 0#w = 0 := by
  ext n
  rw [coeff_toPoly]
  simp

/-- Multiplication by X, with the bit that falls out kept. -/
theorem X_mul_toPoly (x : BitVec w) :
    X * toPoly x = toPoly (x <<< 1) + if x.msb then X ^ w else 0 := by
  ext n
  have top : (if x.msb then X ^ w else 0 : (ZMod 2)[X]).coeff n =
      if n = w ∧ x.msb then 1 else 0 := by
    cases x.msb <;> simp [coeff_X_pow]
  rw [coeff_add, top, coeff_toPoly, BitVec.getLsbD_shiftLeft]
  cases n with
  | zero =>
      rw [mul_coeff_zero, coeff_X_zero, zero_mul]
      rcases Nat.eq_zero_or_pos w with rfl | positive
      · simp [BitVec.eq_nil x]
      · simp [positive.ne]
  | succ n =>
      rw [coeff_X_mul, coeff_toPoly]
      rcases Nat.lt_trichotomy (n + 1) w with below | rfl | above
      · simp [below, below.ne]
      · have last : x.msb = x.getLsbD n := by simp [BitVec.msb_eq_getLsbD_last]
        simp [last]
      · have outside : x.getLsbD n = false := BitVec.getLsbD_of_ge x n (by omega)
        simp [outside, above.ne']

/-- The vector of the lowest `w` coefficients. -/
noncomputable def ofPoly (w : Nat) (p : (ZMod 2)[X]) : BitVec w :=
  (BitVec.ofBoolListLE ((List.range w).map fun i => decide (p.coeff i = 1))).setWidth w

/-- Every polynomial of degree below `w` is one of a vector. -/
theorem toPoly_ofPoly {p : (ZMod 2)[X]} (small : p.degree < w) : toPoly (ofPoly w p) = p := by
  ext n
  rw [coeff_toPoly, ofPoly, BitVec.getLsbD_setWidth, BitVec.getLsbD_ofBoolListLE]
  by_cases inside : n < w
  · have bit : ∀ c : ZMod 2, c = 0 ∨ c = 1 := by decide
    rcases bit (p.coeff n) with zero | one
    · simp [inside, zero]
    · simp [inside, one]
  · have outside := (degree_lt_iff_coeff_zero p w).1 small n (by omega)
    simp [inside, outside]

theorem ofPoly_toPoly (x : BitVec w) : ofPoly w (toPoly x) = x :=
  toPoly_injective (toPoly_ofPoly (degree_toPoly_lt x))

/-! ## Products -/

/-- A shift to the left is a product as long as no bit falls out. -/
theorem toPoly_shiftLeft {x : BitVec w} {n : Nat} (clear : ∀ i, w ≤ i + n → x.getLsbD i = false) :
    toPoly (x <<< n) = X ^ n * toPoly x := by
  ext k
  rw [coeff_X_pow_mul', coeff_toPoly, coeff_toPoly, BitVec.getLsbD_shiftLeft]
  by_cases below : k < n
  · have : ¬ n ≤ k := by omega
    simp [below, this]
  · have above : n ≤ k := by omega
    by_cases inside : k < w
    · simp [below, above, inside]
    · have outside : x.getLsbD (k - n) = false := clear _ (by omega)
      simp [above, outside]

theorem toPoly_setWidth {v : Nat} {x : BitVec v} (clear : ∀ i, w ≤ i → x.getLsbD i = false) :
    toPoly (x.setWidth w) = toPoly x := by
  ext k
  rw [coeff_toPoly, coeff_toPoly, BitVec.getLsbD_setWidth]
  by_cases inside : k < w
  · simp [inside]
  · simp [inside, clear k (by omega)]

theorem toPoly_shiftLeft_setWidth (x : BitVec w) {v n : Nat} (room : w + n ≤ v) :
    toPoly (x.setWidth v <<< n) = X ^ n * toPoly x := by
  rw [toPoly_shiftLeft, toPoly_setWidth]
  · intro i above
    exact BitVec.getLsbD_of_ge x i (by omega)
  · intro i above
    rw [BitVec.getLsbD_setWidth, BitVec.getLsbD_of_ge x i (by omega), Bool.and_false]

/-- The carry-less product with the `n` low bits of `y`. -/
def clmulFrom (x y : BitVec w) : Nat → BitVec (w + w)
  | 0 => 0
  | n + 1 =>
      if y.getLsbD n then clmulFrom x y n ^^^ x.setWidth (w + w) <<< n else clmulFrom x y n

/-- The carry-less product, without reduction. -/
def clmul (x y : BitVec w) : BitVec (w + w) := clmulFrom x y w

/-- **The carry-less product is the product of polynomials.** -/
theorem toPoly_clmul (x y : BitVec w) : toPoly (clmul x y) = toPoly x * toPoly y := by
  have low (n : Nat) (inside : n ≤ w) : toPoly (clmulFrom x y n) =
      toPoly x * ∑ i ∈ Finset.range n, if y.getLsbD i then X ^ i else 0 := by
    induction n with
    | zero => simp [clmulFrom]
    | succ n ih =>
        rw [clmulFrom, Finset.sum_range_succ, mul_add, ← ih (by omega)]
        cases y.getLsbD n with
        | false => simp
        | true => simp [toPoly_xor, toPoly_shiftLeft_setWidth x (by omega : w + n ≤ w + w), mul_comm]
  exact low w le_rfl

theorem clmul_xor (x y z : BitVec w) : clmul x (y ^^^ z) = clmul x y ^^^ clmul x z := by
  apply toPoly_injective
  rw [toPoly_xor, toPoly_clmul, toPoly_clmul, toPoly_clmul, toPoly_xor, mul_add]

/-- The same sum, of numbers: the form to compute with. -/
def clmulNat (x y : Nat) : Nat → Nat → Nat
  | 0, sum => sum
  | n + 1, sum => clmulNat x y n (sum ^^^ (x <<< n) * ((y >>> n) % 2))

theorem clmul_eq_ofNat (x y : BitVec w) :
    clmul x y = BitVec.ofNat (w + w) (clmulNat x.toNat y.toNat w 0) := by
  suffices low : ∀ n ≤ w, ∀ sum : Nat, BitVec.ofNat (w + w) (clmulNat x.toNat y.toNat n sum) =
      BitVec.ofNat (w + w) sum ^^^ clmulFrom x y n by
    rw [low w le_rfl, clmul]
    exact BitVec.zero_xor.symm
  intro n
  induction n with
  | zero =>
      intro _ sum
      exact BitVec.xor_zero.symm
  | succ n ih =>
      intro inside sum
      have term : BitVec.ofNat (w + w) ((x.toNat <<< n) * ((y.toNat >>> n) % 2)) =
          if y.getLsbD n then x.setWidth (w + w) <<< n else 0 := by
        rw [BitVec.getLsbD, Nat.testBit_eq_decide_div_mod_eq, Nat.shiftRight_eq_div_pow]
        rcases Nat.mod_two_eq_zero_or_one (y.toNat / 2 ^ n) with clear | set
        · simp [clear]
        · apply BitVec.eq_of_toNat_eq
          simp [set, Nat.mod_eq_of_lt (Nat.lt_of_lt_of_le x.isLt (Nat.pow_le_pow_right (by decide)
            (Nat.le_add_left w w)))]
      rw [clmulNat, ih (by omega), clmulFrom, BitVec.ofNat_xor, term]
      split
      · rw [BitVec.xor_assoc, BitVec.xor_comm (clmulFrom x y n)]
      · simp

/-! ## Residues -/

section Residues

variable {P : (ZMod 2)[X]} {tail : BitVec w}

theorem monic_of_shape (shape : P = X ^ w + toPoly tail) : P.Monic := by
  rw [shape]
  exact monic_X_pow_add (degree_toPoly_lt tail)

theorem degree_of_shape (shape : P = X ^ w + toPoly tail) : P.degree = w := by
  rw [shape, degree_add_eq_left_of_degree_lt] <;> rw [degree_X_pow]
  exact degree_toPoly_lt tail

/-- The remainder is the one small polynomial that differs by a multiple. -/
theorem modByMonic_eq_of_dvd {M p r : (ZMod 2)[X]} (monic : M.Monic) (divides : M ∣ p - r)
    (small : r.degree < M.degree) : p %ₘ M = r := by
  obtain ⟨quotient, difference⟩ := divides
  refine (div_modByMonic_unique quotient r monic ⟨?_, small⟩).2
  linear_combination -difference

/-- **Two moduli with one remainder**: it is the remainder by their product. -/
theorem remainders_eq_iff {P Q p : (ZMod 2)[X]} (monic : P.Monic) (monic' : Q.Monic) (degree : P.degree = w)
    (degree' : Q.degree = w) (coprime : IsCoprime P Q) :
    p %ₘ P = p %ₘ Q ↔ (p %ₘ (P * Q)).degree < w := by
  have product : (P * Q).degree = (w + w : Nat) := by
    rw [degree_mul, degree, degree', Nat.cast_add]
  constructor
  · intro same
    have small : (p %ₘ P).degree < w := degree ▸ degree_modByMonic_lt p monic
    have first : P ∣ p - p %ₘ P := ⟨p /ₘ P, by linear_combination -modByMonic_add_div p P⟩
    have second : Q ∣ p - p %ₘ P := ⟨p /ₘ Q, by rw [same]; linear_combination -modByMonic_add_div p Q⟩
    have wide : (p %ₘ P).degree < (P * Q).degree := by
      rw [product]
      exact small.trans_le (by exact_mod_cast Nat.le_add_left w w)
    rwa [modByMonic_eq_of_dvd (monic.mul monic') (coprime.mul_dvd first second) wide]
  · intro small
    have multiple : p - p %ₘ (P * Q) = P * Q * (p /ₘ (P * Q)) := by
      linear_combination -modByMonic_add_div p (P * Q)
    have first : P ∣ p - p %ₘ (P * Q) := ⟨Q * (p /ₘ (P * Q)), by rw [multiple, mul_assoc]⟩
    have second : Q ∣ p - p %ₘ (P * Q) := ⟨P * (p /ₘ (P * Q)), by rw [multiple]; ring⟩
    rw [modByMonic_eq_of_dvd monic first (degree ▸ small), modByMonic_eq_of_dvd monic' second (degree' ▸ small)]

/-- Long division by `m`, whose highest bit is bit `w`: the `n` bits from bit `w` on are cleared,
the highest first. -/
def divide {v : Nat} (m : BitVec v) (w : Nat) : Nat → BitVec v → BitVec v
  | 0, x => x
  | n + 1, x => divide m w n (if x.getLsbD (w + n) then x ^^^ m <<< n else x)

section Divide

variable (shape : P = X ^ w + toPoly tail) {v : Nat} {m : BitVec v} (top : m.getLsbD w = true)
  (above : ∀ i, w < i → m.getLsbD i = false)
include top above

/-- One step of the division clears the bit above. -/
theorem getLsbD_divide {n : Nat} {x : BitVec v} (room : w + n ≤ v)
    (clear : ∀ i, w + n ≤ i → x.getLsbD i = false) (i : Nat) (high : w ≤ i) :
    (divide m w n x).getLsbD i = false := by
  induction n generalizing x with
  | zero => exact clear i high
  | succ n ih =>
      rw [divide]
      refine ih (by omega) fun k inside => ?_
      rcases Nat.eq_or_lt_of_le inside with rfl | beyond
      · by_cases set : x.getLsbD (w + n)
        · have within : w + n < v := by omega
          rw [if_pos set, BitVec.getLsbD_xor, BitVec.getLsbD_shiftLeft, set]
          simp [within, top]
        · rw [if_neg set]
          simpa using set
      · have zero := clear k (by omega)
        split
        · rw [BitVec.getLsbD_xor, BitVec.getLsbD_shiftLeft, zero, above (k - n) (by omega)]
          simp
        · exact zero

omit top in
/-- The division subtracts multiples. -/
theorem dvd_divide {n : Nat} (x : BitVec v) (room : w + n ≤ v) :
    toPoly m ∣ toPoly x - toPoly (divide m w n x) := by
  induction n generalizing x with
  | zero => simp [divide]
  | succ n ih =>
      rw [divide]
      have multiple : toPoly (m <<< n) = X ^ n * toPoly m :=
        toPoly_shiftLeft fun i beyond => above i (by omega)
      let y := if x.getLsbD (w + n) then x ^^^ m <<< n else x
      have step : toPoly m ∣ toPoly x - toPoly y := by
        by_cases set : x.getLsbD (w + n)
        · rw [show y = x ^^^ m <<< n from if_pos set, toPoly_xor, multiple]
          exact ⟨-X ^ n, by ring⟩
        · rw [show y = x from if_neg set, sub_self]
          exact dvd_zero _
      have sum := dvd_add step (ih y (by omega))
      rwa [sub_add_sub_cancel] at sum

include shape in
/-- **Long division leaves the remainder.** -/
theorem toPoly_divide (modulus : toPoly m = P) {n : Nat} {x : BitVec v} (room : w + n ≤ v)
    (clear : ∀ i, w + n ≤ i → x.getLsbD i = false) :
    toPoly ((divide m w n x).setWidth w) = toPoly x %ₘ P := by
  have divides := dvd_divide above x room
  have narrow := toPoly_setWidth (getLsbD_divide top above room clear)
  rw [modulus, ← narrow] at divides
  refine (modByMonic_eq_of_dvd (monic_of_shape shape) divides ?_).symm
  rw [degree_of_shape shape]
  exact degree_toPoly_lt _

end Divide

theorem residue_bijective (shape : P = X ^ w + toPoly tail) :
    Function.Bijective fun x : BitVec w => AdjoinRoot.mk P (toPoly x) := by
  have degree := degree_of_shape shape
  have monic := monic_of_shape shape
  constructor
  · intro x y same
    have divides : P ∣ toPoly x - toPoly y := AdjoinRoot.mk_eq_mk.1 same
    have small : (toPoly x - toPoly y).degree < P.degree := by
      rw [degree]
      exact (degree_sub_le _ _).trans_lt (max_lt (degree_toPoly_lt x) (degree_toPoly_lt y))
    by_contra different
    have nonzero : toPoly x - toPoly y ≠ 0 := sub_ne_zero.2 (toPoly_injective.ne different)
    exact monic.not_dvd_of_degree_lt nonzero small divides
  · intro z
    obtain ⟨p, rfl⟩ := AdjoinRoot.mk_surjective z
    have small : (p %ₘ P).degree < w := by
      rw [← degree]
      exact degree_modByMonic_lt p monic
    refine ⟨ofPoly w (p %ₘ P), ?_⟩
    show AdjoinRoot.mk P (toPoly (ofPoly w (p %ₘ P))) = AdjoinRoot.mk P p
    rw [toPoly_ofPoly small, AdjoinRoot.mk_eq_mk]
    exact ⟨-(p /ₘ P), by linear_combination modByMonic_add_div p P⟩

/-- The vectors of width `w` are the residues modulo `P`. -/
noncomputable def residue (shape : P = X ^ w + toPoly tail) : BitVec w ≃ AdjoinRoot P :=
  Equiv.ofBijective _ (residue_bijective shape)

variable (shape : P = X ^ w + toPoly tail)

theorem residue_apply (x : BitVec w) : residue shape x = AdjoinRoot.mk P (toPoly x) := rfl

theorem residue_xor (x y : BitVec w) : residue shape (x ^^^ y) = residue shape x + residue shape y := by
  simp only [residue_apply, toPoly_xor, map_add]

@[simp] theorem residue_zero : residue shape 0#w = 0 := by
  rw [residue_apply, toPoly_zero, map_zero]

/-- Times X: the bit that falls out is replaced by the lower part of the modulus. -/
def timesX (tail x : BitVec w) : BitVec w := if x.msb then x <<< 1 ^^^ tail else x <<< 1

theorem residue_timesX (x : BitVec w) :
    residue shape (timesX tail x) = AdjoinRoot.root P * residue shape x := by
  have product : AdjoinRoot.root P * residue shape x = AdjoinRoot.mk P (X * toPoly x) := by
    rw [map_mul, AdjoinRoot.mk_X, residue_apply]
  rw [product, X_mul_toPoly, timesX, residue_apply]
  cases x.msb with
  | false => simp
  | true =>
      rw [if_pos rfl, if_pos rfl, toPoly_xor, AdjoinRoot.mk_eq_mk, shape]
      have double : (2 : (ZMod 2)[X]) = 0 := CharTwo.two_eq_zero
      exact ⟨-1, by linear_combination (toPoly tail) * double⟩

/-- The shift-and-add loop, `n` turns from bit `i` of `x` on. -/
def mulModFrom (tail x : BitVec w) : Nat → Nat → BitVec w → BitVec w → BitVec w
  | 0, _, _, p => p
  | n + 1, i, v, p => mulModFrom tail x n (i + 1) (timesX tail v) (if x.getLsbD i then p ^^^ v else p)

/-- The product modulo `X ^ w + tail`, by shift and add. -/
def mulMod (tail x y : BitVec w) : BitVec w := mulModFrom tail x w 0 y 0#w

theorem residue_mulModFrom (x : BitVec w) (n i : Nat) (v p : BitVec w) :
    residue shape (mulModFrom tail x n i v p) =
      residue shape p + residue shape v *
        ∑ k ∈ Finset.range n, if x.getLsbD (i + k) then AdjoinRoot.root P ^ k else 0 := by
  induction n generalizing i v p with
  | zero => simp [mulModFrom]
  | succ n ih =>
      -- the sum from bit `i` on is bit `i` plus X times the sum from bit `i + 1` on
      have shift : ∀ k, (if x.getLsbD (i + (k + 1)) then AdjoinRoot.root P ^ (k + 1) else 0) =
          AdjoinRoot.root P * if x.getLsbD (i + 1 + k) then AdjoinRoot.root P ^ k else 0 := by
        intro k
        rw [show i + (k + 1) = i + 1 + k by omega, mul_ite, mul_zero, pow_succ']
      rw [mulModFrom, ih, residue_timesX, Finset.sum_range_succ', Finset.sum_congr rfl fun k _ => shift k,
        ← Finset.mul_sum]
      cases x.getLsbD i with
      | false => simp; ring
      | true => simp [residue_xor]; ring

/-- **Shift and add is the product of residues.** -/
theorem residue_mulMod (x y : BitVec w) :
    residue shape (mulMod tail x y) = residue shape x * residue shape y := by
  have bits : residue shape x =
      ∑ k ∈ Finset.range w, if x.getLsbD k then AdjoinRoot.root P ^ k else 0 := by
    rw [residue_apply, toPoly, map_sum]
    refine Finset.sum_congr rfl fun k _ => ?_
    cases x.getLsbD k <;> simp
  rw [mulMod, residue_mulModFrom, bits]
  simp only [residue_zero, zero_add]
  ring

end Residues

end HyperSmile.Theory.BinaryPolynomial
