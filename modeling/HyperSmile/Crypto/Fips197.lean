/-
# Crypto.Fips197 — the AES-128 cipher, as the standard defines it

The reference the two AES routines of the repository are compared with. A byte is an
element of GF(2^8), the binary polynomials modulo `x^8 + x^4 + x^3 + x + 1`
(`element`); the substitution inverts it there and applies an affine map over GF(2);
a column is a polynomial over GF(2^8), mixed by multiplication with
`3x^3 + x^2 + x + 2` modulo `x^4 + 1`; the round constants are the powers of x.

These definitions do not compute. In the second half the field is computed by shift
and add (`gfMul`, `xtime`): a byte with product 1 is the inverse (`sBox_of_product`),
the round constants are `xPower`, and a column is mixed by `mixBytes`, the form in
which programs and processors have it (`rconByte_eq`, `mixColumn_eq`).
-/
import HyperSmile.Theory.BinaryPolynomial

namespace HyperSmile.Crypto.Fips197

open Polynomial
open HyperSmile.Theory.BinaryPolynomial

set_option autoImplicit false

/-! ## The field -/

noncomputable def fieldPolynomial : (ZMod 2)[X] := X ^ 8 + X ^ 4 + X ^ 3 + X + 1

theorem fieldPolynomial_shape : fieldPolynomial = X ^ 8 + toPoly (0x1b : BitVec 8) := by
  have bits : ((List.range 8).map (0x1b : BitVec 8).getLsbD) =
      [true, true, false, true, true, false, false, false] := by decide
  simp only [List.range, List.range.loop, List.map_cons, List.map_nil, List.cons.injEq] at bits
  simp only [fieldPolynomial, toPoly, Finset.sum_range_succ, Finset.sum_range_zero, bits]
  simp
  ring

/-- GF(2^8) -/
abbrev GF256 := AdjoinRoot fieldPolynomial

/-- A byte as an element of the field: bit `i` is the coefficient of `x ^ i`. -/
noncomputable def element : BitVec 8 ≃ GF256 := residue fieldPolynomial_shape

/-! ## Words and the key schedule -/

/-- Four bytes. -/
abbrev Word := Fin 4 → BitVec 8

/-- The affine transformation of SubBytes: bit `i` becomes the sum of the bits
`i, i + 4, i + 5, i + 6, i + 7` and bit `i` of 0x63. -/
def affine (b : BitVec 8) : BitVec 8 :=
  b ^^^ b.rotateRight 4 ^^^ b.rotateRight 5 ^^^ b.rotateRight 6 ^^^ b.rotateRight 7 ^^^ 0x63

/-- The inverse in the field, and 0 for 0, then the affine transformation. -/
noncomputable def sBox (b : BitVec 8) : BitVec 8 := affine (element.symm (Ring.inverse (element b)))

noncomputable def subWord (a : Word) : Word := fun r => sBox (a r)

/-- `[a0, a1, a2, a3]` becomes `[a1, a2, a3, a0]`. -/
def rotWord (a : Word) : Word := fun r => a (r + 1)

/-- `x ^ (i - 1)` -/
noncomputable def rconByte (i : Nat) : BitVec 8 :=
  element.symm (AdjoinRoot.root fieldPolynomial ^ (i - 1))

/-- `[x ^ (i - 1), 0, 0, 0]` -/
noncomputable def rcon (i : Nat) : Word := fun r => if r = 0 then rconByte i else 0

/-- Word `i` of the expanded key. -/
noncomputable def keyWord (key : Fin 16 → BitVec 8) (i : Nat) : Word :=
  if first : i < 4 then fun r => key ⟨4 * i + r, by omega⟩
  else
    let temp := keyWord key (i - 1)
    let temp := if i % 4 = 0 then fun r => subWord (rotWord temp) r ^^^ rcon (i / 4) r else temp
    fun r => keyWord key (i - 4) r ^^^ temp r
termination_by i

/-! ## The cipher -/

/-- `s r c` is the byte in row `r` and column `c`. -/
abbrev State := Fin 4 → Fin 4 → BitVec 8

noncomputable def subBytes (s : State) : State := fun r c => sBox (s r c)

/-- Row `r` is moved `r` places to the left. -/
def shiftRows (s : State) : State := fun r c => s r (c + r)

/-- A column as a polynomial over the field. -/
noncomputable def columnPoly (a : Word) : GF256[X] := ∑ r : Fin 4, C (element (a r)) * X ^ r.val

/-- `3x^3 + x^2 + x + 2` -/
noncomputable def mixPoly : GF256[X] := columnPoly ![0x02, 0x01, 0x01, 0x03]

/-- The product with `3x^3 + x^2 + x + 2` modulo `x^4 + 1`. -/
noncomputable def mixColumn (a : Word) : Word :=
  fun r => element.symm ((mixPoly * columnPoly a %ₘ (X ^ 4 + 1)).coeff r)

noncomputable def mixColumns (s : State) : State := fun r c => mixColumn (fun r => s r c) r

/-- Column `c` is added to word `4 * round + c` of the expanded key. -/
noncomputable def addRoundKey (key : Fin 16 → BitVec 8) (round : Nat) (s : State) : State :=
  fun r c => s r c ^^^ keyWord key (4 * round + c) r

/-- The state after `round` full rounds. -/
noncomputable def rounds (key : Fin 16 → BitVec 8) (s : State) : Nat → State
  | 0 => addRoundKey key 0 s
  | round + 1 => addRoundKey key (round + 1) (mixColumns (shiftRows (subBytes (rounds key s round))))

/-- The bytes of a block fill the state column by column. -/
def stateOf (block : Fin 16 → BitVec 8) : State := fun r c => block ⟨r + 4 * c, by omega⟩

theorem row_lt (n : Fin 16) : n.val % 4 < 4 := Nat.mod_lt n.val (by decide)

theorem column_lt (n : Fin 16) : n.val / 4 < 4 := by omega

def blockOf (s : State) : Fin 16 → BitVec 8 :=
  fun n => s ⟨n % 4, row_lt n⟩ ⟨n / 4, column_lt n⟩

/-- **AES-128.**  Nine full rounds and one without MixColumns. -/
noncomputable def cipher (key block : Fin 16 → BitVec 8) : Fin 16 → BitVec 8 :=
  blockOf (addRoundKey key 10 (shiftRows (subBytes (rounds key (stateOf block) 9))))

/-! ## The field, computed -/

/-- The product in the field. -/
def gfMul (x y : BitVec 8) : BitVec 8 := mulMod 0x1b x y

theorem element_gfMul (x y : BitVec 8) : element (gfMul x y) = element x * element y :=
  residue_mulMod fieldPolynomial_shape x y

theorem element_xor (x y : BitVec 8) : element (x ^^^ y) = element x + element y :=
  residue_xor fieldPolynomial_shape x y

theorem element_one : element 1 = 1 := by
  have unit : toPoly (1 : BitVec 8) = 1 := by
    ext n
    rw [coeff_toPoly, coeff_one]
    by_cases zero : n = 0
    · simp [zero]
    · simp [zero]
  rw [element, residue_apply, unit, map_one]

/-- A byte with product 1 is the inverse. -/
theorem sBox_of_product {x y : BitVec 8} (product : gfMul x y = 1) : sBox x = affine y := by
  have one : element x * element y = 1 := by rw [← element_gfMul, product, element_one]
  have unit : IsUnit (element x) := IsUnit.of_mul_eq_one _ one
  have inverse : Ring.inverse (element x) = element y := by
    rw [← Ring.inverse_mul_cancel_left _ (element y) unit, one, mul_one]
  rw [sBox, inverse, Equiv.symm_apply_apply]

theorem sBox_zero : sBox 0 = 0x63 := by
  have zero : element 0 = 0 := residue_zero fieldPolynomial_shape
  rw [sBox, zero, Ring.inverse_zero, ← zero, Equiv.symm_apply_apply]
  decide

/-- `x ^ n` -/
def xPower (n : Nat) : BitVec 8 := (timesX 0x1b)^[n] 1

theorem element_xPower (n : Nat) : element (xPower n) = AdjoinRoot.root fieldPolynomial ^ n := by
  induction n with
  | zero => rw [pow_zero]; exact element_one
  | succ n ih =>
      rw [xPower, Function.iterate_succ_apply', pow_succ', ← ih]
      exact residue_timesX fieldPolynomial_shape (xPower n)

theorem rconByte_eq (i : Nat) : rconByte i = xPower (i - 1) := by
  rw [rconByte, ← element_xPower, Equiv.symm_apply_apply]

/-! ## Columns, computed -/

/-- Twice a byte, in the field. -/
def xtime (x : BitVec 8) : BitVec 8 := timesX 0x1b x

theorem element_xtime (x : BitVec 8) : element (xtime x) = element 0x02 * element x := by
  have root : element 0x02 = AdjoinRoot.root fieldPolynomial := by
    have two : xPower 1 = 0x02 := by decide
    rw [← pow_one (AdjoinRoot.root _), ← element_xPower, two]
  rw [root]
  exact residue_timesX fieldPolynomial_shape x

/-- Byte `r` of the product with `3x^3 + x^2 + x + 2` modulo `x^4 + 1`. -/
def mixBytes (a : Word) : Word :=
  fun r => xtime (a r) ^^^ (xtime (a (r + 1)) ^^^ a (r + 1)) ^^^ a (r + 2) ^^^ a (r + 3)

theorem two_eq_zero : (2 : GF256) = 0 := by
  have double : element (1 ^^^ 1) = 1 + 1 := by rw [element_xor, element_one]
  have none : element (1 ^^^ 1) = 0 := residue_zero fieldPolynomial_shape
  rw [← one_add_one_eq_two, ← double, none]

theorem nontrivial_gf256 : Nontrivial GF256 := by
  refine ⟨element 0, element 1, fun same => ?_⟩
  exact absurd (element.injective same) (by decide)

/-- Multiplication modulo `x^4 + 1` wraps the powers around. -/
theorem mul_modByMonic (a s : Fin 4 → GF256) :
    (∑ i : Fin 4, C (a i) * X ^ i.val) * (∑ j : Fin 4, C (s j) * X ^ j.val) %ₘ (X ^ 4 + 1) =
      ∑ k : Fin 4, C (∑ j : Fin 4, a (k - j) * s j) * X ^ k.val := by
  have := nontrivial_gf256
  have monic : (X ^ 4 + 1 : GF256[X]).Monic := monic_X_pow_add_C 1 (by decide)
  have degree : (X ^ 4 + 1 : GF256[X]).degree = 4 := degree_X_pow_add_C (by decide) 1
  have double : (2 : GF256[X]) = 0 := by
    rw [← map_ofNat C 2, two_eq_zero, map_zero]
  -- the coefficients of x^4, x^5 and x^6
  let q : GF256[X] := (C (a 1) * C (s 3) + C (a 2) * C (s 2) + C (a 3) * C (s 1)) +
    (C (a 2) * C (s 3) + C (a 3) * C (s 2)) * X + C (a 3) * C (s 3) * X ^ 2
  refine (div_modByMonic_unique q _ monic ⟨?_, ?_⟩).2
  · have three : ((3 : Fin 4) : Nat) = 3 := rfl
    simp only [q, Fin.sum_univ_four, map_add, map_mul, Fin.isValue, Fin.reduceSub, Fin.val_zero,
      Fin.val_one, Fin.val_two, three, sub_zero, sub_self]
    linear_combination q * double
  · rw [degree]
    exact degree_sum_fin_lt _

theorem coeff_sum_fin (a : Fin 4 → GF256) (r : Fin 4) :
    (∑ k : Fin 4, C (a k) * X ^ k.val).coeff r = a r := by
  simp only [finsetSum_coeff, coeff_C_mul, coeff_X_pow, Fin.val_inj]
  rw [Finset.sum_eq_single r] <;> simp +contextual [eq_comm]

theorem mixColumn_eq (a : Word) : mixColumn a = mixBytes a := by
  funext r
  rw [mixColumn, mixPoly, columnPoly, columnPoly, mul_modByMonic, coeff_sum_fin, Equiv.symm_apply_eq,
    -- count the bytes of the column from byte `r` on
    ← Equiv.sum_comp (Equiv.addLeft r)]
  have one : element (![0x02, 0x01, 0x01, 0x03] (-2 : Fin 4)) = 1 := element_one
  have one' : element (![0x02, 0x01, 0x01, 0x03] (-3 : Fin 4)) = 1 := element_one
  have two : element (![0x02, 0x01, 0x01, 0x03] (-0 : Fin 4)) = element 0x02 := rfl
  have three : element (![0x02, 0x01, 0x01, 0x03] (-1 : Fin 4)) = element 0x02 + 1 := by
    rw [← element_one, ← element_xor]
    rfl
  simp only [Equiv.coe_addLeft, sub_add_cancel_left, Fin.sum_univ_four, one, one', two, three,
    one_mul, add_zero, add_mul, mixBytes, element_xor, element_xtime]

end HyperSmile.Crypto.Fips197
