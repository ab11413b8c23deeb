/-
# Theory.ReflectedProduct — products of reversed vectors, and their remainder

Software that keeps the coefficients of a polynomial in the other order multiplies the vectors as
they are: the product of the reversed vectors is the product of the vectors, reversed, and one bit
off (`coeff_reverse_mul`).

The remainder modulo `X ^ w` plus a few low powers needs no division. What a shift drops comes back
as the same shift the other way (`toPoly_shiftLeft_add`), so the upper half is folded onto itself
once (`spill`), and its shifts by the powers are added to the lower half (`toPoly_fold`).
-/
import HyperSmile.Theory.BinaryPolynomial
import Mathlib.Algebra.Polynomial.Reverse

namespace HyperSmile.Theory.ReflectedProduct

open Polynomial
open HyperSmile.Theory.BinaryPolynomial

set_option autoImplicit false

variable {w : Nat}

/-! ## Parts and shifts -/

/-- A vector in two parts. -/
theorem toPoly_halves {v u : Nat} (whole : w = v + u) (x : BitVec w) :
    toPoly x = toPoly (x.extractLsb' 0 v) + X ^ v * toPoly (x.extractLsb' v u) := by
  ext n
  rw [coeff_add, coeff_X_pow_mul', coeff_toPoly, coeff_toPoly, coeff_toPoly, BitVec.getLsbD_extractLsb',
    BitVec.getLsbD_extractLsb', Nat.zero_add]
  by_cases low : n < v
  · rw [if_neg (by omega : ¬ v ≤ n), decide_eq_true low, Bool.true_and, add_zero]
  · rw [if_pos (by omega : v ≤ n), decide_eq_false low, Bool.false_and, Nat.add_sub_cancel' (by omega)]
    by_cases inside : n - v < u
    · rw [decide_eq_true inside, Bool.true_and, if_neg Bool.false_ne_true, zero_add]
    · rw [decide_eq_false inside, BitVec.getLsbD_of_ge x n (by omega)]
      simp

/-- What a shift drops. -/
theorem toPoly_shiftLeft_add (x : BitVec w) {k : Nat} (inside : k ≤ w) :
    toPoly (x <<< k) + X ^ w * toPoly (x >>> (w - k)) = X ^ k * toPoly x := by
  ext n
  rw [coeff_add, coeff_X_pow_mul', coeff_X_pow_mul', coeff_toPoly, coeff_toPoly, coeff_toPoly,
    BitVec.getLsbD_shiftLeft, BitVec.getLsbD_ushiftRight]
  by_cases low : n < w
  · rw [if_neg (by omega : ¬ w ≤ n), add_zero, decide_eq_true low, Bool.true_and]
    by_cases shifted : n < k
    · rw [if_neg (by omega : ¬ k ≤ n), decide_eq_true shifted]
      rfl
    · rw [if_pos (by omega : k ≤ n), decide_eq_false shifted]
      rfl
  · have place : w - k + (n - w) = n - k := by omega
    rw [if_pos (by omega : w ≤ n), if_pos (by omega : k ≤ n), decide_eq_false low, place]
    simp

/-! ## Reversed vectors -/

theorem reverse_xor (x y : BitVec w) : (x ^^^ y).reverse = x.reverse ^^^ y.reverse := by
  refine BitVec.eq_of_getLsbD_eq fun i inside => ?_
  simp only [BitVec.getLsbD_reverse, BitVec.getLsbD_xor, BitVec.getMsbD_xor]

theorem reverse_ushiftRight (x : BitVec w) (k : Nat) : (x >>> k).reverse = x.reverse <<< k := by
  refine BitVec.eq_of_getLsbD_eq fun i inside => ?_
  rw [BitVec.getLsbD_reverse, BitVec.getMsbD_ushiftRight, BitVec.getLsbD_shiftLeft, BitVec.getLsbD_reverse]
  by_cases first : i < k <;> simp [inside, first]

theorem reverse_shiftLeft (x : BitVec w) (k : Nat) : (x <<< k).reverse = x.reverse >>> k := by
  have back := reverse_ushiftRight x.reverse k
  rw [BitVec.reverse_reverse_eq] at back
  rw [← back, BitVec.reverse_reverse_eq]

/-! ## Products of reversed vectors -/

theorem toPoly_reverse (positive : 0 < w) (x : BitVec w) : toPoly x.reverse = (toPoly x).reflect (w - 1) := by
  ext n
  rw [coeff_toPoly, coeff_reflect, coeff_toPoly, BitVec.getLsbD_reverse, BitVec.getMsbD_eq_getLsbD]
  by_cases inside : n ≤ w - 1
  · rw [revAt_le inside, decide_eq_true (by omega : n < w), Bool.true_and]
  · rw [revAt_eq_self_of_lt (by omega), decide_eq_false (by omega : ¬ n < w), Bool.false_and,
      BitVec.getLsbD_of_ge x n (by omega)]

theorem natDegree_toPoly_le (x : BitVec w) : (toPoly x).natDegree ≤ w - 1 := by
  rw [natDegree_le_iff_coeff_eq_zero]
  intro n above
  rw [coeff_toPoly, BitVec.getLsbD_of_ge x n (by omega)]
  rfl

/-- **The product of the reversed vectors is the reversed product.** -/
theorem coeff_reverse_mul (positive : 0 < w) (a b : BitVec w) (n : Nat) :
    (toPoly a.reverse * toPoly b.reverse).coeff n =
      if n + 2 ≤ w + w ∧ (clmul a b).getLsbD (w + w - 2 - n) then 1 else 0 := by
  have sum : w - 1 + (w - 1) = w + w - 2 := by omega
  rw [toPoly_reverse positive, toPoly_reverse positive,
    ← reflect_mul _ _ (natDegree_toPoly_le a) (natDegree_toPoly_le b), coeff_reflect, sum]
  by_cases inside : n ≤ w + w - 2
  · rw [revAt_le inside, ← toPoly_clmul, coeff_toPoly]
    have bound : n + 2 ≤ w + w := by omega
    simp only [bound, true_and]
  · rw [revAt_eq_self_of_lt (by omega), if_neg (by omega)]
    apply coeff_eq_zero_of_natDegree_lt
    have degree := natDegree_mul_le_of_le (natDegree_toPoly_le a) (natDegree_toPoly_le b)
    omega

/-- The two halves of a product, from the sum of their polynomials. -/
theorem bits_of_halves {lo hi : BitVec w} {p : BitVec (w + w)}
    (sum : toPoly lo + X ^ w * toPoly hi = toPoly p) :
    (∀ i < w, lo.getLsbD i = p.getLsbD i) ∧ ∀ i, hi.getLsbD i = p.getLsbD (w + i) := by
  have bit {x y : Bool} (same : (if x then 1 else 0 : ZMod 2) = if y then 1 else 0) : x = y := by
    revert same
    cases x <;> cases y <;> decide
  constructor
  · intro i inside
    have coeff := congrArg (fun q => q.coeff i) sum
    rw [coeff_add, coeff_X_pow_mul', if_neg (by omega), add_zero, coeff_toPoly, coeff_toPoly] at coeff
    exact bit coeff
  · intro i
    have coeff := congrArg (fun q => q.coeff (w + i)) sum
    rw [coeff_add, coeff_X_pow_mul', if_pos (by omega), Nat.add_sub_cancel_left, coeff_toPoly, coeff_toPoly,
      coeff_toPoly, BitVec.getLsbD_of_ge lo _ (by omega), if_neg Bool.false_ne_true, zero_add] at coeff
    exact bit coeff

/-! ## The remainder modulo a sparse polynomial -/

section Sparse

/-- The sum of some powers. -/
noncomputable def powers (ks : List Nat) : (ZMod 2)[X] := (ks.map (X ^ ·)).sum

/-- The sum of the shifts by them. -/
def shifts (ks : List Nat) (x : BitVec w) : BitVec w := ks.foldr (fun k sum => x <<< k ^^^ sum) 0#w

/-- What these shifts drop. -/
def spill (ks : List Nat) (x : BitVec w) : BitVec w := ks.foldr (fun k sum => x >>> (w - k) ^^^ sum) 0#w

theorem toPoly_shifts {ks : List Nat} (inside : ∀ k ∈ ks, k ≤ w) (x : BitVec w) :
    toPoly (shifts ks x) + X ^ w * toPoly (spill ks x) = powers ks * toPoly x := by
  induction ks with
  | nil => simp [shifts, spill, powers]
  | cons k ks ih =>
      have head := toPoly_shiftLeft_add x (inside k List.mem_cons_self)
      have tail := ih fun k mem => inside k (List.mem_cons_of_mem _ mem)
      rw [shifts, spill, List.foldr_cons, List.foldr_cons, toPoly_xor, toPoly_xor, powers, List.map_cons,
        List.sum_cons]
      rw [shifts, spill, powers] at tail
      linear_combination head + tail

theorem spill_xor (ks : List Nat) (x y : BitVec w) : spill ks (x ^^^ y) = spill ks x ^^^ spill ks y := by
  induction ks with
  | nil => simp [spill]
  | cons k ks ih =>
      rw [spill, spill, spill] at ih
      rw [spill, spill, spill, List.foldr_cons, List.foldr_cons, List.foldr_cons, ih,
        BitVec.ushiftRight_xor_distrib]
      ac_rfl

/-- What is dropped is short. -/
theorem getLsbD_spill {ks : List Nat} {m : Nat} (low : ∀ k ∈ ks, k ≤ m) (x : BitVec w) (i : Nat)
    (above : m ≤ i) : (spill ks x).getLsbD i = false := by
  induction ks with
  | nil => simp [spill]
  | cons k ks ih =>
      have first := low k List.mem_cons_self
      have tail := ih fun k mem => low k (List.mem_cons_of_mem _ mem)
      rw [spill] at tail
      rw [spill, List.foldr_cons, BitVec.getLsbD_xor, tail, BitVec.getLsbD_ushiftRight,
        BitVec.getLsbD_of_ge x _ (by omega)]
      rfl

theorem spill_eq_zero {ks : List Nat} {m : Nat} (low : ∀ k ∈ ks, k ≤ m) {x : BitVec w}
    (short : ∀ i, w - m ≤ i → x.getLsbD i = false) : spill ks x = 0#w := by
  induction ks with
  | nil => rfl
  | cons k ks ih =>
      have first := low k List.mem_cons_self
      have tail := ih fun k mem => low k (List.mem_cons_of_mem _ mem)
      have gone : x >>> (w - k) = 0#w := by
        refine BitVec.eq_of_getLsbD_eq fun i _ => ?_
        rw [BitVec.getLsbD_ushiftRight, short _ (by omega), BitVec.getLsbD_zero]
      rw [spill] at tail
      rw [spill, List.foldr_cons, gone, tail, BitVec.xor_zero]

theorem degree_powers_lt {ks : List Nat} (inside : ∀ k ∈ ks, k < w) : (powers ks).degree < w := by
  induction ks with
  | nil =>
      rw [powers, List.map_nil, List.sum_nil, degree_zero]
      exact WithBot.bot_lt_coe w
  | cons k ks ih =>
      have tail := ih fun k mem => inside k (List.mem_cons_of_mem _ mem)
      rw [powers, List.map_cons, List.sum_cons]
      refine (degree_add_le _ _).trans_lt (max_lt ?_ tail)
      rw [degree_X_pow]
      exact_mod_cast inside k List.mem_cons_self

/-- **One fold, and the shifts, are the remainder.** -/
theorem toPoly_fold (ks : List Nat) (positive : 0 < w) (low : ∀ k ∈ ks, 2 * k ≤ w) (lo hi : BitVec w) :
    toPoly (lo ^^^ shifts ks (hi ^^^ spill ks hi)) =
      (toPoly lo + X ^ w * toPoly hi) %ₘ (X ^ w + powers ks) := by
  have below : ∀ k ∈ ks, k < w := by
    intro k mem
    have := low k mem
    omega
  have monic : (X ^ w + powers ks).Monic := monic_X_pow_add (degree_powers_lt below)
  have degree : (X ^ w + powers ks : (ZMod 2)[X]).degree = (w : WithBot Nat) := by
    rw [degree_add_eq_left_of_degree_lt] <;> rw [degree_X_pow]
    exact degree_powers_lt below
  have half : ∀ k ∈ ks, k ≤ w / 2 := by
    intro k mem
    have := low k mem
    omega
  -- folding once is enough: what the spilled bits spill is nothing
  have once : spill ks (hi ^^^ spill ks hi) = spill ks hi := by
    have gone : spill ks (spill ks hi) = 0#w :=
      spill_eq_zero half fun i above => getLsbD_spill half hi i (by omega)
    rw [spill_xor, gone, BitVec.xor_zero]
  have shift := toPoly_shifts (fun k mem => (below k mem).le) (hi ^^^ spill ks hi)
  rw [once] at shift
  refine (modByMonic_eq_of_dvd monic ⟨toPoly (hi ^^^ spill ks hi), ?_⟩ ?_).symm
  · rw [toPoly_xor] at shift ⊢
    rw [toPoly_xor]
    have two : (2 : (ZMod 2)[X]) = 0 := CharTwo.two_eq_zero
    linear_combination -shift - powers ks * (toPoly hi + toPoly (spill ks hi)) * two
  · rw [degree]
    exact degree_toPoly_lt _

end Sparse

end HyperSmile.Theory.ReflectedProduct
