/-
# Theory.EulerLiars — at most half of the bases lie

A base `a` is a liar for `n` if its symbol is not 0 and Euler's criterion holds for it:
`a ^ (n / 2)` is the Jacobi symbol of `a`, modulo `n`. For a prime every base that it does not
divide is one. The residues of the liars are where two homomorphisms agree, so they are a subgroup
of the units; for an odd `n` that is not prime it is not all of them (`exists_not_mem`), so at most
half of the units are in it.

The unit outside depends on `n`. If the square of a prime `p` divides it, `1 + n / p` has symbol 1
and a power that is not 1. Else `n` is `p m` with a common divisor of 1, and a number that is no
square modulo `p` and is 1 modulo `m` has symbol -1 and a power that is 1 modulo `m`.
-/
import Mathlib.NumberTheory.LegendreSymbol.JacobiSymbol
import Mathlib.GroupTheory.Index
import Mathlib.Algebra.Group.Subgroup.Ker

namespace HyperSmile.Theory.EulerLiars

set_option autoImplicit false

/-- Euler's criterion holds for `a` modulo `n`, and they have no common divisor. -/
def Liar (n a : ℕ) : Prop := jacobiSym a n ≠ 0 ∧ (a : ZMod n) ^ (n / 2) = (jacobiSym a n : ℤ)

/-- For a prime, Euler's criterion. -/
theorem liar_of_prime {p a : ℕ} (prime : p.Prime) (positive : 0 < a) (below : a < p) : Liar p a := by
  have fact : Fact p.Prime := ⟨prime⟩
  rw [Liar, ← jacobiSym.legendreSym.to_jacobiSym]
  constructor
  · rw [Ne, legendreSym.eq_zero_iff, Int.cast_natCast, ZMod.natCast_eq_zero_iff]
    exact Nat.not_dvd_of_pos_of_lt positive below
  · rw [legendreSym.eq_pow, Int.cast_natCast]

/-- A number with a symbol is a unit. -/
theorem coprime_of_symbol {n a : ℕ} [NeZero n] (symbol : jacobiSym a n ≠ 0) : a.Coprime n := by
  by_contra common
  apply symbol
  rw [jacobiSym.eq_zero_iff_not_coprime, Int.gcd_natCast_natCast]
  exact common

/-! ## The subgroup -/

/-- The symbol depends on the residue. -/
theorem jacobiSym_val (n a : ℕ) : jacobiSym (a : ZMod n).val n = jacobiSym a n := by
  rw [ZMod.val_natCast, Int.natCast_mod, ← jacobiSym.mod_left]

section Subgroup

variable (n : ℕ)

theorem jacobiSym_val_mul (x y : ZMod n) :
    jacobiSym (x * y).val n = jacobiSym x.val n * jacobiSym y.val n := by
  rw [ZMod.val_mul, Int.natCast_mod, ← jacobiSym.mod_left, Nat.cast_mul, jacobiSym.mul_left]

/-- The symbol of a unit, modulo `n`. -/
def symbolHom : (ZMod n)ˣ →* ZMod n where
  toFun u := (jacobiSym (u : ZMod n).val n : ℤ)
  map_one' := by
    have one := jacobiSym_val n 1
    rw [Nat.cast_one, Nat.cast_one, jacobiSym.one_left] at one
    rw [Units.val_one, one, Int.cast_one]
  map_mul' u v := by
    rw [Units.val_mul, jacobiSym_val_mul, Int.cast_mul]

def powerHom : (ZMod n)ˣ →* ZMod n where
  toFun u := (u : ZMod n) ^ (n / 2)
  map_one' := by rw [Units.val_one, one_pow]
  map_mul' u v := by rw [Units.val_mul, mul_pow]

/-- The units that are liars. -/
def liars : Subgroup (ZMod n)ˣ := (powerHom n).eqLocus (symbolHom n)

variable {n}

theorem unit_mem_liars_iff {a : ℕ} (coprime : a.Coprime n) :
    ZMod.unitOfCoprime a coprime ∈ liars n ↔ (a : ZMod n) ^ (n / 2) = (jacobiSym a n : ℤ) := by
  rw [← jacobiSym_val n a, ← ZMod.coe_unitOfCoprime a coprime]
  rfl

end Subgroup

/-! ## A unit outside -/

section Outside

variable {n : ℕ}

theorem one_add_pow {R : Type} [CommRing R] {x : R} (nilpotent : x * x = 0) (k : ℕ) :
    (1 + x) ^ k = 1 + k * x := by
  induction k with
  | zero => simp
  | succ k ih =>
      rw [pow_succ, ih, Nat.cast_succ]
      linear_combination (k : R) * nilpotent

/-- A prime whose square divides `n`: the symbol is 1, the power is not. -/
theorem not_liar_of_square {p m : ℕ} (prime : p.Prime) (square : p ∣ m) (positive : 0 < m)
    (odd : (p * m) % 2 = 1) :
    jacobiSym (1 + m : ℕ) (p * m) = 1 ∧ ((1 + m : ℕ) : ZMod (p * m)) ^ (p * m / 2) ≠ 1 := by
  have residue {d : ℕ} (divides : d ∣ m) : jacobiSym (1 + m : ℕ) d = 1 := by
    obtain ⟨c, rfl⟩ := divides
    rw [jacobiSym.mod_left, ← Int.natCast_mod, Nat.add_mul_mod_self_left, Int.natCast_mod,
      ← jacobiSym.mod_left, Nat.cast_one, jacobiSym.one_left]
  constructor
  · rw [jacobiSym.mul_right' _ prime.ne_zero positive.ne', residue square, residue dvd_rfl, one_mul]
  · intro one
    have nilpotent : (m : ZMod (p * m)) * m = 0 := by
      rw [← Nat.cast_mul, ZMod.natCast_eq_zero_iff]
      exact Nat.mul_dvd_mul_right square m
    rw [Nat.cast_add, Nat.cast_one, one_add_pow nilpotent, add_eq_left, ← Nat.cast_mul,
      ZMod.natCast_eq_zero_iff] at one
    -- p divides the exponent, so it divides p m - 1
    have exponent : p ∣ p * m / 2 := Nat.dvd_of_mul_dvd_mul_right positive one
    have whole : p * m = 2 * (p * m / 2) + 1 := by omega
    have sum : p ∣ 2 * (p * m / 2) + 1 := by
      rw [← whole]
      exact Nat.dvd_mul_right p m
    have last : p ∣ 1 := (Nat.dvd_add_right (Dvd.dvd.mul_left exponent 2)).mp sum
    exact prime.one_lt.ne' (Nat.dvd_one.mp last)

/-- Two factors without common divisor: the symbol is -1, the power is 1 modulo one of them. -/
theorem not_liar_of_coprime {p m : ℕ} (prime : p.Prime) (coprime : p.Coprime m) (large : 1 < m)
    (odd : (p * m) % 2 = 1) :
    ∃ a : ℕ, jacobiSym a (p * m) = -1 ∧ (a : ZMod (p * m)) ^ (p * m / 2) ≠ -1 := by
  have fact : Fact p.Prime := ⟨prime⟩
  have oddP : p % 2 = 1 := Nat.odd_iff.mp (Nat.odd_mul.mp (Nat.odd_iff.mpr odd)).1
  have oddM : m % 2 = 1 := Nat.odd_iff.mp (Nat.odd_mul.mp (Nat.odd_iff.mpr odd)).2
  obtain ⟨c, nonresidue⟩ := quadraticChar_exists_neg_one (F := ZMod p) (by
    rw [ZMod.ringChar_zmod_n]
    omega)
  obtain ⟨a, atP, atM⟩ := Nat.chineseRemainder coprime c.val 1
  have castP : (a : ZMod p) = c := by
    rw [(ZMod.natCast_eq_natCast_iff _ _ _).mpr atP, ZMod.natCast_zmod_val]
  have castM : (a : ZMod m) = 1 := by
    rw [(ZMod.natCast_eq_natCast_iff _ _ _).mpr atM, Nat.cast_one]
  refine ⟨a, ?_, ?_⟩
  · have symbolP : jacobiSym a p = -1 := by
      rw [← jacobiSym.legendreSym.to_jacobiSym, legendreSym, Int.cast_natCast, castP, nonresidue]
    have symbolM : jacobiSym a m = 1 := by
      rw [← jacobiSym_val, castM, ← Nat.cast_one, jacobiSym_val, Nat.cast_one, jacobiSym.one_left]
    rw [jacobiSym.mul_right' _ prime.ne_zero (by omega), symbolP, symbolM, mul_one]
  · intro power
    have image := congrArg (ZMod.castHom (Nat.dvd_mul_left m p) (ZMod m)) power
    rw [map_pow, map_natCast, castM, one_pow, map_neg, map_one] at image
    have two : ((2 : ℕ) : ZMod m) = 0 := by
      push_cast
      linear_combination image
    rw [ZMod.natCast_eq_zero_iff] at two
    have := Nat.le_of_dvd (by decide) two
    obtain rfl : m = 2 := by omega
    omega

/-- **Some unit is no liar.** -/
theorem exists_not_mem (large : 1 < n) (odd : n % 2 = 1) (composite : ¬ n.Prime) :
    ∃ u : (ZMod n)ˣ, u ∉ liars n := by
  have nonzero : NeZero n := ⟨by omega⟩
  obtain ⟨p, prime, m, rfl⟩ := Nat.exists_prime_and_dvd (by omega : n ≠ 1)
  have positive : 0 < m := by
    rcases Nat.eq_zero_or_pos m with rfl | positive
    · omega
    · exact positive
  by_cases square : p ∣ m
  · obtain ⟨symbol, power⟩ := not_liar_of_square prime square positive odd
    have coprime := coprime_of_symbol (a := 1 + m) (by rw [symbol]; decide)
    refine ⟨ZMod.unitOfCoprime _ coprime, ?_⟩
    rw [unit_mem_liars_iff, symbol, Int.cast_one]
    exact power
  · have other : 1 < m := by
      by_contra small
      obtain rfl : m = 1 := by omega
      exact composite (by rwa [mul_one])
    have apart : p.Coprime m := (Nat.Prime.coprime_iff_not_dvd prime).mpr square
    obtain ⟨a, symbol, power⟩ := not_liar_of_coprime prime apart other odd
    have coprime := coprime_of_symbol (a := a) (by rw [symbol]; decide)
    refine ⟨ZMod.unitOfCoprime _ coprime, ?_⟩
    rw [unit_mem_liars_iff, symbol, Int.cast_neg, Int.cast_one]
    exact power

end Outside

/-! ## The bound -/

section Bound

variable {n : ℕ}

theorem card_liars_le (large : 1 < n) (odd : n % 2 = 1) (composite : ¬ n.Prime) :
    2 * Nat.card (liars n) ≤ n - 1 := by
  have nonzero : NeZero n := ⟨by omega⟩
  obtain ⟨u, outside⟩ := exists_not_mem large odd composite
  have proper : liars n ≠ ⊤ := by
    intro all
    exact outside (all ▸ Subgroup.mem_top u)
  have index : 1 < (liars n).index := Subgroup.one_lt_index_of_ne_top proper
  have units : Nat.card (ZMod n)ˣ ≤ n - 1 := by
    rw [Nat.card_eq_fintype_card, ZMod.card_units_eq_totient]
    have := Nat.totient_lt n large
    omega
  calc 2 * Nat.card (liars n)
    _ = Nat.card (liars n) * 2 := Nat.mul_comm _ _
    _ ≤ Nat.card (liars n) * (liars n).index := Nat.mul_le_mul_left _ index
    _ = Nat.card (ZMod n)ˣ := (liars n).card_mul_index
    _ ≤ n - 1 := units

/-- **At most half of the numbers below `n` lie for it**, if it is odd and not prime. -/
theorem liars_le_half (large : 1 < n) (odd : n % 2 = 1) (composite : ¬ n.Prime) {bases : Finset ℕ}
    (below : ∀ a ∈ bases, a < n) (lie : ∀ a ∈ bases, Liar n a) : bases.card ≤ (n - 1) / 2 := by
  classical
  have nonzero : NeZero n := ⟨by omega⟩
  have covered : bases ⊆ (Finset.univ : Finset (liars n)).image (fun u => (u.1 : ZMod n).val) := by
    intro a mem
    obtain ⟨symbol, criterion⟩ := lie a mem
    have coprime := coprime_of_symbol symbol
    rw [Finset.mem_image]
    refine ⟨⟨ZMod.unitOfCoprime a coprime, (unit_mem_liars_iff coprime).mpr criterion⟩,
      Finset.mem_univ _, ?_⟩
    rw [ZMod.coe_unitOfCoprime, ZMod.val_natCast_of_lt (below a mem)]
  have count : bases.card ≤ Nat.card (liars n) := by
    rw [Nat.card_eq_fintype_card]
    exact (Finset.card_le_card covered).trans Finset.card_image_le
  have half := card_liars_le large odd composite
  omega

end Bound

end HyperSmile.Theory.EulerLiars
