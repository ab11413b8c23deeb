/-
# Crypto.Jacobi — jacobi of rsa.h

The loop keeps the pair `(a, n)` and a sign: the symbol of the original pair is the sign times the
symbol of the current one. A turn reduces `a`, takes out its twos by the residue of `n` modulo 8,
and swaps the two by quadratic reciprocity; the second number falls with every swap, which bounds
the turns. The three exits are the pairs whose symbol is known (`jacobi_eq`).
-/
import HyperSmile.Crypto.RsaArith
import Mathlib.NumberTheory.LegendreSymbol.JacobiSymbol

namespace HyperSmile.Crypto.Rsa

open HyperSmile.Theory.CInt

set_option autoImplicit false

/-! ## The twos of a number -/

/-- `factorTwos` takes the twos out of a positive number and counts them. -/
theorem factorTwos_spec {turns a twos : ℕ} (positive : 0 < a) (fits : a + twos < 2147483648)
    (enough : a ≤ turns) :
    ∃ k b : ℕ, factorTwos turns a twos = .ok ((b : ℤ), ((twos + k : ℕ) : ℤ)) ∧ a = 2 ^ k * b ∧ b % 2 = 1 := by
  induction turns generalizing a twos with
  | zero => omega
  | succ turns ih =>
      have low : CType.int.rem a 2 = .ok ((a % 2 : ℕ) : ℤ) :=
        CType.int_rem (by decide) (by omega)
      rw [factorTwos, low, ok_bind]
      rcases Nat.mod_two_eq_zero_or_one a with even | odd
      · have half : CType.int.quot a 2 = .ok ((a / 2 : ℕ) : ℤ) :=
          CType.int_quot (by decide) (by omega)
        have count : CType.int.add (twos : ℤ) 1 = .ok ((twos + 1 : ℕ) : ℤ) :=
          CType.int_add (y := 1) (by omega)
        obtain ⟨k, b, ran, product, odd⟩ := ih (by omega : 0 < a / 2)
          (by omega : a / 2 + (twos + 1) < 2147483648) (by omega)
        refine ⟨k + 1, b, ?_, ?_, odd⟩
        · rw [if_pos (by omega), count, ok_bind, half, ok_bind, ran, Nat.add_assoc, Nat.add_comm 1]
        · rw [pow_succ, mul_right_comm, ← product]
          omega
      · refine ⟨0, a, ?_, by rw [pow_zero, one_mul], odd⟩
        rw [if_neg (by omega)]
        rfl

/-! ## The sign -/

/-- The symbol of two. -/
theorem jacobiSym_two {n : ℕ} (odd : n % 2 = 1) :
    jacobiSym 2 n = (if (n : ℤ).tmod 8 = 1 ∨ (n : ℤ).tmod 8 = 7 then 1 else 0) * 2 - 1 := by
  have residue : (n : ℤ).tmod 8 = (n % 8 : ℕ) := rfl
  rw [jacobiSym.at_two (Nat.odd_iff.mpr odd), ZMod.χ₈_nat_eq_if_mod_eight, if_neg (by omega), residue]
  by_cases near : n % 8 = 1 ∨ n % 8 = 7
  · rw [if_pos near, if_pos (by omega)]
    rfl
  · rw [if_neg near, if_neg (by omega)]
    rfl

/-- Only the parity of the twos counts. -/
theorem sign_of_twos {mult : ℤ} (sign : mult = 1 ∨ mult = -1) {n : ℕ} (odd : n % 2 = 1) (k : ℕ) :
    ∃ mult', (∀ next : ℤ → C (ℤ × ℤ), (if 0 < (k : ℤ) ∧ (k : ℤ).tmod 2 = 1 then
        CType.int.mul mult ((if (n : ℤ).tmod 8 = 1 ∨ (n : ℤ).tmod 8 = 7 then 1 else 0) * 2 - 1) >>= next
        else pure mult >>= next) = next mult') ∧
      (mult' = 1 ∨ mult' = -1) ∧ mult' = mult * jacobiSym (2 ^ k) n := by
  have parity : (k : ℤ).tmod 2 = (k % 2 : ℕ) := rfl
  have two : jacobiSym 2 n = 1 ∨ jacobiSym 2 n = -1 := by
    rw [jacobiSym_two odd]
    split
    · exact Or.inl rfl
    · exact Or.inr rfl
  rw [← jacobiSym_two odd, parity, jacobiSym.pow_left]
  rcases Nat.even_or_odd' k with ⟨m, rfl | rfl⟩
  · have square : jacobiSym 2 n ^ (2 * m) = 1 := by
      rcases two with two | two <;> rw [two] <;> simp
    refine ⟨mult, fun next => ?_, sign, by rw [square, mul_one]⟩
    rw [if_neg (by omega), pure_eq_ok, ok_bind]
  · have power : jacobiSym 2 n ^ (2 * m + 1) = jacobiSym 2 n := by
      rcases two with two | two <;> rw [two] <;> simp [pow_succ]
    have unit : mult * jacobiSym 2 n = 1 ∨ mult * jacobiSym 2 n = -1 := by
      rcases sign with rfl | rfl <;> rcases two with two | two <;> rw [two] <;> decide
    have product : CType.int.mul mult (jacobiSym 2 n) = .ok (mult * jacobiSym 2 n) :=
      CType.check_ok (by rcases unit with unit | unit <;> rw [unit] <;> decide)
    refine ⟨mult * jacobiSym 2 n, fun next => ?_, unit, by rw [power]⟩
    rw [if_pos (by omega), product, ok_bind]

/-- The coefficient for flipping. -/
theorem sign_of_flip {mult : ℤ} (sign : mult = 1 ∨ mult = -1) {n b : ℕ} (odd : n % 2 = 1) (odd' : b % 2 = 1) :
    ∃ mult', (∀ next : ℤ → C (ℤ × ℤ), (if (n : ℤ).tmod 4 ≠ 1 ∧ (b : ℤ).tmod 4 ≠ 1 then
        CType.int.mul mult (-1) >>= next else pure mult >>= next) = next mult') ∧
      (mult' = 1 ∨ mult' = -1) ∧ mult * jacobiSym b n = mult' * jacobiSym n b := by
  have residue : (n : ℤ).tmod 4 = (n % 4 : ℕ) := rfl
  have residue' : (b : ℤ).tmod 4 = (b % 4 : ℕ) := rfl
  have reciprocity := jacobiSym.quadratic_reciprocity_if odd' odd
  rw [residue, residue', ← reciprocity]
  by_cases both : b % 4 = 3 ∧ n % 4 = 3
  · have product : CType.int.mul mult (-1) = .ok (mult * -1) :=
      CType.check_ok (by rcases sign with rfl | rfl <;> decide)
    refine ⟨mult * -1, fun next => ?_, by rcases sign with rfl | rfl <;> decide, ?_⟩
    · rw [if_pos (by omega), product, ok_bind]
    · rw [if_pos both]
      ring
  · refine ⟨mult, fun next => ?_, sign, by rw [if_neg both]⟩
    rw [if_neg (by omega), pure_eq_ok, ok_bind]

/-! ## The loop -/

/-- What `jacobi` returns from the `a` and the `mult` that the loop leaves. -/
def symbolOf (a mult : ℤ) : ℤ := if a = 0 then 0 else if a = 1 then mult else 0

/-- The exits: the pairs at which the loop stops. -/
theorem symbolOf_exit {a n : ℕ} (large : 1 < n) (exit : a ≤ 1 ∨ a = n) (mult : ℤ) :
    symbolOf a mult = mult * jacobiSym a n := by
  rcases exit with small | rfl
  · have bit : a = 0 ∨ a = 1 := by omega
    rcases bit with rfl | rfl
    · rw [Nat.cast_zero, jacobiSym.zero_left large, mul_zero]
      rfl
    · rw [Nat.cast_one, jacobiSym.one_left, mul_one]
      rfl
  · have nonzero : NeZero a := ⟨by omega⟩
    have common : jacobiSym a a = 0 := by
      rw [jacobiSym.eq_zero_iff_not_coprime, Int.gcd_natCast_natCast, Nat.gcd_self]
      omega
    rw [common, mul_zero, symbolOf, if_neg (by omega), if_neg (by omega)]

/-- **The loop keeps the symbol.** -/
theorem jacobiLoop_spec {turns a n : ℕ} {mult : ℤ} (sign : mult = 1 ∨ mult = -1) (odd : n % 2 = 1)
    (large : 1 < n) (small : n < 2147483648) (small' : a < 2147483648) (enough : n < turns) :
    ∃ a' mult', jacobiLoop turns a n mult = .ok (a', mult') ∧
      symbolOf a' mult' = mult * jacobiSym a n := by
  induction turns generalizing a n mult with
  | zero => cases enough
  | succ turns ih =>
      rw [jacobiLoop]
      by_cases goesOn : 1 < a ∧ a ≠ n
      · have reduced : CType.int.rem a n = .ok ((a % n : ℕ) : ℤ) :=
          CType.int_rem (by omega) (by omega)
        have below : a % n < n := Nat.mod_lt a (by omega)
        have same : jacobiSym a n = jacobiSym (a % n : ℕ) n := by
          rw [jacobiSym.mod_left, ← Int.natCast_mod]
        rw [if_pos (by omega), reduced, ok_bind, same]
        by_cases exit : a % n ≤ 1
        · rw [if_pos (by omega)]
          exact ⟨_, _, rfl, symbolOf_exit large (Or.inl exit) mult⟩
        · obtain ⟨k, b, factored, product, oddB⟩ := factorTwos_spec (by omega : 0 < a % n)
            (by omega : a % n + 0 < 2147483648) (by omega : a % n ≤ turns + 1)
          obtain ⟨mult₁, ran₁, sign₁, value₁⟩ := sign_of_twos sign odd k
          have whole : mult * jacobiSym (a % n : ℕ) n = mult₁ * jacobiSym b n := by
            rw [product, Nat.cast_mul, jacobiSym.mul_left, ← mul_assoc, value₁, Nat.cast_pow]
            rfl
          have smaller : b ≤ a % n := by
            rw [product]
            exact Nat.le_mul_of_pos_left b (by positivity)
          rw [Nat.zero_add, Nat.cast_zero] at factored
          rw [if_neg (by omega), factored, ok_bind, whole]
          dsimp only
          rw [ran₁]
          by_cases one : b ≤ 1
          · rw [if_pos (by omega)]
            exact ⟨_, _, rfl, symbolOf_exit large (Or.inl one) mult₁⟩
          · obtain ⟨mult₂, ran₂, sign₂, value₂⟩ := sign_of_flip sign₁ odd oddB
            rw [if_neg (by omega), ran₂, value₂]
            exact ih sign₂ oddB (by omega) (by omega) small (by omega)
      · rw [if_neg (by omega)]
        exact ⟨_, _, rfl, symbolOf_exit large (by omega) mult⟩

/-- What the loop leaves, read off as `jacobi` does. -/
theorem jacobi_value {a n turns : ℕ} (odd : n % 2 = 1) (large : 3 ≤ n) (small : n < 2147483648)
    (small' : a < 2147483648) (enough : n < turns) : jacobi turns a n = .ok (jacobiSym a n) := by
  obtain ⟨a', mult, ran, value⟩ := jacobiLoop_spec (Or.inl rfl) odd (by omega) small small' enough
  rw [one_mul, symbolOf] at value
  rw [jacobi, ran, ok_bind, ← value]
  rfl

/-- **`jacobi` computes the Jacobi symbol**, in as many turns as the second number bounds. -/
theorem jacobi_eq {a n turns : ℕ} (odd : n % 2 = 1) (large : 3 ≤ n) (small : n < 2147483648)
    (small' : a < 2147483648) (enough : n < turns) :
    jacobi turns a n = .ok (jacobiSym a n) ∧
      (jacobiSym a n = 0 ∨ jacobiSym a n = 1 ∨ jacobiSym a n = -1) :=
  ⟨jacobi_value odd large small small' enough, jacobiSym.trichotomy a n⟩

namespace Example

/-- (2/15) is 1, though 2 is no square modulo 15. -/
theorem two_fifteen : jacobi 16 2 15 = .ok (jacobiSym 2 15) :=
  (jacobi_eq (a := 2) (n := 15) (by decide) (by decide) (by decide) (by decide) (by decide)).1

end Example

end HyperSmile.Crypto.Rsa
