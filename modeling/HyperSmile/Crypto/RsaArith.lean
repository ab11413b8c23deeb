/-
# Crypto.RsaArith — the arithmetic of rsa.h

`modpow` computes the power, and `inverse` the inverse, without overflow, for every argument
an `int` can hold (`modpow_eq`, `inverse_spec`). The base of `modpow` is below 2^31 from the start,
though not below the modulus, and the result is always reduced, so one turn multiplies in 62 bits
(`modpowLoop_step`). The coefficients of Euclid's algorithm
alternate in sign and never exceed the other operand; this is what keeps `x0 - q * x` inside
an `int`, and it is the invariant `Coefficients`.
-/
import HyperSmile.Crypto.Rsa
import Mathlib.Data.Int.GCD
import Mathlib.Tactic.Ring
import Mathlib.Tactic.LinearCombination

namespace HyperSmile.Crypto.Rsa

open HyperSmile.Theory.CInt
open HyperSmile.Theory.CInt.CType (toInt toInt_of_fits)

set_option autoImplicit false

/-! ## Powers -/

/-- One multiplication of `modpow`. -/
theorem mulmod_ok {x y c : ℕ} (positive : 0 < c) (small : x < 2147483648) (small' : y < 2147483648) :
    (do let product ← CType.longLong.mul x y; CType.longLong.rem product c) =
      (.ok ((x * y % c : ℕ) : ℤ) : C Int) := by
  have below : x * y < 2147483648 * 2147483648 := Nat.mul_lt_mul'' small small'
  have cast : (x : ℤ) * y = ((x * y : ℕ) : ℤ) := (Nat.cast_mul x y).symm
  have fits : CType.longLong.Fits ((x * y : ℕ) : ℤ) :=
    CType.fits_of_lt (b := 9223372036854775808) (le_refl _) (by omega) (by omega)
  have product : CType.longLong.mul x y = .ok ((x * y : ℕ) : ℤ) := by
    rw [CType.mul, cast, CType.check_ok fits]
  rw [product, ok_bind, CType.rem_ok (by omega) (by omega) fits.2]
  rfl

/-- The square has half the exponent left. -/
theorem square_pow (a k c : ℕ) : (a * a % c) ^ k ≡ a ^ (2 * k) [MOD c] := by
  rw [pow_mul, pow_two]
  exact (Nat.mod_modEq _ _).pow _

/-- An even exponent is twice its half. -/
theorem square_pow_even (res a c : ℕ) {b : ℕ} (even : b % 2 = 0) :
    res * (a * a % c) ^ (b / 2) ≡ res * a ^ b [MOD c] := by
  have whole : 2 * (b / 2) = b := by omega
  have squares := square_pow a (b / 2) c
  rw [whole] at squares
  exact squares.mul_left res

/-- An odd one leaves a factor for the result. -/
theorem square_pow_odd (res a c : ℕ) {b : ℕ} (odd : b % 2 = 1) :
    res * a % c * (a * a % c) ^ (b / 2) ≡ res * a ^ b [MOD c] := by
  have whole : 2 * (b / 2) + 1 = b := by omega
  calc res * a % c * (a * a % c) ^ (b / 2)
    _ ≡ res * a * a ^ (2 * (b / 2)) [MOD c] := (Nat.mod_modEq _ _).mul (square_pow a (b / 2) c)
    _ = res * a ^ (2 * (b / 2) + 1) := by ring
    _ = res * a ^ b := by rw [whole]

/-- The result after one turn. -/
def multiplied (c res a b : ℕ) : ℕ := if b % 2 = 1 then res * a % c else res

theorem multiplied_lt {c res : ℕ} (reduced : res < c) (a b : ℕ) : multiplied c res a b < c := by
  rw [multiplied]
  split
  · exact Nat.mod_lt _ (by omega)
  · exact reduced

/-- One turn keeps the power that is still to be multiplied. -/
theorem multiplied_pow (c res a b : ℕ) :
    multiplied c res a b * (a * a % c) ^ (b / 2) ≡ res * a ^ b [MOD c] := by
  rcases Nat.mod_two_eq_zero_or_one b with even | odd
  · rw [multiplied, if_neg (by omega)]
    exact square_pow_even res a c even
  · rw [multiplied, if_pos odd]
    exact square_pow_odd res a c odd

/-- One turn of the loop, in checked arithmetic: the factors are below 2^31. -/
theorem modpowLoop_step {c res a b : ℕ} (fits : c < 2147483648) (reduced : res < c)
    (small : a < 2147483648) (more : 0 < b) (turns : ℕ) :
    modpowLoop c (turns + 1) res a b =
      modpowLoop c turns (multiplied c res a b) (a * a % c : ℕ) (b / 2 : ℕ) := by
  have half : ((b : ℤ) / 2) = ((b / 2 : ℕ) : ℤ) := (Int.natCast_div b 2).symm
  have rest (res' : ℕ) :
      (do let square ← CType.longLong.mul a a
          let a ← CType.longLong.rem square c
          modpowLoop c turns res' a (b / 2)) = modpowLoop c turns res' (a * a % c : ℕ) (b / 2 : ℕ) := by
    have square := mulmod_ok (by omega : 0 < c) small small
    rw [← bind_assoc, square, ok_bind, half]
  rw [modpowLoop, if_pos (by omega), multiplied]
  rcases Nat.mod_two_eq_zero_or_one b with even | odd
  · rw [if_neg (by omega), if_neg (by omega), pure_eq_ok, ok_bind]
    exact rest res
  · have product := mulmod_ok (by omega : 0 < c) (reduced.trans fits) small
    have reduced' : res * a % c < c := Nat.mod_lt _ (by omega)
    have narrowed : toInt ((res * a % c : ℕ) : ℤ) = ((res * a % c : ℕ) : ℤ) :=
      toInt_of_fits (by omega) (by omega)
    rw [if_pos (by omega), if_pos odd, ← bind_assoc, product, ok_bind, pure_eq_ok, ok_bind, narrowed]
    exact rest _

theorem modpowLoop_eq {c : ℕ} (large : 1 < c) (fits : c < 2147483648) (turns : ℕ) :
    ∀ {res a b : ℕ}, res < c → a < 2147483648 → b < 2 ^ turns →
      modpowLoop c (turns + 1) res a b = .ok ((res * a ^ b % c : ℕ) : ℤ) := by
  induction turns with
  | zero =>
      intro res a b reduced _ short
      obtain rfl : b = 0 := by omega
      rw [modpowLoop, if_neg (by decide), pow_zero, mul_one, Nat.mod_eq_of_lt reduced]
  | succ turns ih =>
      intro res a b reduced small short
      rcases Nat.eq_zero_or_pos b with rfl | more
      · rw [modpowLoop, if_neg (by decide), pow_zero, mul_one, Nat.mod_eq_of_lt reduced]
      · have square : a * a % c < 2147483648 := (Nat.mod_lt _ (by omega)).trans fits
        have shorter : b / 2 < 2 ^ turns := by
          rw [pow_succ] at short
          omega
        rw [modpowLoop_step fits reduced small more, ih (multiplied_lt reduced a b) square shorter,
          multiplied_pow c res a b]

/-- **`modpow` computes the power**, and overflows nowhere. -/
theorem modpow_eq {a b c : ℕ} (large : 1 < c) (fits : c < 2147483648) (small : a < 2147483648)
    (short : b < 2 ^ 63) : modpow a b c = .ok ((a ^ b % c : ℕ) : ℤ) := by
  have run := modpowLoop_eq large fits 63 large small short
  rw [one_mul] at run
  exact run

/-- The products `modpow` forms, in exact arithmetic, from the head of its loop on. -/
def modpowProducts (c : Int) : Nat → Int → Int → Int → List Int
  | 0, _, _, _ => []
  | turns + 1, res, a, b =>
      if 0 < b then
        if b % 2 = 1 then
          res * a :: a * a :: modpowProducts c turns (toInt ((res * a).tmod c)) ((a * a).tmod c) (b / 2)
        else a * a :: modpowProducts c turns res ((a * a).tmod c) (b / 2)
      else []

/-- A multiplication that did not overflow. -/
theorem mulmod_inv {α : Type} {x y c : Int} {next : Int → C α} {r : α}
    (ran : (do
      let product ← CType.longLong.mul x y
      let rest ← CType.longLong.rem product c
      next rest) = .ok r) :
    CType.longLong.Fits (x * y) ∧ next ((x * y).tmod c) = .ok r := by
  obtain ⟨product, multiplied, ran⟩ := bind_eq_ok.mp ran
  obtain ⟨rest, reduced, ran⟩ := bind_eq_ok.mp ran
  have fits := CType.check_fits multiplied
  obtain rfl := CType.mul_inv multiplied
  obtain rfl := CType.rem_inv reduced
  exact ⟨fits, ran⟩

/-- A run that ended formed no product that does not fit, whatever its arguments. -/
theorem modpowProducts_fit {c r : Int} {turns : Nat} :
    ∀ {res a b : Int}, modpowLoop c turns res a b = .ok r →
      ∀ product ∈ modpowProducts c turns res a b, CType.longLong.Fits product := by
  induction turns with
  | zero =>
      intro res a b ran
      cases ran
  | succ turns ih =>
      intro res a b ran
      rw [modpowLoop] at ran
      rw [modpowProducts]
      by_cases more : 0 < b
      · rw [if_pos more] at ran ⊢
        by_cases odd : b % 2 = 1
        · simp only [if_pos odd, pure_eq_ok, ok_bind] at ran ⊢
          obtain ⟨product, ran⟩ := mulmod_inv ran
          obtain ⟨square, ran⟩ := mulmod_inv ran
          rw [List.forall_mem_cons, List.forall_mem_cons]
          exact ⟨product, square, ih ran⟩
        · simp only [if_neg odd, pure_eq_ok, ok_bind] at ran ⊢
          obtain ⟨square, ran⟩ := mulmod_inv ran
          rw [List.forall_mem_cons]
          exact ⟨square, ih ran⟩
      · rw [if_neg more]
        exact List.forall_mem_nil _

/-- **`modpow` is modular exponentiation**, in 64-bit products, also for a base that is not reduced. -/
theorem modpow_correct (a b c : ℕ) (small : a < 2 ^ 31) (exponent : b < 2 ^ 63) (large : 2 ≤ c)
    (fits : c < 2 ^ 31) :
    modpow a b c = .ok ((a ^ b % c : ℕ) : ℤ) ∧
      ∀ product ∈ modpowProducts c 64 1 a b, CType.longLong.Fits product := by
  have ran := modpow_eq large fits small exponent
  exact ⟨ran, modpowProducts_fit ran⟩

namespace Example

/-- The largest base, exponent and modulus. -/
theorem largest_power :
    modpow 2147483647 9223372036854775807 2147483647 = .ok 0 ∧
      ∀ product ∈ modpowProducts 2147483647 64 1 2147483647 9223372036854775807,
        CType.longLong.Fits product := by
  have power := modpow_correct 2147483647 9223372036854775807 2147483647 (by decide) (by decide) (by decide)
    (by decide)
  rwa [Nat.mod_eq_zero_of_dvd (dvd_pow_self _ (by decide))] at power

end Example

/-! ## The inverse -/

/-- The state of `inverse` at the head of its loop, on `n` and `m`: `x = s X`, `y = -s Y`,
`x0 = -s X0` and `y0 = s Y0` with a common sign `s`. -/
structure Coefficients (n m : ℕ) (s : ℤ) (a b X Y X0 Y0 : ℕ) : Prop where
  sign : s = 1 ∨ s = -1
  positive : 0 < a
  fits : a < 2147483648 ∧ b < 2147483648
  /-- the size of the coefficients of `n` -/
  left : X * a + X0 * b = m
  /-- the size of the coefficients of `m` -/
  right : Y * a + Y0 * b = n
  bounded : X0 ≤ m
  bezout : s * (Y0 * m - X0 * n) = a
  bezout' : s * (X * n - Y * m) = b
  divisor : a.gcd b = n.gcd m

namespace Coefficients

variable {n m a b X Y X0 Y0 : ℕ} {s : ℤ}

theorem start (positive : 0 < n) (small : n < 2147483648) (small' : m < 2147483648) (large : 1 ≤ m) :
    Coefficients n m (-1) n m 0 1 1 0 where
  sign := Or.inr rfl
  positive := positive
  fits := ⟨small, small'⟩
  left := by omega
  right := by omega
  bounded := large
  bezout := by push_cast; ring
  bezout' := by push_cast; ring
  divisor := rfl

/-- The new coefficients are no larger than the other operand, since `b` is at least one. -/
theorem next_le (state : Coefficients n m s a b X Y X0 Y0) (more : 0 < b) :
    X0 + a / b * X ≤ m ∧ Y0 + a / b * Y ≤ n := by
  have quotient (Z : ℕ) : a / b * Z ≤ Z * a := by
    rw [Nat.mul_comm]
    exact Nat.mul_le_mul_left Z (Nat.div_le_self a b)
  constructor
  · rw [← state.left]
    linarith [quotient X, Nat.le_mul_of_pos_right X0 more]
  · rw [← state.right]
    linarith [quotient Y, Nat.le_mul_of_pos_right Y0 more]

theorem step (state : Coefficients n m s a b X Y X0 Y0) (more : 0 < b) :
    Coefficients n m (-s) b (a % b) (X0 + a / b * X) (Y0 + a / b * Y) X Y where
  sign := by
    rcases state.sign with rfl | rfl
    · exact Or.inr rfl
    · exact Or.inl (by ring)
  positive := more
  fits := ⟨state.fits.2, (Nat.mod_lt a more).trans state.fits.2⟩
  left := by
    have whole := Nat.div_add_mod a b
    calc (X0 + a / b * X) * b + X * (a % b)
      _ = X * (b * (a / b) + a % b) + X0 * b := by ring
      _ = m := by rw [whole, state.left]
  right := by
    have whole := Nat.div_add_mod a b
    calc (Y0 + a / b * Y) * b + Y * (a % b)
      _ = Y * (b * (a / b) + a % b) + Y0 * b := by ring
      _ = n := by rw [whole, state.right]
  bounded := by
    have := state.left
    nlinarith [Nat.mul_le_mul_left X state.positive]
  bezout := by
    rw [← state.bezout']
    ring
  bezout' := by
    have whole : (b : ℤ) * (a / b : ℕ) + (a % b : ℕ) = a := by exact_mod_cast Nat.div_add_mod a b
    have rest : ((a % b : ℕ) : ℤ) = a - (a / b : ℕ) * b := by linear_combination whole
    rw [rest, ← state.bezout, ← state.bezout']
    push_cast
    ring
  divisor := by rw [← state.divisor, Nat.gcd_comm a b, ← Nat.gcd_rec b a |>.symm, Nat.gcd_comm]

end Coefficients

/-- One turn of the loop, in checked arithmetic. -/
theorem inverseLoop_step {n m a b X Y X0 Y0 : ℕ} {s : ℤ} (state : Coefficients n m s a b X Y X0 Y0)
    (small : n < 2147483648) (small' : m < 2147483648) (more : 0 < b) (turns : ℕ) :
    inverseLoop (turns + 1) a b (s * X) (-s * Y) (-s * X0) (s * Y0) =
      inverseLoop turns b (a % b : ℕ) (-s * (X0 + a / b * X : ℕ)) (s * (Y0 + a / b * Y : ℕ))
        (s * X) (-s * Y) := by
  obtain ⟨leftLe, rightLe⟩ := state.next_le more
  have signed (Z : ℕ) (below : Z < 2147483648) (t : ℤ) (sign : t = 1 ∨ t = -1) :
      CType.int.Fits (t * Z) := by
    apply CType.fits_of_lt (b := 2147483648) (le_refl _)
    · rcases sign with rfl | rfl <;> omega
    · rcases sign with rfl | rfl <;> omega
  have opposite : -s = 1 ∨ -s = -1 := (state.step more).sign
  have qx : ((a / b : ℕ) : ℤ) * (s * X) = s * (a / b * X : ℕ) := by push_cast; ring
  have qy : ((a / b : ℕ) : ℤ) * (-s * Y) = -s * (a / b * Y : ℕ) := by push_cast; ring
  have x' : -s * X0 - s * (a / b * X : ℕ) = -s * (X0 + a / b * X : ℕ) := by push_cast; ring
  have y' : s * Y0 - -s * (a / b * Y : ℕ) = s * (Y0 + a / b * Y : ℕ) := by push_cast; ring
  rw [inverseLoop, if_pos (by omega),
    CType.int_quot more state.fits.1, ok_bind, CType.int_rem more state.fits.1, ok_bind,
    CType.mul, qx, CType.check_ok (signed _ (by omega) s state.sign), ok_bind,
    CType.sub, x', CType.check_ok (signed _ (by omega) _ opposite), ok_bind,
    CType.mul, qy, CType.check_ok (signed _ (by omega) _ opposite), ok_bind,
    CType.sub, y', CType.check_ok (signed _ (by omega) s state.sign), ok_bind]

theorem inverseLoop_spec {n m : ℕ} (small : n < 2147483648) (small' : m < 2147483648) (turns : ℕ) :
    ∀ {a b X Y X0 Y0 : ℕ} {s : ℤ}, Coefficients n m s a b X Y X0 Y0 → b < turns →
      ∃ x0 : ℤ, inverseLoop turns a b (s * X) (-s * Y) (-s * X0) (s * Y0) = .ok x0 ∧
        -m ≤ x0 ∧ x0 ≤ m ∧ (m : ℤ) ∣ x0 * n - n.gcd m := by
  induction turns with
  | zero =>
      intro a b X Y X0 Y0 s _ enough
      omega
  | succ turns ih =>
      intro a b X Y X0 Y0 s state enough
      rcases Nat.eq_zero_or_pos b with rfl | more
      · refine ⟨-s * X0, ?_, ?_, ?_, ?_⟩
        · rw [inverseLoop, if_neg (by simp)]
        · have := state.bounded
          rcases state.sign with rfl | rfl <;> omega
        · have := state.bounded
          rcases state.sign with rfl | rfl <;> omega
        · have last : (a : ℤ) = n.gcd m := by
            rw [← state.divisor, Nat.gcd_zero_right]
          refine ⟨-s * Y0, ?_⟩
          rw [← last, ← state.bezout]
          ring
      · have shorter : a % b < turns := by
          have := Nat.mod_lt a more
          omega
        obtain ⟨x0, ran, result⟩ := ih (state.step more) shorter
        refine ⟨x0, ?_, result⟩
        rw [inverseLoop_step state small small' more, ← ran]
        simp only [neg_neg]

/-- **`inverse` computes the inverse**, and overflows nowhere. -/
theorem inverse_spec {n m : ℕ} (positive : 0 < n) (positive' : 0 < m) (small : n < 2147483648)
    (small' : m < 2147483648) :
    ∃ d : ℕ, inverse n m = .ok d ∧ d ≤ m ∧ (m : ℤ) ∣ d * n - n.gcd m := by
  have state := Coefficients.start positive small small' positive'
  obtain ⟨x0, ran, low, high, divides⟩ := inverseLoop_spec small small' (m + 2) state (by omega)
  have first : inverseLoop (m + 2) n m 0 1 1 0 = .ok x0 := by
    simpa using ran
  rw [inverse, Int.toNat_natCast, first, ok_bind]
  by_cases negative : x0 < 0
  · refine ⟨(x0 + m).toNat, ?_, by omega, ?_⟩
    · rw [if_pos negative, CType.add_ok (CType.fits_of_lt (b := 2147483648) (le_refl _) (by omega) (by omega)),
        Int.toNat_of_nonneg (by omega)]
    · rw [Int.toNat_of_nonneg (by omega)]
      obtain ⟨k, factor⟩ := divides
      exact ⟨k + n, by linear_combination factor⟩
  · refine ⟨x0.toNat, ?_, by omega, ?_⟩
    · rw [if_neg negative, pure_eq_ok, Int.toNat_of_nonneg (by omega)]
    · rwa [Int.toNat_of_nonneg (by omega)]

/-- Modulo 1 the loop makes one turn, and leaves the coefficient 0 it started with. -/
theorem inverse_one {n : ℕ} (small : n < 2147483648) : inverse n (1 : ℕ) = .ok 0 := by
  rcases Nat.eq_zero_or_pos n with rfl | positive
  · rfl
  · have state := Coefficients.start positive small (by decide : 1 < 2147483648) (le_refl 1)
    have turn := inverseLoop_step state small (by decide) Nat.one_pos 2
    have last : inverseLoop 3 n (1 : ℕ) 0 1 1 0 = .ok 0 := by
      simpa [inverseLoop, Nat.mod_one] using turn
    rw [inverse, Int.toNat_natCast, last, ok_bind, if_neg (by omega), pure_eq_ok]

/-- **The inverse is the inverse**: reduced, and for every modulus that has one, 1 included. -/
theorem inverse_correct (n modulus : ℕ) (positive : 1 ≤ modulus) (small : n < 2 ^ 31)
    (small' : modulus < 2 ^ 31) (coprime : n.gcd modulus = 1) :
    ∃ r : ℕ, inverse n modulus = .ok r ∧ r < modulus ∧ n * r ≡ 1 [MOD modulus] := by
  by_cases one : modulus = 1
  · subst one
    exact ⟨0, inverse_one small, Nat.one_pos, Nat.modEq_one⟩
  · have positive' : 0 < n := by
      rcases Nat.eq_zero_or_pos n with rfl | positive'
      · rw [Nat.gcd_zero_left] at coprime
        omega
      · exact positive'
    obtain ⟨r, ran, bounded, divides⟩ := inverse_spec positive' (by omega) small small'
    rw [coprime] at divides
    have congruent : n * r ≡ 1 [MOD modulus] := by
      rw [Nat.ModEq.comm, Nat.modEq_iff_dvd, Nat.cast_mul, mul_comm]
      exact divides
    refine ⟨r, ran, ?_, congruent⟩
    -- the modulus itself would be congruent to 0
    refine lt_of_le_of_ne bounded ?_
    rintro rfl
    have zero : n * r % r = 0 := Nat.mul_mod_left n r
    rw [congruent, Nat.mod_eq_of_lt (by omega)] at zero
    cases zero

namespace Example

/-- The coefficient ends negative. -/
theorem three_inverse : ∃ r : ℕ, inverse 3 2147483647 = .ok r ∧ r < 2147483647 ∧ 3 * r ≡ 1 [MOD 2147483647] :=
  inverse_correct 3 2147483647 (by decide) (by decide) (by decide) (by decide)

end Example

end HyperSmile.Crypto.Rsa
