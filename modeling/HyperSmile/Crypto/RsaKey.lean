/-
# Crypto.RsaKey — the keys that create_secret makes

For every stream of random numbers, what the key generation can end with (`Drawn`): two odd
numbers from 3 to 9999 that passed the test, an exponent below 1000 without common divisor with
`(p - 1) (q - 1)`, and its inverse. Nothing makes the two numbers different, and nothing makes
them prime.

Such a key gives every number back exactly if its exponent is 1, or `p q` is squarefree and
`r - 1` divides `e d - 1` for each of its primes `r` (`created_key_works_iff`). Which streams lead
to one is a matter for `Crypto.RsaStream`.
-/
import HyperSmile.Crypto.RsaMessage
import HyperSmile.Crypto.RsaSearch
import Mathlib.Data.ZMod.Basic

namespace HyperSmile.Crypto.Rsa

open HyperSmile.Theory.CInt
open HyperSmile.Theory.PowerMap

set_option autoImplicit false

/-! ## Probable primes -/

/-- An odd number from 1 to 9999. -/
def OddBelow (x : ℤ) : Prop := 1 ≤ x ∧ x ≤ 9999 ∧ x % 2 = 1

theorem randPrimeLoop_inv {turns taken taken' : ℕ} {rand : Rand} {prime p : ℤ} (start : OddBelow prime)
    (ended : randPrimeLoop rand 10000 turns prime taken = .ok (p, taken')) : OddBelow p ∧ p ≠ 1 := by
  induction turns generalizing prime taken with
  | zero => cases ended
  | succ turns ih =>
      obtain ⟨⟨passed, taken₁⟩, tested, ended⟩ := bind_eq_ok.mp ended
      cases passed with
      | true =>
          cases ended
          exact ⟨start, probablePrime_ne_one tested⟩
      | false =>
          obtain ⟨next, sum, ended⟩ := bind_eq_ok.mp ended
          obtain ⟨next', remainder, ended⟩ := bind_eq_ok.mp ended
          obtain ⟨low, high, odd⟩ := start
          have moved := CType.add_inv sum
          have wrapped := CType.rem_inv remainder
          rw [Int.tmod_eq_emod_of_nonneg (by omega)] at wrapped
          exact ih ⟨by omega, by omega, by omega⟩ ended

theorem randPrime_inv {turns taken taken' : ℕ} {rand : Rand} {p : ℤ}
    (ended : randPrime turns rand singleMax taken = .ok (p, taken')) : OddBelow p ∧ p ≠ 1 := by
  obtain ⟨prime, remainder, ended⟩ := bind_eq_ok.mp ended
  obtain ⟨n, even, ended⟩ := bind_eq_ok.mp ended
  obtain ⟨prime', sum, ended⟩ := bind_eq_ok.mp ended
  have first := CType.rem_inv remainder
  have odd := CType.add_inv sum
  obtain rfl : n = 10000 := CType.add_inv even
  rw [Int.tmod_eq_emod_of_nonneg (by omega), singleMax] at first
  rw [Int.tmod_eq_emod_of_nonneg (by omega)] at odd
  exact randPrimeLoop_inv ⟨by omega, by omega, by omega⟩ ended

theorem drawPrimes_inv {turns taken taken' : ℕ} {rand : Rand} {p q : ℤ}
    (ended : drawPrimes rand turns taken = .ok (p, q, taken')) :
    (OddBelow p ∧ p ≠ 1) ∧ (OddBelow q ∧ q ≠ 1) ∧ 128 ≤ p * q := by
  induction turns generalizing taken with
  | zero => cases ended
  | succ turns ih =>
      obtain ⟨⟨p', taken₁⟩, first, ended⟩ := bind_eq_ok.mp ended
      obtain ⟨⟨q', taken₂⟩, second, ended⟩ := bind_eq_ok.mp ended
      obtain ⟨n, product, ended⟩ := bind_eq_ok.mp ended
      have modulus := CType.mul_inv product
      split at ended
      · exact ih ended
      · cases ended
        exact ⟨randPrime_inv first, randPrime_inv second, by omega⟩

/-! ## Exponents -/

theorem randExponent_inv {turns taken taken' phi : ℕ} {rand : Rand} {e : ℤ}
    (ended : randExponent turns rand phi exponentMax taken = .ok (e, taken')) :
    ∃ x : ℕ, e = x ∧ x < 1000 ∧ x.Coprime phi := by
  have searched := randExponent_start (n := 1000) ended
  have below : (rand taken).val % 1000 < 1000 := Nat.mod_lt _ (by decide)
  obtain ⟨x, value, small, coprime, _⟩ := randExponentLoop_inv (by decide) below searched
  exact ⟨x, value, small, coprime⟩

/-! ## Keys -/

/-- What a key is when the generation has ended. -/
structure Drawn (key : Key) (p q e d : ℕ) : Prop where
  shape : key = ⟨p, q, (p * q : ℕ), ((p - 1) * (q - 1) : ℕ), e, d⟩
  first : 3 ≤ p ∧ p ≤ 9999
  second : 3 ≤ q ∧ q ≤ 9999
  large : 128 ≤ p * q
  positive : 0 < e
  small : e < 1000
  bounded : d ≤ (p - 1) * (q - 1)
  nonzero : 0 < e * d
  inverts : (p - 1) * (q - 1) ∣ e * d - 1
  coprime : e.Coprime ((p - 1) * (q - 1))

/-- **Every key that is made is drawn so.** -/
theorem createKey_drawn {turns : ℕ} {rand : Rand} {key : Key} (ended : createKey turns rand = .ok key) :
    ∃ p q e d, Drawn key p q e d := by
  obtain ⟨⟨p', q', taken⟩, draws, ended⟩ := bind_eq_ok.mp ended
  obtain ⟨n', product, ended⟩ := bind_eq_ok.mp ended
  obtain ⟨phi', totient, ended⟩ := bind_eq_ok.mp ended
  obtain ⟨⟨e', taken'⟩, search, ended⟩ := bind_eq_ok.mp ended
  obtain ⟨d', inversion, ended⟩ := bind_eq_ok.mp ended
  obtain ⟨⟨⟨lowP, highP, oddP⟩, otherP⟩, ⟨⟨lowQ, highQ, oddQ⟩, otherQ⟩, large⟩ := drawPrimes_inv draws
  obtain ⟨p, rfl⟩ := Int.eq_ofNat_of_zero_le (by omega : 0 ≤ p')
  obtain ⟨q, rfl⟩ := Int.eq_ofNat_of_zero_le (by omega : 0 ≤ q')
  have modulus : n' = (p * q : ℕ) := by
    rw [CType.mul_inv product, Nat.cast_mul]
  have order : phi' = ((p - 1) * (q - 1) : ℕ) := by
    rw [CType.mul_inv totient, Nat.cast_mul, Nat.cast_sub (by omega), Nat.cast_sub (by omega), Nat.cast_one]
  subst modulus order
  obtain ⟨e, rfl, small, coprime⟩ := randExponent_inv search
  have four : 2 * 2 ≤ (p - 1) * (q - 1) := Nat.mul_le_mul (by omega) (by omega)
  have top : (p - 1) * (q - 1) ≤ 9999 * 9999 := Nat.mul_le_mul (by omega) (by omega)
  have positive : 0 < e := by
    rcases Nat.eq_zero_or_pos e with rfl | positive
    · rw [Nat.coprime_zero_left] at coprime
      omega
    · exact positive
  obtain ⟨d, ran, bounded, nonzero, inverts⟩ := inverse_coprime positive (by omega) (by omega) (by omega) coprime
  rw [ran] at inversion
  cases inversion
  cases ended
  exact ⟨p, q, e, d, rfl, ⟨by omega, by omega⟩, ⟨by omega, by omega⟩, by exact_mod_cast large, positive,
    small, bounded, nonzero, inverts, coprime⟩

/-- Every number below the modulus comes back. -/
def Works (key : Key) : Prop :=
  ∀ m : ℤ, 0 ≤ m → m < key.n → (do let c ← encode m key.e key.n; decode c key.d key.n) = .ok m

namespace Drawn

variable {key : Key} {p q e d : ℕ}

theorem modulus_lt (drawn : Drawn key p q e d) : p * q < 2147483648 :=
  lt_of_le_of_lt (Nat.mul_le_mul drawn.first.2 drawn.second.2) (by decide)

theorem totient_gt (drawn : Drawn key p q e d) : 1 < (p - 1) * (q - 1) := by
  obtain ⟨low, _⟩ := drawn.first
  obtain ⟨low', _⟩ := drawn.second
  have four : 2 * 2 ≤ (p - 1) * (q - 1) := Nat.mul_le_mul (by omega) (by omega)
  omega

theorem decoder_lt (drawn : Drawn key p q e d) : d < (p - 1) * (q - 1) := by
  have large := drawn.totient_gt
  refine lt_of_le_of_ne drawn.bounded ?_
  intro equal
  have one : (p - 1) * (q - 1) ∣ e * d - (e * d - 1) :=
    Nat.dvd_sub (equal ▸ Nat.dvd_mul_left d e) drawn.inverts
  rw [Nat.sub_sub_self drawn.nonzero] at one
  have := Nat.le_of_dvd Nat.one_pos one
  omega

/-- The private exponent is the inverse of the public one. -/
theorem decoder_eq (drawn : Drawn key p q e d) :
    d = ((e : ZMod ((p - 1) * (q - 1)))⁻¹).val := by
  have unit := ZMod.coe_mul_inv_eq_one e drawn.coprime
  have inverse : (e : ZMod ((p - 1) * (q - 1))) * d = 1 := by
    have same : (1 : ℕ) ≡ e * d [MOD (p - 1) * (q - 1)] :=
      (Nat.modEq_iff_dvd' drawn.nonzero).mpr drawn.inverts
    have cast := (ZMod.natCast_eq_natCast_iff _ _ _).mpr same
    push_cast at cast
    exact cast.symm
  have equal : (e : ZMod ((p - 1) * (q - 1)))⁻¹ = d := by
    calc (e : ZMod ((p - 1) * (q - 1)))⁻¹
      _ = (e : ZMod ((p - 1) * (q - 1)))⁻¹ * (e * d) := by rw [inverse, mul_one]
      _ = (e * (e : ZMod ((p - 1) * (q - 1)))⁻¹) * d := by ring
      _ = d := by rw [unit, one_mul]
  rw [equal, ZMod.val_natCast, Nat.mod_eq_of_lt drawn.decoder_lt]

theorem encoder_one_iff (drawn : Drawn key p q e d) : e * d = 1 ↔ e = 1 := by
  constructor
  · exact fun one => Nat.eq_one_of_mul_eq_one_right one
  · rintro rfl
    have inverts := drawn.inverts
    have short := drawn.decoder_lt
    have nonzero := drawn.nonzero
    rw [one_mul] at inverts nonzero ⊢
    have := Nat.eq_zero_of_dvd_of_lt inverts (by omega)
    omega

/-- Encoding and decoding are one power. -/
theorem works_iff (drawn : Drawn key p q e d) :
    Works key ↔ ∀ m < p * q, m ^ (e * d) % (p * q) = m := by
  have large := drawn.large
  have small := drawn.modulus_lt
  have encoder := drawn.small
  have decoder := drawn.decoder_lt
  have totient : (p - 1) * (q - 1) ≤ p * q := Nat.mul_le_mul (Nat.sub_le p 1) (Nat.sub_le q 1)
  have run (m : ℕ) (inside : m < p * q) :
      (do let c ← encode m e (p * q : ℕ); decode c d (p * q : ℕ)) =
        (.ok ((m ^ (e * d) % (p * q) : ℕ) : ℤ) : C Int) := by
    have reduced : m ^ e % (p * q) < p * q := Nat.mod_lt _ (by omega)
    rw [encode, modpow_eq (by omega) small (by omega) (by omega), ok_bind, decode,
      modpow_eq (by omega) small (by omega) (by omega), ← Nat.pow_mod, ← pow_mul]
  rw [Works, drawn.shape]
  constructor
  · intro works m inside
    have back := works m (by omega) (Int.ofNat_lt.mpr inside)
    rw [run m inside] at back
    exact_mod_cast Except.ok.inj back
  · intro fixed m nonneg inside
    obtain ⟨m, rfl⟩ := Int.eq_ofNat_of_zero_le nonneg
    have inside' : m < p * q := Int.ofNat_lt.mp inside
    rw [run m inside', fixed m inside']

end Drawn

/-- **Which of the keys work.**  Those with exponent 1, and those whose modulus is squarefree with
`r - 1` dividing `e d - 1` for each of its primes; two different primes are enough. -/
theorem created_key_works_iff {turns : ℕ} {rand : Rand} {key : Key}
    (ended : createKey turns rand = .ok key) :
    ∃ p q e : ℕ, key.p = p ∧ key.q = q ∧ key.e = e ∧
      (Works key ↔ e = 1 ∨ Squarefree (p * q) ∧ ∀ r, r.Prime → r ∣ p * q →
        r - 1 ∣ e * ((e : ZMod ((p - 1) * (q - 1)))⁻¹).val - 1) ∧
      (p.Prime → q.Prime → p ≠ q → Works key) := by
  obtain ⟨p, q, e, d, drawn⟩ := createKey_drawn ended
  refine ⟨p, q, e, by rw [drawn.shape], by rw [drawn.shape], by rw [drawn.shape], ?_, ?_⟩
  · have positive : 0 < p * q := lt_of_lt_of_le (by decide) drawn.large
    rw [← drawn.decoder_eq, drawn.works_iff, pow_eq_self_iff positive drawn.nonzero, drawn.encoder_one_iff]
  · intro primeP primeQ different
    rw [drawn.works_iff]
    intro m inside
    exact pow_eq_self_of_primes primeP primeQ different drawn.nonzero drawn.inverts inside

end HyperSmile.Crypto.Rsa
