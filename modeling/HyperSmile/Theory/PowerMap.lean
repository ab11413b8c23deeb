/-
# Theory.PowerMap — when taking a power modulo n changes nothing

RSA decrypts what it encrypted exactly if `m ^ k` is `m` modulo `n`, for `k` the product of
the two exponents and every `m`. That is so for `k = 1`; for `k ≥ 2` it is so exactly if `n`
is squarefree and `r - 1` divides `k - 1` for every prime `r` that divides `n`
(`pow_eq_self_iff`). Two different primes with `k = 1` modulo `(p - 1) (q - 1)` are the case
the cryptosystem is made for (`pow_eq_self_of_primes`).
-/
import Mathlib.FieldTheory.Finite.Basic
import Mathlib.Data.Nat.Squarefree
import Mathlib.RingTheory.IntegralDomain

namespace HyperSmile.Theory.PowerMap

set_option autoImplicit false

/-- For a prime that divides `k - 1` after one is taken away, by Fermat. -/
theorem pow_modEq_of_dvd {r k : ℕ} (prime : r.Prime) (positive : 0 < k) (exponent : r - 1 ∣ k - 1)
    (m : ℕ) : m ^ k ≡ m [MOD r] := by
  have := Fact.mk prime
  rw [← ZMod.natCast_eq_natCast_iff, Nat.cast_pow]
  obtain ⟨l, factor⟩ := exponent
  have split : k = (r - 1) * l + 1 := by omega
  by_cases zero : (m : ZMod r) = 0
  · rw [zero, zero_pow (by omega)]
  · rw [split, pow_succ, pow_mul, ZMod.pow_card_sub_one_eq_one zero, one_pow, one_mul]

/-- A squarefree number divides what all its primes divide. -/
theorem dvd_of_primes {n a : ℕ} (free : Squarefree n) (primes : ∀ r, r.Prime → r ∣ n → r ∣ a) :
    n ∣ a := by
  rw [← Nat.prod_primeFactors_of_squarefree free]
  refine Finset.prod_primes_dvd a (fun r member => (Nat.prime_of_mem_primeFactors member).prime) ?_
  intro r member
  exact primes r (Nat.prime_of_mem_primeFactors member) (Nat.dvd_of_mem_primeFactors member)

/-- Every residue is a power of one, so its exponent is a multiple of `r - 1`. -/
theorem dvd_of_pow_modEq {r k : ℕ} (prime : r.Prime) (positive : 0 < k)
    (fixed : ∀ m < r, m ^ k ≡ m [MOD r]) : r - 1 ∣ k - 1 := by
  have := Fact.mk prime
  obtain ⟨g, generates⟩ : ∃ g : (ZMod r)ˣ, ∀ x, x ∈ Subgroup.zpowers g := IsCyclic.exists_generator
  have order : orderOf g = r - 1 := by
    rw [orderOf_eq_card_of_forall_mem_zpowers generates, Nat.card_eq_fintype_card, ZMod.card_units]
  have own := fixed (g : ZMod r).val (ZMod.val_lt _)
  rw [← ZMod.natCast_eq_natCast_iff, Nat.cast_pow, ZMod.natCast_zmod_val] at own
  rw [← order]
  apply orderOf_dvd_of_pow_eq_one
  have product : g ^ (k - 1) * g = 1 * g := by
    rw [one_mul, ← pow_succ, show k - 1 + 1 = k by omega]
    exact Units.ext (by simpa using own)
  exact mul_right_cancel product

/-- **The exponents that change nothing.** -/
theorem pow_eq_self_iff {n k : ℕ} (positive : 0 < n) (exponent : 0 < k) :
    (∀ m < n, m ^ k % n = m) ↔
      k = 1 ∨ Squarefree n ∧ ∀ r, r.Prime → r ∣ n → r - 1 ∣ k - 1 := by
  constructor
  · intro fixed
    rcases Nat.lt_or_ge 1 k with large | small
    · right
      have fixed' (m : ℕ) (inside : m < n) : m ^ k ≡ m [MOD n] := by
        rw [Nat.ModEq, fixed m inside, Nat.mod_eq_of_lt inside]
      refine ⟨?_, ?_⟩
      · rw [Nat.squarefree_iff_prime_squarefree]
        intro r prime square
        -- the prime itself is not its own power modulo its square
        have below : r < n := lt_of_lt_of_le (by nlinarith [prime.two_le]) (Nat.le_of_dvd positive square)
        have same := (fixed' r below).of_dvd square
        have vanishes : r * r ∣ r ^ k := by
          rw [← pow_two]
          exact pow_dvd_pow r large
        have divides : r * r ∣ r := (Nat.modEq_zero_iff_dvd.mp
          (same.symm.trans (Nat.modEq_zero_iff_dvd.mpr vanishes)))
        have := Nat.le_of_dvd prime.pos divides
        nlinarith [prime.two_le]
      · intro r prime divides
        refine dvd_of_pow_modEq prime exponent fun m inside => ?_
        exact (fixed' m (lt_of_lt_of_le inside (Nat.le_of_dvd positive divides))).of_dvd divides
    · left
      omega
  · rintro (rfl | ⟨free, orders⟩) m inside
    · rw [pow_one, Nat.mod_eq_of_lt inside]
    · have same : m ^ k ≡ m [MOD n] := by
        have ordered : m ≤ m ^ k := Nat.le_self_pow (by omega) m
        refine ((Nat.modEq_iff_dvd' ordered).mpr (dvd_of_primes free fun r prime divides => ?_)).symm
        exact (Nat.modEq_iff_dvd' ordered).mp
          (pow_modEq_of_dvd prime exponent (orders r prime divides) m).symm
      rw [Nat.ModEq, Nat.mod_eq_of_lt inside] at same
      exact same

/-- **Two different primes.** -/
theorem pow_eq_self_of_primes {p q k : ℕ} (primeP : p.Prime) (primeQ : q.Prime) (different : p ≠ q)
    (positive : 0 < k) (exponent : (p - 1) * (q - 1) ∣ k - 1) {m : ℕ} (inside : m < p * q) :
    m ^ k % (p * q) = m := by
  have coprime : p.Coprime q := (Nat.coprime_primes primeP primeQ).mpr different
  refine (pow_eq_self_iff (Nat.mul_pos primeP.pos primeQ.pos) positive).mpr (Or.inr ⟨?_, ?_⟩) m inside
  · exact (Nat.squarefree_mul coprime).mpr ⟨primeP.squarefree, primeQ.squarefree⟩
  · intro r prime divides
    rcases prime.dvd_mul.mp divides with first | second
    · rw [(Nat.prime_dvd_prime_iff_eq prime primeP).mp first]
      exact (Nat.dvd_mul_right _ _).trans exponent
    · rw [(Nat.prime_dvd_prime_iff_eq prime primeQ).mp second]
      exact (Nat.dvd_mul_left _ _).trans exponent

end HyperSmile.Theory.PowerMap
