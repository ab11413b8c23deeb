/-
# Crypto.RsaSearch — the two searches of the key generation

`randPrime` walks over the odd residues, `randExponent` over the residues from 3 on, and both wrap.
Each is at a fixed candidate after at most one way around: the distance to it falls with every turn
(`primeDistance_next`, `exponentDistance_next`). For `randPrime` the candidate is 3, which every
stream of random numbers accepts; for `randExponent` it is any number without common divisor with
`phi`.

Below 3 the second walk is only before it has started: the first candidate is the random residue
itself, so 1 is returned whenever it comes up, and 2 if `phi` is odd.
-/
import HyperSmile.Crypto.Solovay
import Mathlib.Algebra.BigOperators.Associated

namespace HyperSmile.Crypto.Rsa

open HyperSmile.Theory.CInt

set_option autoImplicit false

/-! ## Primes -/

theorem probablePrime_ne_one {turns k taken taken' : ℕ} {rand : Rand} {n : ℤ}
    (passed : probablePrime turns rand n k taken = .ok (true, taken')) : n ≠ 1 := by
  rintro rfl
  cases passed

/-- How far the walk over the odd residues of `n` has to go from `x` to 3. -/
def primeDistance (n x : ℕ) : ℕ := if x ≤ 3 then 3 - x else n + 3 - x

/-- One turn of the walk. -/
theorem primeDistance_next {n x : ℕ} (even : n % 2 = 0) (large : 4 ≤ n) (odd : x % 2 = 1) (below : x < n)
    (other : x ≠ 3) :
    (x + 2) % n % 2 = 1 ∧ (x + 2) % n < n ∧ primeDistance n ((x + 2) % n) < primeDistance n x := by
  by_cases wraps : x + 2 < n
  · rw [Nat.mod_eq_of_lt wraps, primeDistance, primeDistance]
    refine ⟨by omega, wraps, ?_⟩
    split <;> split <;> omega
  · have first : (x + 2) % n = 1 := by
      have sum : x + 2 = 1 + n := by omega
      rw [sum, Nat.add_mod_right, Nat.mod_eq_of_lt (by omega)]
    rw [first, primeDistance, primeDistance, if_pos (by decide)]
    refine ⟨rfl, by omega, ?_⟩
    split <;> omega

theorem randPrimeLoop_ends {turns n x : ℕ} (rand : Rand) (taken : ℕ) (even : n % 2 = 0) (large : 4 ≤ n)
    (small : n < 2147483647) (odd : x % 2 = 1) (below : x < n) (enough : primeDistance n x + n < turns) :
    ∃ p taken' : ℕ, randPrimeLoop rand n turns x taken = .ok ((p : ℤ), taken') ∧ 3 ≤ p ∧ p % 2 = 1 := by
  induction turns generalizing x taken with
  | zero => omega
  | succ turns ih =>
      obtain ⟨passed, taken₁, tested, accepts⟩ :=
        probablePrime_ok rand (by omega : 1 ≤ x) (by omega) (by omega : x < turns + 1) accuracy taken
      rw [randPrimeLoop, tested, ok_bind]
      cases passed with
      | true =>
          have one := probablePrime_ne_one tested
          exact ⟨x, taken₁, rfl, by omega, odd⟩
      | false =>
          have other : x ≠ 3 := by
            rintro rfl
            exact absurd (accepts Nat.prime_three) (by decide)
          obtain ⟨odd', below', closer⟩ := primeDistance_next even large odd below other
          have sum : CType.int.add x 2 = .ok ((x + 2 : ℕ) : ℤ) :=
            CType.int_add (y := 2) (by omega)
          have wrapped : CType.int.rem ((x + 2 : ℕ) : ℤ) n = .ok (((x + 2) % n : ℕ) : ℤ) :=
            CType.int_rem (by omega) (by omega)
          obtain ⟨p, taken', ran, result⟩ := ih taken₁ odd' below' (by omega)
          refine ⟨p, taken', ?_, result⟩
          dsimp only
          rw [if_neg (by decide), sum, ok_bind, wrapped, ok_bind, ran]

/-- `rand() % n` -/
theorem rand_rem (rand : Rand) (taken : ℕ) {n : ℕ} (positive : 0 < n) :
    CType.int.rem ((rand taken).val : ℤ) n = .ok (((rand taken).val % n : ℕ) : ℤ) ∧ (rand taken).val % n < n :=
  ⟨CType.int_rem positive (rand taken).isLt, Nat.mod_lt _ positive⟩

/-- The search for a prime ends, whatever the stream. -/
theorem randPrime_ends {turns n : ℕ} (rand : Rand) (taken : ℕ) (large : 4 ≤ n) (small : n < 2147483647)
    (enough : 2 * n + 5 < turns) :
    ∃ p taken' : ℕ, randPrime turns rand n taken = .ok ((p : ℤ), taken') ∧ 3 ≤ p ∧ p % 2 = 1 := by
  obtain ⟨drawn, rest⟩ := rand_rem rand taken (by omega : 0 < n)
  have even : CType.int.add (n : ℤ) ((n : ℤ).tmod 2) = .ok ((n + n % 2 : ℕ) : ℤ) := by
    have parity : (n : ℤ).tmod 2 = (n % 2 : ℕ) := rfl
    rw [parity, CType.int_add (by omega)]
  rw [randPrime, drawn, ok_bind, even, ok_bind]
  generalize (rand taken).val % n = r at rest
  have odd : CType.int.add (r : ℤ) (1 - (r : ℤ).tmod 2) = .ok ((r + (1 - r % 2) : ℕ) : ℤ) := by
    have parity : (r : ℤ).tmod 2 = (r % 2 : ℕ) := rfl
    have value : (r : ℤ) + (1 - (r : ℤ).tmod 2) = ((r + (1 - r % 2) : ℕ) : ℤ) := by omega
    rw [CType.add, value, CType.int_check (by omega)]
  rw [odd, ok_bind]
  refine randPrimeLoop_ends rand _ (by omega) (by omega) (by omega) (by omega) (by omega) ?_
  rw [primeDistance]
  split <;> omega

/-! ## Exponents -/

/-- `gcd` ends, since the second number falls. -/
theorem gcd_ok {turns a b : ℕ} (small : a < 2147483648) (small' : b < 2147483648) (enough : b < turns) :
    gcd turns a b = .ok ((a.gcd b : ℕ) : ℤ) := by
  induction turns generalizing a b with
  | zero => omega
  | succ turns ih =>
      rw [gcd]
      rcases Nat.eq_zero_or_pos b with rfl | positive
      · rw [if_neg (by simp), Nat.gcd_zero_right]
      · have rest : a % b < b := Nat.mod_lt a positive
        have remainder : CType.int.rem a b = .ok ((a % b : ℕ) : ℤ) :=
          CType.int_rem positive small
        rw [if_pos (by omega), remainder, ok_bind, ih small' (by omega) (by omega), Nat.gcd_comm b,
          ← Nat.gcd_rec, Nat.gcd_comm]

theorem gcd_inv {turns a b : ℕ} {g : ℤ} (ended : gcd turns a b = .ok g) : g = (a.gcd b : ℕ) := by
  induction turns generalizing a b with
  | zero => cases ended
  | succ turns ih =>
      rw [gcd] at ended
      split at ended
      · obtain ⟨rest, remainder, ended⟩ := bind_eq_ok.mp ended
        obtain rfl : rest = (a % b : ℕ) := CType.rem_inv remainder
        rw [ih ended, Nat.gcd_comm a b, Nat.gcd_rec b a, Nat.gcd_comm]
      · rename_i done
        obtain rfl : b = 0 := by omega
        cases ended
        rw [Nat.gcd_zero_right]

/-- The candidate after `e`. -/
def nextExponent (n e : ℕ) : ℕ := if (e + 1) % n ≤ 2 then 3 else (e + 1) % n

theorem nextExponent_range {n : ℕ} (large : 4 ≤ n) (e : ℕ) : 3 ≤ nextExponent n e ∧ nextExponent n e < n := by
  have rest : (e + 1) % n < n := Nat.mod_lt _ (by omega)
  rw [nextExponent]
  split <;> omega

theorem nextExponent_cast (n e : ℕ) :
    (if ((e + 1 : ℕ) : ℤ).tmod n ≤ 2 then (3 : ℤ) else ((e + 1 : ℕ) : ℤ).tmod n) = nextExponent n e := by
  have remainder : ((e + 1 : ℕ) : ℤ).tmod n = ((e + 1) % n : ℕ) := rfl
  rw [remainder, nextExponent]
  split <;> split <;> omega

/-- What one turn of the loop can do. -/
theorem randExponentLoop_cases {turns phi n e : ℕ} {x : ℤ}
    (ended : randExponentLoop phi n (turns + 1) e = .ok x) :
    e.Coprime phi ∧ x = e ∨
      ¬ e.Coprime phi ∧ randExponentLoop phi n turns (nextExponent n e) = .ok x := by
  obtain ⟨divisor, computed, ended⟩ := bind_eq_ok.mp ended
  have value := gcd_inv computed
  split at ended
  · rename_i one
    cases ended
    exact Or.inl ⟨by rw [Nat.Coprime]; omega, rfl⟩
  · rename_i common
    obtain ⟨next, sum, ended⟩ := bind_eq_ok.mp ended
    obtain ⟨next', remainder, ended⟩ := bind_eq_ok.mp ended
    obtain rfl : next = ((e + 1 : ℕ) : ℤ) := CType.add_inv sum
    obtain rfl := CType.rem_inv remainder
    rw [nextExponent_cast] at ended
    exact Or.inr ⟨by rw [Nat.Coprime]; omega, ended⟩

/-- From a candidate in the range the search stays in it. -/
theorem randExponentLoop_inv {turns phi n e : ℕ} {x : ℤ} (large : 4 ≤ n) (below : e < n)
    (ended : randExponentLoop phi n turns e = .ok x) :
    ∃ y : ℕ, x = y ∧ y < n ∧ y.Coprime phi ∧ (3 ≤ e → 3 ≤ y) := by
  induction turns generalizing e with
  | zero => cases ended
  | succ turns ih =>
      rcases randExponentLoop_cases ended with ⟨coprime, rfl⟩ | ⟨_, rest⟩
      · exact ⟨e, rfl, below, coprime, id⟩
      · obtain ⟨low, high⟩ := nextExponent_range large e
        obtain ⟨y, value, below', coprime, stays⟩ := ih high rest
        exact ⟨y, value, below', coprime, fun _ => stays low⟩

/-- The first candidate is the residue itself. -/
theorem randExponent_start {turns taken taken' phi n : ℕ} {rand : Rand} {x : ℤ}
    (ended : randExponent turns rand phi n taken = .ok (x, taken')) :
    randExponentLoop phi n turns ((rand taken).val % n : ℕ) = .ok x := by
  obtain ⟨first, remainder, ended⟩ := bind_eq_ok.mp ended
  obtain ⟨found, searched, ended⟩ := bind_eq_ok.mp ended
  cases ended
  obtain rfl : first = ((rand taken).val % n : ℕ) := CType.rem_inv remainder
  exact searched

/-- **When the exponent is in its range**: unless the first residue is 1, or is 2 with an odd `phi`. -/
theorem randExponent_in_range_iff {turns taken taken' phi n : ℕ} {rand : Rand} {x : ℤ} (nontrivial : 2 ≤ phi)
    (large : 4 ≤ n) (ended : randExponent turns rand phi n taken = .ok (x, taken')) :
    (3 ≤ x ∧ x ≤ n - 1 ∧ Int.gcd x phi = 1) ↔
      (rand taken).val % n ≠ 1 ∧ ¬ ((rand taken).val % n = 2 ∧ phi % 2 = 1) := by
  have below : (rand taken).val % n < n := Nat.mod_lt _ (by omega)
  have searched := randExponent_start ended
  generalize (rand taken).val % n = first at below searched
  obtain ⟨y, rfl, high, coprime, stays⟩ := randExponentLoop_inv large below searched
  cases turns with
  | zero => cases searched
  | succ turns =>
      rw [Int.gcd_natCast_natCast]
      rcases randExponentLoop_cases searched with ⟨taken', same⟩ | ⟨passed, rest⟩
      · obtain rfl : y = first := by omega
        have nonzero : y ≠ 0 := by
          rintro rfl
          rw [Nat.coprime_zero_left] at coprime
          omega
        have two : y = 2 → phi % 2 = 1 := by
          rintro rfl
          exact Nat.odd_iff.mp (Nat.coprime_two_left.mp coprime)
        constructor
        · rintro ⟨low, _⟩
          omega
        · rintro ⟨one, even⟩
          exact ⟨by omega, by omega, coprime⟩
      · obtain ⟨low, below'⟩ := nextExponent_range large first
        obtain ⟨y', same, _, _, stays'⟩ := randExponentLoop_inv large below' rest
        have three := stays' low
        refine iff_of_true ⟨by omega, by omega, coprime⟩ ⟨?_, ?_⟩
        · rintro rfl
          exact passed (Nat.coprime_one_left phi)
        · rintro ⟨rfl, odd⟩
          exact passed (Nat.coprime_two_left.mpr (Nat.odd_iff.mpr odd))

/-- The exponent is 1 only as the first residue: the walk itself stays above 2. -/
theorem randExponent_one_iff {turns taken taken' phi n : ℕ} {rand : Rand} {x : ℤ} (large : 4 ≤ n)
    (ended : randExponent turns rand phi n taken = .ok (x, taken')) : x = 1 ↔ (rand taken).val % n = 1 := by
  have searched := randExponent_start ended
  generalize (rand taken).val % n = first at searched
  cases turns with
  | zero => cases searched
  | succ turns =>
      rcases randExponentLoop_cases searched with ⟨_, rfl⟩ | ⟨common, rest⟩
      · exact Nat.cast_eq_one
      · obtain ⟨low, below⟩ := nextExponent_range large first
        obtain ⟨y, rfl, _, _, stays⟩ := randExponentLoop_inv large below rest
        have above := stays low
        refine iff_of_false (by omega) ?_
        rintro rfl
        exact common (Nat.coprime_one_left phi)

/-! ## The exponents are found -/

/-- How far the walk has to go from `e` to `goal`. -/
def exponentDistance (n goal e : ℕ) : ℕ := if e ≤ goal then goal - e else n + goal - e

/-- One turn of the walk. -/
theorem exponentDistance_next {n goal e : ℕ} (low : 3 ≤ goal) (high : goal < n) (below : e < n)
    (other : e ≠ goal) : exponentDistance n goal (nextExponent n e) < exponentDistance n goal e := by
  have next : nextExponent n e = 3 ∧ (e + 1 = n ∨ e + 1 ≤ 2) ∨ nextExponent n e = e + 1 ∧ e + 1 < n := by
    rw [nextExponent]
    rcases Nat.lt_or_eq_of_le (by omega : e + 1 ≤ n) with inside | last
    · rw [Nat.mod_eq_of_lt inside]
      split <;> omega
    · rw [last, Nat.mod_self, if_pos (by decide)]
      omega
  rw [exponentDistance, exponentDistance]
  rcases next with ⟨three, _⟩ | ⟨succ, _⟩
  · rw [three]
    split <;> split <;> omega
  · rw [succ]
    split <;> split <;> omega

theorem randExponentLoop_ends {turns phi n goal e : ℕ} (small : phi < 2147483648) (small' : n < 2147483648)
    (low : 3 ≤ goal) (high : goal < n) (coprime : goal.Coprime phi) (below : e < n)
    (enough : exponentDistance n goal e + phi < turns) :
    ∃ x : ℕ, randExponentLoop phi n turns e = .ok (x : ℤ) := by
  induction turns generalizing e with
  | zero => omega
  | succ turns ih =>
      rw [randExponentLoop, gcd_ok (by omega) small (by omega), ok_bind]
      by_cases one : e.gcd phi = 1
      · exact ⟨e, if_pos (by omega)⟩
      · have other : e ≠ goal := by
          rintro rfl
          exact one coprime
        have closer := exponentDistance_next low high below other
        have below' := (nextExponent_range (by omega : 4 ≤ n) e).2
        have sum : CType.int.add e 1 = .ok ((e + 1 : ℕ) : ℤ) :=
          CType.int_add (y := 1) (by omega)
        obtain ⟨x, ran⟩ := ih below' (by omega)
        refine ⟨x, ?_⟩
        rw [if_neg (by omega), sum, ok_bind,
          CType.rem_ok (by omega) (by omega) (by simp only [CType.bound]; omega), ok_bind, nextExponent_cast, ran]

theorem randExponent_ends {turns phi n goal : ℕ} (rand : Rand) (taken : ℕ) (small : phi < 2147483648)
    (small' : n < 2147483648) (low : 3 ≤ goal) (high : goal < n) (coprime : goal.Coprime phi)
    (enough : 2 * n + phi < turns) :
    ∃ x taken' : ℕ, randExponent turns rand phi n taken = .ok ((x : ℤ), taken') := by
  obtain ⟨drawn, rest⟩ := rand_rem rand taken (by omega : 0 < n)
  have near : exponentDistance n goal ((rand taken).val % n) + phi < turns := by
    rw [exponentDistance]
    split <;> omega
  obtain ⟨x, ran⟩ := randExponentLoop_ends small small' low high coprime rest near
  refine ⟨x, taken + 1, ?_⟩
  rw [randExponent, drawn, ok_bind, ran, ok_bind, pure_eq_ok]

/-- The odd primes up to 29: their product is more than an `int` holds. -/
def smallPrimes : Finset ℕ := {3, 5, 7, 11, 13, 17, 19, 23, 29}

/-- One of them does not divide `phi`. -/
theorem exists_exponent {phi : ℕ} (positive : 1 ≤ phi) (small : phi < 2147483648) :
    ∃ x ∈ smallPrimes, x.Coprime phi := by
  by_contra none
  have prime : ∀ p ∈ smallPrimes, p.Prime := by decide
  have divides : ∀ p ∈ smallPrimes, p ∣ phi := by
    intro p mem
    by_contra other
    exact none ⟨p, mem, (prime p mem).coprime_iff_not_dvd.mpr other⟩
  have product : ∏ p ∈ smallPrimes, p ∣ phi :=
    Finset.prod_primes_dvd phi (fun p mem => (prime p mem).prime) divides
  have value : ∏ p ∈ smallPrimes, p = 3234846615 := by decide
  have := Nat.le_of_dvd positive product
  omega

/-- **The searches end**, for every stream of random numbers: that for a prime at an odd number from
3 on, that for an exponent if there is one, and below EXPONENT_MAX there always is. -/
theorem searches_end (rand : Rand) (taken : ℕ) :
    (∀ n : ℕ, 4 ≤ n → n < 2 ^ 31 - 1 → ∀ turns > 2 * n + 5, ∃ p taken' : ℕ,
      randPrime turns rand n taken = .ok ((p : ℤ), taken') ∧ 3 ≤ p ∧ p % 2 = 1) ∧
    (∀ phi n : ℕ, 1 ≤ phi → phi < 2 ^ 31 → n < 2 ^ 31 → (∃ x, 3 ≤ x ∧ x ≤ n - 1 ∧ x.Coprime phi) →
      ∀ turns > 2 * n + phi, ∃ x taken' : ℕ, randExponent turns rand phi n taken = .ok ((x : ℤ), taken')) ∧
    (∀ phi : ℕ, 1 ≤ phi → phi < 2 ^ 31 →
      ∃ x : ℕ, 3 ≤ x ∧ (x : ℤ) ≤ exponentMax - 1 ∧ x.Coprime phi) := by
  refine ⟨?_, ?_, ?_⟩
  · intro n large small turns enough
    exact randPrime_ends rand taken large small enough
  · rintro phi n positive small small' ⟨goal, low, high, coprime⟩ turns enough
    exact randExponent_ends rand taken small small' low (by omega) coprime enough
  · intro phi positive small
    obtain ⟨x, mem, coprime⟩ := exists_exponent positive small
    have range : ∀ x ∈ smallPrimes, 3 ≤ x ∧ (x : ℤ) ≤ exponentMax - 1 := by decide
    exact ⟨x, (range x mem).1, (range x mem).2, coprime⟩

namespace Example

/-- One all the time: the exponent is 1, and encoding is the identity. -/
theorem ones_below_range :
    randExponent 10 (fun _ => 1) 6 1000 0 = .ok (1, 1) ∧ ¬ ((3 : ℤ) ≤ 1 ∧ (1 : ℤ) ≤ 1000 - 1 ∧ Int.gcd 1 6 = 1) := by
  constructor
  · decide
  · omega

/-- Two, with an even `phi`: the search goes on to 5. -/
theorem twos_in_range :
    randExponent 10 (fun _ => 2) (6 : ℕ) (1000 : ℕ) 0 = .ok (5, 1) ∧
      (3 : ℤ) ≤ 5 ∧ (5 : ℤ) ≤ (1000 : ℕ) - 1 ∧ Int.gcd 5 (6 : ℕ) = 1 := by
  have ended : randExponent 10 (fun _ => 2) (6 : ℕ) (1000 : ℕ) 0 = .ok (5, 1) := by decide
  exact ⟨ended, (randExponent_in_range_iff (by decide) (by decide) ended).mpr (by decide)⟩

/-- A stream that starts at the last candidate, for a prime and for an exponent: 7 has no factor in common
with 30. -/
theorem last_residue_ends :
    (∃ p taken' : ℕ, randPrime 100 (fun _ => 2147483647) 26 0 = .ok ((p : ℤ), taken') ∧ 3 ≤ p ∧ p % 2 = 1) ∧
      (∃ x taken' : ℕ, randExponent 100 (fun _ => 2147483647) (30 : ℕ) (8 : ℕ) 0 = .ok ((x : ℤ), taken')) := by
  obtain ⟨primes, exponents, -⟩ := searches_end (fun _ => 2147483647) 0
  exact ⟨primes 26 (by decide) (by decide) 100 (by decide),
    exponents 30 8 (by decide) (by decide) (by decide) ⟨7, by decide, by decide, by decide⟩ 100 (by decide)⟩

end Example

end HyperSmile.Crypto.Rsa
