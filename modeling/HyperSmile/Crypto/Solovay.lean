/-
# Crypto.Solovay — the primality test of rsa.h

`solovayPrime` accepts a base exactly if it lies for the number (`solovayPrime_spec`): the symbol
and the power are compared as residues, and -1 is `n - 1`. So a prime passes with every base and
every stream of random numbers, and an odd number that is not prime is accepted by at most half of
the bases.
-/
import HyperSmile.Crypto.Jacobi
import HyperSmile.Theory.EulerLiars

namespace HyperSmile.Crypto.Rsa

open HyperSmile.Theory.CInt
open HyperSmile.Theory.EulerLiars

set_option autoImplicit false

/-! ## One base -/

/-- The comparison of `solovayPrime`: a residue against a symbol that is not 0. -/
theorem residue_eq_symbol_iff {n r : ℕ} (large : 3 ≤ n) {x : ℤ} (sign : x = 1 ∨ x = -1) :
    ((r % n : ℕ) : ℤ) = (if x = -1 then (n : ℤ) - 1 else x) ↔ (r : ZMod n) = (x : ℤ) := by
  rcases sign with rfl | rfl
  · rw [if_neg (by decide), Int.cast_one, ← Nat.cast_one (R := ZMod n), ZMod.natCast_eq_natCast_iff,
      Nat.ModEq, Nat.mod_eq_of_lt (by omega : 1 < n)]
    omega
  · have last : ((-1 : ℤ) : ZMod n) = ((n - 1 : ℕ) : ZMod n) := by
      rw [Nat.cast_sub (by omega), ZMod.natCast_self]
      push_cast
      ring
    rw [if_pos rfl, last, ZMod.natCast_eq_natCast_iff, Nat.ModEq, Nat.mod_eq_of_lt (by omega : n - 1 < n)]
    omega

/-- **`solovayPrime` accepts the bases that lie**, and faults for none. -/
theorem solovayPrime_spec {turns a n : ℕ} (odd : n % 2 = 1) (large : 3 ≤ n) (small : n < 2147483648)
    (below : a < n) (enough : n < turns) :
    ∃ passed, solovayPrime turns a n = .ok passed ∧ (passed = true ↔ Liar n a) := by
  have symbol := jacobi_value odd large small (by omega : a < 2147483648) enough
  have half : ((n : ℤ) - 1).tdiv 2 = ((n / 2 : ℕ) : ℤ) := by
    rw [Int.tdiv_eq_ediv_of_nonneg (by omega)]
    omega
  have power := modpow_eq (a := a) (b := n / 2) (by omega) small (by omega) (by omega)
  rw [solovayPrime, symbol, ok_bind, half, power, Liar]
  rcases jacobiSym.trichotomy a n with zero | sign
  · refine ⟨false, ?_, by simp [zero]⟩
    rw [zero]
    rfl
  · have nonzero : jacobiSym a n ≠ 0 := by
      rcases sign with sign | sign <;> rw [sign] <;> decide
    have compared : (if jacobiSym a n = -1 then (n : ℤ) - 1 else jacobiSym a n) ≠ 0 := by
      split
      · omega
      · exact nonzero
    refine ⟨_, if_neg compared, ?_⟩
    rw [decide_eq_true_iff, residue_eq_symbol_iff large sign, Nat.cast_pow]
    exact (and_iff_right nonzero).symm

/-! ## The tests -/

/-- `rand() % (n - 2) + 2`, with the value at a position of the stream: from 2 to `n - 1`. -/
def base (rand : Rand) (n k : ℕ) : ℕ := (rand k).val % (n - 2) + 2

theorem base_range (rand : Rand) {n : ℕ} (large : 3 ≤ n) (k : ℕ) : 2 ≤ base rand n k ∧ base rand n k < n := by
  have rest : (rand k).val % (n - 2) < n - 2 := Nat.mod_lt _ (by omega)
  rw [base]
  omega

/-- One turn of the tests: they go on exactly if the base lies. -/
theorem solovayTests_succ {turns n : ℕ} (rand : Rand) (odd : n % 2 = 1) (large : 3 ≤ n)
    (small : n < 2147483648) (enough : n < turns) (m k : ℕ) :
    ∃ passed, (passed = true ↔ Liar n (base rand n k)) ∧
      solovayTests turns rand n (m + 1) k =
        if passed then solovayTests turns rand n m (k + 1) else .ok (false, k + 1) := by
  have divisor : (n : ℤ) - 2 = ((n - 2 : ℕ) : ℤ) := by omega
  have drawn : CType.int.rem ((rand k).val : ℤ) ((n : ℤ) - 2) = .ok (((rand k).val % (n - 2) : ℕ) : ℤ) := by
    rw [divisor, CType.int_rem (by omega) (rand k).isLt]
  obtain ⟨passed, ran, lies⟩ := solovayPrime_spec odd large small (base_range rand large k).2 enough
  rw [base, Nat.cast_add, Nat.cast_ofNat] at ran
  refine ⟨passed, lies, ?_⟩
  rw [solovayTests, drawn, ok_bind, ran, ok_bind]

/-- The tests end without a fault; those of a prime all pass. -/
theorem solovayTests_ok {turns n : ℕ} (rand : Rand) (odd : n % 2 = 1) (large : 3 ≤ n)
    (small : n < 2147483648) (enough : n < turns) (k taken : ℕ) :
    ∃ passed taken', solovayTests turns rand n k taken = .ok (passed, taken') ∧
      (n.Prime → passed = true) := by
  induction k generalizing taken with
  | zero => exact ⟨true, taken, rfl, fun _ => rfl⟩
  | succ k ih =>
      obtain ⟨passed, lies, step⟩ := solovayTests_succ rand odd large small enough k taken
      rw [step]
      cases passed with
      | true => exact ih (taken + 1)
      | false =>
          refine ⟨false, taken + 1, rfl, fun prime => ?_⟩
          have range := base_range rand large taken
          exact lies.mpr (liar_of_prime prime (by omega) range.2)

/-- Tests whose bases all lie pass. -/
theorem solovayTests_all {turns n : ℕ} {rand : Rand} (odd : n % 2 = 1) (large : 3 ≤ n)
    (small : n < 2147483648) (enough : n < turns) {m k : ℕ} (lies : ∀ j < m, Liar n (base rand n (k + j))) :
    solovayTests turns rand n m k = .ok (true, k + m) := by
  induction m generalizing k with
  | zero => rfl
  | succ m ih =>
      obtain ⟨passed, here, step⟩ := solovayTests_succ rand odd large small enough m k
      have rest : solovayTests turns rand n m (k + 1) = .ok (true, k + 1 + m) := by
        refine ih fun j inside => ?_
        rw [Nat.add_assoc, Nat.add_comm 1 j]
        exact lies (j + 1) (by omega)
      rw [step, if_pos (here.mpr (lies 0 (by omega))), rest, Nat.add_assoc, Nat.add_comm 1 m]

/-- The first witness among the bases ends them. -/
theorem solovayTests_witness {turns n : ℕ} {rand : Rand} (odd : n % 2 = 1) (large : 3 ≤ n)
    (small : n < 2147483648) (enough : n < turns) {m k i : ℕ} (inside : i < m)
    (lies : ∀ j < i, Liar n (base rand n (k + j))) (witness : ¬ Liar n (base rand n (k + i))) :
    solovayTests turns rand n m k = .ok (false, k + i + 1) := by
  induction i generalizing m k with
  | zero =>
      obtain ⟨m, rfl⟩ : ∃ m', m = m' + 1 := ⟨m - 1, by omega⟩
      obtain ⟨passed, here, step⟩ := solovayTests_succ rand odd large small enough m k
      rw [step, if_neg fun passed => witness (here.mp passed), Nat.add_zero]
  | succ i ih =>
      obtain ⟨m, rfl⟩ : ∃ m', m = m' + 1 := ⟨m - 1, by omega⟩
      obtain ⟨passed, here, step⟩ := solovayTests_succ rand odd large small enough m k
      have shift (j : ℕ) : k + 1 + j = k + (j + 1) := by omega
      rw [step, if_pos (here.mpr (lies 0 (by omega))), ih (by omega), shift]
      · intro j below
        rw [shift]
        exact lies (j + 1) (by omega)
      · rw [shift]
        exact witness

theorem probablePrime_ok {turns n : ℕ} (rand : Rand) (positive : 1 ≤ n) (small : n < 2147483648)
    (enough : n < turns) (k taken : ℕ) :
    ∃ passed taken', probablePrime turns rand n k taken = .ok (passed, taken') ∧
      (n.Prime → passed = true) := by
  rw [probablePrime]
  by_cases two : n = 2
  · rw [if_pos (by omega)]
    exact ⟨true, taken, rfl, fun _ => rfl⟩
  · rw [if_neg (by omega)]
    have parity : (n : ℤ).tmod 2 = (n % 2 : ℕ) := rfl
    by_cases trivial : n % 2 = 0 ∨ n = 1
    · rw [if_pos (by omega)]
      refine ⟨false, taken, rfl, fun prime => ?_⟩
      have odd := prime.eq_two_or_odd
      have large := prime.one_lt
      omega
    · rw [if_neg (by omega)]
      exact solovayTests_ok rand (by omega) (by omega) small enough k taken

/-- **No prime is rejected**, and no number makes the test divide by zero or fault otherwise. -/
theorem probablePrime_accepts_primes (rand : Rand) (k taken : ℕ) :
    (∀ n turns : ℕ, n.Prime → n < 2 ^ 31 → n < turns →
      ∃ taken', probablePrime turns rand n k taken = .ok (true, taken')) ∧
    (∀ n turns : ℕ, 1 ≤ n → n < 2 ^ 31 → n < turns →
      ∃ result, probablePrime turns rand n k taken = .ok result) := by
  constructor
  · intro n turns prime small enough
    obtain ⟨passed, taken', ran, accepts⟩ :=
      probablePrime_ok rand prime.one_le small enough k taken
    exact ⟨taken', by rw [ran, accepts prime]⟩
  · intro n turns positive small enough
    obtain ⟨passed, taken', ran, _⟩ := probablePrime_ok rand positive small enough k taken
    exact ⟨_, ran⟩

/-! ## The bases that lie -/

/-- **At most half of the bases are accepted** for an odd number that is not prime. -/
theorem solovayPrime_liars_le (n turns : ℕ) (odd : n % 2 = 1) (composite : ¬ n.Prime) (large : 9 ≤ n)
    (small : n < 2 ^ 31) (enough : n < turns) :
    (∀ a : ℕ, 2 ≤ a → a ≤ n - 1 → ∃ passed, solovayPrime turns a n = .ok passed) ∧
      ((Finset.Icc 2 (n - 1)).filter (fun a : ℕ => solovayPrime turns a n = .ok true)).card ≤
        (n - 1) / 2 := by
  constructor
  · intro a _ high
    obtain ⟨passed, ran, _⟩ := solovayPrime_spec odd (by omega) small (by omega : a < n) enough
    exact ⟨passed, ran⟩
  · refine liars_le_half (by omega) odd composite ?_ ?_
    · intro a mem
      have range := Finset.mem_Icc.mp (Finset.mem_filter.mp mem).1
      omega
    · intro a mem
      obtain ⟨range, accepted⟩ := Finset.mem_filter.mp mem
      have high := (Finset.mem_Icc.mp range).2
      obtain ⟨passed, ran, lies⟩ := solovayPrime_spec odd (by omega) small (by omega : a < n) enough
      rw [ran] at accepted
      exact lies.mp (Except.ok.inj accepted)

namespace Example

/-- A stream of squares. -/
theorem thirtyOne_accepted :
    ∃ taken', probablePrime 32 (fun k => Fin.ofNat _ (k * k)) 31 accuracy 0 = .ok (true, taken') :=
  (probablePrime_accepts_primes (fun k => Fin.ofNat _ (k * k)) accuracy 0).1 31 32 (by decide)
    (by decide) (by decide)

/-- 561 passes Fermat's test for every unit, but not this one. -/
theorem carmichael_liars_le :
    ((Finset.Icc 2 560).filter (fun a : ℕ => solovayPrime 562 a 561 = .ok true)).card ≤ 280 :=
  (solovayPrime_liars_le 561 562 (by decide)
    (Nat.not_prime_mul (a := 3) (b := 187) (by decide) (by decide)) (by decide) (by decide)
    (by decide)).2

end Example

end HyperSmile.Crypto.Rsa
