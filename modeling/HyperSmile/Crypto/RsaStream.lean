/-
# Crypto.RsaStream — which streams of random numbers give a key that works

`randPrime` walks over the odd numbers from a residue on and keeps the first whose five bases all
lie. What it meets is a matter of the stream alone: `Settles` follows the candidates up to the first
prime, past composite numbers one of whose bases is a witness, and `Draws` the rounds up to a product
of 128. On a stream with draws the generation keeps two primes, at known places of the stream
(`drawPrimes_draws`), and its key works exactly if they are different or the residue drawn for the
exponent is 1 (`created_key_works_of_draws`).

The streams left are those with a composite number all of whose five bases lie. The generation keeps
it, and `created_key_works_iff` has the arithmetic of what comes of that.
-/
import HyperSmile.Crypto.RsaKey

namespace HyperSmile.Crypto.Rsa

open HyperSmile.Theory.CInt
open HyperSmile.Theory.EulerLiars (Liar liar_of_prime)

set_option autoImplicit false

/-! ## The stream -/

/-- The number the walk starts from: the residue, made odd. -/
def oddStart (value : Fin (2 ^ 31)) : ℕ := value.val % 10000 + (1 - value.val % 10000 % 2)

/-- The walk from candidate `c`, with its tests at `k`, comes to the prime `p` and ends at `k'`. -/
inductive Settles (rand : Rand) : ℕ → ℕ → ℕ → ℕ → Prop
  | prime {c k : ℕ} (prime : c.Prime) : Settles rand c k c (k + 5)
  | one {k p k' : ℕ} (rest : Settles rand 3 k p k') : Settles rand 1 k p k'
  /-- base `i` is the first witness -/
  | composite {c k p k' : ℕ} (i : ℕ) (large : 3 ≤ c) (composite : ¬ c.Prime) (tested : i < 5)
      (lies : ∀ j < i, Liar c (base rand c (k + j))) (witness : ¬ Liar c (base rand c (k + i)))
      (rest : Settles rand ((c + 2) % 10000) (k + i + 1) p k') : Settles rand c k p k'

/-- The rounds from position `k` on come to `p` and `q` and end at `k'`. -/
inductive Draws (rand : Rand) : ℕ → ℕ → ℕ → ℕ → Prop
  | done {k k₁ k₂ p q : ℕ} (first : Settles rand (oddStart (rand k)) (k + 1) p k₁)
      (second : Settles rand (oddStart (rand k₁)) (k₁ + 1) q k₂) (large : 128 ≤ p * q) : Draws rand k p q k₂
  | again {k k₁ k₂ k₃ p q p' q' : ℕ} (first : Settles rand (oddStart (rand k)) (k + 1) p' k₁)
      (second : Settles rand (oddStart (rand k₁)) (k₁ + 1) q' k₂) (small : p' * q' < 128)
      (rest : Draws rand k₂ p q k₃) : Draws rand k p q k₃

/-- The walk from candidate `c`, with its tests at `k`, comes to a composite number all of whose five bases
lie. -/
inductive Fools (rand : Rand) : ℕ → ℕ → Prop
  | here {c k : ℕ} (large : 3 ≤ c) (composite : ¬ c.Prime) (lies : ∀ j < 5, Liar c (base rand c (k + j))) :
      Fools rand c k
  | one {k : ℕ} (rest : Fools rand 3 k) : Fools rand 1 k
  | composite {c k : ℕ} (i : ℕ) (large : 3 ≤ c) (composite : ¬ c.Prime) (tested : i < 5)
      (lies : ∀ j < i, Liar c (base rand c (k + j))) (witness : ¬ Liar c (base rand c (k + i)))
      (rest : Fools rand ((c + 2) % 10000) (k + i + 1)) : Fools rand c k

/-- One of the walks of the rounds from position `k` on comes to such a number. -/
inductive Fooled (rand : Rand) : ℕ → Prop
  | first {k : ℕ} (first : Fools rand (oddStart (rand k)) (k + 1)) : Fooled rand k
  | second {k k₁ p : ℕ} (first : Settles rand (oddStart (rand k)) (k + 1) p k₁)
      (second : Fools rand (oddStart (rand k₁)) (k₁ + 1)) : Fooled rand k
  | again {k k₁ k₂ p q : ℕ} (first : Settles rand (oddStart (rand k)) (k + 1) p k₁)
      (second : Settles rand (oddStart (rand k₁)) (k₁ + 1) q k₂) (small : p * q < 128)
      (rest : Fooled rand k₂) : Fooled rand k

theorem oddStart_range (value : Fin (2 ^ 31)) : oddStart value % 2 = 1 ∧ oddStart value < 10000 := by
  rw [oddStart]
  omega

theorem Settles.is_prime {rand : Rand} {c k p k' : ℕ} (settles : Settles rand c k p k') : p.Prime := by
  induction settles with
  | prime prime => exact prime
  | one _ ih => exact ih
  | composite _ _ _ _ _ _ _ ih => exact ih

theorem Draws.is_prime {rand : Rand} {k p q k' : ℕ} (draws : Draws rand k p q k') : p.Prime ∧ q.Prime := by
  induction draws with
  | done first second _ => exact ⟨first.is_prime, second.is_prime⟩
  | again _ _ _ _ ih => exact ih

/-! ## More turns -/

theorem factorTwos_extends {turns turns' : ℕ} (more : turns ≤ turns') (a twos : ℤ) :
    Extends (factorTwos turns a twos) (factorTwos turns' a twos) := by
  induction turns generalizing turns' a twos with
  | zero => exact Extends.endless _
  | succ turns ih =>
      obtain ⟨turns', rfl⟩ : ∃ t, turns' = t + 1 := ⟨turns' - 1, by omega⟩
      refine Extends.bind (Extends.refl _) fun low => Extends.ite ?_ (Extends.refl _)
      refine Extends.bind (Extends.refl _) fun twos => Extends.bind (Extends.refl _) fun a => ?_
      exact ih (by omega) a twos

theorem jacobiLoop_extends {turns turns' : ℕ} (more : turns ≤ turns') (a n mult : ℤ) :
    Extends (jacobiLoop turns a n mult) (jacobiLoop turns' a n mult) := by
  induction turns generalizing turns' a n mult with
  | zero => exact Extends.endless _
  | succ turns ih =>
      obtain ⟨turns', rfl⟩ : ∃ t, turns' = t + 1 := ⟨turns' - 1, by omega⟩
      have next (a n mult : ℤ) : Extends (jacobiLoop turns n a mult) (jacobiLoop turns' n a mult) :=
        ih (by omega) n a mult
      refine Extends.ite (Extends.bind (Extends.refl _) fun a => Extends.ite (Extends.refl _) ?_) (Extends.refl _)
      refine Extends.bind (factorTwos_extends more a 0) fun ⟨a, twos⟩ => ?_
      -- the two coefficients are join points: each is followed by the rest in both branches
      refine Extends.ite (Extends.bind (Extends.refl _) fun mult => ?_) (Extends.bind (Extends.refl _) fun mult => ?_)
      all_goals
        refine Extends.ite (Extends.refl _) (Extends.ite ?_ ?_)
        · exact Extends.bind (Extends.refl _) fun mult => next a n mult
        · exact Extends.bind (Extends.refl _) fun mult => next a n mult

theorem solovayTests_extends {turns turns' : ℕ} (more : turns ≤ turns') (rand : Rand) (n : ℤ) (k taken : ℕ) :
    Extends (solovayTests turns rand n k taken) (solovayTests turns' rand n k taken) := by
  induction k generalizing taken with
  | zero => exact Extends.refl _
  | succ k ih =>
      refine Extends.bind (Extends.refl _) fun offset => ?_
      refine Extends.bind (Extends.bind (Extends.bind (jacobiLoop_extends more _ _ _) fun _ => Extends.refl _)
        fun _ => Extends.refl _) fun passed => ?_
      cases passed with
      | true => exact ih (taken + 1)
      | false => exact Extends.refl _

theorem probablePrime_extends {turns turns' : ℕ} (more : turns ≤ turns') (rand : Rand) (n : ℤ) (k taken : ℕ) :
    Extends (probablePrime turns rand n k taken) (probablePrime turns' rand n k taken) := by
  rw [probablePrime, probablePrime]
  split
  · exact Extends.refl _
  · split
    · exact Extends.refl _
    · exact solovayTests_extends more rand n k taken

/-! ## The walk -/

/-- What a test that has ended says is what it says with turns enough. -/
theorem probablePrime_unique {turns c k : ℕ} {rand : Rand} {r r' : Bool × ℕ}
    (ended : probablePrime turns rand c accuracy k = .ok r)
    (value : ∀ turns' > c, probablePrime turns' rand c accuracy k = .ok r') : r = r' := by
  have more := probablePrime_extends (by omega : turns ≤ turns + c + 1) rand c accuracy k r ended
  rw [value _ (by omega)] at more
  exact (Except.ok.inj more).symm

/-- An odd number from 3 on is put to the tests. -/
theorem probablePrime_odd (turns : ℕ) (rand : Rand) {c : ℕ} (odd : c % 2 = 1) (large : 3 ≤ c) (m k : ℕ) :
    probablePrime turns rand c m k = solovayTests turns rand c m k := by
  have parity : (c : ℤ).tmod 2 = (c % 2 : ℕ) := rfl
  rw [probablePrime, if_neg (by omega), if_neg (by omega)]

/-- A candidate that is kept or left: what the loop then does. -/
theorem randPrimeLoop_turn {turns c k k' taken : ℕ} {rand : Rand} {passed : Bool} {p : ℤ}
    (value : ∀ turns' > c, probablePrime turns' rand c accuracy k = .ok (passed, k'))
    (ended : randPrimeLoop rand 10000 turns c k = .ok (p, taken)) :
    if passed then p = c ∧ taken = k'
    else ∃ turns' < turns, randPrimeLoop rand 10000 turns' ((c + 2) % 10000 : ℕ) k' = .ok (p, taken) := by
  cases turns with
  | zero => cases ended
  | succ turns =>
      obtain ⟨⟨passed', k₁⟩, tested, ended⟩ := bind_eq_ok.mp ended
      obtain ⟨rfl, rfl⟩ := Prod.mk.inj (probablePrime_unique tested value)
      cases passed' with
      | true =>
          cases ended
          exact ⟨rfl, rfl⟩
      | false =>
          obtain ⟨next, sum, ended⟩ := bind_eq_ok.mp ended
          obtain ⟨next', remainder, ended⟩ := bind_eq_ok.mp ended
          obtain rfl : next = ((c + 2 : ℕ) : ℤ) := CType.add_inv sum
          obtain rfl : next' = ((c + 2) % 10000 : ℕ) := CType.rem_inv remainder
          exact ⟨turns, Nat.lt_succ_self turns, ended⟩

/-- The tests of a prime, and those of a composite number with a witness, say so. -/
theorem probablePrime_of_prime {rand : Rand} {c k : ℕ} (odd : c % 2 = 1) (large : 3 ≤ c) (below : c < 10000)
    (prime : c.Prime) : ∀ turns > c, probablePrime turns rand c accuracy k = .ok (true, k + 5) := by
  intro turns enough
  rw [probablePrime_odd turns rand odd large]
  refine solovayTests_all odd large (by omega) enough fun j _ => ?_
  have range := base_range rand large (k + j)
  exact liar_of_prime prime (by omega) range.2

theorem probablePrime_of_witness {rand : Rand} {c k i : ℕ} (odd : c % 2 = 1) (large : 3 ≤ c) (below : c < 10000)
    (tested : i < 5) (lies : ∀ j < i, Liar c (base rand c (k + j)))
    (witness : ¬ Liar c (base rand c (k + i))) :
    ∀ turns > c, probablePrime turns rand c accuracy k = .ok (false, k + i + 1) := by
  intro turns enough
  rw [probablePrime_odd turns rand odd large]
  exact solovayTests_witness odd large (by omega) enough tested lies witness

theorem probablePrime_one (rand : Rand) (k : ℕ) :
    ∀ turns > 1, probablePrime turns rand (1 : ℕ) accuracy k = .ok (false, k) := fun _ _ => rfl

/-- **A walk that settles ends at its prime**, and where it settles. -/
theorem randPrimeLoop_settles {rand : Rand} {c k p k' : ℕ} (settles : Settles rand c k p k') (odd : c % 2 = 1)
    (below : c < 10000) {turns taken : ℕ} {found : ℤ}
    (ended : randPrimeLoop rand 10000 turns c k = .ok (found, taken)) : found = p ∧ taken = k' := by
  induction settles generalizing turns with
  | prime prime =>
      have two := prime.two_le
      exact randPrimeLoop_turn (probablePrime_of_prime odd (by omega) below prime) ended
  | one _ ih =>
      obtain ⟨_, _, ended⟩ := randPrimeLoop_turn (probablePrime_one rand _) ended
      exact ih (by omega) (by omega) ended
  | composite i large _ tested lies witness _ ih =>
      obtain ⟨_, _, ended⟩ :=
        randPrimeLoop_turn (probablePrime_of_witness odd large below tested lies witness) ended
      exact ih (by omega) (by omega) ended

/-- The walk of `randPrime` starts at the residue made odd. -/
theorem randPrime_walk {rand : Rand} {turns k taken : ℕ} {found : ℤ}
    (ended : randPrime turns rand singleMax k = .ok (found, taken)) :
    randPrimeLoop rand 10000 turns (oddStart (rand k)) (k + 1) = .ok (found, taken) := by
  obtain ⟨prime, remainder, made⟩ := bind_eq_ok.mp ended
  obtain ⟨n, even, made⟩ := bind_eq_ok.mp made
  obtain ⟨prime', sum, walk⟩ := bind_eq_ok.mp made
  have residue : prime = ((rand k).val % 10000 : ℕ) := CType.rem_inv remainder
  have parity : (((rand k).val % 10000 : ℕ) : ℤ).tmod 2 = ((rand k).val % 10000 % 2 : ℕ) := rfl
  have start : prime' = oddStart (rand k) := by
    rw [CType.add_inv sum, residue, parity, oddStart]
    omega
  have wrap : n = 10000 := CType.add_inv even
  rwa [start, wrap] at walk

theorem randPrime_settles {rand : Rand} {k p k' : ℕ} (settles : Settles rand (oddStart (rand k)) (k + 1) p k')
    {turns taken : ℕ} {found : ℤ} (ended : randPrime turns rand singleMax k = .ok (found, taken)) :
    found = p ∧ taken = k' := by
  obtain ⟨odd, below⟩ := oddStart_range (rand k)
  exact randPrimeLoop_settles settles odd below (randPrime_walk ended)

/-- **The numbers kept are those drawn.** -/
theorem drawPrimes_draws {rand : Rand} {k p q k' : ℕ} (draws : Draws rand k p q k') {turns taken : ℕ} {p' q' : ℤ}
    (ended : drawPrimes rand turns k = .ok (p', q', taken)) : p' = p ∧ q' = q ∧ taken = k' := by
  induction draws generalizing turns with
  | done first second large =>
      cases turns with
      | zero => cases ended
      | succ turns =>
          obtain ⟨⟨x, k₁⟩, ran, ended⟩ := bind_eq_ok.mp ended
          obtain ⟨rfl, rfl⟩ := randPrime_settles first ran
          obtain ⟨⟨y, k₂⟩, ran', ended⟩ := bind_eq_ok.mp ended
          obtain ⟨rfl, rfl⟩ := randPrime_settles second ran'
          obtain ⟨n, product, ended⟩ := bind_eq_ok.mp ended
          have value := CType.mul_inv product
          rw [if_neg (by rw [value]; exact_mod_cast Nat.not_lt.mpr large)] at ended
          cases ended
          exact ⟨rfl, rfl, rfl⟩
  | again first second small _ ih =>
      cases turns with
      | zero => cases ended
      | succ turns =>
          obtain ⟨⟨x, k₁⟩, ran, ended⟩ := bind_eq_ok.mp ended
          obtain ⟨rfl, rfl⟩ := randPrime_settles first ran
          obtain ⟨⟨y, k₂⟩, ran', ended⟩ := bind_eq_ok.mp ended
          obtain ⟨rfl, rfl⟩ := randPrime_settles second ran'
          obtain ⟨n, product, ended⟩ := bind_eq_ok.mp ended
          have value := CType.mul_inv product
          rw [if_pos (by rw [value]; exact_mod_cast small)] at ended
          exact ih ended

/-! ## Every generation that ends -/

theorem exists_first_witness {rand : Rand} {c k : ℕ} (some_ : ¬ ∀ j < 5, Liar c (base rand c (k + j))) :
    ∃ i, (i < 5 ∧ ¬ Liar c (base rand c (k + i))) ∧ ∀ j < i, Liar c (base rand c (k + j)) := by
  classical
  have found : ∃ i, i < 5 ∧ ¬ Liar c (base rand c (k + i)) := by
    by_contra none
    exact some_ fun j inside => by_contra fun witness => none ⟨j, inside, witness⟩
  refine ⟨Nat.find found, Nat.find_spec found, fun j before => ?_⟩
  by_contra witness
  have inside := (Nat.find_spec found).1
  exact Nat.find_min found before ⟨by omega, witness⟩

/-- A walk that has ended has settled, but for a composite number that was kept. -/
theorem settles_of_ended {rand : Rand} {turns c k taken : ℕ} {found : ℤ} (odd : c % 2 = 1) (below : c < 10000)
    (ended : randPrimeLoop rand 10000 turns c k = .ok (found, taken)) :
    (∃ p, Settles rand c k p taken) ∨ Fools rand c k := by
  induction turns using Nat.strong_induction_on generalizing c k with
  | _ turns ih =>
      by_cases one : c = 1
      · subst one
        obtain ⟨turns', fewer, ended⟩ := randPrimeLoop_turn (probablePrime_one rand k) ended
        rcases ih turns' fewer (by omega) (by omega) ended with ⟨p, settles⟩ | fools
        · exact Or.inl ⟨p, .one settles⟩
        · exact Or.inr (.one fools)
      have large : 3 ≤ c := by omega
      by_cases prime : c.Prime
      · obtain ⟨_, rfl⟩ := randPrimeLoop_turn (probablePrime_of_prime odd large below prime) ended
        exact Or.inl ⟨c, .prime prime⟩
      by_cases all : ∀ j < 5, Liar c (base rand c (k + j))
      · exact Or.inr (.here large prime all)
      · obtain ⟨i, ⟨tested, witness⟩, first⟩ := exists_first_witness all
        obtain ⟨turns', fewer, ended⟩ :=
          randPrimeLoop_turn (probablePrime_of_witness odd large below tested first witness) ended
        rcases ih turns' fewer (by omega) (by omega) ended with ⟨p, settles⟩ | fools
        · exact Or.inl ⟨p, .composite i large prime tested first witness settles⟩
        · exact Or.inr (.composite i large prime tested first witness fools)

theorem randPrime_settles_of_ended {rand : Rand} {turns k taken : ℕ} {found : ℤ}
    (ended : randPrime turns rand singleMax k = .ok (found, taken)) :
    (∃ p : ℕ, found = p ∧ Settles rand (oddStart (rand k)) (k + 1) p taken) ∨
      Fools rand (oddStart (rand k)) (k + 1) := by
  obtain ⟨odd, below⟩ := oddStart_range (rand k)
  rcases settles_of_ended odd below (randPrime_walk ended) with ⟨p, settles⟩ | fools
  · exact Or.inl ⟨p, (randPrime_settles settles ended).1, settles⟩
  · exact Or.inr fools

/-- Rounds that have ended were draws, but for a composite number that was kept. -/
theorem draws_of_ended {rand : Rand} {turns k taken : ℕ} {p' q' : ℤ}
    (ended : drawPrimes rand turns k = .ok (p', q', taken)) :
    (∃ p q, Draws rand k p q taken) ∨ Fooled rand k := by
  induction turns generalizing k with
  | zero => cases ended
  | succ turns ih =>
      obtain ⟨⟨x, k₁⟩, ran, ended⟩ := bind_eq_ok.mp ended
      obtain ⟨⟨y, k₂⟩, ran', ended⟩ := bind_eq_ok.mp ended
      obtain ⟨n, product, ended⟩ := bind_eq_ok.mp ended
      have value := CType.mul_inv product
      rcases randPrime_settles_of_ended ran with ⟨p, first, settles⟩ | fools
      · rcases randPrime_settles_of_ended ran' with ⟨q, second, settles'⟩ | fools
        · rw [first, second, ← Nat.cast_mul] at value
          split at ended
          · rename_i small
            rcases ih ended with ⟨p₁, q₁, draws⟩ | fooled
            · exact Or.inl ⟨p₁, q₁, .again settles settles' (by omega) draws⟩
            · exact Or.inr (.again settles settles' (by omega) fooled)
          · cases ended
            exact Or.inl ⟨p, q, .done settles settles' (by omega)⟩
        · exact Or.inr (.second settles fools)
      · exact Or.inr (.first fools)

/-- What a generation that has ended has drawn. -/
theorem createKey_inv {turns : ℕ} {rand : Rand} {key : Key} (ended : createKey turns rand = .ok key) :
    ∃ taken taken' : ℕ, ∃ phi : ℤ, drawPrimes rand turns 0 = .ok (key.p, key.q, taken) ∧
      phi = (key.p - 1) * (key.q - 1) ∧ randExponent turns rand phi exponentMax taken = .ok (key.e, taken') := by
  obtain ⟨⟨p, q, taken⟩, draws, ended⟩ := bind_eq_ok.mp ended
  obtain ⟨n, product, ended⟩ := bind_eq_ok.mp ended
  obtain ⟨phi, totient, ended⟩ := bind_eq_ok.mp ended
  obtain ⟨⟨e, taken'⟩, search, ended⟩ := bind_eq_ok.mp ended
  obtain ⟨d, _, ended⟩ := bind_eq_ok.mp ended
  cases ended
  exact ⟨taken, taken', phi, draws, CType.mul_inv totient, search⟩

/-- **When the keys work**, by the stream.  A generation that ends keeps the two primes its stream
draws, unless a composite number is taken for a prime; with two primes the key gives every number
back exactly if they are different or the residue drawn for the exponent is 1. -/
theorem created_key_works_of_draws {turns : ℕ} {rand : Rand} {key : Key} (ended : createKey turns rand = .ok key) :
    ((∃ p q k, Draws rand 0 p q k) ∨ Fooled rand 0) ∧
      ∀ p q k, Draws rand 0 p q k → (Works key ↔ p ≠ q ∨ (rand k).val % 1000 = 1) := by
  obtain ⟨taken, taken', phi, drawn, totient, search⟩ := createKey_inv ended
  constructor
  · rcases draws_of_ended drawn with ⟨p, q, draws⟩ | fooled
    · exact Or.inl ⟨p, q, taken, draws⟩
    · exact Or.inr fooled
  · intro p q k draws
    obtain ⟨first, second, rfl⟩ := drawPrimes_draws draws drawn
    obtain ⟨primeP, primeQ⟩ := draws.is_prime
    obtain ⟨p', q', e, here, here', exponent, works, different⟩ := created_key_works_iff ended
    obtain rfl : p' = p := Int.ofNat_inj.mp (here.symm.trans first)
    obtain rfl : q' = q := Int.ofNat_inj.mp (here'.symm.trans second)
    by_cases same : p' = q'
    · subst same
      have square : ¬ Squarefree (p' * p') := fun free => primeP.not_isUnit (free p' (dvd_refl _))
      have order : phi = ((p' - 1) * (p' - 1) : ℕ) := by
        rw [totient, first, second, Nat.cast_mul, Nat.cast_sub primeP.one_le, Nat.cast_one]
      rw [exponent, order] at search
      have one := randExponent_one_iff (n := 1000) (by decide) search
      rw [works, ← one, Nat.cast_eq_one]
      simp [square]
    · exact iff_of_true (different primeP primeQ same) (Or.inl same)

namespace Example

/-- Thirteen all the time: both primes are 13. -/
def thirteens : Rand := fun _ => 13

/-- The message 13 comes back as 0. -/
theorem thirteens_lose :
    createKey 100 thirteens = .ok ⟨13, 13, 169, 144, 13, 133⟩ ∧ encode 13 13 169 = .ok 0 ∧
      decode 0 133 169 = .ok 0 := by
  refine ⟨?_, ?_, ?_⟩ <;> decide

/-- Nine with base 2 to begin with, then elevens for the next candidate, then seventeen. -/
def nineEleven : Rand := fun k => if k = 0 then 9 else if k = 1 then 0 else if k < 7 then 11 else 17

/-- The symbol of 2 modulo 9 is a sign, and its fourth power is 7. -/
theorem two_not_liar : ¬ Liar 9 2 := by
  rintro ⟨_, power⟩
  rcases jacobiSym.trichotomy ((2 : ℕ) : ℤ) 9 with sign | sign | sign
  all_goals
    rw [sign] at power
    exact absurd power (by decide)

theorem nineEleven_draws : Draws nineEleven 0 11 17 13 :=
  .done (.composite 0 (by decide) (by decide) (by decide) (fun _ none => absurd none (by omega)) two_not_liar
    (.prime (by decide))) (.prime (by decide)) (by decide)

/-- Nine is passed over, and the key of 11 and 17 works. -/
theorem nineEleven_works : ∃ key, createKey 100 nineEleven = .ok key ∧ key.n = 187 ∧ Works key := by
  have ended : createKey 100 nineEleven = .ok ⟨11, 17, 187, 160, 17, 113⟩ := by decide
  exact ⟨_, ended, rfl, ((created_key_works_of_draws ended).2 11 17 13 nineEleven_draws).mpr (Or.inl (by decide))⟩

end Example

end HyperSmile.Crypto.Rsa
