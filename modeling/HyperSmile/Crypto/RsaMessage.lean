/-
# Crypto.RsaMessage — decoding undoes encoding

A message is cut into blocks of one, two or three characters, each block is a number in base
128 below the modulus, and each number goes through the power map and back. With a key whose
power map is the identity (`WorkingKey`), decoding returns the message, and no operation on the
way overflows (`decodeMessage_encodeMessage`).

The key that `create_secret` wraps is sixteen bytes. It comes back exactly if the modulus is
below 2^21, so that the blocks fill the sixteen bytes, and every byte is a 7-bit character
(`wrapped_key_iff`).
-/
import HyperSmile.Crypto.RsaArith
import HyperSmile.Theory.PowerMap
import Mathlib.Algebra.BigOperators.Fin

namespace HyperSmile.Crypto.Rsa

open HyperSmile.Theory.CInt
open HyperSmile.Theory.PowerMap
open HyperSmile.Theory.CInt.CType (shl shr toInt toInt_of_fits)

set_option autoImplicit false

/-! ## Working keys -/

/-- Modulus and exponents, as the code holds them, that give every number back. -/
structure WorkingKey (n e d : ℕ) : Prop where
  large : 128 ≤ n
  small : n < 2147483648
  encoder : e < 2147483648
  decoder : d < 2147483648
  works : ∀ m < n, m ^ (e * d) % n = m

/-- What `inverse` returns for a public exponent. -/
theorem inverse_coprime {e phi : ℕ} (positive : 0 < e) (small : e < 2147483648) (large : 1 < phi)
    (small' : phi < 2147483648) (coprime : e.Coprime phi) :
    ∃ d : ℕ, inverse e phi = .ok d ∧ d ≤ phi ∧ 0 < e * d ∧ phi ∣ e * d - 1 := by
  obtain ⟨d, ran, bounded, divides⟩ := inverse_spec positive (by omega) small small'
  rw [coprime.gcd_eq_one] at divides
  have nonzero : 0 < e * d := by
    rcases Nat.eq_zero_or_pos (e * d) with zero | nonzero
    · have product : (d : ℤ) * e = 0 := by exact_mod_cast (Nat.mul_comm d e).trans zero
      rw [product] at divides
      have := Int.le_of_dvd (by decide) (Int.dvd_neg.mpr divides)
      omega
    · exact nonzero
  refine ⟨d, ran, bounded, nonzero, ?_⟩
  have cast : ((e * d - 1 : ℕ) : ℤ) = d * e - (1 : ℕ) := by
    rw [Nat.cast_sub nonzero]
    push_cast
    ring
  exact Int.natCast_dvd_natCast.mp (cast ▸ divides)

/-- **Two different primes make a working key.** -/
theorem workingKey_of_primes {p q e : ℕ} (primeP : p.Prime) (primeQ : q.Prime) (different : p ≠ q)
    (smallP : p ≤ 9999) (smallQ : q ≤ 9999) (large : 128 ≤ p * q) (positive : 0 < e)
    (small : e < 2147483648) (coprime : e.Coprime ((p - 1) * (q - 1))) :
    ∃ d : ℕ, inverse e ((p - 1) * (q - 1) : ℕ) = .ok d ∧ WorkingKey (p * q) e d := by
  have product : p * q ≤ 9999 * 9999 := Nat.mul_le_mul smallP smallQ
  have totient : (p - 1) * (q - 1) ≤ 9999 * 9999 := Nat.mul_le_mul (by omega) (by omega)
  have nontrivial : 1 < (p - 1) * (q - 1) := by
    have twoP := primeP.two_le
    have twoQ := primeQ.two_le
    have other : p - 1 ≠ 1 ∨ q - 1 ≠ 1 := by omega
    rcases other with other | other
    · exact lt_of_lt_of_le (by omega) (Nat.le_mul_of_pos_right (p - 1) (by omega))
    · exact lt_of_lt_of_le (by omega) (Nat.le_mul_of_pos_left (q - 1) (by omega))
  obtain ⟨d, ran, bounded, nonzero, divides⟩ :=
    inverse_coprime positive small nontrivial (by omega) coprime
  exact ⟨d, ran, large, by omega, small, by omega, fun m inside =>
    pow_eq_self_of_primes primeP primeQ different nonzero divides inside⟩

namespace WorkingKey

variable {n e d m : ℕ}

theorem encode_eq (key : WorkingKey n e d) (inside : m < n) :
    encode m e n = .ok ((m ^ e % n : ℕ) : ℤ) := by
  have := key.large
  have := key.small
  have := key.encoder
  exact modpow_eq (by omega) key.small (by omega) (by omega)

theorem decode_eq (key : WorkingKey n e d) (inside : m < n) :
    decode ((m ^ e % n : ℕ) : ℤ) d n = .ok (m : ℤ) := by
  have := key.large
  have := key.small
  have := key.decoder
  have reduced : m ^ e % n < n := Nat.mod_lt _ (by omega)
  have back : (m ^ e % n) ^ d % n = m := by
    rw [← Nat.pow_mod, ← pow_mul, key.works m inside]
  rw [decode, modpow_eq (by omega) key.small (by omega) (by omega), back]

end WorkingKey

/-! ## Numbers in base 128 -/

/-- The number whose first `k` digits in base 128 are `f 0`, `f 1`, ... -/
def packed (f : ℕ → ℕ) : ℕ → ℕ
  | 0 => 0
  | k + 1 => packed f k + f k * 128 ^ k

theorem packed_lt {f : ℕ → ℕ} (digits : ∀ j, f j < 128) (k : ℕ) : packed f k < 128 ^ k := by
  induction k with
  | zero => exact Nat.one_pos
  | succ k ih =>
      have top : f k * 128 ^ k ≤ 127 * 128 ^ k := Nat.mul_le_mul_right _ (Nat.le_of_lt_succ (digits k))
      rw [packed, pow_succ]
      omega

theorem packed_digit {f : ℕ → ℕ} (digits : ∀ j, f j < 128) {j k : ℕ} (inside : j < k) :
    packed f k / 128 ^ j % 128 = f j := by
  induction k with
  | zero => omega
  | succ k ih =>
      rw [packed]
      rcases Nat.lt_succ_iff_lt_or_eq.mp inside with earlier | rfl
      · obtain ⟨l, rfl⟩ : ∃ l, k = j + 1 + l := ⟨k - (j + 1), by omega⟩
        have factor : f (j + 1 + l) * 128 ^ (j + 1 + l) =
            128 ^ j * (128 * (f (j + 1 + l) * 128 ^ l)) := by ring
        rw [factor, Nat.add_mul_div_left _ _ (by positivity), Nat.add_mul_mod_self_left, ih earlier]
      · rw [Nat.mul_comm, Nat.add_mul_div_left _ _ (by positivity),
          Nat.div_eq_of_lt (packed_lt digits j), Nat.zero_add, Nat.mod_eq_of_lt (digits j)]

/-! ## Blocks -/

/-- Character `i` of a message, as a number. -/
def charAt (message : List (BitVec 8)) (i : ℕ) : ℕ := (message.getD i 0).toNat

/-- Seven bits in every byte. -/
def IsText (message : List (BitVec 8)) : Prop := ∀ b ∈ message, b.toNat < 128

theorem charAt_lt {message : List (BitVec 8)} (text : IsText message) (i : ℕ) : charAt message i < 128 := by
  rw [charAt, List.getD_eq_getElem?_getD]
  rcases Nat.lt_or_ge i message.length with inside | outside
  · rw [List.getElem?_eq_getElem inside]
    exact text _ (List.getElem_mem inside)
  · rw [List.getElem?_eq_none outside]
    decide

theorem load_char {message : List (BitVec 8)} (text : IsText message) {i : ℕ}
    (inside : i < message.length) :
    ∃ char, load message i = .ok char ∧ char.toInt = (charAt message i : ℤ) := by
  refine ⟨message.getD i 0, load_ok ?_, ?_⟩
  · rw [List.getD_eq_getElem?_getD, List.getElem?_eq_getElem inside, Option.getD_some]
  · have low := charAt_lt text i
    rw [charAt] at low ⊢
    exact BitVec.toInt_eq_toNat_of_lt (by omega)

/-- The place of a digit, by shifting. -/
theorem shl_place {j : ℕ} (short : j < 3) : shl 1 (7 * j) = .ok ((128 ^ j : ℕ) : ℤ) := by
  have three : j = 0 ∨ j = 1 ∨ j = 2 := by omega
  rcases three with rfl | rfl | rfl <;> rfl

theorem place_le {j : ℕ} (short : j < 3) : 128 ^ j ≤ 128 ^ 2 := Nat.pow_le_pow_right (by decide) (by omega)

theorem shift_ok {j : ℕ} (short : j < 3) : CType.int.mul 7 j = .ok (7 * j) :=
  CType.mul_ok (CType.fits_of_lt (b := 2147483648) (le_refl _) (by omega) (by omega))

theorem addDigit_eq {message : List (BitVec 8)} (text : IsText message)
    (room : message.length < 2147483648) {i j x : ℕ} (short : j < 3) (inside : i + j < message.length)
    (small : x < 128 ^ j) :
    addDigit message i j x = .ok ((x + charAt message (i + j) * 128 ^ j : ℕ) : ℤ) := by
  obtain ⟨char, loaded, code⟩ := load_char text inside
  have place := place_le short
  have digit : charAt message (i + j) * 128 ^ j ≤ 127 * 128 ^ 2 :=
    Nat.mul_le_mul (Nat.le_of_lt_succ (charAt_lt text _)) place
  have product : char.toInt * (128 ^ j : ℕ) = (charAt message (i + j) * 128 ^ j : ℕ) := by
    rw [code, Nat.cast_mul]
  rw [addDigit, CType.int_add (by omega), ok_bind, loaded, ok_bind, shift_ok short, ok_bind, shl_place short,
    ok_bind, CType.mul, product, CType.int_check (by omega), ok_bind, CType.int_add (by omega)]

/-- A block of at most three characters. -/
theorem encodeBlock_eq {message : List (BitVec 8)} (text : IsText message)
    (room : message.length < 2147483648) {bytes i : ℕ} (short : bytes ≤ 3)
    (inside : i + bytes ≤ message.length) :
    encodeBlock bytes message i = .ok (packed (fun j => charAt message (i + j)) bytes : ℤ) := by
  have low (j : ℕ) : charAt message (i + j) < 128 := charAt_lt text _
  obtain ⟨x, ran, rfl⟩ := forLoop_count (addDigit message i) bytes 0
    (fun k x => x = (packed (fun j => charAt message (i + j)) k : ℤ))
    (lt_of_le_of_lt (by omega : (bytes : ℤ) ≤ 3) (by decide)) rfl (by
      rintro k before _ rfl
      exact ⟨_, addDigit_eq text room (by omega) (by omega) (packed_lt low k), rfl⟩)
  exact ran

/-! ## Encoding -/

/-- Cell `i` holds `x`. -/
def Holds (cells : Cells) (i : ℕ) (x : ℤ) : Prop := cells[i]? = some (some x)

/-- The first `k` cells hold `f 0`, `f 1`, ... -/
structure Filled (size : ℕ) (f : ℕ → ℤ) (k : ℕ) (cells : Cells) : Prop where
  length : cells.length = size
  holds : ∀ i < k, Holds cells i (f i)

theorem filled_malloc (size : ℕ) (f : ℕ → ℤ) : Filled size f 0 (malloc size) where
  length := by rw [malloc, List.length_replicate, Int.toNat_natCast]
  holds := by
    intro i below
    omega

theorem Filled.store {size k : ℕ} {f : ℕ → ℤ} {cells : Cells} (filled : Filled size f k cells)
    (inside : k < size) :
    ∃ cells', store cells k (f k) = .ok cells' ∧ Filled size f (k + 1) cells' := by
  refine ⟨_, store_ok (by rw [filled.length]; exact inside) _, ?_, ?_⟩
  · rw [List.length_set, filled.length]
  · intro i below
    rw [Holds, List.getElem?_set]
    rcases Nat.lt_succ_iff_lt_or_eq.mp below with earlier | rfl
    · rw [if_neg (by omega)]
      exact filled.holds i earlier
    · rw [if_pos rfl, if_pos (by rw [filled.length]; exact inside)]

section Message

variable {n e d bytes count : ℕ} {message : List (BitVec 8)}

/-- Block `i` of a message, as a number. -/
def blockAt (message : List (BitVec 8)) (bytes i : ℕ) : ℕ :=
  packed (fun j => charAt message (i * bytes + j)) bytes

theorem blockAt_lt (text : IsText message) (fill : 128 ^ bytes ≤ n) (i : ℕ) :
    blockAt message bytes i < n :=
  lt_of_lt_of_le (packed_lt (fun _ => charAt_lt text _) bytes) fill

theorem encodeAt_eq (key : WorkingKey n e d) (text : IsText message)
    (room : message.length < 2147483648) (positive : 0 < bytes) (short : bytes ≤ 3)
    (fill : 128 ^ bytes ≤ n) {k : ℕ} (inside : k * bytes + bytes ≤ message.length) {encoded : Cells}
    (filled : Filled count (fun i => ((blockAt message bytes i ^ e % n : ℕ) : ℤ)) k encoded)
    (left : k < count) :
    ∃ encoded', encodeAt bytes message e n ((k : ℤ) * bytes) encoded = .ok encoded' ∧
      Filled count (fun i => ((blockAt message bytes i ^ e % n : ℕ) : ℤ)) (k + 1) encoded' := by
  obtain ⟨encoded', stored, filled'⟩ := filled.store left
  refine ⟨encoded', ?_, filled'⟩
  have place : (k : ℤ) * bytes = (k * bytes : ℕ) := (Nat.cast_mul k bytes).symm
  have index : ((k * bytes : ℕ) : ℤ).tdiv bytes = (k : ℤ) := by
    have whole : k * bytes / bytes = k := Nat.mul_div_cancel k positive
    exact congrArg Nat.cast whole
  have block : encodeBlock bytes message (k * bytes : ℕ) = .ok (blockAt message bytes k : ℤ) :=
    encodeBlock_eq text room short inside
  rw [encodeAt, place, block, ok_bind, key.encode_eq (blockAt_lt text fill k), ok_bind,
    CType.quot_ok (by omega) (by omega) (CType.int_fits (by omega)).2, ok_bind, index]
  exact stored

/-- **What `encodeMessage` returns**: the cryptogram of every block. -/
theorem encodeMessage_eq (key : WorkingKey n e d) (text : IsText message)
    (room : message.length < 2147483648) (positive : 0 < bytes) (short : bytes ≤ 3)
    (fill : 128 ^ bytes ≤ n) (whole : message.length = count * bytes) :
    ∃ encoded, encodeMessage message.length bytes message e n = .ok encoded ∧
      Filled count (fun i => ((blockAt message bytes i ^ e % n : ℕ) : ℤ)) count encoded := by
  have quotient : (message.length : ℤ).tdiv bytes = (count : ℤ) := by
    have exact : message.length / bytes = count := by rw [whole, Nat.mul_div_cancel count positive]
    exact congrArg Nat.cast exact
  have turns : count ≤ message.length := by
    rw [whole]
    exact Nat.le_mul_of_pos_right count positive
  have last : (count : ℤ) * bytes = message.length := by
    rw [whole, Nat.cast_mul]
  rw [encodeMessage, CType.quot_ok (by omega) (by omega) (CType.int_fits (by omega)).2, ok_bind,
    quotient]
  refine forLoop_total (Filled count fun i => ((blockAt message bytes i ^ e % n : ℕ) : ℤ))
    (by omega : count < _) (by omega) last (CType.int_fits room).2 (filled_malloc count _) ?_
  intro k before encoded filled
  have inside : k * bytes + bytes ≤ message.length := by
    rw [whole, ← Nat.succ_mul]
    exact Nat.mul_le_mul_right bytes before
  exact encodeAt_eq key text room positive short fill inside filled before

/-! ## Decoding -/

theorem storeDigit_eq {x i j size : ℕ} {f : ℕ → ℤ} {decoded : Cells} (small : x < 2147483648)
    (short : bytes ≤ 3) (inside : j < bytes) (room : size < 2147483648) (left : i * bytes + j < size)
    (filled : Filled size f (i * bytes + j) decoded) (digit : f (i * bytes + j) = (x / 128 ^ j % 128 : ℕ)) :
    ∃ decoded', storeDigit bytes i x j decoded = .ok decoded' ∧
      Filled size f (i * bytes + j + 1) decoded' := by
  obtain ⟨decoded', stored, filled'⟩ := filled.store left
  refine ⟨decoded', ?_, filled'⟩
  have power : (2 : ℤ) ^ (7 * (j : ℤ)).toNat = (128 ^ j : ℕ) := by
    have exponent : (7 * (j : ℤ)).toNat = 7 * j := by omega
    rw [exponent, pow_mul]
    push_cast
    rfl
  have shifted : shr x (7 * j) = .ok ((x / 128 ^ j : ℕ) : ℤ) := by
    rw [shr, if_pos (by omega), power, Int.natCast_div]
  have below : x / 128 ^ j ≤ x := Nat.div_le_self _ _
  have remainder : CType.int.rem ((x / 128 ^ j : ℕ) : ℤ) 128 = .ok (f (i * bytes + j)) := by
    rw [digit]
    exact CType.int_rem (by decide) (by omega)
  rw [storeDigit, CType.int_mul (by omega), ok_bind, CType.int_add (by omega), ok_bind, shift_ok (by omega),
    ok_bind, shifted, ok_bind, remainder, ok_bind]
  exact stored

theorem decodeAt_eq (key : WorkingKey n e d) (text : IsText message) (short : bytes ≤ 3)
    (fill : 128 ^ bytes ≤ n) (room : message.length < 2147483648)
    {k : ℕ} (inside : k * bytes + bytes ≤ message.length) {encoded decoded : Cells}
    (holds : Holds encoded k ((blockAt message bytes k ^ e % n : ℕ) : ℤ))
    (filled : Filled message.length (fun i => (charAt message i : ℤ)) (k * bytes) decoded) :
    ∃ decoded', decodeAt bytes encoded d n k decoded = .ok decoded' ∧
      Filled message.length (fun i => (charAt message i : ℤ)) ((k + 1) * bytes) decoded' := by
  have block := blockAt_lt text fill k
  have small := key.small
  have low (j : ℕ) : charAt message (k * bytes + j) < 128 := charAt_lt text _
  rw [decodeAt, load_ok holds, ok_bind, value, ok_bind, key.decode_eq block, ok_bind]
  have all := forLoop_count (storeDigit bytes k (blockAt message bytes k)) bytes decoded
    (fun j => Filled message.length (fun i => (charAt message i : ℤ)) (k * bytes + j))
    (lt_of_le_of_lt (by omega : (bytes : ℤ) ≤ 3) (by decide)) filled
    (by
      intro j before decoded filled
      refine storeDigit_eq (by omega) short before room (by omega) filled ?_
      rw [blockAt, packed_digit low before])
  rwa [← Nat.succ_mul] at all

/-- **Decoding undoes encoding**, for blocks that stay below the modulus. -/
theorem decodeMessage_encoded (key : WorkingKey n e d) (text : IsText message)
    (room : message.length < 2147483648) (short : bytes ≤ 3)
    (fill : 128 ^ bytes ≤ n) (whole : message.length = count * bytes) (small : count < 2147483648)
    {encoded : Cells}
    (filled : Filled count (fun i => ((blockAt message bytes i ^ e % n : ℕ) : ℤ)) count encoded) :
    decodeMessage count bytes encoded d n = .ok (message.map fun b => some (b.toNat : ℤ)) := by
  have size : (count : ℤ) * bytes = message.length := by
    rw [whole, Nat.cast_mul]
  obtain ⟨decoded, ran, all⟩ := forLoop_count (decodeAt bytes encoded d n) count (malloc message.length)
    (fun k => Filled message.length (fun i => (charAt message i : ℤ)) (k * bytes)) (CType.int_fits small).2
    (by
      rw [Nat.zero_mul]
      exact filled_malloc _ _)
    (by
      intro k before decoded filled'
      have inside : k * bytes + bytes ≤ message.length := by
        rw [whole, ← Nat.succ_mul]
        exact Nat.mul_le_mul_right bytes before
      exact decodeAt_eq key text short fill room inside (filled.holds k before) filled')
  rw [decodeMessage, CType.mul, size, CType.int_check room, ok_bind, ran]
  refine congrArg Except.ok (List.ext_getElem? fun i => ?_)
  rw [← whole] at all
  rw [List.getElem?_map]
  rcases Nat.lt_or_ge i message.length with inside | outside
  · rw [all.holds i inside, List.getElem?_eq_getElem inside]
    simp [charAt, inside]
  · rw [List.getElem?_eq_none (by rw [all.length]; exact outside), List.getElem?_eq_none outside]
    rfl

end Message

/-! ## Messages of create_secret's keys -/

/-- The block size is the largest of one, two and three that fits. -/
theorem blockBytes_spec {n : ℕ} (large : 128 ≤ n) :
    ∃ bytes : ℕ, blockBytes n = bytes ∧ 0 < bytes ∧ bytes ≤ 3 ∧ 128 ^ bytes ≤ n ∧
      (bytes = 3 ↔ 2097152 ≤ n) := by
  rcases Nat.lt_or_ge n 2097152 with below | three
  · rcases Nat.lt_or_ge n 16384 with one | two
    · refine ⟨1, ?_, by decide, by decide, by omega, by omega⟩
      rw [blockBytes, if_neg (by omega), if_neg (by omega)]
      rfl
    · refine ⟨2, ?_, by decide, by decide, by omega, by omega⟩
      rw [blockBytes, if_neg (by omega), if_pos (by omega)]
      rfl
  · refine ⟨3, ?_, by decide, by decide, by omega, by omega⟩
    rw [blockBytes, if_pos (by omega)]
    rfl

/-- **Decoding undoes encoding on text**, without overflow, for every pair of primes and every
exponent that `create_secret` can draw. -/
theorem decodeMessage_encodeMessage {p q e : ℕ} (primeP : p.Prime) (primeQ : q.Prime) (different : p ≠ q)
    (smallP : p ≤ 9999) (smallQ : q ≤ 9999) (large : 128 ≤ p * q) (positive : 1 ≤ e) (small : e < 1000)
    (coprime : e.gcd ((p - 1) * (q - 1)) = 1) (message : List (BitVec 8))
    (room : message.length < 2147483648) (whole : blockBytes (p * q : ℕ) ∣ message.length)
    (text : ∀ b ∈ message, b.toNat < 128) :
    ∃ d encoded, inverse e ((p - 1) * (q - 1) : ℕ) = .ok d ∧
      encodeMessage message.length (blockBytes (p * q : ℕ)) message e (p * q : ℕ) = .ok encoded ∧
      decodeMessage (message.length / blockBytes (p * q : ℕ)) (blockBytes (p * q : ℕ)) encoded d
        (p * q : ℕ) = .ok (message.map fun b => some (b.toNat : ℤ)) := by
  obtain ⟨d, inverted, key⟩ := workingKey_of_primes primeP primeQ different smallP smallQ large positive
    (by omega) coprime
  obtain ⟨bytes, size, nonzero, short, fill, _⟩ := blockBytes_spec large
  rw [size] at whole ⊢
  obtain ⟨count, factor⟩ := Int.natCast_dvd_natCast.mp whole
  rw [Nat.mul_comm] at factor
  have turns : count ≤ message.length := by
    rw [factor]
    exact Nat.le_mul_of_pos_right count nonzero
  have quotient : (message.length : ℤ) / bytes = (count : ℕ) := by
    rw [← Int.natCast_div, factor, Nat.mul_div_cancel count nonzero]
  obtain ⟨encoded, ran, filled⟩ := encodeMessage_eq key text room nonzero short fill factor
  refine ⟨d, encoded, inverted, ran, ?_⟩
  rw [quotient]
  exact decodeMessage_encoded key text room short fill factor (by omega) filled

/-! ## The wrapped key -/

/-- Every cell that has a value has one below 128. -/
def Low (cells : Cells) : Prop := ∀ i x, Holds cells i x → x < 128

theorem malloc_low (n : ℕ) : Low (malloc n) := by
  intro i x holds
  rw [Holds, malloc, List.getElem?_replicate] at holds
  split at holds <;> cases holds

theorem storeDigit_low {bytes i x j : ℤ} {cells cells' : Cells} (low : Low cells)
    (stored : storeDigit bytes i x j cells = .ok cells') : Low cells' := by
  obtain ⟨start, _, stored⟩ := bind_eq_ok.mp stored
  obtain ⟨index, _, stored⟩ := bind_eq_ok.mp stored
  obtain ⟨shift, _, stored⟩ := bind_eq_ok.mp stored
  obtain ⟨rest, _, stored⟩ := bind_eq_ok.mp stored
  obtain ⟨digit, remainder, stored⟩ := bind_eq_ok.mp stored
  have value := CType.rem_inv remainder
  intro k y holds
  rw [store_inv stored, Holds, List.getElem?_set] at holds
  split at holds
  · split at holds
    · have same : digit = y := Option.some.inj (Option.some.inj holds)
      have := Int.tmod_lt_of_pos rest (by decide : (0 : ℤ) < 128)
      omega
    · cases holds
  · exact low k y holds

/-- What `decodeMessage` stores is below 128. -/
theorem decoded_lt {len bytes exponent modulus : ℤ} {cryptogram decoded : Cells}
    (ran : decodeMessage len bytes cryptogram exponent modulus = .ok decoded) {i : ℕ} {x : ℤ}
    (holds : Holds decoded i x) : x < 128 := by
  obtain ⟨count, _, ran⟩ := bind_eq_ok.mp ran
  have all : Low decoded := by
    refine forLoop_partial Low (malloc_low _) ?_ ran
    intro i cells cells' low turn
    obtain ⟨cell, _, turn⟩ := bind_eq_ok.mp turn
    obtain ⟨c, _, turn⟩ := bind_eq_ok.mp turn
    obtain ⟨x, _, turn⟩ := bind_eq_ok.mp turn
    exact forLoop_partial Low low (fun _ _ _ low => storeDigit_low low) turn
  exact all i x holds

/-- Blocks of three read two bytes beyond the sixteen. -/
theorem encodeMessage_three {key : List (BitVec 8)} (sixteen : key.length = 16) {e n : ℤ}
    {encoded : Cells} : encodeMessage 16 3 key e n ≠ .ok encoded := by
  intro ran
  obtain ⟨count, _, ran⟩ := bind_eq_ok.mp ran
  obtain ⟨before, after, turn⟩ := forLoop_visits ran (by decide) 5 (by decide)
  obtain ⟨x, block, _⟩ := bind_eq_ok.mp turn
  obtain ⟨before', after', digit⟩ := forLoop_visits block (by decide) 1 (by decide)
  have outside : load key ((16 : ℕ) : ℤ) = .error .outOfBounds := load_outside (by omega)
  obtain ⟨index, sum, digit⟩ := bind_eq_ok.mp digit
  obtain rfl : 16 = index := Except.ok.inj sum
  obtain ⟨char, loaded, _⟩ := bind_eq_ok.mp digit
  rw [show (16 : ℤ) = ((16 : ℕ) : ℤ) from rfl, outside] at loaded
  cases loaded

/-- The key comes back: encoding and decoding end, inside their arrays, with the sixteen bytes. -/
def ComesBack (p q e : ℕ) (key : List (BitVec 8)) : Prop :=
  ∃ d encoded decoded, inverse e ((p - 1) * (q - 1) : ℕ) = .ok d ∧
    encodeMessage 16 (blockBytes (p * q : ℕ)) key e (p * q : ℕ) = .ok encoded ∧
    decodeMessage (16 / blockBytes (p * q : ℕ)) (blockBytes (p * q : ℕ)) encoded d (p * q : ℕ) =
      .ok decoded ∧
    ∀ i : ℕ, i < 16 → decoded[i]? = some (some ((key.getD i 0).toNat : ℤ))

/-- **When a wrapped key comes back.** -/
theorem wrapped_key_iff {p q e : ℕ} (primeP : p.Prime) (primeQ : q.Prime) (different : p ≠ q)
    (smallP : p ≤ 9999) (smallQ : q ≤ 9999) (large : 128 ≤ p * q) (positive : 1 ≤ e)
    (small : e < 2147483648) (coprime : e.gcd ((p - 1) * (q - 1)) = 1) {key : List (BitVec 8)}
    (sixteen : key.length = 16) :
    ComesBack p q e key ↔ p * q < 2097152 ∧ ∀ b ∈ key, b.toNat < 128 := by
  obtain ⟨bytes, size, nonzero, short, fill, three⟩ := blockBytes_spec large
  rw [ComesBack, size]
  constructor
  · rintro ⟨d, encoded, decoded, _, ran, ran', back⟩
    refine ⟨?_, ?_⟩
    · by_contra beyond
      obtain rfl := three.mpr (by omega)
      exact encodeMessage_three sixteen ran
    · intro b member
      obtain ⟨i, inside, rfl⟩ := List.getElem_of_mem member
      have holds := back i (by omega)
      rw [List.getD_eq_getElem?_getD, List.getElem?_eq_getElem inside, Option.getD_some] at holds
      have := decoded_lt ran' holds
      omega
  · rintro ⟨below, text⟩
    obtain ⟨d, inverted, working⟩ := workingKey_of_primes primeP primeQ different smallP smallQ large
      positive small coprime
    have two : bytes = 1 ∨ bytes = 2 := by omega
    have factor : key.length = 16 / bytes * bytes := by
      rcases two with rfl | rfl <;> omega
    have quotient : (16 : ℤ) / bytes = (16 / bytes : ℕ) := rfl
    obtain ⟨encoded, ran, filled⟩ := encodeMessage_eq working text (by omega) nonzero short fill factor
    have ran' := decodeMessage_encoded working text (by omega) short fill factor
      (lt_of_le_of_lt (Nat.div_le_self 16 bytes) (by decide)) filled
    rw [sixteen] at ran
    refine ⟨d, encoded, _, inverted, ran, ran', ?_⟩
    intro i inside
    have there : i < key.length := by omega
    simp [there]

namespace Example

/-- The key of `create_secret`. -/
def secretKey : List (BitVec 8) :=
  [0x2b, 0x7e, 0x15, 0x16, 0x28, 0xae, 0xd2, 0xa6, 0xab, 0xf7, 0x15, 0x88, 0x09, 0xcf, 0x4f, 0x3c]

theorem hi_comes_back : ∃ d encoded, inverse 7 120 = .ok d ∧
    encodeMessage 2 1 [0x48, 0x69] 7 143 = .ok encoded ∧
    decodeMessage 2 1 encoded d 143 = .ok [some 0x48, some 0x69] :=
  decodeMessage_encodeMessage (p := 11) (q := 13) (e := 7) (by decide) (by decide) (by decide) (by decide)
    (by decide) (by decide) (by decide) (by decide) (by decide) [0x48, 0x69] (by decide) (by decide)
    (by decide)

theorem sevens_come_back : ComesBack 11 13 7 (List.replicate 16 7) :=
  (wrapped_key_iff (by decide) (by decide) (by decide) (by decide) (by decide) (by decide) (by decide)
    (by decide) (by decide) (by decide)).mpr (by decide)

/-- The byte 0xae is a negative `char`, and comes back as -82. -/
theorem secretKey_lost : ∃ encoded decoded, inverse 7 120 = .ok 103 ∧
    encodeMessage 16 1 secretKey 7 143 = .ok encoded ∧
    decodeMessage 16 1 encoded 103 143 = .ok decoded ∧
    secretKey[5]? = some 0xae ∧ decoded[5]? = some (some (-82)) := by
  have encodes : ∃ encoded, encodeMessage 16 1 secretKey 7 143 = .ok encoded ∧
      ∃ decoded, decodeMessage 16 1 encoded 103 143 = .ok decoded ∧ decoded[5]? = some (some (-82)) := by
    refine ⟨_, rfl, _, rfl, ?_⟩
    rfl
  obtain ⟨encoded, ran, decoded, ran', cell⟩ := encodes
  exact ⟨encoded, decoded, rfl, ran, ran', rfl, cell⟩

end Example

end HyperSmile.Crypto.Rsa
