/-
# Theory.ReflectedCrc — shift registers that leave at the low end

A checksum register of width `w` whose bits leave at the low end is the residue of a
polynomial modulo `P = X^w + tail`, read backwards: `poly` is `tail` reversed, one shift is
one multiplication by X (`residue_shiftOut`), and a byte enters above the register
(`residue_feed`). A whole run is the remainder of the message (`toPoly_register`).

Where `P` has a constant term, X is invertible modulo `P`. Then no change inside a window of
`w` bits is lost (`register_burst`), and as many free bytes as the register has reach every
value, each in one way (`register_steer`).
-/
import HyperSmile.Theory.ReflectedProduct
import Mathlib.Algebra.Polynomial.Inductions
import Mathlib.Data.List.GetD

namespace HyperSmile.Theory.ReflectedCrc

open Polynomial
open HyperSmile.Theory.BinaryPolynomial
open HyperSmile.Theory.ReflectedProduct (reverse_xor reverse_ushiftRight)

set_option autoImplicit false

variable {w : Nat}

/-! ## The register -/

/-- One bit leaves at the low end. -/
def shiftOut (poly r : BitVec w) : BitVec w := if r.getLsbD 0 then r >>> 1 ^^^ poly else r >>> 1

/-- One byte enters. -/
def feed (poly r : BitVec w) (byte : BitVec 8) : BitVec w :=
  (shiftOut poly)^[8] (r ^^^ byte.setWidth w)

/-- The register after some bytes. -/
def register (poly r : BitVec w) (bytes : List (BitVec 8)) : BitVec w := bytes.foldl (feed poly) r

theorem register_append (poly r : BitVec w) (bytes more : List (BitVec 8)) :
    register poly r (bytes ++ more) = register poly (register poly r bytes) more := List.foldl_append

/-! ## The message -/

/-- The message as a polynomial: the bytes in order, each with its low bit first, the first bit of
all with the highest power. -/
noncomputable def message : List (BitVec 8) → (ZMod 2)[X]
  | [] => 0
  | byte :: rest => toPoly byte.reverse * X ^ (8 * rest.length) + message rest

/-- Bit `i` of a message, the low bit of each byte first. -/
def bitAt (bytes : List (BitVec 8)) (i : Nat) : Bool := (bytes.getD (i / 8) 0).getLsbD (i % 8)

theorem bitAt_cons_low (byte : BitVec 8) (rest : List (BitVec 8)) {i : Nat} (low : i < 8) :
    bitAt (byte :: rest) i = byte.getLsbD i := by
  rw [bitAt, Nat.div_eq_of_lt low, Nat.mod_eq_of_lt low, List.getD_cons_zero]

theorem bitAt_cons_add (byte : BitVec 8) (rest : List (BitVec 8)) (i : Nat) :
    bitAt (byte :: rest) (8 + i) = bitAt rest i := by
  have quotient : (8 + i) / 8 = i / 8 + 1 := by omega
  have remainder : (8 + i) % 8 = i % 8 := by omega
  rw [bitAt, quotient, remainder, List.getD_cons_succ, bitAt]

theorem bitAt_outside (bytes : List (BitVec 8)) {i : Nat} (outside : 8 * bytes.length ≤ i) :
    bitAt bytes i = false := by
  rw [bitAt, List.getD_eq_default _ _ (by omega)]
  exact BitVec.getLsbD_zero

theorem coeff_message (bytes : List (BitVec 8)) (n : Nat) :
    (message bytes).coeff n =
      if n < 8 * bytes.length ∧ bitAt bytes (8 * bytes.length - 1 - n) then 1 else 0 := by
  induction bytes with
  | nil => simp [message]
  | cons byte rest ih =>
      rw [message, coeff_add, coeff_mul_X_pow', coeff_toPoly, BitVec.getLsbD_reverse, ih,
        List.length_cons]
      by_cases later : n < 8 * rest.length
      · have place : 8 * (rest.length + 1) - 1 - n = 8 + (8 * rest.length - 1 - n) := by omega
        have inside : n < 8 * (rest.length + 1) := by omega
        rw [if_neg (by omega), zero_add, place, bitAt_cons_add]
        simp only [later, inside, true_and]
      · have none : ¬ (n < 8 * rest.length ∧ bitAt rest (8 * rest.length - 1 - n)) := fun both => later both.1
        rw [if_pos (by omega : 8 * rest.length ≤ n), if_neg none, add_zero, BitVec.getMsbD_eq_getLsbD]
        by_cases inside : n < 8 * (rest.length + 1)
        · have place : 8 * (rest.length + 1) - 1 - n = 8 - 1 - (n - 8 * rest.length) := by omega
          have low : n - 8 * rest.length < 8 := by omega
          rw [place, bitAt_cons_low _ _ (by omega)]
          simp only [low, inside, decide_true, Bool.true_and, true_and]
        · have high : ¬ n - 8 * rest.length < 8 := by omega
          simp [high, inside]

/-- Messages of one length are told apart by their polynomials. -/
theorem message_injective {bytes bytes' : List (BitVec 8)} (length : bytes.length = bytes'.length)
    (same : message bytes = message bytes') : bytes = bytes' := by
  apply List.ext_getElem length
  intro j inside inside'
  refine BitVec.eq_of_getLsbD_eq fun b small => ?_
  have place : 8 * bytes.length - 1 - (8 * bytes.length - 1 - (8 * j + b)) = 8 * j + b := by omega
  have byte : (8 * j + b) / 8 = j := by omega
  have bit : (8 * j + b) % 8 = b := by omega
  have coeff := congrArg (fun p => p.coeff (8 * bytes.length - 1 - (8 * j + b))) same
  simp only [coeff_message, ← length, place, bitAt, byte, bit] at coeff
  rw [List.getD_eq_getElem _ _ inside, List.getD_eq_getElem _ _ inside'] at coeff
  have below : 8 * bytes.length - 1 - (8 * j + b) < 8 * bytes.length := by omega
  cases first : bytes[j].getLsbD b <;> cases second : bytes'[j].getLsbD b <;> simp_all

/-- Messages that differ in a window have a difference in the window of the same powers. -/
theorem coeff_burst {bytes bytes' : List (BitVec 8)} (length : bytes.length = bytes'.length) (start : Nat)
    (burst : ∀ i, bitAt bytes i ≠ bitAt bytes' i → start ≤ i ∧ i < start + w) (n : Nat)
    (set : (message bytes - message bytes').coeff n ≠ 0) :
    8 * bytes.length - (start + w) ≤ n ∧ n < 8 * bytes.length - (start + w) + w := by
  have inside : n < 8 * bytes.length := by
    by_contra outside
    simp [coeff_message, ← length, outside] at set
  have differ : bitAt bytes (8 * bytes.length - 1 - n) ≠ bitAt bytes' (8 * bytes.length - 1 - n) := by
    intro equal
    simp [coeff_message, ← length, equal] at set
  have := burst _ differ
  omega

/-- The `k` bytes of a vector, from the low end. -/
def bytesOf (k : Nat) (x : BitVec w) : List (BitVec 8) :=
  (List.range k).map fun j => x.extractLsb' (8 * j) 8

theorem length_bytesOf (k : Nat) (x : BitVec w) : (bytesOf k x).length = k := by
  rw [bytesOf, List.length_map, List.length_range]

theorem bitAt_bytesOf {k : Nat} (x : BitVec w) {i : Nat} (inside : i < 8 * k) :
    bitAt (bytesOf k x) i = x.getLsbD i := by
  have byte : i / 8 < (bytesOf k x).length := by
    rw [length_bytesOf]
    omega
  have whole : 8 * (i / 8) + i % 8 = i := by omega
  rw [bitAt, List.getD_eq_getElem _ _ byte]
  simp only [bytesOf, List.getElem_map, List.getElem_range, BitVec.getLsbD_extractLsb', whole]
  rw [decide_eq_true (Nat.mod_lt i (by decide)), Bool.true_and]

theorem message_bytesOf {k : Nat} (width : w = 8 * k) (x : BitVec w) :
    message (bytesOf k x) = toPoly x.reverse := by
  ext n
  rw [coeff_message, coeff_toPoly, length_bytesOf, BitVec.getLsbD_reverse, BitVec.getMsbD_eq_getLsbD]
  by_cases inside : n < 8 * k
  · have inside' : n < w := by omega
    rw [bitAt_bytesOf x (by omega)]
    simp only [inside', true_and, decide_true, Bool.true_and, ← width]
  · have outside : ¬ n < w := by omega
    simp [inside, outside]

/-! ## The register as a residue -/

theorem reverse_injective : Function.Injective (BitVec.reverse : BitVec w → BitVec w) :=
  Function.LeftInverse.injective fun _ => BitVec.reverse_reverse_eq

/-- Read backwards, a bit that leaves at the low end is one that falls out at the top. -/
theorem reverse_shiftOut (poly r : BitVec w) :
    (shiftOut poly r).reverse = timesX poly.reverse r.reverse := by
  rw [shiftOut, timesX, BitVec.msb_reverse]
  split
  · rw [reverse_xor, reverse_ushiftRight]
  · rw [reverse_ushiftRight]

/-- Read backwards, a byte at the low end stands at the top. -/
theorem toPoly_reverse_setWidth (wide : 8 ≤ w) (byte : BitVec 8) :
    toPoly (byte.setWidth w).reverse = X ^ (w - 8) * toPoly byte.reverse := by
  ext n
  rw [coeff_X_pow_mul', coeff_toPoly, coeff_toPoly, BitVec.getLsbD_reverse, BitVec.getLsbD_reverse,
    BitVec.getMsbD_eq_getLsbD, BitVec.getMsbD_eq_getLsbD, BitVec.getLsbD_setWidth]
  by_cases low : w - 8 ≤ n
  · by_cases inside : n < w
    · have small : n - (w - 8) < 8 := by omega
      have place : w - 1 - n = 8 - 1 - (n - (w - 8)) := by omega
      have within : 8 - 1 - (n - (w - 8)) < w := by omega
      simp only [low, inside, small, place, within, decide_true, Bool.true_and, if_true]
    · have large : ¬ n - (w - 8) < 8 := by omega
      simp [inside, large]
  · have outside : byte.getLsbD (w - 1 - n) = false := BitVec.getLsbD_of_ge _ _ (by omega)
    simp [low, outside]

section Residue

variable {P : (ZMod 2)[X]} {poly : BitVec w} (shape : P = X ^ w + toPoly poly.reverse)

theorem residue_shiftOut (r : BitVec w) :
    residue shape (shiftOut poly r).reverse = AdjoinRoot.root P * residue shape r.reverse := by
  rw [reverse_shiftOut, residue_timesX]

theorem residue_shiftsOut (n : Nat) (r : BitVec w) :
    residue shape ((shiftOut poly)^[n] r).reverse =
      AdjoinRoot.root P ^ n * residue shape r.reverse := by
  induction n with
  | zero => rw [Function.iterate_zero_apply, pow_zero, one_mul]
  | succ n ih =>
      rw [Function.iterate_succ_apply', residue_shiftOut, ih, pow_succ']
      ring

/-- A byte enters above the register. -/
theorem residue_feed (wide : 8 ≤ w) (r : BitVec w) (byte : BitVec 8) :
    residue shape (feed poly r byte).reverse =
      AdjoinRoot.root P ^ 8 * residue shape r.reverse +
        AdjoinRoot.root P ^ w * AdjoinRoot.mk P (toPoly byte.reverse) := by
  have enters : residue shape (byte.setWidth w).reverse =
      AdjoinRoot.root P ^ (w - 8) * AdjoinRoot.mk P (toPoly byte.reverse) := by
    rw [residue_apply, toPoly_reverse_setWidth wide, map_mul, map_pow, AdjoinRoot.mk_X]
  have powers : AdjoinRoot.root P ^ w = AdjoinRoot.root P ^ 8 * AdjoinRoot.root P ^ (w - 8) := by
    rw [← pow_add, Nat.add_sub_cancel' wide]
  rw [feed, residue_shiftsOut, reverse_xor, residue_xor, enters, powers]
  ring

/-- **A run of the register**, modulo `P`. -/
theorem residue_register (wide : 8 ≤ w) (r : BitVec w) (bytes : List (BitVec 8)) :
    residue shape (register poly r bytes).reverse =
      AdjoinRoot.root P ^ (8 * bytes.length) * residue shape r.reverse +
        AdjoinRoot.root P ^ w * AdjoinRoot.mk P (message bytes) := by
  induction bytes generalizing r with
  | nil => simp [register, message]
  | cons byte rest ih =>
      have run : register poly r (byte :: rest) = register poly (feed poly r byte) rest := rfl
      have length : 8 * (rest.length + 1) = 8 * rest.length + 8 := by ring
      rw [run, ih, residue_feed shape wide, message, map_add, map_mul, map_pow, AdjoinRoot.mk_X,
        List.length_cons, length, pow_add]
      ring

include shape

/-- **The register is the remainder of the message.** -/
theorem toPoly_register (wide : 8 ≤ w) (r : BitVec w) (bytes : List (BitVec 8)) :
    toPoly (register poly r bytes).reverse =
      (message bytes * X ^ w + toPoly r.reverse * X ^ (8 * bytes.length)) %ₘ P := by
  have run := residue_register shape wide r bytes
  have sum : AdjoinRoot.root P ^ (8 * bytes.length) * residue shape r.reverse +
      AdjoinRoot.root P ^ w * AdjoinRoot.mk P (message bytes) =
      AdjoinRoot.mk P (message bytes * X ^ w + toPoly r.reverse * X ^ (8 * bytes.length)) := by
    rw [residue_apply, map_add, map_mul, map_mul, map_pow, map_pow, AdjoinRoot.mk_X]
    ring
  rw [residue_apply, sum] at run
  refine (modByMonic_eq_of_dvd (monic_of_shape shape) (AdjoinRoot.mk_eq_mk.mp run.symm) ?_).symm
  rw [degree_of_shape shape]
  exact degree_toPoly_lt _

/-! ## Bursts and free bytes -/

omit shape in
/-- X is invertible modulo `P`. -/
theorem isUnit_root (constant : P.coeff 0 = 1) : IsUnit (AdjoinRoot.root P) := by
  have split := congrArg (AdjoinRoot.mk P) (divX_mul_X_add P)
  rw [constant, map_add, map_mul, AdjoinRoot.mk_X, AdjoinRoot.mk_self, C_1, map_one] at split
  refine IsUnit.of_mul_eq_one (-AdjoinRoot.mk P (divX P)) ?_
  linear_combination -split

variable (constant : P.coeff 0 = 1) (wide : 8 ≤ w)
include constant wide

/-- Two runs over messages of one length meet exactly if `P` divides the difference. -/
theorem register_eq_iff (r : BitVec w) {bytes bytes' : List (BitVec 8)}
    (length : bytes.length = bytes'.length) :
    register poly r bytes = register poly r bytes' ↔ P ∣ message bytes - message bytes' := by
  rw [← AdjoinRoot.mk_eq_mk, ← ((isUnit_root constant).pow w).mul_right_inj]
  have first := residue_register shape wide r bytes
  have second := residue_register shape wide r bytes'
  rw [← length] at second
  constructor
  · intro same
    rw [same, second] at first
    exact (add_left_cancel first).symm
  · intro same
    rw [← same, ← first] at second
    exact (reverse_injective ((residue shape).injective second)).symm

omit shape wide in
/-- Powers of X are no help in being divisible by `P`. -/
theorem dvd_of_dvd_X_pow_mul {low : Nat} {core : (ZMod 2)[X]} (divides : P ∣ X ^ low * core) : P ∣ core := by
  have product := AdjoinRoot.mk_eq_zero.mpr divides
  rw [map_mul, map_pow, AdjoinRoot.mk_X] at product
  exact AdjoinRoot.mk_eq_zero.mp (((isUnit_root constant).pow low).mul_right_eq_zero.mp product)

/-- **No burst is lost**: a change inside a window of `w` bits changes the register. -/
theorem register_burst (r : BitVec w) {bytes bytes' : List (BitVec 8)}
    (length : bytes.length = bytes'.length) (start : Nat)
    (burst : ∀ i, bitAt bytes i ≠ bitAt bytes' i → start ≤ i ∧ i < start + w)
    (same : register poly r bytes = register poly r bytes') : bytes = bytes' := by
  refine message_injective length (sub_eq_zero.mp ?_)
  have divides := (register_eq_iff shape constant wide r length).mp same
  have window := coeff_burst length start burst
  generalize message bytes - message bytes' = difference at divides window
  generalize 8 * bytes.length - (start + w) = low at window
  have factor : X ^ low ∣ difference := by
    rw [X_pow_dvd_iff]
    intro n below
    by_contra set
    exact absurd (window n set).1 (by omega)
  obtain ⟨core, rfl⟩ := factor
  have small : core.degree < P.degree := by
    rw [degree_of_shape shape, degree_lt_iff_coeff_zero]
    intro n outside
    by_contra set
    rw [← coeff_X_pow_mul core low] at set
    exact absurd (window (n + low) set).2 (by omega)
  have none : core = 0 := by
    by_contra nonzero
    exact (monic_of_shape shape).not_dvd_of_degree_lt nonzero small (dvd_of_dvd_X_pow_mul constant divides)
  rw [none, mul_zero]

/-- **Free bytes reach every value**, each in one way. -/
theorem register_steer {k : Nat} (width : w = 8 * k) (r target : BitVec w) :
    ∃! suffix : List (BitVec 8), suffix.length = k ∧ register poly r suffix = target := by
  obtain ⟨inverse, inverted⟩ := ((isUnit_root constant).pow w).exists_right_inv
  let wanted := (residue shape).symm (inverse * residue shape target.reverse - residue shape r.reverse)
  have reached (suffix : List (BitVec 8)) (length : suffix.length = k)
      (value : message suffix = toPoly wanted) : register poly r suffix = target := by
    have run := residue_register shape wide r suffix
    have image : AdjoinRoot.mk P (toPoly wanted) =
        inverse * residue shape target.reverse - residue shape r.reverse := by
      rw [← residue_apply shape, Equiv.apply_symm_apply]
    rw [length, ← width, value, image] at run
    have total : residue shape (register poly r suffix).reverse = residue shape target.reverse := by
      linear_combination run + residue shape target.reverse * inverted
    exact reverse_injective ((residue shape).injective total)
  have chosen : message (bytesOf k wanted.reverse) = toPoly wanted := by
    rw [message_bytesOf width, BitVec.reverse_reverse_eq]
  have found := reached _ (length_bytesOf k _) chosen
  refine ⟨bytesOf k wanted.reverse, ⟨length_bytesOf k _, found⟩, ?_⟩
  rintro other ⟨length, hits⟩
  have lengths : other.length = (bytesOf k wanted.reverse).length := by rw [length, length_bytesOf]
  refine register_burst shape constant wide r lengths 0 ?_ (hits.trans found.symm)
  intro i differ
  refine ⟨Nat.zero_le i, ?_⟩
  by_contra outside
  rw [bitAt_outside _ (by omega), bitAt_outside _ (by rw [length_bytesOf]; omega)] at differ
  exact differ rfl

end Residue

end HyperSmile.Theory.ReflectedCrc
