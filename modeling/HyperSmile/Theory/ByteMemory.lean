/-
# Theory.ByteMemory — byte memory and the ascending dword copy

Memory is a map from 64-bit addresses to bytes, and addresses wrap. `InRegion base
len a` says that `a` is one of the `len` bytes from `base` on; being a statement
about `a - base` it needs no assumption that the region does not wrap.

`copyDwords` is the string copy of a processor with the direction flag clear: one
dword after the other, each read before it is written, sources and destinations
ascending.

* `copyDwords_outside`: bytes outside of the destination keep their value, whatever
  the two windows have in common;
* `copyDwords_first`: the first byte written stays as written;
* `copyDwords_apart`: over windows with nothing in common it is the simultaneous copy;
* `copyDwords_twice`: two such copies, the second window right behind the first.
-/
import Mathlib.Data.BitVec
import Mathlib.Tactic.Ring

namespace HyperSmile.Theory.ByteMemory

set_option autoImplicit false

abbrev Memory := BitVec 64 → BitVec 8

/-- `a` is one of the `len` bytes from `base` on. -/
def InRegion (base : BitVec 64) (len : Nat) (a : BitVec 64) : Prop := (a - base).toNat < len

instance (base : BitVec 64) (len : Nat) (a : BitVec 64) : Decidable (InRegion base len a) :=
  inferInstanceAs (Decidable (_ < _))

/-- The two windows have no byte in common. -/
def Apart (base : BitVec 64) (len : Nat) (base' : BitVec 64) (len' : Nat) : Prop :=
  ∀ a, InRegion base len a → ¬ InRegion base' len' a

/-- Copy four bytes, all read before any is written. -/
def copyDword (memory : Memory) (src dst : BitVec 64) : Memory :=
  fun a => if InRegion dst 4 a then memory (src + (a - dst)) else memory a

/-- Copy `n` dwords, one after the other. -/
def copyDwords (memory : Memory) (src dst : BitVec 64) : Nat → Memory
  | 0 => memory
  | n + 1 => copyDwords (copyDword memory src dst) (src + 4) (dst + 4) n

theorem inRegion_self (base : BitVec 64) {len : Nat} (positive : 0 < len) :
    InRegion base len base := by
  simpa [InRegion] using positive

theorem inRegion_add (base : BitVec 64) {len i : Nat} (inside : i < len) (small : len ≤ 2 ^ 64) :
    InRegion base len (base + BitVec.ofNat 64 i) := by
  rw [InRegion, add_sub_cancel_left, BitVec.toNat_ofNat, Nat.mod_eq_of_lt (by omega)]
  exact inside

/-- The byte at the same offset of another region. -/
theorem InRegion.shift {base a : BitVec 64} {len : Nat} (inside : InRegion base len a)
    (base' : BitVec 64) : InRegion base' len (base' + (a - base)) := by
  rw [InRegion, add_sub_cancel_left]
  exact inside

/-- A region is its first `m` bytes and the rest. -/
theorem inRegion_append {base a : BitVec 64} {m k : Nat} (small : m + k ≤ 2 ^ 64) :
    InRegion base (m + k) a ↔ InRegion base m a ∨ InRegion (base + BitVec.ofNat 64 m) k a := by
  unfold InRegion
  rw [← sub_sub]
  generalize a - base = d
  have := d.isLt
  rw [BitVec.toNat_sub, BitVec.toNat_ofNat]
  omega

theorem inRegion_front_back {base a : BitVec 64} {m k : Nat} (small : m + k ≤ 2 ^ 64)
    (front : InRegion base m a) : ¬ InRegion (base + BitVec.ofNat 64 m) k a := by
  unfold InRegion at *
  rw [← sub_sub]
  generalize a - base = d at front
  have := d.isLt
  rw [BitVec.toNat_sub, BitVec.toNat_ofNat]
  omega

theorem inRegion_tail {base a : BitVec 64} {n : Nat} (small : 4 * (n + 1) ≤ 2 ^ 64) :
    InRegion base (4 * (n + 1)) a ↔ InRegion base 4 a ∨ InRegion (base + 4) (4 * n) a := by
  rw [show 4 * (n + 1) = 4 + 4 * n by ring]
  exact inRegion_append (by omega)

/-- Regions are apart when the gap between their bases holds the first, and the rest
of the address space the second. -/
theorem apart_of_gap {base base' : BitVec 64} {len len' : Nat} (before : len ≤ (base' - base).toNat)
    (behind : (base' - base).toNat + len' ≤ 2 ^ 64) : Apart base len base' len' := by
  intro a inside inside'
  unfold InRegion at *
  rw [show a - base' = (a - base) - (base' - base) by ring] at inside'
  generalize a - base = d at *
  generalize base' - base = gap at *
  bv_omega

theorem Apart.tail {src dst : BitVec 64} {n : Nat} (small : 4 * (n + 1) ≤ 2 ^ 64)
    (apart : Apart src (4 * (n + 1)) dst (4 * (n + 1))) :
    Apart (src + 4) (4 * n) (dst + 4) (4 * n) := by
  intro a inSrc inDst
  exact apart a ((inRegion_tail small).mpr (Or.inr inSrc))
    ((inRegion_tail small).mpr (Or.inr inDst))

/-! ## What a copy writes -/

/-- A relation that two memories keep byte by byte is kept by the same copy in both. -/
theorem copyDword_related {R : BitVec 8 → BitVec 8 → Prop} {memory memory' : Memory}
    (related : ∀ a, R (memory a) (memory' a)) (src dst a : BitVec 64) :
    R (copyDword memory src dst a) (copyDword memory' src dst a) := by
  unfold copyDword
  split
  · exact related _
  · exact related a

theorem copyDword_outside (memory : Memory) (src : BitVec 64) {dst a : BitVec 64}
    (outside : ¬ InRegion dst 4 a) : copyDword memory src dst a = memory a := if_neg outside

/-- Outside of the destination nothing changes, whatever the windows share. -/
theorem copyDwords_outside (memory : Memory) (src : BitVec 64) {dst a : BitVec 64} {n : Nat}
    (small : 4 * n ≤ 2 ^ 64) (outside : ¬ InRegion dst (4 * n) a) :
    copyDwords memory src dst n a = memory a := by
  induction n generalizing memory src dst with
  | zero => rfl
  | succ n ih =>
      rw [inRegion_tail small, not_or] at outside
      rw [copyDwords, ih _ _ (by omega) outside.2, copyDword_outside _ _ outside.1]

/-- The first byte of the destination gets the first byte of the source. -/
theorem copyDwords_first (memory : Memory) (src dst : BitVec 64) {n : Nat} (positive : 0 < n)
    (small : 4 * n ≤ 2 ^ 64) : copyDwords memory src dst n dst = memory src := by
  obtain ⟨n, rfl⟩ : ∃ m, n = m + 1 := ⟨n - 1, by omega⟩
  have later : ¬ InRegion (dst + 4) (4 * n) dst := by
    unfold InRegion
    bv_omega
  rw [copyDwords, copyDwords_outside _ _ (by omega) later, copyDword,
    if_pos (inRegion_self dst (by decide)), sub_self, add_zero]

/-- **Over windows with nothing in common the copy is simultaneous.** -/
theorem copyDwords_apart (memory : Memory) {src dst : BitVec 64} {n : Nat}
    (small : 4 * n ≤ 2 ^ 64) (apart : Apart src (4 * n) dst (4 * n)) (a : BitVec 64) :
    copyDwords memory src dst n a =
      if InRegion dst (4 * n) a then memory (src + (a - dst)) else memory a := by
  induction n generalizing memory src dst with
  | zero => simp [copyDwords, InRegion]
  | succ n ih =>
      rw [copyDwords, ih _ (by omega) (apart.tail small)]
      by_cases later : InRegion (dst + 4) (4 * n) a
      · have inside : InRegion dst (4 * (n + 1)) a := (inRegion_tail small).mpr (Or.inr later)
        -- the byte read is a source byte, so the dwords before it have not touched it
        have source : InRegion src (4 * (n + 1)) (src + (a - dst)) := inside.shift src
        have untouched : ¬ InRegion dst 4 (src + (a - dst)) :=
          fun first => apart _ source ((inRegion_tail small).mpr (Or.inl first))
        rw [if_pos later, if_pos inside, show src + 4 + (a - (dst + 4)) = src + (a - dst) by ring,
          copyDword_outside _ _ untouched]
      · rw [if_neg later, copyDword]
        by_cases first : InRegion dst 4 a
        · rw [if_pos first, if_pos ((inRegion_tail small).mpr (Or.inl first))]
        · rw [if_neg first, if_neg]
          rw [inRegion_tail small]
          exact not_or.mpr ⟨first, later⟩

/-- **Two windows, one behind the other.**  From sources apart from both of them, the
two copies fill the windows with what the sources held at the start. -/
theorem copyDwords_twice (memory : Memory) {src src' dst : BitVec 64} {n : Nat}
    (small : 4 * n + 4 * n ≤ 2 ^ 64) (apart : Apart src (4 * n) dst (4 * n + 4 * n))
    (apart' : Apart src' (4 * n) dst (4 * n + 4 * n)) (a : BitVec 64) :
    copyDwords (copyDwords memory src dst n) src' (dst + BitVec.ofNat 64 (4 * n)) n a =
      if InRegion dst (4 * n) a then memory (src + (a - dst))
      else if InRegion (dst + BitVec.ofNat 64 (4 * n)) (4 * n) a then
        memory (src' + (a - (dst + BitVec.ofNat 64 (4 * n))))
      else memory a := by
  set dst' := dst + BitVec.ofNat 64 (4 * n)
  have split (b : BitVec 64) := @inRegion_append dst b _ _ small
  have first : Apart src (4 * n) dst (4 * n) :=
    fun b source window => apart b source ((split b).mpr (Or.inl window))
  have second : Apart src' (4 * n) dst' (4 * n) :=
    fun b source window => apart' b source ((split b).mpr (Or.inr window))
  rw [copyDwords_apart _ (by omega) second]
  by_cases back : InRegion dst' (4 * n) a
  · -- what the second copy reads is outside of the first window too
    have source : InRegion src' (4 * n) (src' + (a - dst')) := back.shift src'
    have untouched : ¬ InRegion dst (4 * n) (src' + (a - dst')) :=
      fun window => apart' _ source ((split _).mpr (Or.inl window))
    have front : ¬ InRegion dst (4 * n) a := fun window => inRegion_front_back small window back
    rw [if_pos back, copyDwords_outside _ _ (by omega) untouched, if_neg front, if_pos back]
  · rw [if_neg back, copyDwords_apart _ (by omega) first, if_neg back]

end HyperSmile.Theory.ByteMemory
