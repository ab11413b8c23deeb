/-
# Theory.WordMemory — 64-bit words in a byte memory, and stacks of them

A word is eight bytes, low byte first, at any address. What was stored is loaded again
(`load64_store64`), and a store changes no word and no byte apart from its own
(`load64_store64_apart`, `store64_outside`).

`storeDown` stores one word below the other from a top on, as pushes do: every one of them is
found at its depth (`load64_storeDown`), and no byte changes apart from those of the words
(`storeDown_outside`).
-/
import HyperSmile.Theory.ByteMemory
import Mathlib.Tactic.IntervalCases

namespace HyperSmile.Theory.WordMemory

open HyperSmile.Theory.ByteMemory

set_option autoImplicit false

/-- The word at `a`. -/
def load64 (memory : Memory) (a : BitVec 64) : BitVec 64 :=
  memory (a + 7) ++ memory (a + 6) ++ memory (a + 5) ++ memory (a + 4) ++ memory (a + 3) ++ memory (a + 2) ++
    memory (a + 1) ++ memory a

/-- Byte `i` of a word. -/
def byteOf (v : BitVec 64) (i : Nat) : BitVec 8 := v.extractLsb' (8 * i) 8

def store64 (memory : Memory) (a v : BitVec 64) : Memory :=
  fun b => if InRegion a 8 b then byteOf v (b - a).toNat else memory b

theorem store64_outside (memory : Memory) {a b : BitVec 64} (v : BitVec 64) (outside : ¬ InRegion a 8 b) :
    store64 memory a v b = memory b := if_neg outside

theorem store64_inside (memory : Memory) (a v : BitVec 64) {i : Nat} (inside : i < 8) :
    store64 memory a v (a + BitVec.ofNat 64 i) = byteOf v i := by
  have offset : (a + BitVec.ofNat 64 i - a).toNat = i := by
    rw [add_sub_cancel_left, BitVec.toNat_ofNat, Nat.mod_eq_of_lt (by omega)]
  rw [store64, if_pos (inRegion_add a inside (by decide)), offset]

/-- A load looks at eight bytes. -/
theorem load64_congr {memory memory' : Memory} {a a' : BitVec 64}
    (same : ∀ i < 8, memory (a + BitVec.ofNat 64 i) = memory' (a' + BitVec.ofNat 64 i)) :
    load64 memory a = load64 memory' a' := by
  have zero := same 0 (by decide)
  simp only [BitVec.add_zero] at zero
  have one : memory (a + 1) = memory' (a' + 1) := same 1 (by decide)
  have two : memory (a + 2) = memory' (a' + 2) := same 2 (by decide)
  have three : memory (a + 3) = memory' (a' + 3) := same 3 (by decide)
  have four : memory (a + 4) = memory' (a' + 4) := same 4 (by decide)
  have five : memory (a + 5) = memory' (a' + 5) := same 5 (by decide)
  have six : memory (a + 6) = memory' (a' + 6) := same 6 (by decide)
  have seven : memory (a + 7) = memory' (a' + 7) := same 7 (by decide)
  rw [load64, load64, zero, one, two, three, four, five, six, seven]

/-- The low byte of a concatenation. -/
theorem getLsbD_append_low {m r : Nat} (high : BitVec m) (byte : BitVec 8) (low : r < 8) :
    (high ++ byte).getLsbD r = byte.getLsbD r := by
  rw [BitVec.getLsbD_append, if_pos low]

/-- The bits above it. -/
theorem getLsbD_append_high {m : Nat} (high : BitVec m) (byte : BitVec 8) (k r : Nat) :
    (high ++ byte).getLsbD (8 * (k + 1) + r) = high.getLsbD (8 * k + r) := by
  rw [BitVec.getLsbD_append, if_neg (by omega), show 8 * (k + 1) + r - 8 = 8 * k + r by omega]

/-- Bit by bit. -/
theorem getLsbD_load64 (memory : Memory) (a : BitVec 64) {i : Nat} (inside : i < 64) :
    (load64 memory a).getLsbD i = (memory (a + BitVec.ofNat 64 (i / 8))).getLsbD (i % 8) := by
  obtain ⟨q, r, eighth, low, rfl⟩ : ∃ q r, q < 8 ∧ r < 8 ∧ i = 8 * q + r :=
    ⟨i / 8, i % 8, by omega, by omega, by omega⟩
  rw [show (8 * q + r) / 8 = q by omega, show (8 * q + r) % 8 = r by omega, load64]
  interval_cases q <;>
    simp only [getLsbD_append_high, Nat.mul_zero, Nat.zero_add, getLsbD_append_low _ _ low,
      BitVec.add_zero] <;>
    rfl

theorem load64_store64 (memory : Memory) (a v : BitVec 64) : load64 (store64 memory a v) a = v := by
  refine BitVec.eq_of_getLsbD_eq fun i inside => ?_
  rw [getLsbD_load64 _ _ inside, store64_inside _ _ _ (by omega), byteOf, BitVec.getLsbD_extractLsb']
  have low : i % 8 < 8 := Nat.mod_lt _ (by decide)
  rw [decide_eq_true low, Bool.true_and, Nat.div_add_mod]

theorem load64_store64_apart (memory : Memory) {a b : BitVec 64} (v : BitVec 64) (apart : Apart b 8 a 8) :
    load64 (store64 memory a v) b = load64 memory b :=
  load64_congr fun i inside => store64_outside _ _ (apart _ (inRegion_add b inside (by decide)))

/-- A word whose low half is zero is the high half of what is read four bytes later. -/
theorem load64_straddle {memory : Memory} {a : BitVec 64}
    (zeros : ∀ i < 4, memory (a + BitVec.ofNat 64 i) = 0) :
    load64 memory a = load64 memory (a + 4) <<< 32 := by
  refine BitVec.eq_of_getLsbD_eq fun i inside => ?_
  rw [getLsbD_load64 _ _ inside, BitVec.getLsbD_shiftLeft]
  by_cases low : i < 32
  · rw [zeros _ (by omega)]
    simp [low]
  · have byte : a + 4 + BitVec.ofNat 64 ((i - 32) / 8) = a + BitVec.ofNat 64 (i / 8) := by
      rw [show i / 8 = 4 + (i - 32) / 8 by omega, BitVec.ofNat_add, ← add_assoc]
      rfl
    rw [getLsbD_load64 _ _ (by omega), byte, show (i - 32) % 8 = i % 8 by omega]
    simp [low, inside]

theorem load64_straddle_eq_zero_iff {memory : Memory} {a : BitVec 64}
    (zeros : ∀ i < 4, memory (a + BitVec.ofNat 64 i) = 0) :
    load64 memory a = 0 ↔ (load64 memory (a + 4)).setWidth 32 = 0 := by
  rw [load64_straddle zeros, BitVec.toNat_eq, BitVec.toNat_eq, BitVec.toNat_shiftLeft,
    BitVec.toNat_setWidth, Nat.shiftLeft_eq]
  change _ = 0 ↔ _ = 0
  omega

/-! ## Stacks -/

/-- The words `vs`, one below the other from `top` down. -/
def storeDown (memory : Memory) (top : BitVec 64) : List (BitVec 64) → Memory
  | [] => memory
  | v :: vs => storeDown (store64 memory (top - 8) v) (top - 8) vs

/-- `b` is one of the `n` bytes below `top`. -/
def Below (top : BitVec 64) (n : Nat) (b : BitVec 64) : Prop := InRegion (top - BitVec.ofNat 64 n) n b

/-- One word deeper. -/
theorem sub_word (top : BitVec 64) (n : Nat) :
    top - 8 - BitVec.ofNat 64 n = top - BitVec.ofNat 64 (n + 8) := by
  rw [BitVec.ofNat_add, sub_sub, add_comm]
  rfl

/-- The words below `top` are the first one and those below it. -/
theorem below_succ {top b : BitVec 64} {n : Nat} (small : 8 * n + 8 ≤ 2 ^ 64) :
    Below top (8 * n + 8) b ↔ Below (top - 8) (8 * n) b ∨ InRegion (top - 8) 8 b := by
  rw [Below, ← sub_word, inRegion_append small, sub_add_cancel]
  rfl

theorem storeDown_outside (memory : Memory) {top b : BitVec 64} {vs : List (BitVec 64)}
    (small : 8 * vs.length ≤ 2 ^ 64) (outside : ¬ Below top (8 * vs.length) b) :
    storeDown memory top vs b = memory b := by
  induction vs generalizing memory top with
  | nil => rfl
  | cons v vs ih =>
      rw [List.length_cons, Nat.mul_succ] at small outside
      rw [below_succ small, not_or] at outside
      rw [storeDown, ih _ (by omega) outside.1, store64_outside _ _ outside.2]

/-- The word right above a stack is apart from it. -/
theorem apart_below {top : BitVec 64} {n : Nat} (small : n + 8 ≤ 2 ^ 64) :
    Apart top 8 (top - BitVec.ofNat 64 n) n := by
  intro b above below
  have behind := inRegion_front_back small below
  rw [sub_add_cancel] at behind
  exact behind above

/-- **What was stored is found at its depth.** -/
theorem load64_storeDown (memory : Memory) (top : BitVec 64) {vs : List (BitVec 64)} {k : Nat}
    {v : BitVec 64} (small : 8 * vs.length ≤ 2 ^ 64) (found : vs[k]? = some v) :
    load64 (storeDown memory top vs) (top - BitVec.ofNat 64 (8 * k + 8)) = v := by
  induction vs generalizing memory top k with
  | nil => cases found
  | cons w vs ih =>
      rw [List.length_cons, Nat.mul_succ] at small
      cases k with
      | zero =>
          obtain rfl : w = v := by simpa using found
          -- the words below do not reach it
          have kept : load64 (storeDown (store64 memory (top - 8) w) (top - 8) vs) (top - 8) =
              load64 (store64 memory (top - 8) w) (top - 8) :=
            load64_congr fun i inside =>
              storeDown_outside _ (by omega) (apart_below small _ (inRegion_add _ inside (by decide)))
          exact kept.trans (load64_store64 _ _ _)
      | succ k =>
          rw [storeDown, Nat.mul_succ, ← sub_word]
          exact ih _ _ (by omega) (by simpa using found)

end HyperSmile.Theory.WordMemory
