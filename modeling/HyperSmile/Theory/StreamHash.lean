/-
# Theory.StreamHash — hashing a stream block by block

An iterated hash compresses one block after the other into its state. `absorb` does so with all
full blocks of a list, `remainder` is what is left over. A stream that arrives in pieces is hashed
by keeping the state and the remainder: absorbing the remainder followed by the next piece gives
what absorbing the whole would have given (`absorb_append`, `remainder_append`), whatever the
pieces are. A program that keeps to this is an instance of `Streamed`.
-/
import Mathlib.Data.List.Basic
import Mathlib.Algebra.Order.Ring.Nat
import Mathlib.Tactic.Ring

namespace HyperSmile.Theory.StreamHash

set_option autoImplicit false

variable {α σ : Type} (size : ℕ) (compress : σ → List α → σ)

/-- The state after `n` blocks. -/
def chain : ℕ → σ → List α → σ
  | 0, s, _ => s
  | n + 1, s, xs => chain n (compress s (xs.take size)) (xs.drop size)

/-- The state after all full blocks. -/
def absorb (s : σ) (xs : List α) : σ := chain size compress (xs.length / size) s xs

/-- What no block has taken yet. -/
def remainder (xs : List α) : List α := xs.drop (xs.length / size * size)

section Steps

variable {size} {xs : List α} (s : σ)

theorem absorb_short (short : xs.length < size) : absorb size compress s xs = s := by
  rw [absorb, Nat.div_eq_of_lt short, chain]

theorem remainder_short (short : xs.length < size) : remainder size xs = xs := by
  rw [remainder, Nat.div_eq_of_lt short, Nat.zero_mul, List.drop_zero]

theorem quotient_step (positive : 0 < size) (long : size ≤ xs.length) :
    xs.length / size = (xs.drop size).length / size + 1 := by
  rw [List.length_drop, Nat.div_eq_sub_div positive long]

/-- The first block, then the others. -/
theorem absorb_step (positive : 0 < size) (long : size ≤ xs.length) :
    absorb size compress s xs = absorb size compress (compress s (xs.take size)) (xs.drop size) := by
  rw [absorb, quotient_step positive long, chain, absorb]

theorem remainder_step (positive : 0 < size) (long : size ≤ xs.length) :
    remainder size xs = remainder size (xs.drop size) := by
  rw [remainder, quotient_step positive long, remainder, List.drop_drop]
  congr 1
  ring

end Steps

variable {size}

/-- **Induction on the blocks of a list.** -/
theorem block_induction {motive : List α → Prop} (positive : 0 < size)
    (short : ∀ xs : List α, xs.length < size → motive xs)
    (step : ∀ xs : List α, size ≤ xs.length → motive (xs.drop size) → motive xs) (xs : List α) :
    motive xs := by
  induction count : xs.length using Nat.strong_induction_on generalizing xs with
  | _ n ih =>
      subst count
      rcases Nat.lt_or_ge xs.length size with less | long
      · exact short xs less
      · have fewer : (xs.drop size).length < xs.length := by
          rw [List.length_drop]
          omega
        exact step xs long (ih _ fewer (xs.drop size) rfl)

theorem long_append {xs : List α} (long : size ≤ xs.length) (ys : List α) : size ≤ (xs ++ ys).length := by
  rw [List.length_append]
  omega

/-- **Absorbing in two pieces**, with the remainder of the first before the second. -/
theorem absorb_append (positive : 0 < size) (s : σ) (xs ys : List α) :
    absorb size compress s (xs ++ ys) =
      absorb size compress (absorb size compress s xs) (remainder size xs ++ ys) := by
  induction xs using block_induction positive generalizing s with
  | short xs less => rw [absorb_short compress s less, remainder_short less]
  | step xs long ih =>
      rw [absorb_step compress s positive (long_append long ys), List.take_append_of_le_length long,
        List.drop_append_of_le_length long, ih, ← absorb_step compress s positive long,
        remainder_step positive long]

theorem remainder_append (positive : 0 < size) (xs ys : List α) :
    remainder size (xs ++ ys) = remainder size (remainder size xs ++ ys) := by
  induction xs using block_induction positive with
  | short xs less => rw [remainder_short less]
  | step xs long ih =>
      rw [remainder_step positive (long_append long ys), List.drop_append_of_le_length long, ih,
        remainder_step positive long]

/-- A state and the bytes held back, after a message from `initial`. -/
structure Streamed (compress : σ → List α → σ) (size : ℕ) (initial : σ) (message : List α) (s : σ)
    (held : List α) : Prop where
  state : s = absorb size compress initial message
  held : held = remainder size message

namespace Streamed

variable {compress} {initial s : σ} {message held : List α}

theorem start (positive : 0 < size) (initial : σ) : Streamed compress size initial [] initial [] where
  state := (absorb_short compress initial (by exact positive)).symm
  held := (remainder_short (by exact positive)).symm

/-- **A piece more.** -/
theorem update (positive : 0 < size) (streamed : Streamed compress size initial message s held)
    (piece : List α) :
    Streamed compress size initial (message ++ piece) (absorb size compress s (held ++ piece))
      (remainder size (held ++ piece)) where
  state := by rw [streamed.state, streamed.held, ← absorb_append compress positive]
  held := by rw [streamed.held, ← remainder_append positive]

end Streamed

end HyperSmile.Theory.StreamHash
