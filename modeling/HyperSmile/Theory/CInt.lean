/-
# Theory.CInt — C integers that are not allowed to overflow

Signed arithmetic of C is arithmetic of integers as long as every result fits its type;
beyond that the program has no meaning. Here each operation computes the integer and
then checks it (`CType.check`): a run that yields a value is a run in which nothing
overflowed, nothing was divided by zero and no array was read or written outside.

`forLoop` is the counting loop over an `int`, counter included. It comes with three rules:
an invariant with a step that succeeds carries through to the end (`forLoop_total`), an
invariant that every step keeps holds after a run that ended (`forLoop_partial`), and a run
that ended went through every value of the counter (`forLoop_visits`).
-/
import Mathlib.Tactic.Ring
import Mathlib.Data.List.Basic
import Mathlib.Algebra.Order.Ring.Int
import Mathlib.Tactic.Linarith

namespace HyperSmile.Theory.CInt

set_option autoImplicit false

/-! ## Faults -/

inductive Fault where
  | overflow
  | divisionByZero
  | outOfBounds
  /-- a value that was never written -/
  | indeterminate
  /-- more turns of a loop than were allowed for -/
  | endless
  deriving DecidableEq, Repr

abbrev C (α : Type) : Type := Except Fault α

@[simp] theorem ok_bind {α β : Type} (a : α) (f : α → C β) : (Except.ok a : C α) >>= f = f a := rfl

@[simp] theorem error_bind {α β : Type} (fault : Fault) (f : α → C β) :
    (Except.error fault : C α) >>= f = Except.error fault := rfl

@[simp] theorem pure_eq_ok {α : Type} (a : α) : (pure a : C α) = Except.ok a := rfl

theorem bind_eq_ok {α β : Type} {x : C α} {f : α → C β} {b : β} :
    x >>= f = Except.ok b ↔ ∃ a, x = Except.ok a ∧ f a = Except.ok b := by
  cases x with
  | error fault => simp
  | ok a => simp

/-- The second computation returns whatever the first returns. -/
def Extends {α : Type} (x y : C α) : Prop := ∀ a, x = Except.ok a → y = Except.ok a

theorem Extends.refl {α : Type} (x : C α) : Extends x x := fun _ ran => ran

theorem Extends.endless {α : Type} (y : C α) : Extends (Except.error Fault.endless) y := by
  intro a ran
  cases ran

theorem Extends.bind {α β : Type} {x y : C α} {f g : α → C β} (first : Extends x y)
    (then_ : ∀ a, Extends (f a) (g a)) : Extends (x >>= f) (y >>= g) := by
  intro b ran
  obtain ⟨a, ran, rest⟩ := bind_eq_ok.mp ran
  exact bind_eq_ok.mpr ⟨a, first a ran, then_ a b rest⟩

theorem Extends.ite {α : Type} {c : Prop} [Decidable c] {x x' y y' : C α} (yes : Extends x x')
    (no : Extends y y') : Extends (if c then x else y) (if c then x' else y') := by
  split
  · exact yes
  · exact no

/-! ## Arithmetic -/

inductive CType where
  | int
  | longLong
  deriving DecidableEq, Repr

namespace CType

/-- One more than the largest value. -/
def bound : CType → Int
  | int => 2147483648
  | longLong => 9223372036854775808

def Fits (t : CType) (x : Int) : Prop := -t.bound ≤ x ∧ x < t.bound

instance (t : CType) (x : Int) : Decidable (t.Fits x) := inferInstanceAs (Decidable (_ ∧ _))

def check (t : CType) (x : Int) : C Int := if t.Fits x then .ok x else .error .overflow

def add (t : CType) (x y : Int) : C Int := t.check (x + y)

def sub (t : CType) (x y : Int) : C Int := t.check (x - y)

def mul (t : CType) (x y : Int) : C Int := t.check (x * y)

/-- `x / y`, rounded towards zero -/
def quot (t : CType) (x y : Int) : C Int := if y = 0 then .error .divisionByZero else t.check (x.tdiv y)

/-- `x % y`, with the sign of `x`; undefined where the quotient overflows -/
def rem (t : CType) (x y : Int) : C Int := do
  let _ ← t.quot x y
  return x.tmod y

/-- `x << k` of an `int` -/
def shl (x k : Int) : C Int :=
  if 0 ≤ k ∧ k < 32 then int.check (x * 2 ^ k.toNat) else .error .overflow

/-- `x >> k` of an `int`, which keeps the sign -/
def shr (x k : Int) : C Int :=
  if 0 ≤ k ∧ k < 32 then .ok (x / 2 ^ k.toNat) else .error .overflow

section Checks

variable {t : CType} {x y : Int}

theorem check_ok (fits : t.Fits x) : t.check x = .ok x := if_pos fits

theorem add_ok (fits : t.Fits (x + y)) : t.add x y = .ok (x + y) := check_ok fits

theorem mul_ok (fits : t.Fits (x * y)) : t.mul x y = .ok (x * y) := check_ok fits

theorem check_inv {z : Int} (ran : t.check x = .ok z) : z = x := by
  rw [check] at ran
  split at ran
  · exact (Except.ok.inj ran).symm
  · cases ran

theorem check_fits {z : Int} (ran : t.check x = .ok z) : t.Fits x := by
  rw [check] at ran
  split at ran
  · assumption
  · cases ran

theorem add_inv {z : Int} (ran : t.add x y = .ok z) : z = x + y := check_inv ran

theorem mul_inv {z : Int} (ran : t.mul x y = .ok z) : z = x * y := check_inv ran

theorem rem_inv {z : Int} (ran : t.rem x y = .ok z) : z = x.tmod y := by
  obtain ⟨_, _, ran⟩ := bind_eq_ok.mp ran
  exact (Except.ok.inj ran).symm

theorem fits_of_lt {b : Int} (room : b ≤ t.bound) (low : -b ≤ x) (high : x < b) : t.Fits x :=
  ⟨by omega, by omega⟩

theorem quot_ok (positive : 0 < y) (low : 0 ≤ x) (high : x < t.bound) :
    t.quot x y = .ok (x.tdiv y) := by
  have small : x.tdiv y ≤ x := Int.tdiv_le_self y low
  have sign : 0 ≤ x.tdiv y := Int.tdiv_nonneg low positive.le
  have room : 0 < t.bound := by omega
  rw [quot, if_neg (by omega), check_ok ⟨by omega, by omega⟩]

theorem rem_ok (positive : 0 < y) (low : 0 ≤ x) (high : x < t.bound) :
    t.rem x y = .ok (x.tmod y) := by
  rw [rem, quot_ok positive low high, ok_bind, pure_eq_ok]

end Checks

/-! ### An `int` that is a natural number -/

section Naturals

variable {x y : Nat}

theorem int_fits (small : x < 2147483648) : int.Fits x :=
  fits_of_lt (b := 2147483648) (le_refl _) (by omega) (by omega)

theorem int_check (small : x < 2147483648) : int.check x = .ok (x : Int) := check_ok (int_fits small)

theorem int_add (small : x + y < 2147483648) : int.add x y = .ok ((x + y : Nat) : Int) := int_check small

theorem int_mul (small : x * y < 2147483648) : int.mul x y = .ok ((x * y : Nat) : Int) := int_check small

theorem int_sub (less : y ≤ x) (small : x < 2147483648) : int.sub x y = .ok ((x - y : Nat) : Int) := by
  have difference : (x : Int) - y = ((x - y : Nat) : Int) := by omega
  rw [sub, difference, int_check (by omega)]

theorem int_quot (positive : 0 < y) (small : x < 2147483648) : int.quot x y = .ok ((x / y : Nat) : Int) :=
  quot_ok (by omega) (by omega) (int_fits small).2

theorem int_rem (positive : 0 < y) (small : x < 2147483648) : int.rem x y = .ok ((x % y : Nat) : Int) :=
  rem_ok (by omega) (by omega) (int_fits small).2

end Naturals

/-- A `long long` converted to `int`. -/
def toInt (x : Int) : Int := x.bmod (2 ^ 32)

theorem toInt_of_fits {x : Int} (low : 0 ≤ x) (high : x < 2147483648) : toInt x = x := by
  rw [toInt, Int.bmod_def]
  omega

end CType

/-! ## Arrays -/

/-- An array of `int`, as `malloc` returns it: no cell has a value yet. -/
abbrev Cells := List (Option Int)

def malloc (n : Int) : Cells := List.replicate n.toNat none

def load {α : Type} (cells : List α) (i : Int) : C α :=
  if i < 0 then .error .outOfBounds
  else match cells[i.toNat]? with
    | some a => .ok a
    | none => .error .outOfBounds

/-- The value of an `int` that was loaded. -/
def value : Option Int → C Int
  | some x => .ok x
  | none => .error .indeterminate

def store (cells : Cells) (i x : Int) : C Cells :=
  if 0 ≤ i ∧ i < cells.length then .ok (cells.set i.toNat (some x)) else .error .outOfBounds

section Arrays

variable {α : Type}

theorem load_ok {cells : List α} {i : Nat} {a : α} (there : cells[i]? = some a) :
    load cells i = .ok a := by
  rw [load, if_neg (by omega), Int.toNat_natCast, there]

theorem load_outside {cells : List α} {i : Nat} (outside : cells.length ≤ i) :
    load cells i = .error .outOfBounds := by
  rw [load, if_neg (by omega), Int.toNat_natCast, List.getElem?_eq_none outside]

theorem store_ok {cells : Cells} {i : Nat} (inside : i < cells.length) (x : Int) :
    store cells i x = .ok (cells.set i (some x)) := by
  rw [store, if_pos ⟨by omega, by omega⟩, Int.toNat_natCast]

theorem store_inv {cells cells' : Cells} {i x : Int} (stored : store cells i x = .ok cells') :
    cells' = cells.set i.toNat (some x) := by
  rw [store] at stored
  split at stored
  · exact (Except.ok.inj stored).symm
  · cases stored

end Arrays

/-! ## Counting loops -/

section Loops

variable {σ : Type} {step bound : Int} {body : Int → σ → C σ}

/-- `for (i = start; i < bound; i += step)`, for at most `turns` turns -/
def forLoop (step bound : Int) (body : Int → σ → C σ) : Nat → Int → σ → C σ
  | 0, _, _ => .error .endless
  | turns + 1, i, s =>
      if i < bound then do
        let s ← body i s
        let i ← CType.int.add i step
        forLoop step bound body turns i s
      else .ok s

/-- **Total rule.**  The invariant is indexed by the turns made; each of the `count` turns succeeds
and keeps it. -/
theorem forLoop_total {count turns : Nat} {s : σ} (Inv : Nat → σ → Prop) (enough : count < turns)
    (forward : 0 < step) (last : (count : Int) * step = bound) (room : bound < CType.int.bound)
    (initially : Inv 0 s)
    (turn : ∀ k < count, ∀ s, Inv k s → ∃ s', body (k * step) s = .ok s' ∧ Inv (k + 1) s') :
    ∃ s', forLoop step bound body turns 0 s = .ok s' ∧ Inv count s' := by
  suffices rest : ∀ left k : Nat, ∀ turns s, k + left = count → left < turns → Inv k s →
      ∃ s', forLoop step bound body turns (k * step) s = .ok s' ∧ Inv count s' by
    have all := rest count 0 turns s (by omega) enough initially
    rwa [Nat.cast_zero, Int.zero_mul] at all
  intro left
  induction left with
  | zero =>
      intro k turns s here enough inv
      obtain ⟨turns, rfl⟩ : ∃ n, turns = n + 1 := ⟨turns - 1, by omega⟩
      obtain rfl : k = count := by omega
      refine ⟨s, ?_, inv⟩
      rw [forLoop, if_neg (by omega)]
  | succ left ih =>
      intro k turns s here enough inv
      obtain ⟨turns, rfl⟩ : ∃ n, turns = n + 1 := ⟨turns - 1, by omega⟩
      obtain ⟨s', ran, inv'⟩ := turn k (by omega) s inv
      have next : (k : Int) * step + step = ((k + 1 : Nat) : Int) * step := by
        push_cast
        ring
      have ahead : ((k + 1 : Nat) : Int) * step ≤ bound := by
        rw [← last]
        exact Int.mul_le_mul_of_nonneg_right (by omega) forward.le
      have sign : 0 ≤ (k : Int) * step := Int.mul_nonneg (by omega) forward.le
      have fits : CType.int.Fits ((k : Int) * step + step) := ⟨by
        have : 0 < CType.int.bound := by decide
        omega, by omega⟩
      rw [forLoop, if_pos (by omega), ran, ok_bind, CType.add_ok fits, ok_bind, next]
      exact ih (k + 1) turns s' (by omega) (by omega) inv'

/-- The total rule for `for (i = 0; i < count; i++)`. -/
theorem forLoop_count (body : Int → σ → C σ) (count : Nat) (s : σ) (Inv : Nat → σ → Prop)
    (room : (count : Int) < CType.int.bound) (initially : Inv 0 s)
    (turn : ∀ k < count, ∀ s, Inv k s → ∃ s', body k s = .ok s' ∧ Inv (k + 1) s') :
    ∃ s', forLoop 1 count body ((count : Int).toNat + 1) 0 s = .ok s' ∧ Inv count s' := by
  refine forLoop_total Inv (by omega : count < _) (by decide) (Int.mul_one _) room initially ?_
  intro k before s inv
  rw [Int.mul_one]
  exact turn k before s inv

/-- **Partial rule.**  What every turn keeps holds after a run that ended. -/
theorem forLoop_partial {turns : Nat} {i : Int} {s s' : σ} (Inv : σ → Prop) (initially : Inv s)
    (turn : ∀ i s s', Inv s → body i s = .ok s' → Inv s')
    (ended : forLoop step bound body turns i s = .ok s') : Inv s' := by
  induction turns generalizing i s with
  | zero => cases ended
  | succ turns ih =>
      rw [forLoop] at ended
      split at ended
      · obtain ⟨next, ran, ended⟩ := bind_eq_ok.mp ended
        obtain ⟨i', _, ended⟩ := bind_eq_ok.mp ended
        exact ih (turn i s next initially ran) ended
      · cases ended
        exact initially

/-- **A run that ended made every turn.** -/
theorem forLoop_visits {turns : Nat} {i : Int} {s s' : σ}
    (ended : forLoop step bound body turns i s = .ok s') (forward : 0 < step) (k : Nat)
    (inside : i + k * step < bound) : ∃ before after, body (i + k * step) before = .ok after := by
  induction turns generalizing i s k with
  | zero => cases ended
  | succ turns ih =>
      have sign : 0 ≤ (k : Int) * step := Int.mul_nonneg (by omega) forward.le
      rw [forLoop, if_pos (by omega)] at ended
      obtain ⟨next, ran, ended⟩ := bind_eq_ok.mp ended
      obtain ⟨i', counted, ended⟩ := bind_eq_ok.mp ended
      cases k with
      | zero =>
          refine ⟨s, next, ?_⟩
          rwa [Nat.cast_zero, Int.zero_mul, Int.add_zero]
      | succ k =>
          obtain rfl := CType.add_inv counted
          have place : i + ((k + 1 : Nat) : Int) * step = i + step + k * step := by
            push_cast
            ring
          rw [place] at inside ⊢
          exact ih ended k inside

end Loops

end HyperSmile.Theory.CInt
