/-
# Theory.CharArray — arrays of char

An array of `char` is a list of bytes that may not have been written yet. Every store and every
load looks at the size of the array: a run that yields a value stayed inside, and read nothing that
was not written before.

A string is its bytes and a zero. Written into a large enough array, `strlen` finds its length again
and a copy of so many bytes is the string (`strlen_string`, `bytes_string`).
-/
import HyperSmile.Theory.CInt

namespace HyperSmile.Theory.CharArray

open HyperSmile.Theory.CInt

set_option autoImplicit false

/-- An array of `char`. -/
abbrev Buffer := List (Option (BitVec 8))

def store (buffer : Buffer) (i : Int) (c : BitVec 8) : C Buffer :=
  if 0 ≤ i ∧ i < buffer.length then .ok (buffer.set i.toNat (some c)) else .error .outOfBounds

/-- `memcpy(&buffer[i], buf, r)` -/
def memcpy (buffer : Buffer) (i : Int) : List (BitVec 8) → C Buffer
  | [] => .ok buffer
  | c :: buf => do
      let buffer ← store buffer i c
      memcpy buffer (i + 1) buf

def strlen : Buffer → C Nat
  | [] => .error .outOfBounds
  | none :: _ => .error .indeterminate
  | some c :: buffer =>
      if c = 0 then .ok 0
      else do
        let len ← strlen buffer
        return len + 1

/-- The first `len` bytes, as a function that is passed the array reads them. -/
def bytes : Nat → Buffer → C (List (BitVec 8))
  | 0, _ => .ok []
  | _ + 1, [] => .error .outOfBounds
  | _ + 1, none :: _ => .error .indeterminate
  | len + 1, some c :: buffer => do
      let rest ← bytes len buffer
      return c :: rest

/-! ## Stores -/

theorem store_ok (written rest : Buffer) (old : Option (BitVec 8)) (c : BitVec 8) :
    store (written ++ old :: rest) written.length c = .ok (written ++ some c :: rest) := by
  rw [store, if_pos ⟨by omega, by simp only [List.length_append, List.length_cons]; omega⟩, Int.toNat_natCast,
    List.set_append_right _ _ (le_refl _), Nat.sub_self, List.set_cons_zero]

/-- The bytes that are copied follow those written before. -/
theorem memcpy_ok {buf : List (BitVec 8)} (written : Buffer) {rest : Buffer} (room : buf.length ≤ rest.length) :
    memcpy (written ++ rest) written.length buf =
      .ok (written ++ buf.map some ++ rest.drop buf.length) := by
  induction buf generalizing written rest with
  | nil => simp [memcpy]
  | cons c buf ih =>
      cases rest with
      | nil => cases room
      | cons old rest =>
          have next : (written.length : ℤ) + 1 = ((written ++ [some c]).length : ℕ) := by
            rw [List.length_append, List.length_singleton, Nat.cast_add, Nat.cast_one]
          rw [memcpy, store_ok, ok_bind, next, List.append_cons, ih _ (Nat.le_of_succ_le_succ room)]
          simp

/-! ## Strings -/

theorem strlen_string {string : List (BitVec 8)} (text : ∀ c ∈ string, c ≠ 0) (rest : Buffer) :
    strlen (string.map some ++ some 0 :: rest) = .ok string.length := by
  induction string with
  | nil => rfl
  | cons c string ih =>
      rw [List.forall_mem_cons] at text
      rw [List.map_cons, List.cons_append, strlen, if_neg text.1, ih text.2, ok_bind, pure_eq_ok,
        List.length_cons]

theorem bytes_string (string : List (BitVec 8)) (rest : Buffer) :
    bytes string.length (string.map some ++ rest) = .ok string := by
  induction string with
  | nil => rw [List.length_nil, bytes]
  | cons c string ih =>
      rw [List.length_cons, List.map_cons, List.cons_append, bytes, ih, ok_bind, pure_eq_ok]

end HyperSmile.Theory.CharArray
