/-
# Crypto.Md5Total — for which lengths MD5Update ends

The loop over the blocks compares `i + 64` with the length in 32 bits. It ends if one of its values
is above the length before it wraps; the largest it takes without wrapping is 2^32 less the bytes in
the buffer, or 2^32 - 64 if the buffer is empty. From there on the comparison holds again with a
small sum, and a block is read that reaches over the end of the input (`transformLoop_wraps`); so
`md5Update_ok_iff` is exact.
-/
import HyperSmile.Crypto.Md5Stream

namespace HyperSmile.Crypto.Md5

open HyperSmile.Crypto.Rfc1321 (Byte Word Words)
open HyperSmile.Theory.CInt

set_option autoImplicit false

/-- **A comparison that wraps lets a block be read over the end.** -/
theorem transformLoop_wraps {input : List Byte} {inputlen : Word} (len : input.length = inputlen.toNat)
    {turns : Nat} (state : Words) {i : Word} (before : i.toNat ≤ inputlen.toNat)
    (wraps : 2 ^ 32 ≤ i.toNat + (inputlen.toNat - i.toNat) / 64 * 64 + 64)
    (enough : (inputlen.toNat - i.toNat) / 64 < turns) :
    transformLoop input inputlen turns state i = .error .outOfBounds := by
  have short := inputlen.isLt
  induction turns generalizing state i with
  | zero => cases enough
  | succ turns ih =>
      rw [transformLoop]
      by_cases last : 2 ^ 32 ≤ i.toNat + 64
      · have sum : (i + 64).toNat = i.toNat + 64 - 2 ^ 32 := by
          rw [BitVec.toNat_add, show (64 : Word).toNat = 64 from rfl, Nat.mod_eq_sub_mod last,
            Nat.mod_eq_of_lt (by omega)]
        have goesOn : i + 64 ≤ inputlen := by
          rw [BitVec.le_def, sum]
          omega
        have outside : slice input i.toNat 64 = .error .outOfBounds := if_neg (by omega)
        rw [if_pos goesOn, outside, error_bind]
      · have sum : (i + 64).toNat = i.toNat + 64 := by
          rw [BitVec.toNat_add, show (64 : Word).toNat = 64 from rfl, Nat.mod_eq_of_lt (by omega)]
        have goesOn : i + 64 ≤ inputlen := by
          rw [BitVec.le_def, sum]
          omega
        rw [if_pos goesOn, slice_ok (by omega), ok_bind]
        exact ih _ (by omega) (by omega) (by omega)

section Update

variable (context : Context) {input : List Byte} {inputlen : Word} (len : input.length = inputlen.toNat)
include len

/-- Input that does not fill the buffer. -/
theorem md5Update_short (short : inputlen.toNat < 64 - filled context) :
    ∃ context', md5Update context input inputlen = .ok context' := by
  have less := (partlen_le_iff context inputlen).not.mpr (Nat.not_le.mpr short)
  obtain ⟨head, buffer, read, copied, _⟩ := slice_copied context.buffer
    (by omega : 0 + inputlen.toNat ≤ input.length) (by omega : filled context + inputlen.toNat ≤ 64)
  rw [filled] at copied
  rw [md5Update]
  simp only [if_neg less, read, ok_bind, copied, pure_eq_ok]
  exact ⟨_, rfl⟩

variable (long : 64 - filled context ≤ inputlen.toNat)
include long

/-- The loop ends with a rest that fits into the buffer. -/
theorem md5Update_ends
    (room : 64 - filled context + (inputlen.toNat - (64 - filled context)) / 64 * 64 + 64 < 2 ^ 32) :
    ∃ context', md5Update context input inputlen = .ok context' := by
  have below := filled_lt context
  have partlen := partlen_toNat context
  have full := (partlen_le_iff context inputlen).mpr long
  obtain ⟨head, buffer, read, copied, _⟩ := head_fills context.buffer below long len.ge
  rw [filled] at copied
  obtain ⟨i, ran, place⟩ := transformLoop_eq rfl len.ge (md5Transform context.state buffer.toList) full
    (by rw [partlen]; exact room) (by rw [partlen]; omega : _ < inputlen.toNat / 64 + 1)
  rw [partlen] at place
  have tailLen : (inputlen - i).toNat = inputlen.toNat - i.toNat :=
    BitVec.toNat_sub_of_le (BitVec.le_def.mpr (by omega))
  obtain ⟨tail, buffer', tailRead, copied', _⟩ := slice_copied buffer
    (by omega : i.toNat + (inputlen.toNat - i.toNat) ≤ input.length)
    (by omega : 0 + (inputlen.toNat - i.toNat) ≤ 64)
  rw [md5Update]
  simp only [if_pos full, partlen, read, ok_bind, copied, ran, tailLen, tailRead, copied', pure_eq_ok]
  exact ⟨_, rfl⟩

/-- The loop wraps. -/
theorem md5Update_wraps
    (wraps : 2 ^ 32 ≤ 64 - filled context + (inputlen.toNat - (64 - filled context)) / 64 * 64 + 64) :
    md5Update context input inputlen = .error .outOfBounds := by
  have below := filled_lt context
  have partlen := partlen_toNat context
  have full := (partlen_le_iff context inputlen).mpr long
  obtain ⟨head, buffer, read, copied, _⟩ := head_fills context.buffer below long len.ge
  rw [filled] at copied
  have loop := transformLoop_wraps len (md5Transform context.state buffer.toList) full
    (by rw [partlen]; exact wraps) (by rw [partlen]; omega : _ < inputlen.toNat / 64 + 1)
  rw [md5Update]
  simp only [if_pos full, partlen, read, ok_bind, copied, loop, error_bind]

end Update

/-- What the length must leave free below 2^32. -/
def margin (context : Context) : Nat := if filled context = 0 then 64 else filled context

/-- Too long an input is read over its end. -/
theorem md5Update_outside (context : Context) {input : List Byte} {inputlen : Word}
    (len : input.length = inputlen.toNat) (beyond : 2 ^ 32 ≤ inputlen.toNat + margin context) :
    md5Update context input inputlen = .error .outOfBounds := by
  have below := filled_lt context
  have short := inputlen.isLt
  rw [margin] at beyond
  apply md5Update_wraps context len
  · split at beyond <;> omega
  · split at beyond <;> omega

/-- **Which lengths `MD5Update` is total on.**  It ends and reads only its input exactly if the length
is below 2^32 less the bytes in the buffer, or less 64 if the buffer is empty. -/
theorem md5Update_ok_iff (context : Context) (input : List Byte) (inputlen : Word)
    (len : input.length = inputlen.toNat) :
    (∃ context', md5Update context input inputlen = .ok context') ↔
      inputlen.toNat + margin context < 2 ^ 32 := by
  constructor
  · rintro ⟨context', ran⟩
    by_contra beyond
    rw [md5Update_outside context len (by omega)] at ran
    cases ran
  · intro room
    by_cases long : 64 - filled context ≤ inputlen.toNat
    · apply md5Update_ends context len long
      have below := filled_lt context
      rw [margin] at room
      split at room <;> omega
    · exact md5Update_short context len (by omega)

namespace Example

/-- The last comparison of 2^32 - 64 bytes is 0 with the length. -/
theorem long_input_overrun :
    md5Update (md5Init blank) (List.replicate 4294967232 0) 4294967232 = .error .outOfBounds := by
  apply md5Update_outside
  · rw [List.length_replicate]
    rfl
  · decide

theorem three_bytes_read : ∃ context', md5Update (md5Init blank) [1, 2, 3] 3 = .ok context' :=
  (md5Update_ok_iff (md5Init blank) [1, 2, 3] 3 rfl).mpr (by decide)

end Example

end HyperSmile.Crypto.Md5
