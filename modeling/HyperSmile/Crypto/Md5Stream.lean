/-
# Crypto.Md5Stream — MD5 in pieces is MD5

The context after any sequence of `MD5Update` calls (`Absorbed`): the two counters are the length
in bits modulo 2^64, the state has absorbed all full blocks of the message so far, and the buffer
starts with what is left over. One call keeps this (`md5Update_absorbed`); so do the two calls
`MD5Final` makes for the padding and the length, and the digest is that of the RFC
(`md5_of_chunks`).
-/
import HyperSmile.Crypto.Md5

namespace HyperSmile.Crypto.Md5

open HyperSmile.Crypto.Rfc1321
open HyperSmile.Theory.StreamHash
open HyperSmile.Theory.CInt

set_option autoImplicit false

/-! ## Bytes and words -/

theorem encodeWord_eq (w : Word) : encodeWord w = bytesOf w := by
  have byte (n : Nat) : (w >>> n &&& 0xFF#32).setWidth 8 = w.extractLsb' n 8 := by
    refine BitVec.eq_of_getLsbD_eq fun b inside => ?_
    have mask : (0xFF#32).getLsbD b = true := by
      have small : b = 0 ∨ b = 1 ∨ b = 2 ∨ b = 3 ∨ b = 4 ∨ b = 5 ∨ b = 6 ∨ b = 7 := by omega
      rcases small with rfl | rfl | rfl | rfl | rfl | rfl | rfl | rfl <;> rfl
    rw [BitVec.getLsbD_setWidth, BitVec.getLsbD_and, mask, BitVec.getLsbD_ushiftRight,
      BitVec.getLsbD_extractLsb', Bool.and_true]
  have first := byte 0
  rw [BitVec.ushiftRight_zero] at first
  rw [encodeWord, bytesOf, first, byte, byte, byte]

theorem wordOf_eq (b0 b1 b2 b3 : Byte) :
    b0.setWidth 32 ||| b1.setWidth 32 <<< 8 ||| b2.setWidth 32 <<< 16 ||| b3.setWidth 32 <<< 24 =
      wordOf b0 b1 b2 b3 := by
  refine BitVec.eq_of_getLsbD_eq fun b inside => ?_
  simp only [wordOf, BitVec.getLsbD_or, BitVec.getLsbD_shiftLeft, BitVec.getLsbD_setWidth,
    BitVec.getLsbD_append]
  have out (x : Byte) (i : Nat) (large : 8 ≤ i) : x.getLsbD i = false := BitVec.getLsbD_of_ge x i large
  grind

theorem md5Decode_eq (block : List Byte) (k : Nat) : md5Decode block k = wordAt block k :=
  wordOf_eq _ _ _ _

theorem rotateLeft_eq (x : Word) {n : Nat} (short : n < 32) : rotateLeft x n = x.rotateLeft n := by
  rw [BitVec.rotateLeft_def, Nat.mod_eq_of_lt short, rotateLeft]

/-! ## The compression -/

/-- The registers of line `i`. -/
def args (i : Nat) : Reg × Reg × Reg × Reg :=
  match i % 4 with
  | 0 => (.a, .b, .c, .d)
  | 1 => (.d, .a, .b, .c)
  | 2 => (.c, .d, .a, .b)
  | _ => (.b, .c, .d, .a)

def macroOf (i : Nat) : Macro :=
  match i / 16 with
  | 0 => .FF
  | 1 => .GG
  | 2 => .HH
  | _ => .II

/-- Line `i`, by the rules of the RFC. -/
def lineOf (i : Nat) : Line :=
  ⟨macroOf i, (args i).1, (args i).2.1, (args i).2.2.1, (args i).2.2.2, index i, shift i, T.getD i 0⟩

theorem lines_eq : lines = (List.range 64).map lineOf := rfl

/-- The registers in the order in which line `i` names them. -/
def view (i : Nat) (w : Words) : Words :=
  ⟨get w (args i).1, get w (args i).2.1, get w (args i).2.2.1, get w (args i).2.2.2⟩

theorem f_eq : Md5.F = Rfc1321.F := rfl

theorem g_eq : Md5.G = Rfc1321.G := rfl

theorem h_eq : Md5.H = Rfc1321.H := rfl

theorem i_eq : Md5.I = Rfc1321.I := rfl

theorem macroOf_function (i : Nat) : (macroOf i).function = function i := by
  simp only [macroOf, function]
  generalize i / 16 = round
  rcases round with _ | _ | _ | round
  · exact f_eq
  · exact g_eq
  · exact h_eq
  · exact i_eq

theorem shift_lt (i : Nat) : shift i < 32 := by
  have four : i % 4 = 0 ∨ i % 4 = 1 ∨ i % 4 = 2 ∨ i % 4 = 3 := by omega
  rw [shift]
  split <;> rcases four with at4 | at4 | at4 | at4 <;> rw [at4] <;> decide

/-- **A line is an operation**, seen through the names of the registers. -/
theorem view_exec (x : Nat → Word) (w : Words) (i : Nat) :
    view (i + 1) (exec x w (lineOf i)) = operation x (view i w) i := by
  have four : i % 4 = 0 ∨ i % 4 = 1 ∨ i % 4 = 2 ∨ i % 4 = 3 := by omega
  have value (a b c d : Word) :
      rotateLeft (a + ((macroOf i).function b c d + x (index i) + T.getD i 0)) (shift i) + b =
        b + (a + function i b c d + x (index i) + T.getD i 0).rotateLeft (shift i) := by
    rw [rotateLeft_eq _ (shift_lt i), macroOf_function, BitVec.add_comm, BitVec.add_assoc a,
      BitVec.add_assoc a]
  rcases four with at4 | at4 | at4 | at4
  · have next : (i + 1) % 4 = 1 := by omega
    simpa [view, exec, operation, lineOf, args, at4, next, get, set] using value w.a w.b w.c w.d
  · have next : (i + 1) % 4 = 2 := by omega
    simpa [view, exec, operation, lineOf, args, at4, next, get, set] using value w.d w.a w.b w.c
  · have next : (i + 1) % 4 = 3 := by omega
    simpa [view, exec, operation, lineOf, args, at4, next, get, set] using value w.c w.d w.a w.b
  · have next : (i + 1) % 4 = 0 := by omega
    simpa [view, exec, operation, lineOf, args, at4, next, get, set] using value w.b w.c w.d w.a

theorem view_lines (x : Nat → Word) (w : Words) (n : Nat) :
    view n (((List.range n).map lineOf).foldl (exec x) w) = (List.range n).foldl (operation x) w := by
  induction n with
  | zero => rfl
  | succ n ih =>
      rw [List.range_succ, List.map_append, List.foldl_append, List.foldl_append, ← ih]
      exact view_exec x _ n

/-- **`MD5Transform` is the compression of the RFC.** -/
theorem transform_eq : md5Transform = compress := by
  funext state block
  have decoded : md5Decode block = wordAt block := funext (md5Decode_eq block)
  have same (w : Words) : view 64 w = w := rfl
  rw [md5Transform, compress, lines_eq, decoded, ← view_lines (wordAt block) state 64, same]

/-! ## Copies -/

theorem slice_ok {input : List Byte} {start n : Nat} (inside : start + n ≤ input.length) :
    slice input start n = .ok ((input.drop start).take n) := if_pos inside

/-- The buffer up to the end of what was copied into it. -/
theorem copyInto_ok (buffer : Vector Byte 64) {index : Nat} {bytes : List Byte}
    (inside : index + bytes.length ≤ 64) :
    ∃ buffer', copyInto buffer index bytes = .ok buffer' ∧
      buffer'.toList.take (index + bytes.length) = buffer.toList.take index ++ bytes := by
  refine ⟨_, if_pos inside, ?_⟩
  have before : (buffer.toList.take index).length = index := by
    rw [List.length_take, Vector.length_toList]
    omega
  apply List.ext_getElem
  · rw [List.length_take, Vector.length_toList, List.length_append, before]
    omega
  · intro i less _
    rw [List.length_take, Vector.length_toList] at less
    rw [List.getElem_take, Vector.getElem_toList, Vector.getElem_ofFn, List.getElem_append]
    by_cases old : i < index
    · have outside : ¬ (index ≤ i ∧ i < index + bytes.length) := by omega
      rw [if_neg outside, dif_pos (by omega), List.getElem_take]
      rfl
    · have here : index ≤ i ∧ i < index + bytes.length := by omega
      have within : i - index < bytes.length := by omega
      simp [here, old, within, before]

/-- A piece of the input is copied behind what the buffer holds. -/
theorem slice_copied (buffer : Vector Byte 64) {input : List Byte} {start index n : Nat}
    (inside : start + n ≤ input.length) (fits : index + n ≤ 64) :
    ∃ piece buffer', slice input start n = .ok piece ∧ copyInto buffer index piece = .ok buffer' ∧
      piece = (input.drop start).take n ∧
      buffer'.toList.take (index + n) = buffer.toList.take index ++ piece := by
  have size : ((input.drop start).take n).length = n := by
    rw [List.length_take, List.length_drop]
    omega
  obtain ⟨buffer', copied, content⟩ := copyInto_ok buffer
    (by omega : index + ((input.drop start).take n).length ≤ 64)
  rw [size] at content
  exact ⟨_, buffer', slice_ok inside, copied, rfl, content⟩

/-! ## The loop over the blocks -/

/-- The loop, up to the first block that is not whole; its last comparison must not wrap. -/
theorem transformLoop_eq {input : List Byte} {inputlen : Word} {n : Nat} (len : inputlen.toNat = n)
    (inside : n ≤ input.length) {turns : Nat} (state : Words) {i : Word} (before : i.toNat ≤ n)
    (room : i.toNat + (n - i.toNat) / 64 * 64 + 64 < 2 ^ 32) (enough : (n - i.toNat) / 64 < turns) :
    ∃ i', transformLoop input inputlen turns state i =
        .ok (absorb 64 compress state ((input.take n).drop i.toNat), i') ∧
      i'.toNat = i.toNat + (n - i.toNat) / 64 * 64 := by
  induction turns generalizing state i with
  | zero => cases enough
  | succ turns ih =>
      have length : ((input.take n).drop i.toNat).length = n - i.toNat := by
        rw [List.length_drop, List.length_take, Nat.min_eq_left inside]
      have sum : (i + 64).toNat = i.toNat + 64 := by
        rw [BitVec.toNat_add, show (64 : Word).toNat = 64 from rfl, Nat.mod_eq_of_lt (by omega)]
      rw [transformLoop]
      by_cases more : i + 64 ≤ inputlen
      · have ahead : i.toNat + 64 ≤ n := by
          rw [← len, ← sum]
          exact more
        have block : (input.drop i.toNat).take 64 = ((input.take n).drop i.toNat).take 64 := by
          rw [List.drop_take, List.take_take, Nat.min_eq_left (by omega)]
        obtain ⟨i', ran, place⟩ := ih (compress state ((input.drop i.toNat).take 64)) (i := i + 64)
          (by omega) (by rw [sum]; omega) (by rw [sum]; omega)
        refine ⟨i', ?_, by rw [place, sum]; omega⟩
        rw [if_pos more, slice_ok (by omega), ok_bind, transform_eq, ran, sum,
          absorb_step compress state (by decide) (by omega : 64 ≤ ((input.take n).drop i.toNat).length),
          List.drop_drop, block]
      · have last : n < i.toNat + 64 := by
          rw [← len, ← sum]
          exact BitVec.not_le.mp more
        refine ⟨i, ?_, by omega⟩
        rw [if_neg more, absorb_short compress state (by omega)]

/-! ## The context -/

/-- `index`: the number of bytes in the buffer -/
def filled (context : Context) : Nat := (context.count0 >>> 3 &&& 0x3F).toNat

theorem filled_lt (context : Context) : filled context < 64 := by
  rw [filled, BitVec.toNat_and, show (0x3F : Word).toNat = 2 ^ 6 - 1 from rfl, Nat.and_two_pow_sub_one_eq_mod]
  exact Nat.mod_lt _ (by decide)

/-- `partlen` -/
theorem partlen_toNat (context : Context) :
    ((64 : Word) - (context.count0 >>> 3 &&& 0x3F)).toNat = 64 - filled context := by
  have below := filled_lt context
  rw [filled] at below ⊢
  rw [BitVec.toNat_sub_of_le (BitVec.le_def.mpr below.le)]
  rfl

theorem partlen_le_iff (context : Context) (inputlen : Word) :
    (64 : Word) - (context.count0 >>> 3 &&& 0x3F) ≤ inputlen ↔ 64 - filled context ≤ inputlen.toNat := by
  rw [BitVec.le_def, partlen_toNat]

/-- The context after a message. -/
structure Absorbed (context : Context) (message : List Byte) : Prop where
  counted : context.count1.toNat * 2 ^ 32 + context.count0.toNat = 8 * message.length % 2 ^ 64
  streamed : Streamed compress 64 initial message context.state
    (context.buffer.toList.take (message.length % 64))

/-- The position in the buffer, from the counter of bits. -/
theorem Absorbed.index_eq {context : Context} {message : List Byte}
    (absorbed : Absorbed context message) :
    (context.count0 >>> 3 &&& 0x3F).toNat = message.length % 64 := by
  have counted := absorbed.counted
  have small := context.count0.isLt
  rw [BitVec.toNat_and, BitVec.toNat_ushiftRight, show (0x3F : Word).toNat = 2 ^ 6 - 1 from rfl,
    Nat.and_two_pow_sub_one_eq_mod, Nat.shiftRight_eq_div_pow]
  omega

theorem md5Init_absorbed (context : Context) : Absorbed (md5Init context) [] where
  counted := by simp [md5Init]
  streamed := Streamed.start (by decide) initial

/-- Two words as one number modulo 2^64. -/
theorem join_words (high : Nat) {low : Nat} (small : low < 2 ^ 32) :
    high % 2 ^ 32 * 2 ^ 32 + low = (high * 2 ^ 32 + low) % 2 ^ 64 := by
  have split : (2 : Nat) ^ 64 = 2 ^ 32 * 2 ^ 32 := by decide
  rw [split, Nat.mod_mul, Nat.mul_comm high, Nat.mul_add_mod, Nat.mod_eq_of_lt small,
    Nat.mul_add_div (by decide), Nat.div_eq_of_lt small, Nat.add_zero, Nat.add_comm, Nat.mul_comm]

/-- The two counters and the carry between them. -/
theorem counters_add (count0 count1 inputlen : Word) {length : Nat}
    (counted : count1.toNat * 2 ^ 32 + count0.toNat = 8 * length % 2 ^ 64) :
    let count0' := count0 + inputlen <<< 3
    let count1' := (if count0' < inputlen <<< 3 then count1 + 1 else count1) + inputlen >>> 29
    count1'.toNat * 2 ^ 32 + count0'.toNat = 8 * (length + inputlen.toNat) % 2 ^ 64 := by
  intro count0' count1'
  let n := inputlen.toNat
  have low := count0.isLt
  have shifted : (inputlen <<< 3).toNat = 8 * n % 2 ^ 32 := by
    rw [BitVec.toNat_shiftLeft, Nat.shiftLeft_eq, Nat.mul_comm]
  have sum : count0'.toNat = (count0.toNat + 8 * n % 2 ^ 32) % 2 ^ 32 := by
    rw [BitVec.toNat_add, shifted]
  have parts : 8 * n = 2 ^ 32 * (n / 2 ^ 29) + 8 * n % 2 ^ 32 := by omega
  have carry : count0' < inputlen <<< 3 ↔ count0'.toNat < 8 * n % 2 ^ 32 := by
    rw [BitVec.lt_def, shifted]
  -- the carry is what the sum of the low words lost
  have high : count1'.toNat =
      (count1.toNat + (count0.toNat + 8 * n % 2 ^ 32) / 2 ^ 32 + n / 2 ^ 29) % 2 ^ 32 := by
    simp only [count1', BitVec.toNat_add, BitVec.toNat_ushiftRight, Nat.shiftRight_eq_div_pow]
    by_cases carries : count0' < inputlen <<< 3
    · have lost : (count0.toNat + 8 * n % 2 ^ 32) / 2 ^ 32 = 1 := by
        have := carry.mp carries
        omega
      rw [if_pos carries, lost, BitVec.toNat_add, Nat.mod_add_mod]
      rfl
    · have kept : (count0.toNat + 8 * n % 2 ^ 32) / 2 ^ 32 = 0 := by
        have := carry.not.mp carries
        omega
      rw [if_neg carries, kept, Nat.add_zero]
  calc count1'.toNat * 2 ^ 32 + count0'.toNat
    _ = ((count1.toNat + (count0.toNat + 8 * n % 2 ^ 32) / 2 ^ 32 + n / 2 ^ 29) * 2 ^ 32 +
          (count0.toNat + 8 * n % 2 ^ 32) % 2 ^ 32) % 2 ^ 64 := by
        rw [high, sum, join_words _ (Nat.mod_lt _ (by decide))]
    _ = (count1.toNat * 2 ^ 32 + count0.toNat + 8 * n) % 2 ^ 64 := by
        have whole := Nat.div_add_mod (count0.toNat + 8 * n % 2 ^ 32) (2 ^ 32)
        refine congrArg (· % 2 ^ 64) ?_
        linarith
    _ = 8 * (length + n) % 2 ^ 64 := by
        rw [counted, Nat.mod_add_mod, Nat.mul_add]

/-! ## MD5Update -/

section Update

variable {context : Context} {message : List Byte}

/-- The bytes held back. -/
theorem length_held (buffer : Vector Byte 64) (length : Nat) :
    (buffer.toList.take (length % 64)).length = length % 64 := by
  rw [List.length_take, Vector.length_toList]
  omega

/-- What `MD5Update` must leave, from the piece it was given. -/
theorem Absorbed.update (absorbed : Absorbed context message) (inputlen : Word) {piece : List Byte}
    (len : inputlen.toNat = piece.length) (state : Words) (buffer : Vector Byte 64)
    (chained : state = absorb 64 compress context.state
      (context.buffer.toList.take (message.length % 64) ++ piece))
    (kept : buffer.toList.take ((message.length + piece.length) % 64) =
      remainder 64 (context.buffer.toList.take (message.length % 64) ++ piece)) :
    let count0 := context.count0 + inputlen <<< 3
    let count1 := (if count0 < inputlen <<< 3 then context.count1 + 1 else context.count1) + inputlen >>> 29
    Absorbed ⟨count0, count1, state, buffer⟩ (message ++ piece) where
  counted := by
    have sum := counters_add context.count0 context.count1 inputlen absorbed.counted
    rw [len] at sum
    rw [List.length_append]
    exact sum
  streamed := by
    have next := absorbed.streamed.update (by decide) piece
    rw [List.length_append, chained, kept]
    exact next

/-- The room left in the buffer. -/
theorem Absorbed.partlen_eq (absorbed : Absorbed context message) :
    ((64 : Word) - (context.count0 >>> 3 &&& 0x3F)).toNat = 64 - message.length % 64 := by
  rw [partlen_toNat, filled, absorbed.index_eq]

variable {input : List Byte} {inputlen : Word} (absorbed : Absorbed context message)
  (inside : inputlen.toNat ≤ input.length)

include absorbed inside

/-- Input that fits into the buffer is held back. -/
theorem md5Update_held (short : inputlen < (64 : Word) - (context.count0 >>> 3 &&& 0x3F)) :
    ∃ context', md5Update context input inputlen = .ok context' ∧
      Absorbed context' (message ++ input.take inputlen.toNat) := by
  let piece := input.take inputlen.toNat
  let held := context.buffer.toList.take (message.length % 64)
  have size : piece.length = inputlen.toNat := by rw [List.length_take, Nat.min_eq_left inside]
  have heldSize : held.length = message.length % 64 := length_held _ _
  have fits : inputlen.toNat < 64 - message.length % 64 := by
    rw [← absorbed.partlen_eq]
    exact short
  have less : (held ++ piece).length < 64 := by
    rw [List.length_append, heldSize, size]
    omega
  obtain ⟨copy, buffer, read, copied, same, content⟩ := slice_copied context.buffer
    (by omega : 0 + inputlen.toNat ≤ input.length) (by omega : message.length % 64 + inputlen.toNat ≤ 64)
  rw [List.drop_zero] at same
  have sum : (message.length + piece.length) % 64 = message.length % 64 + inputlen.toNat := by omega
  refine ⟨_, ?_, absorbed.update inputlen size.symm context.state buffer ?_ ?_⟩
  · rw [md5Update]
    simp only [if_neg (BitVec.not_le.mpr short), absorbed.index_eq, read, ok_bind, copied, pure_eq_ok]
  · rw [absorb_short compress _ less]
  · rw [remainder_short less, sum, content, same]

omit absorbed inside in
/-- The head of the input completes the first block. -/
theorem head_fills (buffer : Vector Byte 64) {index n : Nat} (below : index < 64) (enough : 64 - index ≤ n)
    (inside : n ≤ input.length) :
    ∃ head buffer', slice input 0 (64 - index) = .ok head ∧ copyInto buffer index head = .ok buffer' ∧
      buffer'.toList = (buffer.toList.take index ++ input.take n).take 64 := by
  obtain ⟨head, buffer', read, copied, same, content⟩ := slice_copied buffer
    (by omega : 0 + (64 - index) ≤ input.length) (by omega : index + (64 - index) ≤ 64)
  refine ⟨head, buffer', read, copied, ?_⟩
  have size : (buffer.toList.take index).length = index := by
    rw [List.length_take, Vector.length_toList, Nat.min_eq_left below.le]
  have held : (buffer.toList.take index).take 64 = buffer.toList.take index :=
    List.take_of_length_le (by omega)
  rw [List.take_of_length_le (by rw [Vector.length_toList]; omega), same, List.drop_zero] at content
  rw [content, List.take_append, size, held, List.take_take, Nat.min_eq_left enough]

/-- Input that fills the buffer: the buffer is transformed, then whole blocks of the input, and the
rest is held back. -/
theorem md5Update_filled (room : inputlen.toNat < 2 ^ 32 - 64)
    (full : (64 : Word) - (context.count0 >>> 3 &&& 0x3F) ≤ inputlen) :
    ∃ context', md5Update context input inputlen = .ok context' ∧
      Absorbed context' (message ++ input.take inputlen.toNat) := by
  let piece := input.take inputlen.toNat
  let held := context.buffer.toList.take (message.length % 64)
  have size : piece.length = inputlen.toNat := by rw [List.length_take, Nat.min_eq_left inside]
  have heldSize : held.length = message.length % 64 := length_held _ _
  have partlen := absorbed.partlen_eq
  have enough : 64 - message.length % 64 ≤ inputlen.toNat := by
    rw [← partlen]
    exact full
  have long : 64 ≤ (held ++ piece).length := by
    rw [List.length_append, heldSize, size]
    omega
  have others : (held ++ piece).drop 64 = piece.drop (64 - message.length % 64) := by
    rw [List.drop_append, heldSize, List.drop_of_length_le (by omega), List.nil_append]
  -- the head fills the buffer
  obtain ⟨head, buffer₁, headRead, copied, whole⟩ :=
    head_fills context.buffer (Nat.mod_lt _ (by decide)) enough inside
  change buffer₁.toList = (held ++ piece).take 64 at whole
  -- the loop takes whole blocks from there
  obtain ⟨i, ran, place⟩ := transformLoop_eq rfl inside (compress context.state ((held ++ piece).take 64)) full
    (by omega) (Nat.lt_succ_of_le (Nat.div_le_div_right (Nat.sub_le inputlen.toNat _)))
  rw [partlen] at ran place
  -- and the tail is held back
  have before : i.toNat ≤ inputlen.toNat := by omega
  have tailLen : (inputlen - i).toNat = inputlen.toNat - i.toNat := BitVec.toNat_sub_of_le before
  have tailSize : inputlen.toNat - i.toNat = (message.length + piece.length) % 64 := by omega
  obtain ⟨tail, buffer₂, tailRead, copied', same, content⟩ := slice_copied buffer₁
    (by omega : i.toNat + (inputlen.toNat - i.toNat) ≤ input.length)
    (by omega : 0 + (inputlen.toNat - i.toNat) ≤ 64)
  have kept : tail = remainder 64 (held ++ piece) := by
    rw [same, ← List.drop_take, remainder_step (by decide) long, others, remainder, List.drop_drop,
      List.length_drop, size, place]
  rw [List.take_zero, List.nil_append, Nat.zero_add, tailSize, kept] at content
  refine ⟨_, ?_, absorbed.update inputlen size.symm (absorb 64 compress (compress context.state
    ((held ++ piece).take 64)) (piece.drop (64 - message.length % 64))) buffer₂ ?_ content⟩
  · rw [md5Update]
    simp only [if_pos full, partlen, absorbed.index_eq, headRead, ok_bind, copied, transform_eq, whole, ran,
      tailLen, tailRead, copied', pure_eq_ok]
    rfl
  · rw [absorb_step compress _ (by decide) long, others]

/-- **`MD5Update` absorbs the first `inputlen` bytes of its input.** -/
theorem md5Update_absorbed (room : inputlen.toNat < 2 ^ 32 - 64) :
    ∃ context', md5Update context input inputlen = .ok context' ∧
      Absorbed context' (message ++ input.take inputlen.toNat) := by
  by_cases full : (64 : Word) - (context.count0 >>> 3 &&& 0x3F) ≤ inputlen
  · exact md5Update_filled absorbed inside room full
  · exact md5Update_held absorbed inside (BitVec.not_le.mp full)

end Update

/-! ## MD5Final -/

theorem md5Encode_length (context : Context) {message : List Byte}
    (absorbed : Absorbed context message) :
    md5Encode [context.count0, context.count1] = lengthBytes message.length := by
  have counted := absorbed.counted
  have low := context.count0.isLt
  have high := context.count1.isLt
  have first : context.count0 = BitVec.ofNat 32 (8 * message.length) := by
    apply BitVec.eq_of_toNat_eq
    rw [BitVec.toNat_ofNat]
    omega
  have second : context.count1 = BitVec.ofNat 32 (8 * message.length / 2 ^ 32) := by
    apply BitVec.eq_of_toNat_eq
    rw [BitVec.toNat_ofNat]
    omega
  rw [md5Encode, List.flatMap_cons, List.flatMap_cons, List.flatMap_nil, List.append_nil, encodeWord_eq,
    encodeWord_eq, first, second, lengthBytes]

theorem md5Encode_state (w : Words) : md5Encode [w.a, w.b, w.c, w.d] = digest w := by
  simp [md5Encode, encodeWord_eq, digest]

/-- `padlen` leaves room for the length at the end of a block. -/
theorem Absorbed.padlen_eq {context : Context} {message : List Byte} (absorbed : Absorbed context message) :
    (if context.count0 >>> 3 &&& 0x3F < 56 then 56 - (context.count0 >>> 3 &&& 0x3F)
      else 120 - (context.count0 >>> 3 &&& 0x3F)).toNat = zeros message.length + 1 := by
  have index := absorbed.index_eq
  have below : message.length % 64 < 64 := Nat.mod_lt _ (by decide)
  have small : context.count0 >>> 3 &&& 0x3F < 56 ↔ message.length % 64 < 56 := by
    rw [BitVec.lt_def, index]
    rfl
  by_cases early : message.length % 64 < 56
  · rw [if_pos (small.mpr early),
      BitVec.toNat_sub_of_le (by rw [BitVec.le_def, index]; exact early.le), index, zeros]
    show 56 - message.length % 64 = _
    omega
  · rw [if_neg (small.not.mpr early),
      BitVec.toNat_sub_of_le (by rw [BitVec.le_def, index]; exact le_trans below.le (by decide)), index, zeros]
    show 120 - message.length % 64 = _
    omega

/-- **`MD5Final` gives the digest of the message.** -/
theorem md5Final_absorbed {context : Context} {message : List Byte} (absorbed : Absorbed context message) :
    ∃ context', md5Final context = .ok (md5 message, context') := by
  let padlen : Word := if context.count0 >>> 3 &&& 0x3F < 56 then 56 - (context.count0 >>> 3 &&& 0x3F)
    else 120 - (context.count0 >>> 3 &&& 0x3F)
  have pads : padlen.toNat = zeros message.length + 1 := absorbed.padlen_eq
  have room : padlen.toNat ≤ 64 := by
    rw [pads, zeros]
    omega
  have taken : PADDING.take padlen.toNat = padding message.length := by
    rw [pads, PADDING, List.take_succ_cons, List.take_replicate, padding, Nat.min_eq_left (by omega)]
  have bits : (lengthBytes message.length).length = 8 := rfl
  obtain ⟨context₁, ran, absorbed₁⟩ := md5Update_absorbed absorbed
    (show padlen.toNat ≤ PADDING.length from room) (by omega)
  obtain ⟨context₂, ran', absorbed₂⟩ := md5Update_absorbed absorbed₁
    (show (8 : Word).toNat ≤ (lengthBytes message.length).length from le_refl 8) (by decide)
  rw [taken, show (8 : Word).toNat = (lengthBytes message.length).length from rfl, List.take_length] at absorbed₂
  have state : context₂.state = absorb 64 compress initial (padded message) := absorbed₂.streamed.state
  refine ⟨context₂, ?_⟩
  rw [md5Final, md5Encode_length context absorbed]
  show (do
    let context ← md5Update context PADDING padlen
    let context ← md5Update context (lengthBytes message.length) 8
    pure (md5Encode [context.state.a, context.state.b, context.state.c, context.state.d], context)) = _
  rw [ran, ok_bind, ran', ok_bind, pure_eq_ok, md5Encode_state, state, md5]

/-! ## Chunks -/

/-- `MD5Update` on each chunk in order. -/
def updateAll (context : Context) : List (List Byte) → C Context
  | [] => .ok context
  | chunk :: rest => do
      let context ← md5Update context chunk (BitVec.ofNat 32 chunk.length)
      updateAll context rest

theorem updateAll_absorbed {chunks : List (List Byte)} (short : ∀ chunk ∈ chunks, chunk.length < 2 ^ 32 - 64)
    {context : Context} {message : List Byte} (absorbed : Absorbed context message) :
    ∃ context', updateAll context chunks = .ok context' ∧ Absorbed context' (message ++ chunks.flatten) := by
  induction chunks generalizing context message with
  | nil => exact ⟨context, rfl, by simpa using absorbed⟩
  | cons chunk rest ih =>
      have room := short chunk List.mem_cons_self
      have len : (BitVec.ofNat 32 chunk.length).toNat = chunk.length := by
        rw [BitVec.toNat_ofNat, Nat.mod_eq_of_lt (by omega)]
      obtain ⟨context₁, ran, absorbed₁⟩ := md5Update_absorbed absorbed len.le (by omega)
      rw [len, List.take_length] at absorbed₁
      obtain ⟨context', ran', absorbed'⟩ := ih
        (fun later member => short later (List.mem_cons_of_mem chunk member)) absorbed₁
      refine ⟨context', ?_, ?_⟩
      · rw [updateAll, ran, ok_bind, ran']
      · rw [List.flatten_cons, ← List.append_assoc]
        exact absorbed'

/-- **MD5 in pieces is MD5.** -/
theorem md5_of_chunks (context : Context) (chunks : List (List Byte))
    (short : ∀ chunk ∈ chunks, chunk.length < 2 ^ 32 - 64) :
    ∃ context₁ context₂, updateAll (md5Init context) chunks = .ok context₁ ∧
      md5Final context₁ = .ok (md5 chunks.flatten, context₂) := by
  obtain ⟨context₁, ran, absorbed⟩ := updateAll_absorbed short (md5Init_absorbed context)
  obtain ⟨context₂, final⟩ := md5Final_absorbed absorbed
  exact ⟨context₁, context₂, ran, final⟩

namespace Example

/-- A context nobody has initialised. -/
def blank : Context := ⟨1, 2, ⟨3, 4, 5, 6⟩, Vector.replicate 64 7⟩

/-- The message "abc", in two chunks. -/
theorem abc_in_two_chunks :
    ∃ context₁ context₂, updateAll (md5Init blank) [[0x61], [0x62, 0x63]] = .ok context₁ ∧
      md5Final context₁ = .ok (md5 [0x61, 0x62, 0x63], context₂) :=
  md5_of_chunks blank [[0x61], [0x62, 0x63]] (by decide)

end Example

end HyperSmile.Crypto.Md5
