/-
# Crypto.ReadFile — readFile of rsa.h

The file comes as the chunks that `fread` returns, which may be short; the buffer is what `malloc`
and `realloc` gave, as a list of bytes that may not have been written yet. Every store looks at the
size the buffer has then. `malloc` and `realloc` are taken to succeed.

One doubling is enough for a chunk, because the bytes read stay below the capacity: the capacity is
at least BUF_SIZE, and a chunk is no longer than that (`Filled`).
-/
import HyperSmile.Theory.CharArray
import Mathlib.Order.Bounds.Basic

namespace HyperSmile.Crypto.ReadFile

open HyperSmile.Theory.CInt hiding store store_ok
open HyperSmile.Theory.CharArray

set_option autoImplicit false

/-! ## The buffer -/

def malloc (size : Int) : Buffer := List.replicate size.toNat none

/-- Keeps what fits; what is new has no value. -/
def realloc (buffer : Buffer) (size : Int) : Buffer :=
  buffer.take size.toNat ++ List.replicate (size.toNat - buffer.length) none

/-! ## The function -/

/-- `BUF_SIZE` -/
def bufSize : Int := 1024

structure Reading where
  buffer : Buffer
  len : Int
  cap : Int
  deriving DecidableEq, Repr

/-- `if(len + r >= cap)` -/
def grow (r : Int) (s : Reading) : C Reading := do
  let filled ← CType.int.add s.len r
  if s.cap ≤ filled then do
    let cap ← CType.int.mul s.cap 2
    return { s with buffer := realloc s.buffer cap, cap }
  else return s

/-- `while((r = fread(buf, sizeof(char), BUF_SIZE, fd)) > 0)` -/
def readLoop : List (List (BitVec 8)) → Reading → C Reading
  | [], s => .ok s
  | buf :: chunks, s =>
      if buf = [] then .ok s
      else do
        let s ← grow buf.length s
        let buffer ← memcpy s.buffer s.len buf
        let len ← CType.int.add s.len buf.length
        readLoop chunks { s with buffer, len }

/-- `do { (*buffer)[len] = '\0'; len++; } while(len % bytes != 0);` -/
def padLoop (bytes : Int) : Nat → Buffer → Int → C (Buffer × Int)
  | 0, _, _ => .error .endless
  | turns + 1, buffer, len => do
      let buffer ← store buffer len 0
      let len ← CType.int.add len 1
      let rest ← CType.int.rem len bytes
      if rest ≠ 0 then padLoop bytes turns buffer len else .ok (buffer, len)

/-- Read the file fd into an array of bytes ready for encryption: the array and the number of bytes
it returns -/
def readFile (chunks : List (List (BitVec 8))) (bytes : Int) : C (Buffer × Int) := do
  let s ← readLoop chunks ⟨malloc bufSize, 0, bufSize⟩
  -- An additional block is added if there is no room
  let sum ← CType.int.add s.len bytes
  let rest ← CType.int.rem s.len bytes
  let padded ← CType.int.sub sum rest
  padLoop bytes (bytes.toNat + 1) (if s.cap < padded then realloc s.buffer padded else s.buffer) s.len

/-! ## Room -/

theorem realloc_ok (written rest : Buffer) {size : ℕ} (larger : written.length + rest.length ≤ size) :
    ∃ more : Buffer, realloc (written ++ rest) size = written ++ more ∧ written.length + more.length = size := by
  refine ⟨rest ++ List.replicate (size - (written ++ rest).length) none, ?_, ?_⟩
  · rw [realloc, Int.toNat_natCast, List.take_of_length_le (by rw [List.length_append]; exact larger),
      List.append_assoc]
  · rw [List.length_append, List.length_replicate, List.length_append]
    omega

/-! ## Reading -/

/-- The state at the head of the loop: the content is followed by at least one free byte. -/
inductive Filled (content : List (BitVec 8)) : Reading → Prop
  | intro (rest : Buffer) (free : 0 < rest.length) (large : 1024 ≤ content.length + rest.length) :
      Filled content ⟨content.map some ++ rest, content.length, (content.length + rest.length : ℕ)⟩

theorem Filled.start {buffer : Buffer} (size : buffer.length = 1024) : Filled [] ⟨buffer, 0, bufSize⟩ := by
  have filled : Filled [] ⟨buffer, 0, (0 + buffer.length : ℕ)⟩ :=
    .intro buffer (by omega) (by rw [size]; decide)
  rw [size] at filled
  exact filled

/-- One doubling makes room for a chunk, and for a byte after it. -/
theorem grow_ok {content : List (BitVec 8)} {s : Reading} {r : ℕ} (filled : Filled content s) (short : r ≤ 1024)
    (small : content.length + r < 1073741824) :
    ∃ rest : Buffer, grow r s =
        .ok ⟨content.map some ++ rest, content.length, (content.length + rest.length : ℕ)⟩ ∧
      r < rest.length ∧ 1024 ≤ content.length + rest.length := by
  cases filled with
  | intro rest free large =>
      rw [grow, CType.int_add (by omega), ok_bind]
      by_cases full : ((content.length + rest.length : ℕ) : ℤ) ≤ ((content.length + r : ℕ) : ℤ)
      · have double : CType.int.mul ((content.length + rest.length : ℕ) : ℤ) 2 =
            .ok (((content.length + rest.length) * 2 : ℕ) : ℤ) :=
          CType.int_mul (y := 2) (by omega)
        obtain ⟨more, moved, size⟩ := realloc_ok (content.map some) rest
          (by rw [List.length_map]; omega : _ ≤ (content.length + rest.length) * 2)
        rw [List.length_map] at size
        refine ⟨more, ?_, by omega, by omega⟩
        rw [if_pos full, double, ok_bind, pure_eq_ok, moved, size]
      · exact ⟨rest, if_neg full, by omega, large⟩

/-- **The content stays below the capacity**, whatever the chunks. -/
theorem readLoop_ok {chunks : List (List (BitVec 8))} {content : List (BitVec 8)} {s : Reading}
    (filled : Filled content s) (sizes : ∀ buf ∈ chunks, 1 ≤ buf.length ∧ buf.length ≤ 1024)
    (small : (content ++ chunks.flatten).length < 1073741824) :
    ∃ s', readLoop chunks s = .ok s' ∧ Filled (content ++ chunks.flatten) s' := by
  induction chunks generalizing content s with
  | nil => exact ⟨s, rfl, by rwa [List.flatten_nil, List.append_nil]⟩
  | cons buf chunks ih =>
      obtain ⟨low, high⟩ := sizes buf List.mem_cons_self
      rw [List.flatten_cons, ← List.append_assoc] at small ⊢
      have total : content.length + buf.length < 1073741824 := by
        rw [List.length_append, List.length_append] at small
        omega
      obtain ⟨rest, grown, room, large⟩ := grow_ok filled high total
      have copied := memcpy_ok (content.map some) room.le
      rw [List.length_map, ← List.map_append] at copied
      have sum : CType.int.add content.length buf.length = .ok (((content ++ buf).length : ℕ) : ℤ) := by
        rw [CType.int_add (by omega), List.length_append]
      have nonempty : buf ≠ [] := by
        rintro rfl
        cases low
      have size : content.length + rest.length = (content ++ buf).length + (rest.drop buf.length).length := by
        rw [List.length_append, List.length_drop]
        omega
      have next : Filled (content ++ buf) ⟨(content ++ buf).map some ++ rest.drop buf.length,
          (content ++ buf).length, (content.length + rest.length : ℕ)⟩ := by
        rw [size]
        refine .intro _ ?_ (by omega)
        rw [List.length_drop]
        omega
      obtain ⟨s', ran, filled'⟩ := ih next (fun other mem => sizes other (List.mem_cons_of_mem buf mem)) small
      refine ⟨s', ?_, filled'⟩
      rw [readLoop, if_neg nonempty, grown, ok_bind, copied, ok_bind, sum, ok_bind, ran]

/-! ## Padding -/

/-- The padding from the place `t` of a block on, with `n` of its places left. -/
theorem padLoop_ok {bytes q t n turns : ℕ} (written rest : Buffer) (small : bytes * q + bytes < 2147483648)
    (place : t + n = bytes) (more : 0 < n) (filled : written.length = bytes * q + t) (room : n ≤ rest.length)
    (enough : n ≤ turns) :
    padLoop bytes turns (written ++ rest) written.length =
      .ok (written ++ List.replicate n (some 0) ++ rest.drop n, ((bytes * q + bytes : ℕ) : ℤ)) := by
  induction n generalizing t turns written rest with
  | zero => cases more
  | succ n ih =>
      obtain ⟨turns, rfl⟩ : ∃ k, turns = k + 1 := ⟨turns - 1, by omega⟩
      cases rest with
      | nil => cases room
      | cons old rest =>
          have next : CType.int.add (written.length : ℤ) 1 = .ok ((bytes * q + (t + 1) : ℕ) : ℤ) := by
            rw [filled, ← Nat.add_assoc]
            exact CType.int_add (y := 1) (by omega)
          have remainder : CType.int.rem ((bytes * q + (t + 1) : ℕ) : ℤ) bytes =
              .ok (((bytes * q + (t + 1)) % bytes : ℕ) : ℤ) :=
            CType.int_rem (by omega) (by omega)
          rw [padLoop, store_ok, ok_bind, next, ok_bind, remainder, ok_bind, Nat.mul_add_mod]
          rcases Nat.eq_zero_or_pos n with rfl | more
          · obtain rfl : t + 1 = bytes := place
            rw [Nat.mod_self, if_neg (by simp)]
            simp
          · have filled' : (written ++ [some 0]).length = bytes * q + (t + 1) := by
              rw [List.length_append, filled, List.length_singleton, Nat.add_assoc]
            have step := ih (written ++ [some 0]) rest (by omega : t + 1 + n = bytes) more
              filled' (Nat.le_of_succ_le_succ room) (by omega : n ≤ turns)
            rw [Nat.mod_eq_of_lt (by omega), if_pos (by omega), List.append_cons, ← filled', step]
            simp [List.replicate_succ]

/-- There is room for the padding, after the last `realloc` or without it. -/
theorem padded_room (content : List (BitVec 8)) (rest : Buffer) (padded : ℕ) :
    ∃ room : Buffer, (if ((content.length + rest.length : ℕ) : ℤ) < padded then
        realloc (content.map some ++ rest) padded else content.map some ++ rest) = content.map some ++ room ∧
      padded ≤ content.length + room.length := by
  split
  · rename_i short
    obtain ⟨more, moved, size⟩ := realloc_ok (content.map some) rest
      (by rw [List.length_map]; omega : _ ≤ padded)
    rw [List.length_map] at size
    exact ⟨more, moved, by omega⟩
  · rename_i enough
    exact ⟨rest, rfl, by omega⟩

/-- The next multiple of `bytes`. -/
theorem isLeast_multiple {bytes : ℕ} (positive : 1 ≤ bytes) (n : ℕ) :
    IsLeast {m : ℕ | bytes ∣ m ∧ n < m} (bytes * (n / bytes) + bytes) := by
  constructor
  · refine ⟨Dvd.intro (n / bytes + 1) (Nat.mul_succ _ _), ?_⟩
    have whole := Nat.div_add_mod n bytes
    have rest := Nat.mod_lt n positive
    omega
  · rintro m ⟨⟨k, rfl⟩, larger⟩
    have quotient : n / bytes < k := Nat.div_lt_of_lt_mul larger
    rw [← Nat.mul_succ]
    exact Nat.mul_le_mul_left bytes quotient

/-- **`readFile` pads, and stores every byte inside the buffer.** -/
theorem readFile_ok (chunks : List (List (BitVec 8))) (bytes : ℕ)
    (sizes : ∀ buf ∈ chunks, 1 ≤ buf.length ∧ buf.length ≤ 1024) (small : chunks.flatten.length < 2 ^ 30)
    (positive : 1 ≤ bytes) (block : bytes ≤ 1024) :
    ∃ (buffer : Buffer) (len : ℕ), readFile chunks bytes = .ok (buffer, (len : ℤ)) ∧
      IsLeast {m : ℕ | bytes ∣ m ∧ chunks.flatten.length < m} len ∧
      buffer.take len =
        (chunks.flatten ++ List.replicate (len - chunks.flatten.length) 0).map some := by
  have size : (malloc bufSize).length = 1024 := List.length_replicate
  obtain ⟨s, ran, filled⟩ := readLoop_ok (Filled.start size) sizes small
  rw [List.nil_append] at filled
  generalize chunks.flatten = content at small filled ⊢
  have whole := Nat.div_add_mod content.length bytes
  have place := Nat.mod_lt content.length positive
  generalize quotient : content.length / bytes = q at whole
  generalize content.length % bytes = t at whole place
  cases filled with
  | intro rest free large =>
      have sum : CType.int.add content.length bytes = .ok ((content.length + bytes : ℕ) : ℤ) :=
        CType.int_add (by omega)
      have remainder : CType.int.rem content.length bytes = .ok ((t : ℕ) : ℤ) := by
        rw [CType.int_rem (by omega) (by omega), ← whole, Nat.mul_add_mod, Nat.mod_eq_of_lt place]
      have padded : CType.int.sub ((content.length + bytes : ℕ) : ℤ) t = .ok ((bytes * q + bytes : ℕ) : ℤ) := by
        have size : content.length + bytes - t = bytes * q + bytes := by omega
        rw [CType.int_sub (by omega) (by omega), size]
      obtain ⟨room, moved, size⟩ := padded_room content rest (bytes * q + bytes)
      have pads := padLoop_ok (content.map some) room (by omega : bytes * q + bytes < 2147483648)
        (by omega : t + (bytes - t) = bytes) (by omega) (by rw [List.length_map, whole]) (by omega)
        (by omega : bytes - t ≤ bytes + 1)
      rw [List.length_map] at pads
      have least := isLeast_multiple positive content.length
      rw [quotient] at least
      have ended : readFile chunks bytes = .ok (content.map some ++ List.replicate (bytes - t) (some 0) ++
          room.drop (bytes - t), ((bytes * q + bytes : ℕ) : ℤ)) := by
        rw [readFile, ran, ok_bind, sum, ok_bind, remainder, ok_bind, padded, ok_bind, moved, Int.toNat_natCast,
          pads]
      have zeros : bytes * q + bytes - content.length = bytes - t := by omega
      have length : (content.map some ++ List.replicate (bytes - t) (some 0)).length = bytes * q + bytes := by
        rw [List.length_append, List.length_map, List.length_replicate]
        omega
      refine ⟨_, _, ended, least, ?_⟩
      rw [List.take_left' length, zeros, List.map_append, List.map_replicate]

namespace Example

/-- A chunk that fills the buffer, so that it is doubled, and a short one after it. -/
def chunks : List (List (BitVec 8)) := [List.replicate 1024 1, [2, 3, 4, 5]]

/-- A full block of zeros follows a content that is already a multiple. -/
theorem full_chunk_padded :
    grow (1024 : ℕ) ⟨malloc bufSize, 0, bufSize⟩ = .ok ⟨realloc (malloc bufSize) 2048, 0, 2048⟩ ∧
      ∃ (buffer : Buffer) (len : ℕ), readFile chunks (4 : ℕ) = .ok (buffer, (len : ℤ)) ∧
        IsLeast {m : ℕ | 4 ∣ m ∧ chunks.flatten.length < m} len ∧
        buffer.take len = (chunks.flatten ++ List.replicate (len - chunks.flatten.length) 0).map some := by
  have sizes : ∀ buf ∈ chunks, 1 ≤ buf.length ∧ buf.length ≤ 1024 := by
    intro buf mem
    rcases List.mem_pair.mp mem with rfl | rfl
    · simp only [List.length_replicate]
      decide
    · decide
  have small : chunks.flatten.length < 2 ^ 30 := by
    rw [chunks, List.flatten_cons, List.length_append, List.length_replicate]
    decide
  exact ⟨rfl, readFile_ok chunks 4 sizes small (by decide) (by decide)⟩

end Example

end HyperSmile.Crypto.ReadFile
