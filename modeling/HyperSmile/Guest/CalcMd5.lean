/-
# Guest.CalcMd5 — calc_md5 of md5.c

The file is read 128 bytes at a time. `vfs_read` advances the position by what it read, and the
loop then adds another 128 to it, so every second block is skipped (`seen`). The digest and the
length returned are those of the bytes seen; they are the whole file exactly if it has at most
128 bytes (`calcMd5_iff`).

`vfs_read` is a parameter; `Reads` is what it does on a file that can be read without error.
-/
import HyperSmile.Crypto.Md5Stream

namespace HyperSmile.Guest.CalcMd5

open HyperSmile.Crypto.Md5
open HyperSmile.Crypto.Rfc1321 (Byte md5)
open HyperSmile.Theory.CInt
open HyperSmile.Theory.CInt.CType (add_ok toInt toInt_of_fits)

set_option autoImplicit false

/-! ## The file -/

/-- What a read returns: its value, the bytes it copied, and the position it leaves. -/
structure ReadResult where
  ret : Int
  copied : List Byte
  pos : Nat

/-- `vfs_read(fp, buf, count, &pos)` on one open file -/
abbrev Read := Nat → Nat → ReadResult

/-- A file with this content, read without error. -/
def Reads (content : List Byte) (read : Read) : Prop :=
  ∀ count pos, read count pos =
    let copied := (content.drop pos).take count
    ⟨copied.length, copied, pos + copied.length⟩

/-! ## calc_md5 -/

/-- `sprintf(temp,"%02x",b)` -/
def sprintf02x (b : Byte) : List Char :=
  let digits := Nat.toDigits 16 b.toNat
  List.replicate (2 - digits.length) '0' ++ digits

/-- The locals of the loop. -/
structure Locals where
  pos : Nat
  hexbuf : List Byte
  filelen : Int
  md5 : Context

/-- `while(1)` of `calc_md5`; `none` is the error return -/
def readLoop (read : Read) : Nat → Locals → C (Option Locals)
  | 0, _ => .error .endless
  | turns + 1, s => do
      let result := read 128 s.pos
      let hexbuf := result.copied ++ s.hexbuf.drop result.copied.length
      let readLen := toInt result.ret
      -- `vfs_read` has moved `pos` already
      let pos := result.pos + 128
      if readLen < 0 then return none
      else if readLen = 0 then return some { s with pos := pos, hexbuf := hexbuf }
      else do
        let filelen ← CType.int.add s.filelen readLen
        let md5 ← md5Update s.md5 hexbuf (BitVec.ofInt 32 readLen)
        readLoop read turns ⟨pos, hexbuf, filelen, md5⟩

/-- `calc_md5`: the value returned, and the string in `dest`.  `fp` is `none` where `filp_open` fails;
`md5` is the context before `MD5Init`. -/
def calcMd5 (turns : Nat) (fp : Option Read) (md5 : Context) (dest : List Char) :
    C (Int × List Char) :=
  match fp with
  | none => .ok (-1, dest)
  | some read => do
      let ended ← readLoop read turns ⟨0, List.replicate 128 0, 0, md5Init md5⟩
      match ended with
      | none => return (-1, dest)
      | some s => do
          let (decrypt, _) ← md5Final s.md5
          return (s.filelen, decrypt.flatMap sprintf02x)

/-! ## What the loop sees -/

/-- The bytes that reach the digest, from a position on. -/
def seen (content : List Byte) : Nat → Nat → List Byte
  | 0, _ => []
  | turns + 1, pos =>
      let chunk := (content.drop pos).take 128
      if chunk = [] then [] else chunk ++ seen content turns (pos + chunk.length + 128)

theorem length_seen (content : List Byte) (turns pos : Nat) :
    (seen content turns pos).length ≤ content.length - pos := by
  induction turns generalizing pos with
  | zero => exact Nat.zero_le _
  | succ turns ih =>
      rw [seen]
      split
      · exact Nat.zero_le _
      · have next := ih (pos + ((content.drop pos).take 128).length + 128)
        have size : ((content.drop pos).take 128).length = min 128 (content.length - pos) := by
          rw [List.length_take, List.length_drop]
        rw [List.length_append]
        omega

/-- A file of at most 128 bytes is seen whole. -/
theorem seen_short {content : List Byte} (short : content.length ≤ 128) (turns : Nat) :
    seen content (turns + 2) 0 = content := by
  have chunk : (content.drop 0).take 128 = content := by
    rw [List.drop_zero, List.take_of_length_le short]
  have none : (content.drop (0 + content.length + 128)).take 128 = [] := by
    rw [List.drop_of_length_le (by omega), List.take_nil]
  rw [seen]
  simp only [chunk]
  split
  · rename_i empty
    exact empty.symm
  · rw [seen]
    simp only [none, if_true, List.append_nil]

/-- Of a longer file the second block is missing. -/
theorem seen_long {content : List Byte} (long : 128 < content.length) (turns : Nat) :
    (seen content (turns + 1) 0).length < content.length := by
  have size : ((content.drop 0).take 128).length = 128 := by
    rw [List.drop_zero, List.length_take]
    omega
  have some : (content.drop 0).take 128 ≠ [] := by
    intro empty
    rw [empty] at size
    cases size
  rw [seen]
  simp only [if_neg some, List.length_append, size]
  have rest := length_seen content turns (0 + 128 + 128)
  omega

/-! ## The loop -/

section Loop

variable {content : List Byte} {read : Read}

/-- One turn that reads nothing. -/
theorem readLoop_end (vfs : Reads content read) {s : Locals} (past : content.length ≤ s.pos) (turns : Nat) :
    ∃ pos hexbuf, readLoop read (turns + 1) s = .ok (some { s with pos := pos, hexbuf := hexbuf }) := by
  have none : (content.drop s.pos).take 128 = [] := by rw [List.drop_of_length_le past, List.take_nil]
  have result := vfs 128 s.pos
  rw [none] at result
  refine ⟨s.pos + 0 + 128, [] ++ s.hexbuf.drop 0, ?_⟩
  rw [readLoop, result]
  rfl

/-- One turn that reads a chunk. -/
theorem readLoop_chunk (vfs : Reads content read) {s : Locals} {message : List Byte}
    (absorbed : Absorbed s.md5 message) (counted : s.filelen = message.length)
    (inside : s.pos < content.length) (room : message.length + (content.length - s.pos) < 2 ^ 31) (turns : Nat) :
    let chunk := (content.drop s.pos).take 128
    ∃ hexbuf md5, Absorbed md5 (message ++ chunk) ∧
      readLoop read (turns + 1) s =
        readLoop read turns ⟨s.pos + chunk.length + 128, hexbuf, (message ++ chunk).length, md5⟩ := by
  intro chunk
  have size : chunk.length = min 128 (content.length - s.pos) := by rw [List.length_take, List.length_drop]
  let hexbuf := chunk ++ s.hexbuf.drop chunk.length
  have readLen : toInt chunk.length = chunk.length := toInt_of_fits (by omega) (by omega)
  have inputlen : (BitVec.ofInt 32 (chunk.length : Int)).toNat = chunk.length := by
    rw [BitVec.ofInt_natCast, BitVec.toNat_ofNat, Nat.mod_eq_of_lt (by omega)]
  have whole : chunk.length ≤ hexbuf.length := by rw [List.length_append]; omega
  obtain ⟨md5, ran, absorbed'⟩ := md5Update_absorbed absorbed (inputlen.le.trans whole) (by omega)
  rw [inputlen, List.take_left] at absorbed'
  have sum : CType.int.add s.filelen chunk.length = .ok ((message ++ chunk).length : Int) := by
    rw [counted, List.length_append, CType.int_add (by omega)]
  refine ⟨hexbuf, md5, absorbed', ?_⟩
  rw [readLoop, vfs 128 s.pos]
  show (if toInt chunk.length < 0 then _ else if toInt chunk.length = 0 then _ else _) = _
  rw [readLen, if_neg (by omega), if_neg (by omega), sum, ok_bind]
  show (md5Update s.md5 hexbuf (BitVec.ofInt 32 chunk.length) >>= _) = _
  rw [ran, ok_bind]

/-- **The loop digests what it sees.** -/
theorem readLoop_seen (vfs : Reads content read) {turns : Nat} {s : Locals} {message : List Byte}
    (absorbed : Absorbed s.md5 message) (counted : s.filelen = message.length)
    (room : message.length + (content.length - s.pos) < 2 ^ 31) (enough : content.length - s.pos < turns) :
    ∃ s', readLoop read turns s = .ok (some s') ∧
      Absorbed s'.md5 (message ++ seen content turns s.pos) ∧
      s'.filelen = (message ++ seen content turns s.pos).length := by
  induction turns generalizing s message with
  | zero => cases enough
  | succ turns ih =>
      let chunk := (content.drop s.pos).take 128
      have size : chunk.length = min 128 (content.length - s.pos) := by rw [List.length_take, List.length_drop]
      by_cases past : content.length ≤ s.pos
      · have none : chunk = [] := List.eq_nil_of_length_eq_zero (by omega)
        obtain ⟨pos, hexbuf, ran⟩ := readLoop_end vfs past turns
        have end' : seen content (turns + 1) s.pos = [] := by rw [seen]; exact if_pos none
        rw [end', List.append_nil]
        exact ⟨_, ran, absorbed, counted⟩
      · have some : chunk ≠ [] := List.ne_nil_of_length_pos (by omega)
        have step : seen content (turns + 1) s.pos =
            chunk ++ seen content turns (s.pos + chunk.length + 128) := by
          rw [seen]
          exact if_neg some
        obtain ⟨hexbuf, md5, absorbed', ran⟩ := readLoop_chunk vfs absorbed counted (by omega) room turns
        rw [ran, step, ← List.append_assoc]
        refine ih absorbed' rfl ?_ ?_
        · rw [List.length_append]
          show message.length + chunk.length + (content.length - (s.pos + chunk.length + 128)) < _
          omega
        · show content.length - (s.pos + chunk.length + 128) < turns
          omega

end Loop

/-! ## The digest as text -/

/-- The lower-case hexadecimal digits of some bytes, two for each. -/
def hex (bytes : List Byte) : List Char :=
  bytes.flatMap fun b => [Nat.digitChar (b.toNat / 16), Nat.digitChar (b.toNat % 16)]

theorem sprintf02x_eq (b : Byte) :
    sprintf02x b = [Nat.digitChar (b.toNat / 16), Nat.digitChar (b.toNat % 16)] := by
  revert b
  decide

theorem flatMap_sprintf02x (bytes : List Byte) : bytes.flatMap sprintf02x = hex bytes :=
  congrArg bytes.flatMap (funext sprintf02x_eq)

/-! ## The whole function -/

/-- `calc_md5` gives the digest and the length of what its loop saw. -/
theorem calcMd5_seen {content : List Byte} (small : content.length < 2 ^ 31) {read : Read}
    (vfs : Reads content read) {turns : Nat} (enough : content.length < turns) (context : Context)
    (dest : List Char) :
    calcMd5 turns (some read) context dest =
      .ok ((seen content turns 0).length, hex (md5 (seen content turns 0))) := by
  obtain ⟨s, ran, absorbed, counted⟩ := readLoop_seen vfs
    (s := ⟨0, List.replicate 128 0, 0, md5Init context⟩) (md5Init_absorbed context) rfl
    (by simpa using small) enough
  obtain ⟨context', final⟩ := md5Final_absorbed absorbed
  rw [calcMd5, ran, ok_bind]
  show (md5Final s.md5 >>= _) = _
  rw [final, ok_bind]
  show Except.ok (s.filelen, (md5 _).flatMap sprintf02x) = _
  rw [counted, flatMap_sprintf02x]
  rfl

/-- **`calc_md5` returns, and hashes the whole file exactly if the file has at most 128 bytes.** -/
theorem calcMd5_iff (content : List Byte) (small : content.length < 2 ^ 31) {read : Read}
    (vfs : Reads content read) {turns : Nat} (enough : content.length + 2 ≤ turns) (context : Context)
    (dest : List Char) :
    ∃ ret dest', calcMd5 turns (some read) context dest = .ok (ret, dest') ∧
      ((dest' = hex (md5 content) ∧ ret = content.length) ↔ content.length ≤ 128) := by
  refine ⟨_, _, calcMd5_seen small vfs (by omega) context dest, ?_⟩
  obtain ⟨turns, rfl⟩ := Nat.exists_eq_add_of_le' (le_trans (Nat.le_add_left 2 _) enough)
  constructor
  · rintro ⟨_, length⟩
    by_contra long
    have less := seen_long (Nat.not_le.mp long) (turns + 1)
    exact absurd (Int.ofNat.inj length) less.ne
  · intro short
    rw [seen_short short turns]
    exact ⟨rfl, rfl⟩

namespace Example

open HyperSmile.Crypto.Md5.Example (blank)

/-- A file held in memory. -/
def inMemory (content : List Byte) : Read := fun count pos =>
  let copied := (content.drop pos).take count
  ⟨copied.length, copied, pos + copied.length⟩

/-- The file "abc". -/
theorem abc_file :
    ∃ ret dest', calcMd5 5 (some (inMemory [0x61, 0x62, 0x63])) blank [] = .ok (ret, dest') ∧
      ((dest' = hex (md5 [0x61, 0x62, 0x63]) ∧ ret = 3) ↔ 3 ≤ 128) :=
  calcMd5_iff [0x61, 0x62, 0x63] (by decide) (fun _ _ => rfl) (le_refl 5) blank []

/-- Of 129 bytes the last is not read: the length returned is 128. -/
theorem last_byte_skipped :
    let content : List Byte := List.replicate 129 0
    ∃ ret dest', calcMd5 131 (some (inMemory content)) blank [] = .ok (ret, dest') ∧
      ret = 128 ∧ ¬ (dest' = hex (md5 content) ∧ ret = content.length) := by
  intro content
  have size : content.length = 129 := List.length_replicate
  have length : (seen content 131 0).length = 128 := by decide +kernel
  refine ⟨_, _, calcMd5_seen (by omega) (fun _ _ => rfl) (by omega) blank [], ?_, ?_⟩
  · rw [length]
    rfl
  · rintro ⟨_, same⟩
    rw [length, size] at same
    cases same

end Example

end HyperSmile.Guest.CalcMd5
