/-
# Theory.Printf — the line that sprintf writes

A format is scanned into pieces, characters and conversions `%ld`, and printed with its arguments,
which are words of `w` bits read as signed numbers. Too few arguments leave the line undefined; those
that are too many are not read.

* `print_ok`: with an argument for each conversion there is a line, and it is no longer than `width`:
  the characters of the format, and the sign and the digits of `-2^(w-1)` for each number.
* `sprintf_ok`: an array with room for that and the zero is not overrun, and holds the line as a
  string.
-/
import HyperSmile.Theory.CharArray

namespace HyperSmile.Theory.Printf

open HyperSmile.Theory.CInt
open HyperSmile.Theory.CharArray

set_option autoImplicit false

/-! ## Formats -/

inductive Piece where
  | char (c : Char)
  /-- `%ld` -/
  | number
  deriving DecidableEq, Repr

/-- The pieces of a format; the only conversion is `%ld`. -/
def scan : List Char → Option (List Piece)
  | [] => some []
  | '%' :: 'l' :: 'd' :: rest => (Piece.number :: ·) <$> scan rest
  | '%' :: _ => none
  | c :: rest => (Piece.char c :: ·) <$> scan rest

/-- A number without leading zeros, most significant digit first. -/
def decimal (x : Int) : List Char :=
  if x < 0 then '-' :: Nat.toDigits 10 x.natAbs else Nat.toDigits 10 x.natAbs

def ascii (c : Char) : BitVec 8 := BitVec.ofNat 8 c.toNat

section Words

variable {w : Nat}

def print : List Piece → List (BitVec w) → Option (List Char)
  | [], _ => some []
  | .char c :: pieces, args => (c :: ·) <$> print pieces args
  | .number :: _, [] => none
  | .number :: pieces, x :: args => (decimal x.toInt ++ ·) <$> print pieces args

/-- The characters of the line, without the zero at its end. -/
def line (format : List Char) (args : List (BitVec w)) : Option (List Char) := do
  let pieces ← scan format
  print pieces args

def sprintf (data : Buffer) (format : List Char) (args : List (BitVec w)) : C Buffer :=
  match line format args with
  | none => .error .indeterminate
  | some text => memcpy data 0 (text.map ascii ++ [0])

end Words

/-! ## How long a line is -/

/-- The conversions of a format. -/
def numbers (pieces : List Piece) : Nat := pieces.count .number

/-- The sign and the digits of the number of `w` bits that has most of them. -/
def numberWidth (w : Nat) : Nat := (Nat.toDigits 10 (2 ^ (w - 1))).length + 1

def width (w : Nat) : List Piece → Nat
  | [] => 0
  | .char _ :: pieces => width w pieces + 1
  | .number :: pieces => width w pieces + numberWidth w

theorem length_toDigits_mono {m n : Nat} (le : m ≤ n) :
    (Nat.toDigits 10 m).length ≤ (Nat.toDigits 10 n).length := by
  have bounded : n < 10 ^ (Nat.toDigits 10 n).length :=
    (Nat.length_toDigits_le_iff (by decide) Nat.length_toDigits_pos).mp (le_refl _)
  exact (Nat.length_toDigits_le_iff (by decide) Nat.length_toDigits_pos).mpr (by omega)

/-- A signed word has at most the digits of `2^(w-1)`, and a sign. -/
theorem length_decimal_le {w : Nat} (x : BitVec w) : (decimal x.toInt).length ≤ numberWidth w := by
  have low := x.le_toInt
  have high := x.toInt_lt
  have digits : (Nat.toDigits 10 x.toInt.natAbs).length ≤ (Nat.toDigits 10 (2 ^ (w - 1))).length := by
    apply length_toDigits_mono
    have power : ((2 ^ (w - 1) : Nat) : Int) = 2 ^ (w - 1) := by push_cast; rfl
    omega
  rw [decimal, numberWidth]
  split
  · rw [List.length_cons]
    omega
  · omega

theorem print_ok {w : Nat} {pieces : List Piece} {args : List (BitVec w)} (enough : numbers pieces ≤ args.length) :
    ∃ text, print pieces args = some text ∧ text.length ≤ width w pieces := by
  induction pieces generalizing args with
  | nil => exact ⟨[], rfl, le_refl 0⟩
  | cons piece pieces ih =>
      cases piece with
      | char c =>
          have enough' : numbers pieces ≤ args.length := by simpa [numbers] using enough
          obtain ⟨text, printed, short⟩ := ih enough'
          refine ⟨c :: text, ?_, Nat.succ_le_succ short⟩
          rw [print, printed]
          rfl
      | number =>
          cases args with
          | nil => simp [numbers] at enough
          | cons x args =>
              have enough' : numbers pieces ≤ args.length := by simpa [numbers] using enough
              obtain ⟨text, printed, short⟩ := ih enough'
              refine ⟨decimal x.toInt ++ text, ?_, ?_⟩
              · rw [print, printed]
                rfl
              · have number := length_decimal_le x
                rw [List.length_append, width]
                omega

/-! ## What a line is made of -/

theorem ascii_decimal {x : Int} {c : Char} (member : c ∈ decimal x) : ascii c ≠ 0 := by
  have nonzero (positive : 0 < c.toNat) (small : c.toNat < 256) : ascii c ≠ 0 := by
    intro zero
    have value := congrArg BitVec.toNat zero
    rw [ascii, BitVec.toNat_ofNat, Nat.mod_eq_of_lt small] at value
    exact positive.ne' value
  have digit (member : c ∈ Nat.toDigits 10 x.natAbs) : ascii c ≠ 0 := by
    have isDigit := Nat.isDigit_of_mem_toDigits (by decide) (by decide) member
    simp only [Char.isDigit, Bool.and_eq_true, decide_eq_true_eq, ge_iff_le] at isDigit
    have low : 48 ≤ c.toNat := isDigit.1
    have high : c.toNat ≤ 57 := isDigit.2
    exact nonzero (by omega) (by omega)
  rw [decimal] at member
  split at member
  · rcases List.mem_cons.mp member with rfl | member
    · decide
    · exact digit member
  · exact digit member

/-- No zero byte but the one at the end, if the format has none. -/
theorem print_text {w : Nat} {pieces : List Piece} {args : List (BitVec w)} {text : List Char}
    (plain : ∀ c, Piece.char c ∈ pieces → ascii c ≠ 0) (printed : print pieces args = some text) :
    ∀ c ∈ text, ascii c ≠ 0 := by
  induction pieces generalizing args text with
  | nil =>
      obtain rfl := Option.some.inj printed
      exact List.forall_mem_nil _
  | cons piece pieces ih =>
      have plain' (c : Char) (member : Piece.char c ∈ pieces) := plain c (List.mem_cons_of_mem piece member)
      cases piece with
      | char c =>
          obtain ⟨rest, printed', rfl⟩ := Option.map_eq_some_iff.mp printed
          rw [List.forall_mem_cons]
          exact ⟨plain c List.mem_cons_self, ih plain' printed'⟩
      | number =>
          cases args with
          | nil => cases printed
          | cons x args =>
              obtain ⟨rest, printed', rfl⟩ := Option.map_eq_some_iff.mp printed
              rw [List.forall_mem_append]
              exact ⟨fun c member => ascii_decimal member, ih plain' printed'⟩

/-! ## The array -/

theorem line_eq {w : Nat} {format : List Char} {pieces : List Piece} (scanned : scan format = some pieces)
    (args : List (BitVec w)) : line format args = print pieces args := by
  rw [line, scanned]
  rfl

/-- **An array with room for the widest line is not overrun.** -/
theorem sprintf_ok {w : Nat} {data : Buffer} {format : List Char} {pieces : List Piece} {args : List (BitVec w)}
    (scanned : scan format = some pieces) (enough : numbers pieces ≤ args.length)
    (room : width w pieces + 1 ≤ data.length) :
    ∃ text, print pieces args = some text ∧ text.length ≤ width w pieces ∧
      sprintf data format args =
        .ok ((text.map ascii).map some ++ some 0 :: data.drop (text.length + 1)) := by
  obtain ⟨text, printed, short⟩ := print_ok enough
  have inside : (text.map ascii ++ [0]).length ≤ data.length := by
    rw [List.length_append, List.length_map, List.length_singleton]
    omega
  have copied := memcpy_ok [] inside
  refine ⟨text, printed, short, ?_⟩
  rw [sprintf, line_eq scanned, printed]
  simpa using copied

end HyperSmile.Theory.Printf
