/-
# Host.KvmCount — the cycle counts the hypervisor writes: kvm_count of kvm/x86.c

A hypercall from vCPU 1 reads the time stamp counter eight times around its comparisons, makes three
numbers of the differences and appends them as one line to kvm_count.txt. The numbers are
`unsigned long` and wrap; `%ld` prints them as signed, so a short measurement is a negative number.

The line is built in `char data[65]` on the kernel stack, without a bound. Three numbers of 20
characters, their three tabs, the newline and the zero are 65 bytes: no values overrun it
(`sprintf_line_fits`), though some fill it. So `kvm_count` never fails.

The file system is given by what it does in each call: whether the file opens, and how many bytes of a
write it takes. `kvm_count` does not look at the number. A run of hypercalls appends, for each from
vCPU 1 in turn, as much of its line as the write took, and nothing if the file did not open
(`countAll_eq`).
-/
import HyperSmile.Theory.Printf
import HyperSmile.Host.Hypercall

namespace HyperSmile.Host.KvmCount

open HyperSmile.Theory.CInt
open HyperSmile.Theory.CharArray
open HyperSmile.Theory.Printf
open HyperSmile.Host.Hypercall (Vcpu Hypercall4 Outcome kvmEmulateHypercall)

set_option autoImplicit false

/-! ## The function -/

/-- `char data[65]` -/
def data : Buffer := List.replicate 65 none

/-- `"\t%ld\t%ld\t%ld\n"` -/
def format : List Char := ['\t', '%', 'l', 'd', '\t', '%', 'l', 'd', '\t', '%', 'l', 'd', '\n']

structure FileSystem where
  /-- `filp_open` returns a file -/
  opens : Bool
  /-- the most `kernel_write` takes -/
  takes : Nat
  deriving DecidableEq, Repr

/-- The value returned, and the file, which is open with `O_APPEND`. -/
def kvmCount (fs : FileSystem) (ta tw ti : BitVec 64) (file : List (BitVec 8)) :
    C (BitVec 64 × List (BitVec 8)) :=
  if fs.opens then do
    let data ← sprintf data format [ta, tw, ti]
    let len ← strlen data
    let written ← bytes len data
    return (0, file ++ written.take fs.takes)
  else .ok (-1, file)

/-! ## The hypercall -/

/-- `rdtsc`, from edx and eax -/
def urdtsc (hi lo : BitVec 32) : BitVec 64 := hi.setWidth 64 <<< 32 ||| lo.setWidth 64

/-- The counters a hypercall reads: four around the SSA and the anchor, two around the worker data and
two around the identity. -/
abbrev Stamps := Fin 8 → BitVec 32 × BitVec 32

def Stamps.time (stamps : Stamps) (k : Fin 8) : BitVec 64 := urdtsc (stamps k).1 (stamps k).2

def Stamps.ta (t : Stamps) : BitVec 64 := ((t.time 3 - t.time 2) + (t.time 1 - t.time 0)) * 5 / 17 * 256 - 200

def Stamps.tw (t : Stamps) : BitVec 64 := (t.time 5 - t.time 4) * 5 / 17 * 256

def Stamps.ti (t : Stamps) : BitVec 64 := (t.time 7 - t.time 6) * 5 / 17 * 64

/-- A hypercall, and what the host finds while it serves it. -/
structure Call where
  vcpu : Vcpu
  call : Hypercall4
  guest : BitVec 64 → BitVec 8
  fs : FileSystem
  stamps : Stamps

def Call.outcome (c : Call) : Outcome := kvmEmulateHypercall c.vcpu c.call c.guest

/-- The file after a hypercall. Only the default case of vCPU 1 calls `kvm_count`, and it ignores the
value returned. -/
def Call.count (c : Call) (file : List (BitVec 8)) : C (List (BitVec 8)) :=
  match c.outcome with
  | .shadowed _ => do
      let (_, file) ← kvmCount c.fs c.stamps.ta c.stamps.tw c.stamps.ti file
      return file
  | _ => .ok file

/-- The file after a sequence of hypercalls. -/
def countAll : List Call → List (BitVec 8) → C (List (BitVec 8))
  | [], file => .ok file
  | c :: calls, file => do
      let file ← c.count file
      countAll calls file

/-! ## The line -/

/-- The pieces of the format. -/
def pieces : List Piece := [.char '\t', .number, .char '\t', .number, .char '\t', .number, .char '\n']

theorem scan_format : scan format = some pieces := rfl

/-- Three numbers of 20 characters and four characters of the format. -/
theorem width_pieces : width 64 pieces = 64 := by decide

theorem pieces_plain : ∀ c, Piece.char c ∈ pieces → ascii c ≠ 0 := by
  intro c member
  simp only [pieces, List.mem_cons, Piece.char.injEq, reduceCtorEq, List.not_mem_nil, or_false, false_or] at member
  rcases member with rfl | rfl | rfl | rfl <;> decide

/-- The line and the array that holds it. -/
theorem sprintf_data (ta tw ti : BitVec 64) :
    ∃ text, line format [ta, tw, ti] = some text ∧ text.length ≤ 64 ∧ (∀ c ∈ text.map ascii, c ≠ 0) ∧
      sprintf data format [ta, tw, ti] =
        .ok ((text.map ascii).map some ++ some 0 :: data.drop (text.length + 1)) := by
  have enough : numbers pieces ≤ [ta, tw, ti].length := le_refl 3
  have room : width 64 pieces + 1 ≤ data.length := by rw [width_pieces, data, List.length_replicate]
  obtain ⟨text, printed, short, stored⟩ := sprintf_ok scan_format enough room
  rw [width_pieces] at short
  refine ⟨text, (line_eq scan_format _).trans printed, short, ?_, stored⟩
  rw [List.forall_mem_map]
  exact print_text pieces_plain printed

/-- **The line always fits its array**: with the zero it has at most 65 bytes, and none is stored outside. -/
theorem sprintf_line_fits (ta tw ti : BitVec 64) :
    ∃ (text : List Char) (after : Buffer), line format [ta, tw, ti] = some text ∧ text.length + 1 ≤ 65 ∧
      data.length = 65 ∧ sprintf data format [ta, tw, ti] = .ok after ∧ strlen after = .ok text.length := by
  obtain ⟨text, made, short, plain, stored⟩ := sprintf_data ta tw ti
  have length := strlen_string plain (data.drop (text.length + 1))
  rw [List.length_map] at length
  exact ⟨text, _, made, Nat.succ_le_succ short, List.length_replicate, stored, length⟩

/-- Three times the least number fills the array. -/
example : (line format [0x8000000000000000#64, 0x8000000000000000#64, 0x8000000000000000#64]).map List.length =
    some 64 := by
  decide

/-! ## The file -/

/-- What one call adds to the file: the line, or as much of it as the file system takes. -/
def added (fs : FileSystem) (ta tw ti : BitVec 64) : List (BitVec 8) :=
  if fs.opens then (((line format [ta, tw, ti]).getD []).map ascii).take fs.takes else []

theorem kvmCount_eq (fs : FileSystem) (ta tw ti : BitVec 64) (file : List (BitVec 8)) :
    kvmCount fs ta tw ti file = .ok (if fs.opens then 0 else -1, file ++ added fs ta tw ti) := by
  obtain ⟨text, made, _, plain, stored⟩ := sprintf_data ta tw ti
  rw [kvmCount, added]
  cases fs.opens with
  | true =>
      rw [if_pos rfl, if_pos rfl, if_pos rfl, stored, ok_bind, strlen_string plain, ok_bind, bytes_string,
        ok_bind, pure_eq_ok, made, Option.getD_some]
  | false => rw [if_neg (by decide), if_neg (by decide), if_neg (by decide), List.append_nil]

/-- What a hypercall adds. -/
def Call.added (c : Call) : List (BitVec 8) :=
  match c.outcome with
  | .shadowed _ => KvmCount.added c.fs c.stamps.ta c.stamps.tw c.stamps.ti
  | _ => []

theorem Call.count_eq (c : Call) (file : List (BitVec 8)) : c.count file = .ok (file ++ c.added) := by
  rw [Call.count, Call.added]
  cases c.outcome with
  | shadowed shadows =>
      rw [kvmCount_eq, ok_bind]
      rfl
  | xen | hyperV | refused | known nr | patch gva | buffered buffer | ignored => rw [List.append_nil]

/-- **No sequence of hypercalls overruns the stack**, and each of those that measured appends in its turn
what the write took of its line, nothing if the file did not open. -/
theorem countAll_eq (calls : List Call) (file : List (BitVec 8)) :
    countAll calls file = .ok (file ++ calls.flatMap Call.added) := by
  induction calls generalizing file with
  | nil => rw [countAll, List.flatMap_nil, List.append_nil]
  | cons c calls ih => rw [countAll, c.count_eq, ok_bind, ih, List.flatMap_cons, List.append_assoc]

/-- Counters that do not move give -200. -/
example : line format [Stamps.ta fun _ => (0, 0), Stamps.tw fun _ => (0, 0), Stamps.ti fun _ => (0, 0)] =
    some ['\t', '-', '2', '0', '0', '\t', '0', '\t', '0', '\n'] := by
  decide

end HyperSmile.Host.KvmCount
