/-
# Anchor.Machine — the processor the anchor runs on

The two anchors, `anchor` of anchor.S and `anchor_function` of anchor_function.S, are
a few instructions each: two register moves, two address computations, `rep movsd`,
`lock xadd` and two short jumps. Both compute the windows they measure from `%rip`,
with displacements counted by hand, so an instruction is modelled with its encoding
and a program is fetched by byte offset from its label.

`rep movsd` is one dword per step, as it can be interrupted after every one of them;
`FirstReach.rep` runs it to its end, where the memory is `copyDwords` of the one
before.

Assumed of the surroundings: the direction flag is clear, the instructions executed
are those of the listing (the report is not written over running code), and the
64-bit word at `(%r9)`, shared with the monitor, lies outside of the copied windows;
it is a field of its own.
-/
import HyperSmile.Theory.ByteMemory
import HyperSmile.Theory.Runs

namespace HyperSmile.Anchor.Machine

open HyperSmile.Theory.ByteMemory
open HyperSmile.Theory.Runs

set_option autoImplicit false

/-! ## Instructions and their bytes -/

inductive Instr where
  /-- `mov %r10, %rcx` -/
  | movRcxR10
  /-- `lea disp(%rip), %rsi` -/
  | leaRsiRip (disp : BitVec 32)
  /-- `lea disp(%rsi), %rdi` -/
  | leaRdiRsi (disp : BitVec 32)
  /-- `rep movsd` -/
  | repMovsd
  /-- `lock xadd %rcx, (%r9)` -/
  | lockXadd
  /-- `jnp` with a byte offset -/
  | jnp (rel : BitVec 8)
  /-- `jmp` with a byte offset -/
  | jmp (rel : BitVec 8)
  deriving DecidableEq, Repr

/-- A 32-bit displacement, low byte first. -/
def dispBytes (disp : BitVec 32) : List (BitVec 8) :=
  [disp.extractLsb' 0 8, disp.extractLsb' 8 8, disp.extractLsb' 16 8, disp.extractLsb' 24 8]

def encode : Instr → List (BitVec 8)
  | .movRcxR10 => [0x4c, 0x89, 0xd1]
  | .leaRsiRip disp => [0x48, 0x8d, 0x35] ++ dispBytes disp
  | .leaRdiRsi disp => [0x48, 0x8d, 0xbe] ++ dispBytes disp
  | .repMovsd => [0xf3, 0xa5]
  | .lockXadd => [0xf0, 0x49, 0x0f, 0xc1, 0x09]
  | .jnp rel => [0x7b, rel]
  | .jmp rel => [0xeb, rel]

/-- The bytes of a listing. -/
def assemble (program : List Instr) : List (BitVec 8) := program.flatMap encode

/-- The instruction that starts at a byte offset of a program. -/
def fetch : List Instr → Nat → Option Instr
  | [], _ => none
  | instr :: rest, offset =>
      if offset = 0 then some instr
      else if offset < (encode instr).length then none
      else fetch rest (offset - (encode instr).length)

/-! ## Execution -/

structure Cpu where
  rip : BitVec 64
  rcx : BitVec 64
  rsi : BitVec 64
  rdi : BitVec 64
  r10 : BitVec 64
  /-- the parity flag -/
  pf : Bool
  mem : Memory
  /-- the word at `(%r9)` -/
  cell : BitVec 64

/-- Number of ones, for the parity flag. -/
def ones (byte : BitVec 8) : Nat := ((List.range 8).map fun i => (byte.getLsbD i).toNat).sum

/-- The parity flag of a result: set when its low byte has an even number of ones. -/
def evenParity (result : BitVec 64) : Bool := ones (result.setWidth 8) % 2 == 0

def exec (s : Cpu) (instr : Instr) : Cpu :=
  let next := s.rip + BitVec.ofNat 64 (encode instr).length
  match instr with
  | .movRcxR10 => { s with rip := next, rcx := s.r10 }
  | .leaRsiRip disp => { s with rip := next, rsi := next + disp.signExtend 64 }
  | .leaRdiRsi disp => { s with rip := next, rdi := s.rsi + disp.signExtend 64 }
  | .repMovsd =>
      if s.rcx = 0 then { s with rip := next }
      else
        { s with
          mem := copyDword s.mem s.rsi s.rdi, rsi := s.rsi + 4, rdi := s.rdi + 4, rcx := s.rcx - 1 }
  | .lockXadd =>
      let sum := s.cell + s.rcx
      { s with rip := next, rcx := s.cell, cell := sum, pf := evenParity sum }
  | .jnp rel => { s with rip := if s.pf then next else next + rel.signExtend 64 }
  | .jmp rel => { s with rip := next + rel.signExtend 64 }

/-- One step of a program whose label is at `base`. -/
def step (program : List Instr) (base : BitVec 64) (s : Cpu) : Option Cpu :=
  (fetch program (s.rip - base).toNat).map (exec s)

/-- Control is at a byte offset from the label. -/
def At (base : BitVec 64) (offset : Nat) (s : Cpu) : Prop := s.rip = base + BitVec.ofNat 64 offset

/-! ## Steps by offset -/

theorem At.offset {base : BitVec 64} {offset : Nat} {s : Cpu} (here : At base offset s)
    (small : offset < 2 ^ 64) : (s.rip - base).toNat = offset := by
  rw [here, add_sub_cancel_left, BitVec.toNat_ofNat, Nat.mod_eq_of_lt small]

theorem At.ne {base : BitVec 64} {offset offset' : Nat} {s : Cpu} (here : At base offset s)
    (small : offset < 2 ^ 64) (small' : offset' < 2 ^ 64) (different : offset ≠ offset') :
    ¬ At base offset' s :=
  fun there => different ((here.offset small).symm.trans (there.offset small'))

theorem At.step {base : BitVec 64} {offset : Nat} {s : Cpu} (here : At base offset s)
    (small : offset < 2 ^ 64) {program : List Instr} {instr : Instr}
    (fetched : fetch program offset = some instr) : step program base s = some (exec s instr) := by
  rw [Machine.step, here.offset small, fetched, Option.map_some]

@[simp] theorem exec_movRcxR10 (s : Cpu) :
    exec s .movRcxR10 = { s with rip := s.rip + 3, rcx := s.r10 } := rfl

@[simp] theorem exec_leaRsiRip (s : Cpu) (disp : BitVec 32) :
    exec s (.leaRsiRip disp) =
      { s with rip := s.rip + 7, rsi := s.rip + 7 + disp.signExtend 64 } := rfl

@[simp] theorem exec_leaRdiRsi (s : Cpu) (disp : BitVec 32) :
    exec s (.leaRdiRsi disp) = { s with rip := s.rip + 7, rdi := s.rsi + disp.signExtend 64 } := rfl

@[simp] theorem exec_lockXadd (s : Cpu) :
    exec s .lockXadd =
      { s with
        rip := s.rip + 5, rcx := s.cell, cell := s.cell + s.rcx,
        pf := evenParity (s.cell + s.rcx) } := rfl

@[simp] theorem exec_jnp (s : Cpu) (rel : BitVec 8) :
    exec s (.jnp rel) =
      { s with rip := if s.pf then s.rip + 2 else s.rip + 2 + rel.signExtend 64 } := rfl

@[simp] theorem exec_jmp (s : Cpu) (rel : BitVec 8) :
    exec s (.jmp rel) = { s with rip := s.rip + 2 + rel.signExtend 64 } := rfl

/-- The state after a `rep movsd` has run to its end. -/
def Cpu.afterRep (s : Cpu) : Cpu :=
  { s with
    rip := s.rip + 2, mem := copyDwords s.mem s.rsi s.rdi s.rcx.toNat,
    rsi := s.rsi + 4 * s.rcx, rdi := s.rdi + 4 * s.rcx, rcx := 0 }

theorem exec_rep_zero {s : Cpu} (finished : s.rcx = 0) : exec s .repMovsd = s.afterRep := by
  simp [exec, Cpu.afterRep, finished, copyDwords, encode]

theorem exec_rep {s : Cpu} (unfinished : s.rcx ≠ 0) :
    exec s .repMovsd =
      { s with
        mem := copyDword s.mem s.rsi s.rdi, rsi := s.rsi + 4, rdi := s.rdi + 4,
        rcx := s.rcx - 1 } :=
  if_neg unfinished

/-- One iteration leaves a shorter copy with the same end. -/
theorem afterRep_exec {s : Cpu} (unfinished : s.rcx ≠ 0) :
    (exec s .repMovsd).afterRep = s.afterRep := by
  obtain ⟨n, count⟩ : ∃ n, s.rcx.toNat = n + 1 := by
    refine Nat.exists_eq_succ_of_ne_zero fun zero => unfinished ?_
    exact BitVec.eq_of_toNat_eq zero
  have rest : (s.rcx - 1).toNat = n := by bv_omega
  simp only [exec_rep unfinished, Cpu.afterRep, rest, count, copyDwords]
  congr 1 <;> ring

/-- Only `lock xadd` touches the word at `(%r9)`. -/
theorem exec_cell (s : Cpu) {instr : Instr} (other : instr ≠ .lockXadd) :
    (exec s instr).cell = s.cell := by
  cases instr with
  | lockXadd => exact absurd rfl other
  | repMovsd =>
      by_cases finished : s.rcx = 0
      · rw [exec_rep_zero finished, Cpu.afterRep]
      · rw [exec_rep finished]
  | _ => rfl

/-- **A run through an instruction**, one of several to the target. -/
theorem FirstReach.instr {program : List Instr} {base : BitVec 64} {target : Nat} {s t : Cpu}
    (offset : Nat) {instr : Instr} (here : At base offset s)
    (fetched : fetch program offset = some instr)
    (rest : FirstReach (step program base) (At base target) (exec s instr) t)
    (before : offset < target := by decide) (small : target < 2 ^ 64 := by decide) :
    FirstReach (step program base) (At base target) s t :=
  .next (here.ne (by omega) small (by omega)) (here.step (by omega) fetched) rest

/-- **A run through a whole `rep movsd`**, by induction on the count left in rcx. -/
theorem FirstReach.rep {program : List Instr} {base : BitVec 64} {target : Nat} {s t : Cpu}
    (offset : Nat) (here : At base offset s) (fetched : fetch program offset = some .repMovsd)
    (rest : FirstReach (step program base) (At base target) s.afterRep t)
    (before : offset < target := by decide) (small : target < 2 ^ 64 := by decide) :
    FirstReach (step program base) (At base target) s t := by
  generalize count : s.rcx.toNat = n
  induction n generalizing s with
  | zero =>
      have finished : s.rcx = 0 := BitVec.eq_of_toNat_eq count
      refine FirstReach.instr offset here fetched ?_ before small
      rw [exec_rep_zero finished]
      exact rest
  | succ n ih =>
      have unfinished : s.rcx ≠ 0 := by
        intro zero
        simp [zero] at count
      refine FirstReach.instr offset here fetched (ih ?_ ?_ ?_) before small
      · rw [exec_rep unfinished]
        exact here
      · rw [afterRep_exec unfinished]
        exact rest
      · rw [exec_rep unfinished]
        bv_omega

end HyperSmile.Anchor.Machine
