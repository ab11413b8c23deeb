/-
# Enclave.Sse — the vector instructions the enclave is written in

The AES routine of Enclave.cpp and the GCM routine of aesni_encrypt2.S are straight-line
code over the sixteen 128-bit registers. A register is a bit vector; four 32-bit lanes or
sixteen bytes, lowest first, are two ways to look at it. Each instruction is a function on
such values, as the manual of the processor gives it, and a listing is run from left to
right. The AES instructions work on the state of the standard, whose bytes are those of
the register, column by column; their substitution is the table `S`, which is the one of
the standard (`sBox_eq_S`).

Memory operands are 16 bytes, lowest byte first, at an address in a general register, or a
constant of the read-only data. The routines call one leaf subroutine; `call` and `ret` are
the insertion of its listing.
-/
import HyperSmile.Theory.ByteMemory
import HyperSmile.Crypto.AesFips

namespace HyperSmile.Enclave.Sse

open HyperSmile.Theory.BlockCipher (XorAdditive)
open HyperSmile.Theory.ByteMemory
open HyperSmile.Theory.BinaryPolynomial
open HyperSmile.Crypto

set_option autoImplicit false

/-! ## Numerals for lanes and registers

Named, so that a numeral is the same term in every module that opens this one. -/

scoped instance lanes_neZero : NeZero 4 := ⟨by decide⟩

scoped instance registers_neZero : NeZero 16 := ⟨by decide⟩

/-! ## Four parts in one vector -/

section Parts

variable {v : Nat}

/-- Four vectors in one, the first one lowest. -/
def pack (f : Fin 4 → BitVec v) : BitVec (v + v + v + v) := f 3 ++ f 2 ++ f 1 ++ f 0

def part {w : Nat} (v : Nat) (x : BitVec w) (i : Fin 4) : BitVec v := x.extractLsb' (v * i) v

theorem part_pack (f : Fin 4 → BitVec v) (i : Fin 4) : part v (pack f) i = f i := by
  refine BitVec.eq_of_getLsbD_eq fun b inside => ?_
  have place : i = 0 ∨ i = 1 ∨ i = 2 ∨ i = 3 := by omega
  simp only [part, pack, BitVec.getLsbD_extractLsb', BitVec.getLsbD_append, inside]
  rcases place with rfl | rfl | rfl | rfl <;> grind

theorem pack_part (x : BitVec (v + v + v + v)) : pack (part v x) = x := by
  refine BitVec.eq_of_getLsbD_eq fun b inside => ?_
  simp only [part, pack, BitVec.getLsbD_extractLsb', BitVec.getLsbD_append]
  grind

theorem part_ext {x y : BitVec (v + v + v + v)} (same : ∀ i, part v x i = part v y i) : x = y := by
  rw [← pack_part x, ← pack_part y, funext same]

end Parts

/-! ## Registers -/

abbrev Xmm := BitVec 128

def lane (x : Xmm) (i : Fin 4) : BitVec 32 := part 32 x i

def ofLanes (f : Fin 4 → BitVec 32) : Xmm := pack f

/-- Byte `n`, from the low end. -/
def byteAt (x : Xmm) (n : Fin 16) : BitVec 8 := x.extractLsb' (8 * n) 8

def ofBytes (f : Fin 16 → BitVec 8) : Xmm :=
  ofLanes fun c => pack fun r => f ⟨4 * c + r, by omega⟩

theorem lane_ofLanes (f : Fin 4 → BitVec 32) (i : Fin 4) : lane (ofLanes f) i = f i := part_pack f i

theorem lane_ext {x y : Xmm} (same : ∀ i, lane x i = lane y i) : x = y :=
  part_ext (v := 32) same

theorem lane_xor (x y : Xmm) (i : Fin 4) : lane (x ^^^ y) i = lane x i ^^^ lane y i :=
  BitVec.extractLsb'_xor

/-- The bytes of a lane are bytes of the register. -/
theorem part_lane (x : Xmm) (c r : Fin 4) : part 8 (lane x c) r = byteAt x ⟨4 * c + r, by omega⟩ := by
  refine BitVec.eq_of_getLsbD_eq fun b inside => ?_
  simp only [part, lane, byteAt, BitVec.getLsbD_extractLsb', inside]
  grind

theorem byteAt_ofBytes (f : Fin 16 → BitVec 8) (n : Fin 16) : byteAt (ofBytes f) n = f n := by
  have split : n = ⟨4 * (n.val / 4) + n.val % 4, by omega⟩ := Fin.ext (Nat.div_add_mod n.val 4).symm
  have own := part_lane (ofBytes f) ⟨n.val / 4, by omega⟩ ⟨n.val % 4, by omega⟩
  rw [ofBytes, lane_ofLanes, part_pack] at own
  rw [split]
  exact own.symm

theorem byteAt_ext {x y : Xmm} (same : ∀ n, byteAt x n = byteAt y n) : x = y := by
  refine lane_ext fun c => part_ext (v := 8) fun r => ?_
  exact (part_lane x c r).trans ((same _).trans (part_lane y c r).symm)

theorem ofBytes_byteAt (x : Xmm) : ofBytes (byteAt x) = x := byteAt_ext (byteAt_ofBytes (byteAt x))

theorem byteAt_injective : Function.Injective byteAt := fun _ _ same => byteAt_ext (congrFun same)

theorem byteAt_xor (x y : Xmm) (n : Fin 16) : byteAt (x ^^^ y) n = byteAt x n ^^^ byteAt y n :=
  BitVec.extractLsb'_xor

/-! ## Instructions on values -/

/-- Field `i` of a shuffle control byte. -/
def select (imm : BitVec 8) (i : Fin 4) : Fin 4 := (imm.extractLsb' (2 * i) 2).toFin

def pshufd (imm : BitVec 8) (src : Xmm) : Xmm := ofLanes fun i => lane src (select imm i)

def shufps (imm : BitVec 8) (src dst : Xmm) : Xmm :=
  ofLanes fun i => if i < 2 then lane dst (select imm i) else lane src (select imm i)

/-- SubBytes on one byte. -/
def subByte (b : BitVec 8) : BitVec 8 := Aes.S.getD b.toNat 0

def subWord (x : BitVec 32) : BitVec 32 := pack fun r => subByte (part 8 x r)

/-- RotWord, on a word whose first byte is the lowest. -/
def rotWord (x : BitVec 32) : BitVec 32 := pack fun r => part 8 x (r + 1)

def aeskeygenassist (imm : BitVec 8) (src : Xmm) : Xmm :=
  ofLanes ![subWord (lane src 1), rotWord (subWord (lane src 1)) ^^^ imm.setWidth 32,
    subWord (lane src 3), rotWord (subWord (lane src 3)) ^^^ imm.setWidth 32]

/-- The state in a register. -/
def stateOf (x : Xmm) : Fips197.State := Fips197.stateOf (byteAt x)

def ofState (s : Fips197.State) : Xmm := ofBytes (Fips197.blockOf s)

def aesenc (src dst : Xmm) : Xmm :=
  let s := Fips197.shiftRows (stateOf dst)
  let s : Fips197.State := fun r c => subByte (s r c)
  let s : Fips197.State := fun r c => Fips197.mixBytes (fun r => s r c) r
  ofState s ^^^ src

def aesenclast (src dst : Xmm) : Xmm :=
  let s := Fips197.shiftRows (stateOf dst)
  let s : Fips197.State := fun r c => subByte (s r c)
  ofState s ^^^ src

/-- The carry-less product of a half of the destination and a half of the source. -/
def pclmulqdq (imm : BitVec 8) (src dst : Xmm) : Xmm :=
  clmul (dst.extractLsb' (if imm.getLsbD 0 then 64 else 0) 64)
    (src.extractLsb' (if imm.getLsbD 4 then 64 else 0) 64)

def psrldq (n : Nat) (dst : Xmm) : Xmm := dst >>> (8 * n)

def pslldq (n : Nat) (dst : Xmm) : Xmm := dst <<< (8 * n)

def pslld (n : Nat) (dst : Xmm) : Xmm := ofLanes fun i => lane dst i <<< n

def psrld (n : Nat) (dst : Xmm) : Xmm := ofLanes fun i => lane dst i >>> n

/-! ### Bits of the shifts by lanes -/

theorem getLsbD_ofLanes (f : Fin 4 → BitVec 32) {b : Nat} (inside : b < 128) :
    (ofLanes f).getLsbD b = (f ⟨b / 32, by omega⟩).getLsbD (b % 32) := by
  have place : b / 32 = 0 ∨ b / 32 = 1 ∨ b / 32 = 2 ∨ b / 32 = 3 := by omega
  simp only [ofLanes, pack, BitVec.getLsbD_append]
  rcases place with lane | lane | lane | lane <;> simp only [lane] <;> grind

theorem getLsbD_lane (x : Xmm) (i : Fin 4) (b : Nat) :
    (lane x i).getLsbD b = (decide (b < 32) && x.getLsbD (32 * i + b)) := by
  rw [lane, part, BitVec.getLsbD_extractLsb']

/-- A lane that is moved up loses its lowest bits. -/
theorem getLsbD_pslld (n : Nat) (x : Xmm) {b : Nat} (inside : b < 128) :
    (pslld n x).getLsbD b = (decide (n ≤ b % 32) && x.getLsbD (b - n)) := by
  rw [pslld, getLsbD_ofLanes _ inside, BitVec.getLsbD_shiftLeft, getLsbD_lane]
  by_cases stays : n ≤ b % 32
  · have place : 32 * (b / 32) + (b % 32 - n) = b - n := by omega
    simp only [place]
    have low : b % 32 < 32 := by omega
    have low' : b % 32 - n < 32 := by omega
    simp [stays, low, low']
  · simp [stays, Nat.lt_of_not_le stays]

/-- A lane that is moved down loses its highest bits. -/
theorem getLsbD_psrld (n : Nat) (x : Xmm) {b : Nat} (inside : b < 128) :
    (psrld n x).getLsbD b = (decide (b % 32 + n < 32) && x.getLsbD (b + n)) := by
  rw [psrld, getLsbD_ofLanes _ inside, BitVec.getLsbD_ushiftRight, getLsbD_lane]
  have place : 32 * (b / 32) + (b % 32 + n) = b + n := by omega
  simp only [Nat.add_comm n (b % 32), place]

theorem getLsbD_pslldq (n : Nat) (x : Xmm) {b : Nat} (inside : b < 128) :
    (pslldq n x).getLsbD b = (decide (8 * n ≤ b) && x.getLsbD (b - 8 * n)) := by
  rw [pslldq, BitVec.getLsbD_shiftLeft, decide_eq_true inside, Bool.true_and]
  congr 1
  rw [← decide_not]
  exact decide_eq_decide.mpr Nat.not_lt

theorem getLsbD_psrldq (n : Nat) (x : Xmm) (b : Nat) : (psrldq n x).getLsbD b = x.getLsbD (8 * n + b) := by
  rw [psrldq, BitVec.getLsbD_ushiftRight]

/-- Bits that never meet. -/
theorem or_eq_xor {x y : Xmm} (apart : ∀ b < 128, x.getLsbD b = false ∨ y.getLsbD b = false) :
    x ||| y = x ^^^ y := by
  refine BitVec.eq_of_getLsbD_eq fun b inside => ?_
  rw [BitVec.getLsbD_or, BitVec.getLsbD_xor]
  rcases apart b inside with clear | clear
  · rw [clear, Bool.false_or, Bool.false_xor]
  · rw [clear, Bool.or_false, Bool.xor_false]

/-- A shift of the whole register, up. -/
theorem pslld_carried {k : Nat} (inside : k ≤ 32) (x : Xmm) :
    pslld k x ^^^ pslldq 4 (psrld (32 - k) x) = x <<< k := by
  refine BitVec.eq_of_getLsbD_eq fun b room => ?_
  rw [BitVec.getLsbD_xor, getLsbD_pslld _ _ room, getLsbD_pslldq _ _ room,
    getLsbD_psrld _ _ (by omega : b - 8 * 4 < 128), BitVec.getLsbD_shiftLeft, decide_eq_true room]
  by_cases stays : k ≤ b % 32
  · have kept : ¬ (b - 8 * 4) % 32 + (32 - k) < 32 ∨ ¬ 8 * 4 ≤ b := by omega
    have above : ¬ b < k := by omega
    rcases kept with kept | kept <;> simp [stays, kept, above]
  · by_cases carried : 8 * 4 ≤ b
    · have place : b - 8 * 4 + (32 - k) = b - k := by omega
      have low : (b - 8 * 4) % 32 + (32 - k) < 32 := by omega
      have above : ¬ b < k := by omega
      rw [place]
      simp [stays, carried, low, above]
    · have below : b < k := by omega
      simp [stays, carried, below]

/-- A shift of the whole register, down. -/
theorem psrld_carried {k : Nat} (inside : k ≤ 32) (x : Xmm) :
    psrld k x ^^^ psrldq 4 (pslld (32 - k) x) = x >>> k := by
  refine BitVec.eq_of_getLsbD_eq fun b room => ?_
  rw [BitVec.getLsbD_xor, getLsbD_psrld _ _ room, getLsbD_psrldq, BitVec.getLsbD_ushiftRight, Nat.add_comm k]
  by_cases next : 8 * 4 + b < 128
  · have place : 8 * 4 + b - (32 - k) = b + k := by omega
    rw [getLsbD_pslld _ _ next, place]
    by_cases stays : b % 32 + k < 32
    · rw [decide_eq_true stays, decide_eq_false (by omega), Bool.true_and, Bool.false_and, Bool.xor_false]
    · rw [decide_eq_false stays, decide_eq_true (by omega), Bool.true_and, Bool.false_and, Bool.false_xor]
  · rw [BitVec.getLsbD_of_ge _ _ (by omega : 128 ≤ 8 * 4 + b), Bool.xor_false]
    by_cases stays : b % 32 + k < 32
    · rw [decide_eq_true stays, Bool.true_and]
    · rw [BitVec.getLsbD_of_ge x _ (by omega), Bool.and_false]

/-- What a shift of the whole register up leaves of its lowest lane. -/
theorem pslldq_pslld {k : Nat} (inside : k ≤ 32) (x : Xmm) :
    pslldq 12 (pslld (32 - k) x) = x <<< (128 - k) := by
  refine BitVec.eq_of_getLsbD_eq fun b room => ?_
  rw [getLsbD_pslldq _ _ room, getLsbD_pslld _ _ (by omega : b - 8 * 12 < 128), BitVec.getLsbD_shiftLeft,
    decide_eq_true room]
  by_cases high : 128 - k ≤ b
  · have place : b - 8 * 12 - (32 - k) = b - (128 - k) := by omega
    have carried : 8 * 12 ≤ b ∧ 32 - k ≤ (b - 8 * 12) % 32 := by omega
    rw [place]
    simp [carried, Nat.not_lt.mpr high]
  · have kept : ¬ 8 * 12 ≤ b ∨ ¬ 32 - k ≤ (b - 8 * 12) % 32 := by omega
    have low : b < 128 - k := by omega
    rcases kept with kept | kept <;> simp [kept, low]

/-- What a shift of the whole register down leaves of its highest lane. -/
theorem psrldq_psrld {k : Nat} (inside : k ≤ 32) (x : Xmm) :
    psrldq 12 (psrld (32 - k) x) = x >>> (128 - k) := by
  refine BitVec.eq_of_getLsbD_eq fun b room => ?_
  rw [getLsbD_psrldq, BitVec.getLsbD_ushiftRight]
  by_cases last : 8 * 12 + b < 128
  · have place : 8 * 12 + b + (32 - k) = 128 - k + b := by omega
    rw [getLsbD_psrld _ _ last, place]
    by_cases low : b < k
    · rw [decide_eq_true (by omega), Bool.true_and]
    · rw [BitVec.getLsbD_of_ge x _ (by omega), Bool.and_false]
  · rw [BitVec.getLsbD_of_ge _ _ (by omega), BitVec.getLsbD_of_ge x _ (by omega)]

/-! ### The shifts and the products distribute over xor -/

theorem pslldq_additive (n : Nat) : XorAdditive (pslldq n) := fun x y =>
  BitVec.shiftLeft_xor_distrib x y _

theorem psrldq_additive (n : Nat) : XorAdditive (psrldq n) := fun x y =>
  BitVec.ushiftRight_xor_distrib x y _

theorem pslld_additive (n : Nat) : XorAdditive (pslld n) := by
  intro x y
  refine lane_ext fun i => ?_
  rw [lane_xor, pslld, pslld, pslld, lane_ofLanes, lane_ofLanes, lane_ofLanes, lane_xor]
  exact BitVec.shiftLeft_xor_distrib ..

theorem psrld_additive (n : Nat) : XorAdditive (psrld n) := by
  intro x y
  refine lane_ext fun i => ?_
  rw [lane_xor, psrld, psrld, psrld, lane_ofLanes, lane_ofLanes, lane_ofLanes, lane_xor]
  exact BitVec.ushiftRight_xor_distrib ..

theorem pclmulqdq_additive (imm : BitVec 8) (dst : Xmm) :
    XorAdditive fun src => pclmulqdq imm src dst := by
  intro x y
  simp only [pclmulqdq, BitVec.extractLsb'_xor]
  exact clmul_xor ..

/-! ## Listings -/

/-- The general registers that hold addresses. -/
inductive Base where
  | rdi
  | rsi
  | rdx
  deriving DecidableEq, Repr

inductive Operand where
  | xmm (i : Fin 16)
  /-- `disp(base)` -/
  | mem (base : Base) (disp : BitVec 64)
  /-- a constant of the read-only data, `label(%rip)` -/
  | rodata (value : Xmm)

/-- Instructions, in the order of operands of the assembler: the destination is last. -/
inductive Instr where
  | movdqu (src : Operand) (dst : Fin 16)
  | movdqa (src : Operand) (dst : Fin 16)
  | movaps (src : Operand) (dst : Fin 16)
  /-- `movdqu` to memory -/
  | store (src : Fin 16) (base : Base) (disp : BitVec 64)
  | pxor (src : Operand) (dst : Fin 16)
  | por (src : Operand) (dst : Fin 16)
  | pshufd (imm : BitVec 8) (src : Operand) (dst : Fin 16)
  | shufps (imm : BitVec 8) (src : Operand) (dst : Fin 16)
  | aeskeygenassist (imm : BitVec 8) (src : Operand) (dst : Fin 16)
  | aesenc (src : Operand) (dst : Fin 16)
  | aesenclast (src : Operand) (dst : Fin 16)
  | pclmulqdq (imm : BitVec 8) (src : Operand) (dst : Fin 16)
  | psrldq (n : Nat) (dst : Fin 16)
  | pslldq (n : Nat) (dst : Fin 16)
  | pslld (n : Nat) (dst : Fin 16)
  | psrld (n : Nat) (dst : Fin 16)

structure Cpu where
  xmm : Fin 16 → Xmm
  reg : Base → BitVec 64
  mem : Memory

/-- The sixteen bytes from an address on. -/
def blockAt (mem : Memory) (a : BitVec 64) : Fin 16 → BitVec 8 := fun n => mem (a + BitVec.ofNat 64 n)

def storeAt (mem : Memory) (a : BitVec 64) (x : Xmm) : Memory :=
  fun b => if InRegion a 16 b then byteAt x (Fin.ofNat 16 (b - a).toNat) else mem b

theorem blockAt_storeAt (mem : Memory) (a : BitVec 64) (x : Xmm) : blockAt (storeAt mem a x) a = byteAt x := by
  funext n
  have inside : InRegion a 16 (a + BitVec.ofNat 64 n) := inRegion_add a n.isLt (by decide)
  have offset : (a + BitVec.ofNat 64 n - a).toNat = n := by
    rw [add_sub_cancel_left, BitVec.toNat_ofNat, Nat.mod_eq_of_lt (by omega)]
  rw [blockAt, storeAt, if_pos inside, offset]
  exact congrArg (byteAt x) (Fin.ext (Nat.mod_eq_of_lt n.isLt))

/-- A store sixteen bytes further leaves a block alone. -/
theorem blockAt_storeAt_next (mem : Memory) (a : BitVec 64) (x : Xmm) :
    blockAt (storeAt mem (a + 16) x) a = blockAt mem a := by
  funext n
  have outside : ¬ InRegion (a + 16) 16 (a + BitVec.ofNat 64 n) := by
    rw [InRegion]
    bv_omega
  rw [blockAt, storeAt, if_neg outside, blockAt]

def Cpu.read (s : Cpu) : Operand → Xmm
  | .xmm i => s.xmm i
  | .mem base disp => ofBytes (blockAt s.mem (s.reg base + disp))
  | .rodata value => value

def Cpu.set (s : Cpu) (dst : Fin 16) (value : Xmm) : Cpu :=
  { s with xmm := fun i => if i = dst then value else s.xmm i }

def exec (s : Cpu) : Instr → Cpu
  | .movdqu src dst | .movdqa src dst | .movaps src dst => s.set dst (s.read src)
  | .store src base disp => { s with mem := storeAt s.mem (s.reg base + disp) (s.xmm src) }
  | .pxor src dst => s.set dst (s.xmm dst ^^^ s.read src)
  | .por src dst => s.set dst (s.xmm dst ||| s.read src)
  | .pshufd imm src dst => s.set dst (pshufd imm (s.read src))
  | .shufps imm src dst => s.set dst (shufps imm (s.read src) (s.xmm dst))
  | .aeskeygenassist imm src dst => s.set dst (aeskeygenassist imm (s.read src))
  | .aesenc src dst => s.set dst (aesenc (s.read src) (s.xmm dst))
  | .aesenclast src dst => s.set dst (aesenclast (s.read src) (s.xmm dst))
  | .pclmulqdq imm src dst => s.set dst (pclmulqdq imm (s.read src) (s.xmm dst))
  | .psrldq n dst => s.set dst (psrldq n (s.xmm dst))
  | .pslldq n dst => s.set dst (pslldq n (s.xmm dst))
  | .pslld n dst => s.set dst (pslld n (s.xmm dst))
  | .psrld n dst => s.set dst (psrld n (s.xmm dst))

def run (code : List Instr) (s : Cpu) : Cpu := code.foldl exec s

/-! ## Symbolic execution

Stated as rewriting rules and not proved by `rfl`: a listing is executed by `simp`, and no
instruction is unfolded on the way. -/

@[simp] theorem run_nil (s : Cpu) : run [] s = s := by rw [run, List.foldl_nil]

@[simp] theorem run_cons (instr : Instr) (code : List Instr) (s : Cpu) :
    run (instr :: code) s = run code (exec s instr) := by
  rw [run, List.foldl_cons, run]

theorem run_append (code code' : List Instr) (s : Cpu) : run (code ++ code') s = run code' (run code s) :=
  List.foldl_append

section Execution

variable (s : Cpu) (imm : BitVec 8) (n : Nat) (src : Operand) (dst : Fin 16)

@[simp] theorem exec_movdqu : exec s (.movdqu src dst) = s.set dst (s.read src) := by rw [exec]

@[simp] theorem exec_movdqa : exec s (.movdqa src dst) = s.set dst (s.read src) := by rw [exec]

@[simp] theorem exec_pxor : exec s (.pxor src dst) = s.set dst (s.xmm dst ^^^ s.read src) := by rw [exec]

@[simp] theorem exec_por : exec s (.por src dst) = s.set dst (s.xmm dst ||| s.read src) := by rw [exec]

@[simp] theorem exec_aesenc : exec s (.aesenc src dst) = s.set dst (aesenc (s.read src) (s.xmm dst)) := by
  rw [exec]

@[simp] theorem exec_aesenclast :
    exec s (.aesenclast src dst) = s.set dst (aesenclast (s.read src) (s.xmm dst)) := by
  rw [exec]

@[simp] theorem exec_pclmulqdq :
    exec s (.pclmulqdq imm src dst) = s.set dst (pclmulqdq imm (s.read src) (s.xmm dst)) := by
  rw [exec]

@[simp] theorem exec_psrldq : exec s (.psrldq n dst) = s.set dst (psrldq n (s.xmm dst)) := by rw [exec]

@[simp] theorem exec_pslldq : exec s (.pslldq n dst) = s.set dst (pslldq n (s.xmm dst)) := by rw [exec]

@[simp] theorem exec_pslld : exec s (.pslld n dst) = s.set dst (pslld n (s.xmm dst)) := by rw [exec]

@[simp] theorem exec_psrld : exec s (.psrld n dst) = s.set dst (psrld n (s.xmm dst)) := by rw [exec]

@[simp] theorem exec_store (base : Base) (disp : BitVec 64) :
    exec s (.store dst base disp) =
      { s with mem := storeAt s.mem (s.reg base + disp) (s.xmm dst) } := by
  rw [exec]

@[simp] theorem Cpu.read_xmm (i : Fin 16) : s.read (.xmm i) = s.xmm i := by rw [Cpu.read]

@[simp] theorem Cpu.read_rodata (value : Xmm) : s.read (.rodata value) = value := by rw [Cpu.read]

@[simp] theorem Cpu.read_mem (base : Base) (disp : BitVec 64) :
    s.read (.mem base disp) = ofBytes (blockAt s.mem (s.reg base + disp)) := by
  rw [Cpu.read]

@[simp] theorem Cpu.set_self (value : Xmm) : (s.set dst value).xmm dst = value := by
  simp [Cpu.set]

@[simp] theorem Cpu.set_other (value : Xmm) {i : Fin 16} (other : i ≠ dst) :
    (s.set dst value).xmm i = s.xmm i := by
  simp [Cpu.set, other]

@[simp] theorem Cpu.set_set (value value' : Xmm) : (s.set dst value).set dst value' = s.set dst value' := by
  simp only [Cpu.set]
  congr 1
  funext i
  split <;> rfl

@[simp] theorem Cpu.set_reg (value : Xmm) : (s.set dst value).reg = s.reg := by rw [Cpu.set]

@[simp] theorem Cpu.set_mem (value : Xmm) : (s.set dst value).mem = s.mem := by rw [Cpu.set]

end Execution

/-- The register an instruction writes. -/
def Instr.dst? : Instr → Option (Fin 16)
  | .store .. => none
  | .movdqu _ dst | .movdqa _ dst | .movaps _ dst | .pxor _ dst | .por _ dst | .pshufd _ _ dst
  | .shufps _ _ dst | .aeskeygenassist _ _ dst | .aesenc _ dst | .aesenclast _ dst
  | .pclmulqdq _ _ dst | .psrldq _ dst | .pslldq _ dst | .pslld _ dst | .psrld _ dst => some dst

theorem exec_frame (s : Cpu) {instr : Instr} {i : Fin 16} (other : instr.dst? ≠ some i) :
    (exec s instr).xmm i = s.xmm i := by
  cases instr with
  | store => rfl
  | _ => exact if_neg fun same => other (congrArg some same.symm)

/-- A listing keeps the registers it does not write. -/
theorem run_frame {code : List Instr} {i : Fin 16} (other : ∀ instr ∈ code, instr.dst? ≠ some i)
    (s : Cpu) : (run code s).xmm i = s.xmm i := by
  induction code generalizing s with
  | nil => rfl
  | cons instr rest ih =>
      rw [run_cons, ih fun later member => other later (List.mem_cons_of_mem _ member)]
      exact exec_frame s (other instr List.mem_cons_self)

/-! ## What the AES instructions compute -/

theorem subByte_eq (b : BitVec 8) : subByte b = Fips197.sBox b := (Aes.sBox_eq_S b).symm

theorem stateOf_ofState (s : Fips197.State) : stateOf (ofState s) = s := by
  funext r c
  rw [stateOf, Fips197.stateOf, ofState, byteAt_ofBytes, Fips197.blockOf]
  have row : (r.val + 4 * c.val) % 4 = r := by omega
  have column : (r.val + 4 * c.val) / 4 = c := by omega
  simp only [row, column]

theorem stateOf_xor (x y : Xmm) (r c : Fin 4) :
    stateOf (x ^^^ y) r c = stateOf x r c ^^^ stateOf y r c := byteAt_xor x y _

/-- `aesenc` is a full round of the standard. -/
theorem stateOf_aesenc (src dst : Xmm) :
    stateOf (aesenc src dst) = fun r c =>
      Fips197.mixColumns (Fips197.shiftRows (Fips197.subBytes (stateOf dst))) r c ^^^ stateOf src r c := by
  funext r c
  rw [aesenc, stateOf_xor, stateOf_ofState]
  simp only [Fips197.mixColumns, Fips197.mixColumn_eq, subByte_eq]
  rfl

/-- `aesenclast` is the last round, without MixColumns. -/
theorem stateOf_aesenclast (src dst : Xmm) :
    stateOf (aesenclast src dst) = fun r c =>
      Fips197.shiftRows (Fips197.subBytes (stateOf dst)) r c ^^^ stateOf src r c := by
  funext r c
  rw [aesenclast, stateOf_xor, stateOf_ofState]
  simp only [subByte_eq]
  rfl

end HyperSmile.Enclave.Sse
