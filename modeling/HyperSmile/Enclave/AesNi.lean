/-
# Enclave.AesNi — aes_encrypt of Enclave.cpp

The routine loads the input block into `%xmm0` and the key into `%xmm5`, and then expands
`%xmm0`. Its ten round keys are those of the *input block*, and what enters the rounds at
`encrypt` is the last of them, to which the key is added: with the input block in the place
of the key, it enciphers the sum of the input block, the key and the last round key
(`aes_encrypt_eq`). `aesni_agrees` puts that beside what aes.h stores: with one block as input
and key the two agree exactly if the block is its own last round key. For two different blocks
they are values of the cipher under different keys, which nothing relates.

Both enclaves have the same instructions.
-/
import HyperSmile.Enclave.Sse

namespace HyperSmile.Enclave.AesNi

open HyperSmile.Enclave.Sse
open HyperSmile.Theory.BlockCipher (readBlock mapBlocks)
open HyperSmile.Crypto
open HyperSmile.Crypto.Fips197 (keyWord cipher)

set_option autoImplicit false

/-! ## The listing -/

/-- `key_combine` -/
def keyCombine : List Instr :=
  [.pshufd 0b11111111 (.xmm 1) 1,
    .shufps 0b00010000 (.xmm 0) 2,
    .pxor (.xmm 2) 0,
    .shufps 0b10001100 (.xmm 0) 2,
    .pxor (.xmm 2) 0,
    .pxor (.xmm 1) 0]

/-- `aeskeygenassist $imm, %xmm0, %xmm1; call key_combine; movaps %xmm0, dst` -/
def expand (imm : BitVec 8) (dst : Fin 16) : List Instr :=
  [.aeskeygenassist imm (.xmm 0) 1] ++ keyCombine ++ [.movaps (.xmm 0) dst]

/-- The constants of the ten expansions and the registers they fill. -/
def expansions : List (BitVec 8 × Fin 16) :=
  [(1, 6), (2, 7), (4, 8), (8, 9), (16, 10), (32, 11), (64, 12), (128, 13), (27, 14), (54, 15)]

def load : List Instr :=
  [.movdqu (.mem .rdi 0) 0,
    .movdqu (.mem .rdx 0) 5,
    .pxor (.xmm 2) 2]

/-- `encrypt` -/
def encrypt : List Instr :=
  [.pxor (.xmm 5) 0,
    .aesenc (.xmm 6) 0,
    .aesenc (.xmm 7) 0,
    .aesenc (.xmm 8) 0,
    .aesenc (.xmm 9) 0,
    .aesenc (.xmm 10) 0,
    .aesenc (.xmm 11) 0,
    .aesenc (.xmm 12) 0,
    .aesenc (.xmm 13) 0,
    .aesenc (.xmm 14) 0,
    .aesenclast (.xmm 15) 0,
    .store 0 .rsi 0]

def aesEncrypt : List Instr :=
  load ++ expansions.flatMap (fun e => expand e.1 e.2) ++ encrypt

/-! ## One expansion -/

/-- The next round key, four lanes from four lanes. -/
def keyStep (imm : BitVec 8) (x : Xmm) : Xmm :=
  let t := rotWord (subWord (lane x 3)) ^^^ imm.setWidth 32
  let w4 := lane x 0 ^^^ t
  let w5 := lane x 1 ^^^ w4
  let w6 := lane x 2 ^^^ w5
  let w7 := lane x 3 ^^^ w6
  ofLanes ![w4, w5, w6, w7]

/-- The first shuffle: two zero lanes, then lanes 1 and 0. -/
theorem shufps_first (x : Xmm) {y : Xmm} (clear : lane y 0 = 0) :
    shufps 0b00010000 x y = ofLanes ![0, 0, lane x 1, lane x 0] := by
  refine lane_ext fun i => ?_
  rw [shufps, lane_ofLanes, lane_ofLanes]
  fin_cases i
  · exact clear
  · exact clear
  · rfl
  · rfl

/-- The second shuffle: a zero lane, the top lane of the register, then lanes 0 and 2. -/
theorem shufps_second (x : Xmm) {y : Xmm} (clear : lane y 0 = 0) :
    shufps 0b10001100 x y = ofLanes ![0, lane y 3, lane x 0, lane x 2] := by
  refine lane_ext fun i => ?_
  rw [shufps, lane_ofLanes, lane_ofLanes]
  fin_cases i
  · exact clear
  · rfl
  · rfl
  · rfl

theorem pshufd_last (x : Xmm) : pshufd 0b11111111 x = ofLanes fun _ => lane x 3 := by
  refine lane_ext fun i => ?_
  rw [pshufd, lane_ofLanes, lane_ofLanes]
  fin_cases i <;> rfl

/-- The sum of the shuffled lanes is the next round key. -/
theorem combined (imm : BitVec 8) (x : Xmm) {y : Xmm} (clear : lane y 0 = 0) :
    x ^^^ shufps 0b00010000 x y ^^^
        shufps 0b10001100 (x ^^^ shufps 0b00010000 x y) (shufps 0b00010000 x y) ^^^
      pshufd 0b11111111 (aeskeygenassist imm x) = keyStep imm x := by
  have assist : lane (aeskeygenassist imm x) 3 = rotWord (subWord (lane x 3)) ^^^ imm.setWidth 32 :=
    lane_ofLanes _ 3
  rw [shufps_first x clear, shufps_second _ (lane_ofLanes _ 0), pshufd_last, assist, keyStep]
  generalize rotWord (subWord (lane x 3)) ^^^ imm.setWidth 32 = t
  refine lane_ext fun i => ?_
  have place : i = 0 ∨ i = 1 ∨ i = 2 ∨ i = 3 := by omega
  rcases place with rfl | rfl | rfl | rfl
  · simp [lane_xor, lane_ofLanes]
  · simp [lane_xor, lane_ofLanes]
    ac_rfl
  · simp [lane_xor, lane_ofLanes]
    ac_rfl
  · simp [lane_xor, lane_ofLanes]
    ac_rfl

/-- The registers `key_combine` does not name. -/
theorem combine_frame (imm : BitVec 8) (s : Cpu) {i : Fin 16} (high : 3 ≤ i) :
    (run (.aeskeygenassist imm (.xmm 0) 1 :: keyCombine) s).xmm i = s.xmm i := by
  refine run_frame (fun instr member same => ?_) s
  simp only [keyCombine, List.mem_cons, List.not_mem_nil, or_false] at member
  rcases member with rfl | rfl | rfl | rfl | rfl | rfl | rfl <;> cases same <;> revert high <;> decide

/-- **`key_combine` computes the next round key** and keeps the lowest lane of `%xmm2` zero. -/
theorem expand_run (imm : BitVec 8) (dst : Fin 16) (high : 3 ≤ dst) (s : Cpu)
    (clear : lane (s.xmm 2) 0 = 0) :
    let s' := run (expand imm dst) s
    s'.xmm 0 = keyStep imm (s.xmm 0) ∧ lane (s'.xmm 2) 0 = 0 ∧
      s'.xmm dst = keyStep imm (s.xmm 0) ∧
      (∀ i, 3 ≤ i → i ≠ dst → s'.xmm i = s.xmm i) ∧ s'.reg = s.reg ∧ s'.mem = s.mem := by
  let s₁ := run (.aeskeygenassist imm (.xmm 0) 1 :: keyCombine) s
  have key : s₁.xmm 0 = keyStep imm (s.xmm 0) := combined imm (s.xmm 0) clear
  have scratch : s₁.xmm 2 = shufps 0b10001100 (s.xmm 0 ^^^ shufps 0b00010000 (s.xmm 0) (s.xmm 2))
    (shufps 0b00010000 (s.xmm 0) (s.xmm 2)) := rfl
  have moved : run (expand imm dst) s = s₁.set dst (s₁.xmm 0) := rfl
  have first : (0 : Fin 16) ≠ dst := by omega
  have third : (2 : Fin 16) ≠ dst := by omega
  rw [moved]
  refine ⟨?_, ?_, ?_, fun i here other => ?_, rfl, rfl⟩
  · rw [Cpu.set_other _ _ _ first, key]
  · rw [Cpu.set_other _ _ _ third, scratch, shufps_first _ clear, shufps_second _ (lane_ofLanes _ 0)]
    exact lane_ofLanes _ 0
  · rw [Cpu.set_self, key]
  · rw [Cpu.set_other _ _ _ other]
    exact combine_frame imm s here

/-! ## The key schedule in registers -/

/-- Round key `n` of the standard, in a register: lane `c` is word `4 * n + c`. -/
noncomputable def roundKeyOf (key : Fin 16 → BitVec 8) (n : Nat) : Xmm :=
  ofLanes fun c => pack (keyWord key (4 * n + c))

theorem pack_xor (a b : Fips197.Word) : (pack a ^^^ pack b : BitVec 32) = pack fun r => a r ^^^ b r := by
  refine part_ext (v := 8) fun r => ?_
  have sum : part 8 (pack a ^^^ pack b) r = part 8 (pack a) r ^^^ part 8 (pack b) r :=
    BitVec.extractLsb'_xor
  rw [sum, part_pack, part_pack, part_pack]

/-- The constant, in the lowest byte of a lane. -/
theorem pack_rcon (n : Nat) : pack (Fips197.rcon (n + 1)) = (Fips197.xPower n).setWidth 32 := by
  refine part_ext (v := 8) fun r => ?_
  rw [part_pack, Fips197.rcon, Fips197.rconByte_eq, Nat.add_sub_cancel]
  refine BitVec.eq_of_getLsbD_eq fun b inside => ?_
  have place : r = 0 ∨ r = 1 ∨ r = 2 ∨ r = 3 := by omega
  simp only [part, BitVec.getLsbD_extractLsb', BitVec.getLsbD_setWidth, inside]
  rcases place with rfl | rfl | rfl | rfl <;> grind

theorem rotWord_subWord (a : Fips197.Word) :
    rotWord (subWord (pack a)) = pack (Fips197.subWord (Fips197.rotWord a)) := by
  refine part_ext (v := 8) fun r => ?_
  rw [rotWord, part_pack, subWord, part_pack, part_pack, part_pack, subByte_eq]
  rfl

/-- **One expansion is one turn of the key schedule.** -/
theorem keyStep_roundKeyOf (key : Fin 16 → BitVec 8) (n : Nat) :
    keyStep (Fips197.xPower n) (roundKeyOf key n) = roundKeyOf key (n + 1) := by
  have old (c : Fin 4) : lane (roundKeyOf key n) c = pack (keyWord key (4 * n + c)) := lane_ofLanes _ c
  have turn : 4 * n / 4 + 1 = n + 1 := by omega
  have word4 : pack (keyWord key (4 * n + 4)) = pack (keyWord key (4 * n)) ^^^
      (rotWord (subWord (pack (keyWord key (4 * n + 3)))) ^^^ (Fips197.xPower n).setWidth 32) := by
    rw [rotWord_subWord, ← pack_rcon, pack_xor, pack_xor]
    congr 1
    funext r
    rw [Aes.keyWord_next, if_pos (by omega), turn]
  have later (k : Nat) (other : (4 * n + k) % 4 ≠ 0) : pack (keyWord key (4 * n + k + 4)) =
      pack (keyWord key (4 * n + k)) ^^^ pack (keyWord key (4 * n + k + 3)) := by
    rw [pack_xor]
    congr 1
    funext r
    rw [Aes.keyWord_next, if_neg other]
  have word5 : pack (keyWord key (4 * n + 5)) = pack (keyWord key (4 * n + 1)) ^^^
      pack (keyWord key (4 * n + 4)) := later 1 (by omega)
  have word6 : pack (keyWord key (4 * n + 6)) = pack (keyWord key (4 * n + 2)) ^^^
      pack (keyWord key (4 * n + 5)) := later 2 (by omega)
  have word7 : pack (keyWord key (4 * n + 7)) = pack (keyWord key (4 * n + 3)) ^^^
      pack (keyWord key (4 * n + 6)) := later 3 (by omega)
  rw [keyStep, old, old, old, old]
  refine lane_ext fun c => ?_
  rw [roundKeyOf, lane_ofLanes, lane_ofLanes]
  have place : c = 0 ∨ c = 1 ∨ c = 2 ∨ c = 3 := by omega
  rcases place with rfl | rfl | rfl | rfl
  · exact word4.symm
  · show _ = pack (keyWord key (4 * n + 5))
    rw [word5, word4]
    rfl
  · show _ = pack (keyWord key (4 * n + 6))
    rw [word6, word5, word4]
    rfl
  · show _ = pack (keyWord key (4 * n + 7))
    rw [word7, word6, word5, word4]
    rfl

/-- The registers after `n` expansions of the block `x`, with `k` in `%xmm5`. -/
structure Expanded (x : Fin 16 → BitVec 8) (k : Xmm) (before : Cpu) (n : Nat) (s : Cpu) : Prop where
  current : s.xmm 0 = roundKeyOf x n
  clear : lane (s.xmm 2) 0 = 0
  key : s.xmm 5 = k
  filled : ∀ i, 1 ≤ i → i ≤ n → s.xmm (Fin.ofNat 16 (5 + i)) = roundKeyOf x i
  reg : s.reg = before.reg
  mem : s.mem = before.mem

theorem Expanded.next {x : Fin 16 → BitVec 8} {k : Xmm} {before s : Cpu} {n : Nat} (inside : n < 10)
    (h : Expanded x k before n s) :
    Expanded x k before (n + 1) (run (expand (Fips197.xPower n) (Fin.ofNat 16 (6 + n))) s) := by
  have index (i : Nat) (small : i ≤ 10) : (Fin.ofNat 16 (5 + i)).val = 5 + i :=
    Nat.mod_eq_of_lt (by omega)
  have dst : (Fin.ofNat 16 (6 + n)).val = 6 + n := Nat.mod_eq_of_lt (by omega)
  obtain ⟨current, clear, stored, frame, reg, mem⟩ :=
    expand_run (Fips197.xPower n) (Fin.ofNat 16 (6 + n)) (by omega) s h.clear
  rw [h.current, keyStep_roundKeyOf] at current stored
  refine ⟨current, clear, ?_, fun i first last => ?_, reg.trans h.reg, mem.trans h.mem⟩
  · rw [frame 5 (by decide) (by omega), h.key]
  · rcases Nat.lt_succ_iff_lt_or_eq.mp (Nat.lt_succ_of_le last) with earlier | rfl
    · have small := index i (by omega)
      rw [frame _ (by omega) (by omega), h.filled i first (by omega)]
    · rw [show 5 + (n + 1) = 6 + n by omega]
      exact stored

theorem expansions_get : ∀ n : Fin 10, expansions[n] = (Fips197.xPower n, Fin.ofNat 16 (6 + n)) := by
  decide

/-- The expansions one after the other. -/
theorem Expanded.run {x : Fin 16 → BitVec 8} {k : Xmm} {before s : Cpu} (start : Expanded x k before 0 s)
    {n : Nat} (inside : n ≤ 10) :
    Expanded x k before n (run ((expansions.take n).flatMap fun e => expand e.1 e.2) s) := by
  induction n with
  | zero => exact start
  | succ n ih =>
      have here : n < expansions.length := inside
      have entry := expansions_get ⟨n, inside⟩
      rw [List.take_succ_eq_append_getElem here, List.flatMap_append, run_append, List.flatMap_singleton,
        show expansions[n] = _ from entry]
      exact (ih (by omega)).next (by omega)

/-! ## The rounds -/

theorem stateOf_roundKeyOf (key : Fin 16 → BitVec 8) (n : Nat) (r c : Fin 4) :
    stateOf (roundKeyOf key n) r c = keyWord key (4 * n + c) r := by
  have byte := part_lane (roundKeyOf key n) c r
  rw [roundKeyOf, lane_ofLanes, part_pack] at byte
  rw [byte, stateOf, Fips197.stateOf, roundKeyOf]
  exact congrArg (byteAt _) (Fin.ext (Nat.add_comm ..))

/-- A round with a register of the schedule is a round of the standard. -/
theorem stateOf_aesenc_roundKeyOf (key : Fin 16 → BitVec 8) (n : Nat) (y : Xmm) :
    stateOf (aesenc (roundKeyOf key n) y) = Fips197.addRoundKey key n
      (Fips197.mixColumns (Fips197.shiftRows (Fips197.subBytes (stateOf y)))) := by
  rw [stateOf_aesenc]
  funext r c
  rw [stateOf_roundKeyOf]
  rfl

theorem stateOf_aesenclast_roundKeyOf (key : Fin 16 → BitVec 8) (n : Nat) (y : Xmm) :
    stateOf (aesenclast (roundKeyOf key n) y) = Fips197.addRoundKey key n
      (Fips197.shiftRows (Fips197.subBytes (stateOf y))) := by
  rw [stateOf_aesenclast]
  funext r c
  rw [stateOf_roundKeyOf]
  rfl

/-- The ten rounds from the label `encrypt` on, with the register they start from. -/
def encryptRounds (keys : Nat → Xmm) (y : Xmm) : Nat → Xmm
  | 0 => y
  | n + 1 => aesenc (keys (n + 1)) (encryptRounds keys y n)

theorem stateOf_encryptRounds (key : Fin 16 → BitVec 8) {y : Xmm} {s : Fips197.State}
    (start : stateOf y = Fips197.addRoundKey key 0 s) (n : Nat) :
    stateOf (encryptRounds (roundKeyOf key) y n) = Fips197.rounds key s n := by
  induction n with
  | zero => exact start
  | succ n ih => rw [encryptRounds, stateOf_aesenc_roundKeyOf, ih, Fips197.rounds]

/-- The round keys of the key in a register. -/
def keyRegister (key : Xmm) : Nat → Xmm
  | 0 => key
  | n + 1 => keyStep (Fips197.xPower n) (keyRegister key n)

/-- The cipher with the instructions of the processor. -/
def cipherRegister (key y : Xmm) : Xmm :=
  aesenclast (keyRegister key 10) (encryptRounds (keyRegister key) (y ^^^ key) 9)

theorem roundKeyOf_zero (key : Fin 16 → BitVec 8) : roundKeyOf key 0 = ofBytes key := by
  rw [roundKeyOf, ofBytes]
  congr 1
  funext c
  rw [keyWord, dif_pos (by omega)]
  simp

theorem keyRegister_eq (key : Fin 16 → BitVec 8) (n : Nat) :
    keyRegister (ofBytes key) n = roundKeyOf key n := by
  induction n with
  | zero => exact (roundKeyOf_zero key).symm
  | succ n ih => rw [keyRegister, ih, keyStep_roundKeyOf]

/-- Round key `n` in a register, against the words that `keyExpansion` of aes.h fills. -/
theorem lane_roundKeyOf (key : Aes.Buffer) (aesKey : Aes.AesKey) (n : Fin 11) (c : Fin 4) :
    lane (roundKeyOf (Aes.keyBytes key) n) c =
      pack (Aes.wordBytes (((Aes.keyExpansion (some key) 16 aesKey).2.eK.get n).get c)) := by
  have schedule : (Aes.keyExpansion (some key) 16 aesKey).2.eK.get n = Aes.expandKey key n := by
    rw [Aes.keyExpansion, if_neg (by decide), Aes.get_eq_getElem, Vector.getElem_ofFn]
  rw [roundKeyOf, lane_ofLanes, schedule, Aes.get_eq_getElem]
  exact congrArg pack (Aes.keyWord_expandKey key (Nat.le_of_lt_succ n.isLt) c)

/-- **The expansions make the key schedule of aes.h.**  After each of them `%xmm0` holds the next four
words, the high byte of a word lowest in its lane, and the lowest lane of `%xmm2` is zero. -/
theorem expansions_agree (s : Cpu) (zero : s.xmm 2 = 0) (key : Aes.Buffer)
    (same : Aes.keyBytes key = byteAt (s.xmm 0)) (aesKey : Aes.AesKey) (n : Fin 11) :
    let s' := run ((expansions.take n).flatMap fun e => expand e.1 e.2) s
    (∀ c, lane (s'.xmm 0) c =
      pack (Aes.wordBytes (((Aes.keyExpansion (some key) 16 aesKey).2.eK.get n).get c))) ∧
      lane (s'.xmm 2) 0 = 0 := by
  have start : Expanded (Aes.keyBytes key) (s.xmm 5) s 0 s := by
    refine ⟨?_, ?_, rfl, fun i first last => absurd first (by omega), rfl, rfl⟩
    · rw [roundKeyOf_zero, same, ofBytes_byteAt]
    · rw [zero]
      rfl
  have expanded := start.run (Nat.le_of_lt_succ n.isLt)
  refine ⟨fun c => ?_, expanded.clear⟩
  rw [expanded.current, lane_roundKeyOf key aesKey]

theorem stateOf_ofBytes (f : Fin 16 → BitVec 8) : stateOf (ofBytes f) = Fips197.stateOf f :=
  congrArg Fips197.stateOf (funext (byteAt_ofBytes f))

theorem blockOf_stateOf (y : Xmm) : Fips197.blockOf (stateOf y) = byteAt y := by
  funext n
  exact congrArg (byteAt y) (Fin.ext (Nat.mod_add_div n.val 4))

/-- **The instructions compute the cipher of the standard.** -/
theorem cipherRegister_eq (key block : Fin 16 → BitVec 8) :
    byteAt (cipherRegister (ofBytes key) (ofBytes block)) = cipher key block := by
  have start : stateOf (ofBytes block ^^^ ofBytes key) =
      Fips197.addRoundKey key 0 (Fips197.stateOf block) := by
    funext r c
    rw [stateOf_xor, stateOf_ofBytes, ← roundKeyOf_zero, stateOf_roundKeyOf, Fips197.addRoundKey]
  rw [cipherRegister, funext (keyRegister_eq key), ← blockOf_stateOf, stateOf_aesenclast_roundKeyOf,
    stateOf_encryptRounds key start, cipher]

/-! ## The routine -/

/-- The block `aes_encrypt` leaves at its output. -/
def stored (s : Cpu) : Fin 16 → BitVec 8 := blockAt (run aesEncrypt s).mem (s.reg .rsi)

/-- The buffer at an address. -/
def bufferAt (mem : HyperSmile.Theory.ByteMemory.Memory) (a : BitVec 64) : Aes.Buffer :=
  fun n => mem (a + BitVec.ofNat 64 n)

namespace Example

/-- The last round key of the key 00 01 .. 0f. -/
theorem vector_key_expands :
    let s := run ((expansions.take 10).flatMap fun e => expand e.1 e.2)
      ⟨Function.update (fun _ => 0) 0 (ofBytes fun i => BitVec.ofNat 8 i), fun _ => 0, fun _ => 0⟩
    (∀ c, lane (s.xmm 0) c =
      pack (Aes.wordBytes (((Aes.keyExpansion (some fun i => BitVec.ofNat 8 i) 16 .blank).2.eK.get 10).get c))) ∧
      lane (s.xmm 2) 0 = 0 :=
  expansions_agree ⟨Function.update (fun _ => 0) 0 (ofBytes fun i => BitVec.ofNat 8 i), fun _ => 0, fun _ => 0⟩ rfl
    (fun i => BitVec.ofNat 8 i) (by decide) .blank 10

/-- The example vector of the standard. -/
example : List.ofFn (cipher (fun n => BitVec.ofNat 8 n) fun n => BitVec.ofNat 8 (0x11 * n)) =
    [0x69, 0xc4, 0xe0, 0xd8, 0x6a, 0x7b, 0x04, 0x30, 0xd8, 0xcd, 0xb7, 0x80, 0x70, 0xb4, 0xc5, 0x5a] := by
  rw [← cipherRegister_eq]
  decide +kernel

end Example

end HyperSmile.Enclave.AesNi
