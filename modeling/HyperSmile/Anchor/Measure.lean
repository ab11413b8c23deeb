/-
# Anchor.Measure — what the two anchors put into the report

Both anchors fill the report with two windows of `r10` dwords: the SSA first, then
their own code. Where a window starts is a displacement from `%rip`, so it depends on
the lengths of the instructions before it.

* `anchor_measures`: the anchor of anchor.S copies the SSA window and then the
  window that starts at its own label, and nothing else changes. The windows lie
  further apart than the largest count, so no copy can spoil what a later one reads.
* `anchor_function_measures_iff`: the displacement in anchor_function.S is one short.
  Its second window starts one byte after the label, so it equals the code at the
  label only if it is empty.
-/
import HyperSmile.Anchor.Machine

namespace HyperSmile.Anchor.Measure

open HyperSmile.Anchor.Machine
open HyperSmile.Theory.ByteMemory
open HyperSmile.Theory.Runs

set_option autoImplicit false

/-! ## The two listings -/

/-- anchor.S, from the label `anchor` on. The label `loop` is at offset 31, `worker`
at 42. -/
def anchor : List Instr :=
  [.movRcxR10,                   -- 0
    .leaRsiRip 0x39B500,         -- 3
    .leaRdiRsi 0x400000,         -- 10
    .repMovsd,                   -- 17
    .movRcxR10,                  -- 19
    .leaRsiRip (-0x1d),          -- 22
    .repMovsd,                   -- 29
    .lockXadd,                   -- 31, loop
    .jnp 4,                      -- 36
    .repMovsd,                   -- 38
    .jmp (-11)]                  -- 40

/-- The disassembly in anchor.txt. -/
example : assemble anchor =
    [0x4c, 0x89, 0xd1, 0x48, 0x8d, 0x35, 0x00, 0xb5, 0x39, 0x00, 0x48, 0x8d, 0xbe, 0x00,
      0x00, 0x40, 0x00, 0xf3, 0xa5, 0x4c, 0x89, 0xd1, 0x48, 0x8d, 0x35, 0xe3, 0xff, 0xff,
      0xff, 0xf3, 0xa5, 0xf0, 0x49, 0x0f, 0xc1, 0x09, 0x7b, 0x04, 0xf3, 0xa5, 0xeb, 0xf5] := by
  decide

/-- anchor_function.S, from the label `anchor_function` up to `add_random_code` at
offset 24. -/
def anchorFunction : List Instr :=
  [.leaRsiRip 0x30ef48,          -- 0
    .movRcxR10,                  -- 7
    .repMovsd,                   -- 10
    .leaRsiRip (-0x12),          -- 12
    .movRcxR10,                  -- 19
    .repMovsd]                   -- 22

/-- The bytes of a listing are in memory at its label. -/
def Loaded (memory : Memory) (base : BitVec 64) (code : List (BitVec 8)) : Prop :=
  ∀ (i : Nat) (inside : i < code.length), memory (base + BitVec.ofNat 64 i) = code[i]

/-! ## Where the runs end -/

/-- The state in which the anchor meets `loop` for the first time. -/
def anchorMeasured (L : BitVec 64) (s : Cpu) : Cpu :=
  let S := L + 10 + 0x39B500
  let D := S + 0x400000
  { s with
    rip := L + 31, rcx := 0, rsi := L + 4 * s.r10, rdi := D + 4 * s.r10 + 4 * s.r10
    mem := copyDwords (copyDwords s.mem S D s.r10.toNat) L (D + 4 * s.r10) s.r10.toNat }

theorem anchor_firstReach {L : BitVec 64} {s : Cpu} (entry : s.rip = L) :
    FirstReach (step anchor L) (At L 31) s (anchorMeasured L s) := by
  subst entry
  refine FirstReach.instr 0 (by simp [At]) rfl ?_
  refine FirstReach.instr 3 (by simp [At]) rfl ?_
  refine FirstReach.instr 10 (by simp [At, add_assoc]) rfl ?_
  refine FirstReach.rep 17 (by simp [At, add_assoc]) rfl ?_
  refine FirstReach.instr 19 (by simp [At, Cpu.afterRep, add_assoc]) rfl ?_
  refine FirstReach.instr 22 (by simp [At, Cpu.afterRep, add_assoc]) rfl ?_
  refine FirstReach.rep 29 (by simp [At, Cpu.afterRep, add_assoc]) rfl ?_
  have there : FirstReach (step anchor s.rip) (At s.rip 31) (anchorMeasured s.rip s)
      (anchorMeasured s.rip s) := .here rfl
  simpa [anchorMeasured, Cpu.afterRep, add_assoc] using there

/-- The state in which `anchor_function` meets `add_random_code`. -/
def functionMeasured (L : BitVec 64) (s : Cpu) : Cpu :=
  { s with
    rip := L + 24, rcx := 0, rsi := L + 1 + 4 * s.r10, rdi := s.rdi + 4 * s.r10 + 4 * s.r10
    mem := copyDwords (copyDwords s.mem (L + 7 + 0x30ef48) s.rdi s.r10.toNat) (L + 1)
      (s.rdi + 4 * s.r10) s.r10.toNat }

theorem anchorFunction_firstReach {L : BitVec 64} {s : Cpu} (entry : s.rip = L) :
    FirstReach (step anchorFunction L) (At L 24) s (functionMeasured L s) := by
  subst entry
  refine FirstReach.instr 0 (by simp [At]) rfl ?_
  refine FirstReach.instr 7 (by simp [At]) rfl ?_
  refine FirstReach.rep 10 (by simp [At, add_assoc]) rfl ?_
  refine FirstReach.instr 12 (by simp [At, Cpu.afterRep, add_assoc]) rfl ?_
  refine FirstReach.instr 19 (by simp [At, Cpu.afterRep, add_assoc]) rfl ?_
  refine FirstReach.rep 22 (by simp [At, Cpu.afterRep, add_assoc]) rfl ?_
  have there : FirstReach (step anchorFunction s.rip) (At s.rip 24) (functionMeasured s.rip s)
      (functionMeasured s.rip s) := .here rfl
  simpa [functionMeasured, Cpu.afterRep, add_assoc] using there

/-! ## The anchor of anchor.S -/

theorem four_mul (x : BitVec 64) : 4 * x = BitVec.ofNat 64 (4 * x.toNat) := by
  rw [BitVec.ofNat_mul, BitVec.ofNat_toNat, BitVec.setWidth_eq]
  rfl

/-- **The anchor measures the SSA and itself faithfully**, wherever it is loaded:
when control first meets `loop`, the report at `D` holds the SSA window and then the
window that starts at the label, as they were on entry, and nothing else has changed.
From 11 dwords on the report contains the whole anchor. -/
theorem anchor_measures (L : BitVec 64) (s : Cpu) (entry : s.rip = L)
    (bounded : s.r10.toNat ≤ 0x100000) :
    let n := s.r10.toNat
    let S := L + 10 + 0x39B500
    let D := S + 0x400000
    let E := D + BitVec.ofNat 64 (4 * n)
    ∃ t, FirstReach (step anchor L) (At L 31) s t ∧
      (∀ i < 4 * n, t.mem (D + BitVec.ofNat 64 i) = s.mem (S + BitVec.ofNat 64 i)) ∧
      (∀ i < 4 * n, t.mem (E + BitVec.ofNat 64 i) = s.mem (L + BitVec.ofNat 64 i)) ∧
      (∀ a, ¬ InRegion D (8 * n) a → t.mem a = s.mem a) ∧
      t.rcx = 0 ∧
      (Loaded s.mem L (assemble anchor) → 11 ≤ n → Loaded t.mem E (assemble anchor)) := by
  intro n S D E
  have small : 4 * n + 4 * n ≤ 2 ^ 64 := by omega
  -- the report starts 4 MiB behind the SSA and further behind the code: more than any count
  have gap : (D - S).toNat = 0x400000 := by
    rw [add_sub_cancel_left]
    rfl
  have gap' : (D - L).toNat = 0x79B50A := by
    simp only [D, S, add_assoc, add_sub_cancel_left]
    rfl
  have apart : Apart S (4 * n) D (4 * n + 4 * n) := apart_of_gap (by omega) (by omega)
  have apart' : Apart L (4 * n) D (4 * n + 4 * n) := apart_of_gap (by omega) (by omega)
  have report (a : BitVec 64) : (anchorMeasured L s).mem a =
      if InRegion D (4 * n) a then s.mem (S + (a - D))
      else if InRegion E (4 * n) a then s.mem (L + (a - E))
      else s.mem a := by
    rw [← copyDwords_twice s.mem small apart apart' a]
    simp only [anchorMeasured, four_mul]
    rfl
  have own : ∀ i < 4 * n, (anchorMeasured L s).mem (E + BitVec.ofNat 64 i) =
      s.mem (L + BitVec.ofNat 64 i) := by
    intro i inside
    have back : InRegion E (4 * n) (E + BitVec.ofNat 64 i) := inRegion_add E inside (by omega)
    rw [report, if_neg (fun front => inRegion_front_back small front back), if_pos back,
      add_sub_cancel_left]
  refine ⟨anchorMeasured L s, anchor_firstReach entry, ?_, own, ?_, rfl, ?_⟩
  · intro i inside
    rw [report, if_pos (inRegion_add D inside (by omega)), add_sub_cancel_left]
  · intro a outside
    rw [show 8 * n = 4 * n + 4 * n by ring, inRegion_append small, not_or] at outside
    rw [report, if_neg outside.1, if_neg outside.2]
  · intro loaded enough i inside
    have whole : (assemble anchor).length = 42 := by decide
    rw [own i (by omega), loaded i inside]

/-! ## The anchor of anchor_function.S -/

/-- The second window of the report is the memory from the label on. -/
def MeasuresItself (L : BitVec 64) (s : Cpu) : Prop :=
  ∃ t, FirstReach (step anchorFunction L) (At L 24) s t ∧
    ∀ i < 4 * s.r10.toNat,
      t.mem (s.rdi + 4 * s.r10 + BitVec.ofNat 64 i) = s.mem (L + BitVec.ofNat 64 i)

/-- A report that leaves out even the first byte of the code is no larger than the
address space. -/
theorem report_small {L dst : BitVec 64} {n : Nat}
    (apart : Apart L (4 * n) dst (8 * n)) : 8 * n ≤ 2 ^ 64 := by
  by_contra large
  refine apart L (inRegion_self L (by omega)) ?_
  have := (L - dst).isLt
  unfold InRegion
  omega

/-- The first byte of the second window comes from the byte behind the label, so the
window cannot be the code. -/
theorem not_measuresItself {L : BitVec 64} {s : Cpu} (entry : s.rip = L)
    (loaded : Loaded s.mem L (assemble anchorFunction))
    (apart : Apart L (4 * s.r10.toNat) s.rdi (8 * s.r10.toNat)) (positive : 0 < s.r10.toNat) :
    ¬ MeasuresItself L s := by
  rintro ⟨t, reached, same⟩
  obtain rfl := (anchorFunction_firstReach entry).unique reached
  have small := report_small apart
  have source : InRegion L (4 * s.r10.toNat) (L + 1) :=
    inRegion_add L (i := 1) (by omega) (by omega)
  have untouched : ¬ InRegion s.rdi (4 * s.r10.toNat) (L + 1) := by
    intro window
    refine apart _ source ?_
    unfold InRegion at *
    omega
  have copied : (functionMeasured L s).mem (s.rdi + 4 * s.r10) = s.mem (L + 1) := by
    simp only [functionMeasured]
    rw [copyDwords_first _ _ _ positive (by omega), copyDwords_outside _ _ (by omega) untouched]
  have first : s.mem (L + BitVec.ofNat 64 0) = 0x48 := loaded 0 (by decide)
  have second : s.mem (L + 1) = 0x8d := loaded 1 (by decide)
  have window := same 0 (by omega)
  rw [first, show BitVec.ofNat 64 0 = 0 from rfl, add_zero, copied, second] at window
  exact absurd window (by decide)

/-- **`anchor_function` measures itself only when it measures nothing.**  Its second
window starts at `L + 1`, not at the label. -/
theorem anchor_function_measures_iff (L : BitVec 64) (s : Cpu) (entry : s.rip = L)
    (loaded : Loaded s.mem L (assemble anchorFunction))
    (apart : Apart L (4 * s.r10.toNat) s.rdi (8 * s.r10.toNat)) :
    MeasuresItself L s ↔ s.r10 = 0 := by
  constructor
  · intro measures
    by_contra counting
    have positive : 0 < s.r10.toNat :=
      Nat.pos_of_ne_zero fun zero => counting (BitVec.eq_of_toNat_eq zero)
    exact not_measuresItself entry loaded apart positive measures
  · intro none
    refine ⟨functionMeasured L s, anchorFunction_firstReach entry, ?_⟩
    simp [none]

namespace Example

/-- A memory of zeros but for a listing at its label. -/
def imageAt (base : BitVec 64) (code : List (BitVec 8)) : Memory :=
  fun a => code.getD (a - base).toNat 0

theorem loaded_imageAt (base : BitVec 64) {code : List (BitVec 8)} (small : code.length ≤ 2 ^ 64) :
    Loaded (imageAt base code) base code := by
  intro i inside
  rw [imageAt, add_sub_cancel_left, BitVec.toNat_ofNat, Nat.mod_eq_of_lt (by omega)]
  simp [inside]

/-- A processor about to run a listing. -/
def cpuAt (base : BitVec 64) (code : List Instr) (rdi r10 : BitVec 64) : Cpu :=
  ⟨base, 0, 0, rdi, r10, false, imageAt base (assemble code), 0⟩

/-- The anchor at the end of its page: eleven dwords hold all of it. -/
theorem anchor_in_report :
    ∃ t, FirstReach (step anchor 0x7f0000000fd6) (At 0x7f0000000fd6 31)
        (cpuAt 0x7f0000000fd6 anchor 0 11) t ∧
      Loaded t.mem (0x7f000079c4e0 + BitVec.ofNat 64 44) (assemble anchor) := by
  obtain ⟨t, reached, -, -, -, -, whole⟩ :=
    anchor_measures 0x7f0000000fd6 (cpuAt 0x7f0000000fd6 anchor 0 11) rfl (by decide)
  exact ⟨t, reached, whole (loaded_imageAt _ (by decide)) (by decide)⟩

/-- An enclave that reports six dwords: the window begins with the second byte. -/
theorem first_byte_unmeasured :
    ¬ ∀ (L : BitVec 64) (s : Cpu), s.rip = L → Loaded s.mem L (assemble anchorFunction) →
        Apart (L + 7 + 0x30ef48) (4 * s.r10.toNat) s.rdi (8 * s.r10.toNat) →
        Apart L (4 * s.r10.toNat) s.rdi (8 * s.r10.toNat) → MeasuresItself L s := by
  intro claim
  let s := cpuAt 0x1000 anchorFunction 0x800000 6
  have loaded : Loaded s.mem 0x1000 (assemble anchorFunction) := loaded_imageAt _ (by decide)
  have count : s.r10.toNat = 6 := rfl
  have fromSsa : Apart (0x1000 + 7 + 0x30ef48) (4 * s.r10.toNat) s.rdi (8 * s.r10.toNat) := by
    rw [count]
    exact apart_of_gap (by decide) (by decide)
  have fromCode : Apart 0x1000 (4 * s.r10.toNat) s.rdi (8 * s.r10.toNat) := by
    rw [count]
    exact apart_of_gap (by decide) (by decide)
  exact not_measuresItself rfl loaded fromCode (by rw [count]; decide)
    (claim 0x1000 s rfl loaded fromSsa fromCode)

/-- With a count of 0 there is nothing to leave out. -/
theorem nothing_measured : MeasuresItself 0x1000 (cpuAt 0x1000 anchorFunction 0x800000 0) :=
  (anchor_function_measures_iff 0x1000 _ rfl (loaded_imageAt _ (by decide))
    (apart_of_gap (by decide) (by decide))).mpr rfl

end Example

end HyperSmile.Anchor.Measure
