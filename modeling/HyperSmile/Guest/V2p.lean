/-
# Guest.V2p — v2p of limit.c against the processor's walk

`v2p` walks like `non_v2p`: four levels, whatever the entries say. The processor stops at an entry
that is not present and takes a page of 1 GiB or 2 MiB where bit 7 says so (`hardwareWalk`); its
physical address has the frame bits of the leaf up to bit 51.

On a page of 4 KiB `v2p` keeps all bits of the PTE from bit 12 on (`PAGE_MASK`), with the bits
above the frame: no-execute, the protection key, the software bits. It is right exactly if they are
clear. On a large page it takes a word of the page for a PTE (`v2p_iff`).
-/
import HyperSmile.Guest.Trampoline

namespace HyperSmile.Guest.Limit

set_option autoImplicit false

/-! ## The function -/

/-- `PAGE_MASK` -/
def pageMask : BitVec 64 := ~~~0xfff#64

/-- The physical address of `vaddr` in the process, as the module computes it. -/
def v2p (kernel : Kernel) (memory : PtMemory) (vaddr tPid : BitVec 64) : Except Fault (BitVec 64) := do
  let pgd ← kernel.findPgd tPid
  let pte := pteSlot kernel pgd memory vaddr
  let pageAddr := memory pte &&& pageMask
  let pOffset := vaddr &&& ~~~pageMask
  return pageAddr ||| pOffset

/-- `get_trampoline_gpa`, with `&trampoline` and `current` -/
def getTrampolineGpa (kernel : Kernel) (memory : PtMemory) (trampoline : BitVec 64) (current : TaskStruct) :
    Except Fault (BitVec 64) := v2p kernel memory trampoline (current.pid.signExtend 64)

/-! ## The processor -/

/-- The low `n` bits. -/
def lowBits (n : Nat) : BitVec 64 := BitVec.ofNat 64 (2 ^ n - 1)

/-- The entry a walk ends at, and the bit its page frame starts at. -/
structure Leaf where
  entry : BitVec 64
  shift : Nat

/-- Bits 51 to `shift` of the entry, joined with the offset in the page. -/
def Leaf.translate (leaf : Leaf) (vaddr : BitVec 64) : BitVec 64 :=
  leaf.entry &&& lowBits 52 &&& ~~~lowBits leaf.shift ||| vaddr &&& lowBits leaf.shift

/-- The four-level walk of the processor, seen through the direct map. -/
def hardwareWalk (kernel : Kernel) (pgd : BitVec 64) (memory : PtMemory) (vaddr : BitVec 64) :
    Option Leaf :=
  let pgdEntry := memory (tableEntry pgd vaddr 39)
  let pudEntry := memory (tableEntry (kernel.nextTable pgdEntry) vaddr 30)
  let pmdEntry := memory (tableEntry (kernel.nextTable pudEntry) vaddr 21)
  let pteEntry := memory (tableEntry (kernel.nextTable pmdEntry) vaddr 12)
  if ¬ pgdEntry.getLsbD 0 then none
  else if ¬ pudEntry.getLsbD 0 then none
  else if pudEntry.getLsbD 7 then some ⟨pudEntry, 30⟩
  else if ¬ pmdEntry.getLsbD 0 then none
  else if pmdEntry.getLsbD 7 then some ⟨pmdEntry, 21⟩
  else if ¬ pteEntry.getLsbD 0 then none
  else some ⟨pteEntry, 12⟩

/-- What `v2p` needs of the tables: on a page of 4 KiB an entry with nothing above the frame, on a
larger one that the word of the page it takes for a PTE holds the page number of the translation. -/
def ReadsRight (kernel : Kernel) (pgd : BitVec 64) (memory : PtMemory) (vaddr : BitVec 64) (leaf : Leaf) :
    Prop :=
  if leaf.shift = 12 then leaf.entry >>> 52 = 0
  else memory (pteSlot kernel pgd memory vaddr) >>> 12 = leaf.translate vaddr >>> 12

section Walk

variable {kernel : Kernel} {pgd : BitVec 64} {memory : PtMemory} {vaddr : BitVec 64} {leaf : Leaf}

/-- Where the processor's walk ends. -/
theorem hardwareWalk_leaf (mapped : hardwareWalk kernel pgd memory vaddr = some leaf) :
    (leaf.shift = 12 ∧ leaf.entry = memory (pteSlot kernel pgd memory vaddr)) ∨
      leaf.shift = 21 ∨ leaf.shift = 30 := by
  rw [hardwareWalk] at mapped
  repeat' split at mapped
  all_goals cases mapped
  · exact Or.inr (Or.inr rfl)
  · exact Or.inr (Or.inl rfl)
  · exact Or.inl ⟨rfl, rfl⟩

theorem getLsbD_lowBits (n b : Nat) : (lowBits n).getLsbD b = (decide (b < 64) && decide (b < n)) := by
  rw [lowBits, BitVec.getLsbD_ofNat, Nat.testBit_two_pow_sub_one]

theorem getLsbD_translate (leaf : Leaf) (vaddr : BitVec 64) {b : Nat} (inside : b < 64) :
    (leaf.translate vaddr).getLsbD b =
      if b < leaf.shift then vaddr.getLsbD b else leaf.entry.getLsbD b && decide (b < 52) := by
  simp only [Leaf.translate, BitVec.getLsbD_or, BitVec.getLsbD_and, BitVec.getLsbD_not, getLsbD_lowBits,
    inside, decide_true, Bool.true_and]
  by_cases low : b < leaf.shift <;> simp [low]

/-- A PTE with its page number, and the offset of the address. -/
theorem getLsbD_joined (pte vaddr : BitVec 64) {b : Nat} (inside : b < 64) :
    (pte &&& pageMask ||| vaddr &&& ~~~pageMask).getLsbD b =
      if b < 12 then vaddr.getLsbD b else pte.getLsbD b := by
  have mask : pageMask = ~~~lowBits 12 := rfl
  simp only [mask, BitVec.getLsbD_or, BitVec.getLsbD_and, BitVec.getLsbD_not, getLsbD_lowBits, inside,
    decide_true, Bool.true_and]
  by_cases low : b < 12 <;> simp [low]

theorem ushiftRight_eq_iff (x y : BitVec 64) (n : Nat) :
    x >>> n = y >>> n ↔ ∀ b < 64, n ≤ b → x.getLsbD b = y.getLsbD b := by
  constructor
  · intro same b inside high
    have bit := congrArg (fun z => z.getLsbD (b - n)) same
    simp only [BitVec.getLsbD_ushiftRight, Nat.add_sub_cancel' high] at bit
    exact bit
  · intro same
    refine BitVec.eq_of_getLsbD_eq fun b _ => ?_
    rw [BitVec.getLsbD_ushiftRight, BitVec.getLsbD_ushiftRight]
    by_cases inside : n + b < 64
    · exact same (n + b) inside (Nat.le_add_right n b)
    · rw [BitVec.getLsbD_of_ge x _ (by omega), BitVec.getLsbD_of_ge y _ (by omega)]

/-- Only the page number can be wrong: the offset is that of a page of 4 KiB in every case. -/
theorem joined_eq_iff (pte : BitVec 64) (wide : 12 ≤ leaf.shift) :
    pte &&& pageMask ||| vaddr &&& ~~~pageMask = leaf.translate vaddr ↔
      pte >>> 12 = leaf.translate vaddr >>> 12 := by
  rw [ushiftRight_eq_iff]
  constructor
  · intro same b inside high
    rw [← same, getLsbD_joined _ _ inside, if_neg (by omega)]
  · intro same
    refine BitVec.eq_of_getLsbD_eq fun b inside => ?_
    rw [getLsbD_joined _ _ inside]
    by_cases low : b < 12
    · rw [if_pos low, getLsbD_translate _ _ inside, if_pos (by omega)]
    · rw [if_neg low, same b inside (by omega)]

/-- The page number of a PTE is its frame if nothing stands above the frame. -/
theorem frame_eq_iff (small : leaf.shift = 12) :
    leaf.entry >>> 12 = leaf.translate vaddr >>> 12 ↔ leaf.entry >>> 52 = 0 := by
  have zero : (0 : BitVec 64) = 0#64 >>> 52 := rfl
  rw [zero, ushiftRight_eq_iff, ushiftRight_eq_iff]
  constructor
  · intro same b inside high
    rw [same b inside (by omega), getLsbD_translate _ _ inside, if_neg (by omega),
      decide_eq_false (by omega), Bool.and_false, BitVec.getLsbD_zero]
  · intro clear b inside high
    rw [getLsbD_translate _ _ inside, if_neg (by omega)]
    by_cases inFrame : b < 52
    · rw [decide_eq_true inFrame, Bool.and_true]
    · rw [clear b inside (by omega), BitVec.getLsbD_zero, Bool.false_and]

end Walk

/-- The two walks, from one `pgd`. -/
theorem v2p_translates_iff {kernel : Kernel} {memory : PtMemory} {vaddr tPid pgd : BitVec 64} {leaf : Leaf}
    (found : kernel.findPgd tPid = .ok pgd) (mapped : hardwareWalk kernel pgd memory vaddr = some leaf) :
    ∃ paddr, v2p kernel memory vaddr tPid = .ok paddr ∧
      (paddr = leaf.translate vaddr ↔ ReadsRight kernel pgd memory vaddr leaf) := by
  refine ⟨_, by rw [v2p, found]; rfl, ?_⟩
  rw [ReadsRight]
  rcases hardwareWalk_leaf mapped with ⟨small, here⟩ | large | large
  · rw [joined_eq_iff _ (by omega), if_pos small, ← here, frame_eq_iff small]
  · rw [joined_eq_iff _ (by omega), if_neg (by omega)]
  · rw [joined_eq_iff _ (by omega), if_neg (by omega)]

/-- **When `v2p` is the processor's translation.** -/
theorem v2p_iff (kernel : Kernel) (task : TaskStruct) (mm : MmStruct) (memory : PtMemory)
    (vaddr tPid : BitVec 64) (member : task ∈ kernel.tasks) (pid : task.pid.signExtend 64 = tPid)
    (hasMm : task.mm = some mm) {leaf : Leaf}
    (mapped : hardwareWalk kernel mm.pgd memory vaddr = some leaf) :
    ∃ paddr, v2p kernel memory vaddr tPid = .ok paddr ∧
      (paddr = leaf.translate vaddr ↔ ReadsRight kernel mm.pgd memory vaddr leaf) :=
  v2p_translates_iff (kernel.findPgd_of_mem member pid hasMm) mapped

/-- The address reported for the trampoline, by any process that calls. -/
theorem getTrampolineGpa_iff {kernel : Kernel} {current : TaskStruct} {mm : MmStruct} {memory : PtMemory}
    {trampoline : BitVec 64} {leaf : Leaf} (member : current ∈ kernel.tasks) (hasMm : current.mm = some mm)
    (mapped : hardwareWalk kernel mm.pgd memory trampoline = some leaf) :
    ∃ paddr, getTrampolineGpa kernel memory trampoline current = .ok paddr ∧
      (paddr = leaf.translate trampoline ↔ ReadsRight kernel mm.pgd memory trampoline leaf) :=
  v2p_translates_iff (kernel.findPgd_of_mem member rfl hasMm) mapped

namespace Example

/-- Page 1 of the process is not to be executed: bit 63 of its PTE is set. -/
def guarded : PtMemory := Function.update memory 0xffff888000004008 0x8000000000006067

theorem page_zero_translated : v2p kernel memory 0x123 42 = .ok 0x5123 := by
  have mapped : hardwareWalk kernel tables.pgd memory 0x123 = some ⟨0x5067, 12⟩ := rfl
  obtain ⟨paddr, ran, right⟩ := v2p_iff kernel ⟨42, some tables⟩ tables memory 0x123 42 (by decide) (by decide) rfl
    mapped
  have value : paddr = 0x5123 := right.mpr rfl
  rw [ran, value]

theorem no_execute_leaks :
    hardwareWalk kernel tables.pgd guarded 0x1123 = some ⟨0x8000000000006067, 12⟩ ∧
      (⟨0x8000000000006067, 12⟩ : Leaf).translate 0x1123 = 0x6123 ∧
      v2p kernel guarded 0x1123 42 = .ok 0x8000000000006123 := by
  refine ⟨rfl, rfl, rfl⟩

end Example

end HyperSmile.Guest.Limit
