/-
# Guest.PageWalk — the page tables as a radix tree

Four-level paging, in the words of the architecture instead of the module's code: a table has 512
entries of eight bytes, the table of level `l` is indexed by the nine bits of the virtual address from
bit `12 + 9 * l` on, and an entry names its table by the page number in its bits 51 to 12. The kernel
sees physical memory behind `PAGE_OFFSET`. `entryAddress` follows that from a table of any level
down; the PTE of an address is where it ends from the top of four levels.

`pteSlot`, the walk `limit.c` writes out three times with shifts and masks, ends at the same entry on
every page-table memory (`pteSlot_eq`).
-/
import HyperSmile.Guest.Limit
import Mathlib.Algebra.Ring.Nat

namespace HyperSmile.Guest.Limit

set_option autoImplicit false

/-! ## The tree -/

/-- The index of an address in a table of the level. -/
def tableIndex (vaddr level : Nat) : Nat := vaddr / 2 ^ (12 + 9 * level) % 512

/-- The physical address of the page whose number is in an entry. -/
def pagePhysical (entry : BitVec 64) : Nat := entry.toNat / 2 ^ 12 % 2 ^ 40 * 2 ^ 12

/-- The address of the level-0 entry for `vaddr`, `level` levels below `table`. -/
def entryAddress (pageOffset : BitVec 64) (memory : PtMemory) (vaddr : Nat) : Nat → BitVec 64 → BitVec 64
  | 0, table => table + BitVec.ofNat 64 (8 * tableIndex vaddr 0)
  | level + 1, table =>
      let entry := memory (table + BitVec.ofNat 64 (8 * tableIndex vaddr (level + 1)))
      entryAddress pageOffset memory vaddr level (pageOffset + BitVec.ofNat 64 (pagePhysical entry))

/-- The address of the PTE for `vaddr` in the tables under `pgd`. -/
def pteAddress (kernel : Kernel) (pgd : BitVec 64) (memory : PtMemory) (vaddr : BitVec 64) : BitVec 64 :=
  entryAddress kernel.pageOffset memory vaddr.toNat 3 pgd

/-- The pages `app_baseaddr + k * 0x1000` of a range have pairwise different PTEs. -/
def DistinctPtes (kernel : Kernel) (pgd : BitVec 64) (memory : PtMemory) (appBaseaddr appSize : BitVec 64) : Prop :=
  ∀ j k : Nat, j * 0x1000 < appSize.toNat → k * 0x1000 < appSize.toNat → j ≠ k →
    pteAddress kernel pgd memory (appBaseaddr + BitVec.ofNat 64 (j * 0x1000)) ≠
      pteAddress kernel pgd memory (appBaseaddr + BitVec.ofNat 64 (k * 0x1000))

/-! ## The module's walk -/

/-- `PTE_PFN_MASK` keeps the page number in its place. -/
theorem frame_eq (entry : BitVec 64) : frame entry = BitVec.ofNat 64 (pagePhysical entry) := by
  have mask : ptePfnMask = BitVec.ofNat 64 (2 ^ 52 - 1) &&& ~~~BitVec.ofNat 64 (2 ^ 12 - 1) := rfl
  refine BitVec.eq_of_getLsbD_eq fun b inside => ?_
  rw [frame, mask, pagePhysical, BitVec.getLsbD_and, BitVec.getLsbD_and, BitVec.getLsbD_not,
    BitVec.getLsbD_ofNat, BitVec.getLsbD_ofNat, BitVec.getLsbD_ofNat, Nat.testBit_two_pow_sub_one,
    Nat.testBit_two_pow_sub_one, Nat.testBit_mul_two_pow, Nat.testBit_mod_two_pow, Nat.testBit_div_two_pow]
  by_cases low : b < 12
  · simp [inside, low, Nat.not_le.mpr low]
  · have back : b - 12 + 12 = b := by omega
    have above : 12 ≤ b := by omega
    have top : decide (b < 52) = decide (b - 12 < 40) := decide_eq_decide.mpr (by omega)
    simp [inside, low, back, above, top, BitVec.getLsbD, Bool.and_comm]

theorem tableEntry_eq (table vaddr : BitVec 64) (level : Nat) :
    tableEntry table vaddr (12 + 9 * level) = table + BitVec.ofNat 64 (8 * tableIndex vaddr.toNat level) := by
  have index : (vaddr >>> (12 + 9 * level)) &&& 0x1FF = BitVec.ofNat 64 (tableIndex vaddr.toNat level) := by
    refine BitVec.eq_of_toNat_eq ?_
    have small : tableIndex vaddr.toNat level < 512 := Nat.mod_lt _ (by omega)
    rw [BitVec.toNat_and, BitVec.toNat_ushiftRight, BitVec.toNat_ofNat, Nat.mod_eq_of_lt (by omega),
      Nat.shiftRight_eq_div_pow]
    exact Nat.and_two_pow_sub_one_eq_mod _ 9
  rw [tableEntry, index, BitVec.ofNat_mul]
  rfl

theorem nextTable_eq (kernel : Kernel) (entry : BitVec 64) :
    kernel.nextTable entry = kernel.pageOffset + BitVec.ofNat 64 (pagePhysical entry) := by
  rw [Kernel.nextTable, frame_eq, BitVec.add_comm]

/-- **The module's walk ends at the PTE.** -/
theorem pteSlot_eq (kernel : Kernel) (pgd : BitVec 64) (memory : PtMemory) (vaddr : BitVec 64) :
    pteSlot kernel pgd memory vaddr = pteAddress kernel pgd memory vaddr := by
  have pgdEntry := tableEntry_eq pgd vaddr 3
  have pud := fun table => tableEntry_eq table vaddr 2
  have pmd := fun table => tableEntry_eq table vaddr 1
  have pte := fun table => tableEntry_eq table vaddr 0
  simp only [pteAddress, entryAddress, ← nextTable_eq, ← pgdEntry, ← pud, ← pmd, ← pte]
  rfl

end HyperSmile.Guest.Limit
