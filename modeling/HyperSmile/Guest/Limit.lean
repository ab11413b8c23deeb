/-
# Guest.Limit — the page-table half of the guest: limit.c

`trampoline` hides the pages of an application range and brings them back. Both
halves walk the four levels of the process' tables by hand, through the direct
map at `PAGE_OFFSET`, and meet only in two globals of the module: the table
`pinfo` of saved PTEs and its length `index`.

The page-table memory is a map from addresses to 64-bit words. Every entry the
walks touch is eight-byte aligned (a table base is a page frame, an index is
scaled by eight), so entries never overlap. What C leaves undefined is a `Fault`:
a pid no task has leaves `pgd` uninitialised, a kernel thread has no `mm`, and
`pinfo` has 1000 entries. The TLB flushes and the time stamps read no page table
and change none, so they have no counterpart here.
-/
import HyperSmile.Theory.SavedPatch
import Mathlib.Data.List.Basic

namespace HyperSmile.Guest.Limit

open HyperSmile.Theory.SavedPatch

set_option autoImplicit false

/-! ## The kernel around the module -/

/-- Page-table memory: the 64-bit word at each (kernel virtual) address. -/
abbrev PtMemory := BitVec 64 → BitVec 64

structure MmStruct where
  pgd : BitVec 64
  deriving DecidableEq, Repr

/-- The fields of `struct task_struct` the walks read; `pid_t` is an `int`. -/
structure TaskStruct where
  pid : BitVec 32
  mm : Option MmStruct
  deriving DecidableEq, Repr

/-- What the module reads of the kernel it is loaded into. `tasks` is the list
behind `init_task`, whose pids are pairwise different. -/
structure Kernel where
  pageOffset : BitVec 64
  tasks : List TaskStruct
  pids_nodup : (tasks.map TaskStruct.pid).Nodup
  /-- `&random_data_page` -/
  randomDataPage : BitVec 64

inductive Fault where
  /-- no task has the pid: `pgd` is used uninitialised -/
  | uninitializedPgd
  | nullMm
  /-- an access to `pinfo[i]` outside of its 1000 entries -/
  | pinfoOverrun (i : Nat)
  deriving DecidableEq, Repr

/-- `PTE_PFN_MASK`: bits 51 to 12. -/
def ptePfnMask : BitVec 64 := 0x000ffffffffff000#64

/-- The page frame an entry holds. -/
def frame (entry : BitVec 64) : BitVec 64 := entry &&& ptePfnMask

namespace Kernel

/-- The `list_for_each` search: the `pgd` of the first task with the pid. The
comparison `p->pid == t_pid` widens the `int` to `unsigned long`. -/
def findPgd (kernel : Kernel) (tPid : BitVec 64) : Except Fault (BitVec 64) :=
  match kernel.tasks.find? (fun p => p.pid.signExtend 64 == tPid) with
  | none => .error .uninitializedPgd
  | some p =>
      match p.mm with
      | none => .error .nullMm
      | some mm => .ok mm.pgd

/-- The table an entry points to, seen through the direct map. -/
def nextTable (kernel : Kernel) (entry : BitVec 64) : BitVec 64 :=
  frame entry + kernel.pageOffset

end Kernel

/-- The entry of `table` that `vaddr` selects at the level starting at bit `shift`. -/
def tableEntry (table vaddr : BitVec 64) (shift : Nat) : BitVec 64 :=
  table + 8 * ((vaddr >>> shift) &&& 0x1FF)

/-- The walk `non_v2p`, `en_v2p` and `v2p` share: the address of the PTE. No level
tests the present bit or the page-size bit. -/
def pteSlot (kernel : Kernel) (pgd : BitVec 64) (memory : PtMemory) (vaddr : BitVec 64) :
    BitVec 64 :=
  let pgdEntry := tableEntry pgd vaddr 39
  let pud := tableEntry (kernel.nextTable (memory pgdEntry)) vaddr 30
  let pmd := tableEntry (kernel.nextTable (memory pud)) vaddr 21
  tableEntry (kernel.nextTable (memory pmd)) vaddr 12

/-! ## The module's functions -/

structure PageInfo where
  virAddr : BitVec 64
  /-- the saved PTE, not an address -/
  phyAddr : BitVec 64
  deriving DecidableEq, Repr

instance : Inhabited PageInfo := ⟨⟨0, 0⟩⟩

/-- The page tables and the module's globals `pinfo` and `index`. -/
structure LimitState where
  memory : PtMemory
  pinfo : Vector PageInfo 1000
  index : Nat

/-- `*pte &0xfffffffffffffffe` -/
def clearPresent (pte : BitVec 64) : BitVec 64 := pte &&& 0xfffffffffffffffe#64

/-- Save the PTE of `vaddr` in `pinfo[i]` and clear its present bit. -/
def nonV2p (kernel : Kernel) (vaddr tPid : BitVec 64) (i : Nat) (s : LimitState) :
    Except Fault LimitState := do
  let pgd ← kernel.findPgd tPid
  let pte := pteSlot kernel pgd s.memory vaddr
  if i < 1000 then
    pure { s with
      pinfo := s.pinfo.setIfInBounds i ⟨vaddr, s.memory pte⟩
      memory := Function.update s.memory pte (clearPresent (s.memory pte)) }
  else throw (.pinfoOverrun i)

/-- Overwrite the PTE of `vaddr` with a saved one. -/
def enV2p (kernel : Kernel) (vaddr tPid phyAddr : BitVec 64) (s : LimitState) :
    Except Fault LimitState := do
  let pgd ← kernel.findPgd tPid
  pure { s with memory := Function.update s.memory (pteSlot kernel pgd s.memory vaddr) phyAddr }

/-- The loop of `laucher_non_v2p` from `pageSize` and `i` on. `room` counts the
entries of `pinfo` behind `i`; with none left the call of `non_v2p` faults, so
nothing follows it. -/
def laucherLoop (kernel : Kernel) (appBaseaddr tPid appSize : BitVec 64) :
    Nat → BitVec 64 → Nat → LimitState → Except Fault LimitState
  | room, pageSize, i, s =>
      if pageSize < appSize then
        let currentVaddr := appBaseaddr + pageSize
        if currentVaddr = kernel.randomDataPage then
          .ok { s with index := i }
        else
          match room with
          | 0 => nonV2p kernel currentVaddr tPid i s
          | room + 1 => do
              let s ← nonV2p kernel currentVaddr tPid i s
              laucherLoop kernel appBaseaddr tPid appSize room (pageSize + 0x1000) (i + 1) s
      else .ok { s with index := i }

/-- Hide the pages of the range up to `random_data_page`. -/
def laucherNonV2p (kernel : Kernel) (appBaseaddr tPid appSize : BitVec 64) (s : LimitState) :
    Except Fault LimitState :=
  laucherLoop kernel appBaseaddr tPid appSize 1000 0 0 s

/-- The loop of `launch_en_v2p` with `n` entries left, from entry `i` on. -/
def launchLoop (kernel : Kernel) (tPid : BitVec 64) :
    Nat → Nat → LimitState → Except Fault LimitState
  | 0, _, s => .ok s
  | n + 1, i, s =>
      match s.pinfo[i]? with
      | none => .error (.pinfoOverrun i)
      | some entry => do
          let s ← enV2p kernel entry.virAddr tPid entry.phyAddr s
          launchLoop kernel tPid n (i + 1) s

/-- Write the first `index` entries of `pinfo` back. -/
def launchEnV2p (kernel : Kernel) (tPid : BitVec 64) (s : LimitState) : Except Fault LimitState :=
  launchLoop kernel tPid s.index 0 s

def trampoline (kernel : Kernel) (pi appBaseaddr appSize : BitVec 64) (s : LimitState) :
    Except Fault LimitState := do
  let s ← laucherNonV2p kernel appBaseaddr pi appSize s
  launchEnV2p kernel pi s

/-! ## One call of each walk -/

theorem nonV2p_eq {kernel : Kernel} {tPid pgd : BitVec 64} (found : kernel.findPgd tPid = .ok pgd)
    (vaddr : BitVec 64) {i : Nat} (small : i < 1000) (s : LimitState) :
    nonV2p kernel vaddr tPid i s =
      .ok { s with
        pinfo := s.pinfo.setIfInBounds i ⟨vaddr, s.memory (pteSlot kernel pgd s.memory vaddr)⟩
        memory := Function.update s.memory (pteSlot kernel pgd s.memory vaddr)
          (clearPresent (s.memory (pteSlot kernel pgd s.memory vaddr))) } := by
  rw [nonV2p, found]
  simp only [bind, Except.bind, if_pos small, pure, Except.pure]

theorem enV2p_eq {kernel : Kernel} {tPid pgd : BitVec 64} (found : kernel.findPgd tPid = .ok pgd)
    (vaddr phyAddr : BitVec 64) (s : LimitState) :
    enV2p kernel vaddr tPid phyAddr s =
      .ok { s with
        memory := Function.update s.memory (pteSlot kernel pgd s.memory vaddr) phyAddr } := by
  rw [enV2p, found]
  rfl

/-! ## The search for the process -/

namespace Kernel

/-- Pids are pairwise different, so the search finds the task itself. -/
theorem findPgd_of_mem (kernel : Kernel) {task : TaskStruct} {mm : MmStruct} {tPid : BitVec 64}
    (member : task ∈ kernel.tasks) (pid : task.pid.signExtend 64 = tPid)
    (hasMm : task.mm = some mm) : kernel.findPgd tPid = .ok mm.pgd := by
  have found : kernel.tasks.find? (fun p => p.pid.signExtend 64 == tPid) = some task := by
    have nodup := kernel.pids_nodup
    generalize kernel.tasks = tasks at member nodup
    induction tasks with
    | nil => simp at member
    | cons head rest ih =>
        rw [List.map_cons, List.nodup_cons] at nodup
        rcases List.mem_cons.mp member with rfl | inRest
        · simp [pid]
        · have different : head.pid.signExtend 64 ≠ tPid := by
            intro same
            have equal : head.pid = task.pid := by
              have widened := congrArg BitVec.toInt (same.trans pid.symm)
              rw [BitVec.toInt_signExtend_of_le (by decide),
                BitVec.toInt_signExtend_of_le (by decide)] at widened
              exact BitVec.eq_of_toInt_eq widened
            exact nodup.1 (List.mem_map.mpr ⟨task, inRest, equal.symm⟩)
          rw [List.find?_cons_of_neg (by simpa using different)]
          exact ih inRest nodup.2
  simp [findPgd, found, hasMm]

end Kernel

end HyperSmile.Guest.Limit
