/-
# Guest.Trampoline — hiding and restoring a range leaves the page tables as they were

`limit.c` instantiates `Theory.SavedPatch`: the store is the page-table memory, a
key is a virtual address, the walk is `pteSlot`, the patch clears the present bit.
The walk reads an entry only through `PTE_PFN_MASK`, which bit 0 is not part of,
so no walk is ever moved by a hidden page, even when a PTE doubles as an entry of
an upper level (`pteSlot_observes`, `clearPresent_invisible`).

* `laucherNonV2p_eq`: hiding at most 1000 pages patches the PTEs of the pages
  before `random_data_page` and leaves their saved values in `pinfo[0..index)`.
* `launchEnV2p_eq`: the second loop writes exactly that table back.
* `trampoline_restores`: the two together are the identity on the page tables.
-/
import HyperSmile.Guest.Limit
import Mathlib.Tactic.IntervalCases

namespace HyperSmile.Guest.Limit

open HyperSmile.Theory.SavedPatch

set_option autoImplicit false

/-! ## The walk sees frames only -/

theorem pteSlot_observes (kernel : Kernel) (pgd : BitVec 64) :
    Observes (pteSlot kernel pgd) frame := by
  intro s t vaddr same
  have next : ∀ a, kernel.nextTable (s a) = kernel.nextTable (t a) := by
    intro a
    rw [Kernel.nextTable, same a, Kernel.nextTable]
  simp only [pteSlot, next]

/-- Bit 0 is outside of `PTE_PFN_MASK`. -/
theorem clearPresent_invisible : Invisible clearPresent frame := by
  intro entry
  rw [frame, clearPresent, BitVec.and_assoc]
  rfl

/-! ## The pages of a range -/

/-- The number of rounds the loop makes over `app_size` bytes: page by page, the
last one possibly partial. -/
def pageCount (appSize : BitVec 64) : Nat := (appSize.toNat + 0xfff) / 0x1000

/-- The address of page `k` of a range. -/
def pageAt (appBaseaddr : BitVec 64) (k : Nat) : BitVec 64 :=
  appBaseaddr + BitVec.ofNat 64 (k * 0x1000)

theorem lt_pageCount_iff (appSize : BitVec 64) (k : Nat) :
    k < pageCount appSize ↔ k * 0x1000 < appSize.toNat := by
  unfold pageCount
  omega

/-- The pages `laucher_non_v2p` hides from page `i` on, `n` pages left: it stops
before `random_data_page`. -/
def hiddenFrom (kernel : Kernel) (appBaseaddr : BitVec 64) (i n : Nat) : List (BitVec 64) :=
  ((List.range' i n).map (pageAt appBaseaddr)).takeWhile (· ≠ kernel.randomDataPage)

def hiddenPages (kernel : Kernel) (appBaseaddr appSize : BitVec 64) : List (BitVec 64) :=
  hiddenFrom kernel appBaseaddr 0 (pageCount appSize)

theorem hiddenFrom_succ (kernel : Kernel) (appBaseaddr : BitVec 64) (i n : Nat) :
    hiddenFrom kernel appBaseaddr i (n + 1) =
      if pageAt appBaseaddr i = kernel.randomDataPage then []
      else pageAt appBaseaddr i :: hiddenFrom kernel appBaseaddr (i + 1) n := by
  unfold hiddenFrom
  rw [List.range'_succ, List.map_cons, List.takeWhile_cons]
  by_cases stop : pageAt appBaseaddr i = kernel.randomDataPage <;> simp [stop]

/-- The pages of a range resolve to pairwise different PTEs. -/
def DistinctSlots (kernel : Kernel) (pgd : BitVec 64) (memory : PtMemory)
    (appBaseaddr appSize : BitVec 64) : Prop :=
  ∀ j k : Nat, j * 0x1000 < appSize.toNat → k * 0x1000 < appSize.toNat → j ≠ k →
    pteSlot kernel pgd memory (pageAt appBaseaddr j) ≠
      pteSlot kernel pgd memory (pageAt appBaseaddr k)

theorem DistinctSlots.nodup {kernel : Kernel} {pgd : BitVec 64} {memory : PtMemory}
    {appBaseaddr appSize : BitVec 64}
    (distinct : DistinctSlots kernel pgd memory appBaseaddr appSize) :
    ((hiddenPages kernel appBaseaddr appSize).map (pteSlot kernel pgd memory)).Nodup := by
  have all : (((List.range' 0 (pageCount appSize)).map (pageAt appBaseaddr)).map
      (pteSlot kernel pgd memory)).Nodup := by
    rw [List.map_map]
    apply List.Nodup.map_on _ (List.nodup_range' ..)
    intro j hj k hk same
    by_contra different
    rw [List.mem_range'_1] at hj hk
    exact distinct j k ((lt_pageCount_iff _ _).mp (by omega)) ((lt_pageCount_iff _ _).mp (by omega))
      different same
  exact all.sublist ((List.takeWhile_sublist _).map _)

/-! ## What the two loops do -/

/-- The table after entries are written one after the other from position `i` on. -/
def writeTable (table : Vector PageInfo 1000) (i : Nat) : List (BitVec 64 × BitVec 64) →
    Vector PageInfo 1000
  | [] => table
  | entry :: rest => writeTable (table.setIfInBounds i ⟨entry.1, entry.2⟩) (i + 1) rest

theorem writeTable_before (table : Vector PageInfo 1000) (i : Nat)
    (entries : List (BitVec 64 × BitVec 64)) (j : Nat) (before : j < i) :
    (writeTable table i entries)[j]? = table[j]? := by
  induction entries generalizing table i with
  | nil => rfl
  | cons entry rest ih =>
      rw [writeTable, ih _ _ (by omega), Vector.getElem?_setIfInBounds_ne (by omega)]

theorem writeTable_at (table : Vector PageInfo 1000) (i : Nat)
    (entries : List (BitVec 64 × BitVec 64)) (room : i + entries.length ≤ 1000) (j : Nat)
    (inside : j < entries.length) :
    (writeTable table i entries)[i + j]? =
      some ⟨entries[j].1, entries[j].2⟩ := by
  induction entries generalizing table i j with
  | nil => simp at inside
  | cons entry rest ih =>
      rw [List.length_cons] at room inside
      cases j with
      | zero =>
          rw [writeTable, Nat.add_zero, writeTable_before _ _ _ _ (by omega)]
          simp [show i < 1000 by omega]
      | succ j =>
          rw [writeTable, show i + (j + 1) = i + 1 + j by omega, ih _ _ (by omega) _ (by omega)]
          rfl

/-- The state after hiding `pages`, the first of them saved in `pinfo[i]`. -/
def hide (kernel : Kernel) (pgd : BitVec 64) (pages : List (BitVec 64)) (i : Nat)
    (s : LimitState) : LimitState where
  memory := patchAll (pteSlot kernel pgd) clearPresent pages s.memory
  pinfo := writeTable s.pinfo i (savedAll (pteSlot kernel pgd) clearPresent pages s.memory)
  index := i + pages.length

/-- The loop condition at round `i`. -/
theorem pageSize_lt_iff {appSize : BitVec 64} {i : Nat} (small : i ≤ 1000) :
    BitVec.ofNat 64 (i * 0x1000) < appSize ↔ i < pageCount appSize := by
  rw [BitVec.lt_def, lt_pageCount_iff, BitVec.toNat_ofNat, Nat.mod_eq_of_lt (by omega)]

theorem laucherLoop_eq {kernel : Kernel} {appBaseaddr tPid appSize pgd : BitVec 64}
    (found : kernel.findPgd tPid = .ok pgd) (fits : pageCount appSize ≤ 1000)
    (n i room : Nat) (s : LimitState) (rounds : i + n = pageCount appSize)
    (table : i + room = 1000) :
    laucherLoop kernel appBaseaddr tPid appSize room (BitVec.ofNat 64 (i * 0x1000)) i s =
      .ok (hide kernel pgd (hiddenFrom kernel appBaseaddr i n) i s) := by
  induction n generalizing i room s with
  | zero =>
      rw [laucherLoop, if_neg (by rw [pageSize_lt_iff (by omega)]; omega)]
      rfl
  | succ n ih =>
      rw [laucherLoop, if_pos (by rw [pageSize_lt_iff (by omega)]; omega), hiddenFrom_succ]
      change (if pageAt appBaseaddr i = kernel.randomDataPage then _ else _) = _
      by_cases stop : pageAt appBaseaddr i = kernel.randomDataPage
      · rw [if_pos stop, if_pos stop]
        rfl
      · rw [if_neg stop, if_neg stop]
        obtain ⟨room, rfl⟩ : ∃ r, room = r + 1 := ⟨room - 1, by omega⟩
        have next : BitVec.ofNat 64 (i * 0x1000) + 0x1000#64 =
            BitVec.ofNat 64 ((i + 1) * 0x1000) := by
          rw [Nat.succ_mul, BitVec.ofNat_add]
        change (nonV2p kernel (pageAt appBaseaddr i) tPid i s >>= _) = _
        rw [nonV2p_eq found _ (by omega)]
        change laucherLoop kernel appBaseaddr tPid appSize room
          (BitVec.ofNat 64 (i * 0x1000) + 0x1000#64) (i + 1) _ = _
        rw [next, ih (i + 1) room _ (by omega) (by omega)]
        simp only [hide, patchAll, savedAll, writeTable, List.length_cons]
        rw [show i + 1 + (hiddenFrom kernel appBaseaddr (i + 1) n).length =
          i + ((hiddenFrom kernel appBaseaddr (i + 1) n).length + 1) by omega]

/-- **Hiding a range.** -/
theorem laucherNonV2p_eq {kernel : Kernel} {tPid pgd : BitVec 64}
    (found : kernel.findPgd tPid = .ok pgd) (appBaseaddr : BitVec 64) {appSize : BitVec 64}
    (fits : appSize.toNat ≤ 1000 * 0x1000) (s : LimitState) :
    laucherNonV2p kernel appBaseaddr tPid appSize s =
      .ok (hide kernel pgd (hiddenPages kernel appBaseaddr appSize) 0 s) := by
  have count : pageCount appSize ≤ 1000 := by
    unfold pageCount
    omega
  exact laucherLoop_eq found count (pageCount appSize) 0 1000 s (by omega) (by omega)

theorem launchLoop_eq {kernel : Kernel} {tPid pgd : BitVec 64}
    (found : kernel.findPgd tPid = .ok pgd) (entries : List (BitVec 64 × BitVec 64)) (i : Nat)
    (s : LimitState)
    (stored : ∀ (j : Nat) (inside : j < entries.length),
      s.pinfo[i + j]? = some ⟨entries[j].1, entries[j].2⟩) :
    launchLoop kernel tPid entries.length i s =
      .ok { s with memory := restoreAll (pteSlot kernel pgd) entries s.memory } := by
  induction entries generalizing i s with
  | nil => rfl
  | cons entry rest ih =>
      have first := stored 0 (by simp)
      simp only [Nat.add_zero, List.getElem_cons_zero] at first
      rw [List.length_cons, launchLoop, first]
      change (enV2p kernel entry.1 tPid entry.2 s >>= _) = _
      rw [enV2p_eq found]
      change launchLoop kernel tPid rest.length (i + 1) _ = _
      rw [ih (i + 1) _ (fun j inside => ?_)]
      · rfl
      · have later := stored (j + 1) (by simpa using inside)
        simpa [show i + (j + 1) = i + 1 + j by omega] using later

theorem hiddenPages_length (kernel : Kernel) (appBaseaddr appSize : BitVec 64) :
    (hiddenPages kernel appBaseaddr appSize).length ≤ pageCount appSize := by
  have := (List.takeWhile_sublist (fun vaddr => decide (vaddr ≠ kernel.randomDataPage))
    (l := (List.range' 0 (pageCount appSize)).map (pageAt appBaseaddr))).length_le
  simpa [hiddenPages, hiddenFrom] using this

/-- **Restoring after hiding**, from the state hiding left. -/
theorem launchEnV2p_hide {kernel : Kernel} {tPid pgd : BitVec 64}
    (found : kernel.findPgd tPid = .ok pgd) (pages : List (BitVec 64)) (s : LimitState)
    (room : pages.length ≤ 1000)
    (distinct : (pages.map (pteSlot kernel pgd s.memory)).Nodup) :
    launchEnV2p kernel tPid (hide kernel pgd pages 0 s) =
      .ok { hide kernel pgd pages 0 s with memory := s.memory } := by
  have entries : (savedAll (pteSlot kernel pgd) clearPresent pages s.memory).length =
      pages.length := savedAll_length pages s.memory
  have count : (hide kernel pgd pages 0 s).index =
      (savedAll (pteSlot kernel pgd) clearPresent pages s.memory).length := by
    rw [entries]
    exact Nat.zero_add _
  rw [launchEnV2p, count, launchLoop_eq found]
  · change Except.ok { hide kernel pgd pages 0 s with
        memory := restoreAll (pteSlot kernel pgd)
          (savedAll (pteSlot kernel pgd) clearPresent pages s.memory)
          (patchAll (pteSlot kernel pgd) clearPresent pages s.memory) } = _
    rw [restoreAll_patchAll (pteSlot_observes kernel pgd) clearPresent_invisible _ _ distinct]
  · intro j inside
    exact writeTable_at s.pinfo 0 _ (by omega) j inside

/-- What a call brings along: a live process, at most 1000 pages, and pairwise
different PTEs in the page tables at hand. -/
structure Ready (kernel : Kernel) (memory : PtMemory) (pi appBaseaddr appSize pgd : BitVec 64) :
    Prop where
  found : kernel.findPgd pi = .ok pgd
  fits : appSize.toNat ≤ 1000 * 0x1000
  distinct : DistinctSlots kernel pgd memory appBaseaddr appSize

/-- The two halves of a call, run one after the other. -/
theorem Ready.halves {kernel : Kernel} {s : LimitState} {pi appBaseaddr appSize pgd : BitVec 64}
    (ready : Ready kernel s.memory pi appBaseaddr appSize pgd) :
    ∃ between after, laucherNonV2p kernel appBaseaddr pi appSize s = .ok between ∧
      launchEnV2p kernel pi between = .ok after ∧ after.memory = s.memory := by
  have room : (hiddenPages kernel appBaseaddr appSize).length ≤ 1000 := by
    have pages := hiddenPages_length kernel appBaseaddr appSize
    have fits := ready.fits
    unfold pageCount at pages
    omega
  exact ⟨hide kernel pgd (hiddenPages kernel appBaseaddr appSize) 0 s, _,
    laucherNonV2p_eq ready.found appBaseaddr ready.fits s,
    launchEnV2p_hide ready.found _ s room ready.distinct.nodup, rfl⟩

/-- **The trampoline restores the page tables exactly.** -/
theorem trampoline_restores (kernel : Kernel) (task : TaskStruct) (mm : MmStruct)
    (pi appBaseaddr appSize : BitVec 64) (s : LimitState)
    (member : task ∈ kernel.tasks) (pid : task.pid.signExtend 64 = pi) (hasMm : task.mm = some mm)
    (fits : appSize.toNat ≤ 1000 * 0x1000)
    (distinct : DistinctSlots kernel mm.pgd s.memory appBaseaddr appSize) :
    ∃ after, trampoline kernel pi appBaseaddr appSize s = .ok after ∧
      ∀ a, after.memory a = s.memory a := by
  have ready : Ready kernel s.memory pi appBaseaddr appSize mm.pgd :=
    ⟨kernel.findPgd_of_mem member pid hasMm, fits, distinct⟩
  obtain ⟨between, after, hidden, restored, same⟩ := ready.halves
  refine ⟨after, ?_, fun a => congrFun same a⟩
  rw [trampoline, hidden]
  exact restored

/-! ## A process with two mapped pages -/

namespace Example

def tables : MmStruct := ⟨0xffff888000001000⟩

/-- One kernel thread and one process, with pid 42. -/
def kernel : Kernel where
  pageOffset := 0xffff888000000000
  tasks := [⟨2, none⟩, ⟨42, some tables⟩]
  pids_nodup := by decide
  randomDataPage := 0xffffffffc0800000

/-- Virtual pages 0 and 1 are mapped to frames 5 and 6. -/
def memory : PtMemory := fun a =>
  if a = 0xffff888000001000 then 0x2067
  else if a = 0xffff888000002000 then 0x3067
  else if a = 0xffff888000003000 then 0x4067
  else if a = 0xffff888000004000 then 0x5067
  else if a = 0xffff888000004008 then 0x6067
  else 0

def state : LimitState := ⟨memory, Vector.replicate 1000 default, 0⟩

theorem distinctSlots : DistinctSlots kernel tables.pgd memory 0 0x2000 := by
  intro j k hj hk different
  have hj : j < 2 := by simp at hj; omega
  have hk : k < 2 := by simp at hk; omega
  interval_cases j <;> interval_cases k <;> first | exact absurd rfl different | decide

theorem two_pages_restored :
    ∃ after, trampoline kernel 42 0 0x2000 state = .ok after ∧
      ∀ a, after.memory a = memory a :=
  trampoline_restores kernel ⟨42, some tables⟩ tables 42 0 0x2000 state (by decide) (by decide)
    rfl (by decide) distinctSlots

end Example

end HyperSmile.Guest.Limit
