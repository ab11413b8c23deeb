/-
# Guest.HideLoop — what laucher_non_v2p hides, and where its loop ends

Within its table the loop hides exactly the pages asked for (`laucherNonV2p_hides`): the PTE of
each, as `Guest.PageWalk` finds it, loses its present bit and nothing else, `pinfo` has what it held,
and no other word changes.

The table has 1000 entries, and nothing compares `app_size` with it. The loop's control needs only
`page_size` and `i` (`LoopHead`): it ends before entry 1000 exactly if the range has at most 1000
pages or `random_data_page` is one of its first 1001 (`hide_loop_inside_iff`). Otherwise it writes
`pinfo[1000]`. By its condition alone it does not even end for an `app_size` within a page of 2^64,
since `page_size` wraps to zero (`loopEnds_iff`).
-/
import HyperSmile.Guest.PageWalk
import HyperSmile.Guest.Trampoline
import Mathlib.Data.List.TakeWhile
import Mathlib.Tactic.IntervalCases

namespace HyperSmile.Guest.Limit

open HyperSmile.Theory.SavedPatch

set_option autoImplicit false

/-! ## Hiding inside the table -/

/-- With `random_data_page` elsewhere, every page of the range is hidden. -/
theorem hiddenPages_eq {kernel : Kernel} {appBaseaddr appSize : BitVec 64}
    (away : ∀ k : Nat, k * 0x1000 < appSize.toNat → pageAt appBaseaddr k ≠ kernel.randomDataPage) :
    hiddenPages kernel appBaseaddr appSize =
      (List.range (pageCount appSize)).map (pageAt appBaseaddr) := by
  rw [hiddenPages, hiddenFrom, ← List.range_eq_range']
  refine List.takeWhile_eq_self_iff.mpr fun vaddr member => ?_
  obtain ⟨k, inside, rfl⟩ := List.mem_map.mp member
  simpa using away k ((lt_pageCount_iff appSize k).mp (List.mem_range.mp inside))

/-- The places of the first `n` pages of a range. -/
theorem mem_slots_iff (slot : BitVec 64 → BitVec 64) (appBaseaddr : BitVec 64) (n : Nat) (a : BitVec 64) :
    a ∈ ((List.range n).map (pageAt appBaseaddr)).map slot ↔ ∃ k < n, a = slot (pageAt appBaseaddr k) := by
  rw [List.map_map, List.mem_map]
  constructor
  · rintro ⟨k, inside, rfl⟩
    exact ⟨k, List.mem_range.mp inside, rfl⟩
  · rintro ⟨k, inside, rfl⟩
    exact ⟨k, List.mem_range.mpr inside, rfl⟩

theorem DistinctPtes.slots {kernel : Kernel} {pgd : BitVec 64} {memory : PtMemory}
    {appBaseaddr appSize : BitVec 64} (distinct : DistinctPtes kernel pgd memory appBaseaddr appSize) :
    DistinctSlots kernel pgd memory appBaseaddr appSize := by
  intro j k hj hk different
  rw [pteSlot_eq, pteSlot_eq]
  exact distinct j k hj hk different

theorem getLsbD_clearPresent (pte : BitVec 64) (b : Nat) :
    (clearPresent pte).getLsbD b = if b = 0 then false else pte.getLsbD b := by
  have mask : 0xfffffffffffffffe#64 = ~~~1#64 := rfl
  rw [clearPresent, mask, BitVec.getLsbD_and, BitVec.getLsbD_not, BitVec.getLsbD_one]
  by_cases inside : b < 64
  · by_cases first : b = 0 <;> simp [inside, first]
  · rw [BitVec.getLsbD_of_ge pte b (by omega)]
    simp

section Hidden

variable {kernel : Kernel} {pgd : BitVec 64} {pages : List (BitVec 64)} {s : LimitState}
  (nodup : (pages.map (pteSlot kernel pgd s.memory)).Nodup)
include nodup

/-- Hiding pages clears the present bit in their PTEs and leaves every other word. -/
theorem hide_memory (i : Nat) (a : BitVec 64) :
    (hide kernel pgd pages i s).memory a =
      if a ∈ pages.map (pteSlot kernel pgd s.memory) then clearPresent (s.memory a) else s.memory a :=
  patchAll_apply (pteSlot_observes kernel pgd) clearPresent_invisible pages s.memory nodup a

/-- Hiding pages notes each of them, with the PTE it had before. -/
theorem hide_pinfo (room : pages.length ≤ 1000) {k : Nat} (inside : k < pages.length) :
    (hide kernel pgd pages 0 s).pinfo[k]? =
      some ⟨pages[k], s.memory (pteSlot kernel pgd s.memory pages[k])⟩ := by
  have saved := savedAll_eq (pteSlot_observes kernel pgd) clearPresent_invisible pages s.memory nodup
  have length : (savedAll (pteSlot kernel pgd) clearPresent pages s.memory).length = pages.length :=
    savedAll_length pages s.memory
  have entry := writeTable_at s.pinfo 0 (savedAll (pteSlot kernel pgd) clearPresent pages s.memory)
    (by omega) k (by omega)
  rw [Nat.zero_add] at entry
  refine entry.trans ?_
  simp only [saved, List.getElem_map]

end Hidden

/-- **`laucher_non_v2p` hides exactly the pages of the range.** -/
theorem laucherNonV2p_hides (kernel : Kernel) (task : TaskStruct) (mm : MmStruct)
    (pi appBaseaddr appSize : BitVec 64) (s : LimitState)
    (member : task ∈ kernel.tasks) (pid : task.pid.signExtend 64 = pi) (hasMm : task.mm = some mm)
    (fits : appSize.toNat ≤ 1000 * 0x1000)
    (distinct : DistinctPtes kernel mm.pgd s.memory appBaseaddr appSize)
    (away : ∀ k : Nat, k * 0x1000 < appSize.toNat →
      appBaseaddr + BitVec.ofNat 64 (k * 0x1000) ≠ kernel.randomDataPage) :
    let slot (k : Nat) := pteAddress kernel mm.pgd s.memory (appBaseaddr + BitVec.ofNat 64 (k * 0x1000))
    ∃ after, laucherNonV2p kernel appBaseaddr pi appSize s = .ok after ∧
      after.index = (appSize.toNat + 0xfff) / 0x1000 ∧
      (∀ k < after.index,
        after.pinfo[k]? = some ⟨appBaseaddr + BitVec.ofNat 64 (k * 0x1000), s.memory (slot k)⟩ ∧
        (after.memory (slot k)).getLsbD 0 = false ∧
        ∀ b, 0 < b → (after.memory (slot k)).getLsbD b = (s.memory (slot k)).getLsbD b) ∧
      ∀ a, (∀ k < after.index, a ≠ slot k) → after.memory a = s.memory a := by
  intro slot
  have found := kernel.findPgd_of_mem member pid hasMm
  have pages := hiddenPages_eq away
  have nodup := distinct.slots.nodup
  have slotEq (k : Nat) : slot k = pteSlot kernel mm.pgd s.memory (pageAt appBaseaddr k) :=
    (pteSlot_eq kernel mm.pgd s.memory (pageAt appBaseaddr k)).symm
  have count : pageCount appSize ≤ 1000 := by
    unfold pageCount
    omega
  rw [pages] at nodup
  let keys := (List.range (pageCount appSize)).map (pageAt appBaseaddr)
  have length : keys.length = pageCount appSize := by rw [List.length_map, List.length_range]
  have slots (a : BitVec 64) := mem_slots_iff (pteSlot kernel mm.pgd s.memory) appBaseaddr (pageCount appSize) a
  have index : (hide kernel mm.pgd keys 0 s).index = pageCount appSize := by
    rw [hide, Nat.zero_add, length]
  refine ⟨hide kernel mm.pgd keys 0 s, ?_, ?_, ?_, ?_⟩
  · rw [laucherNonV2p_eq found appBaseaddr fits, pages]
  · rw [index, pageCount]
  · intro k inside
    rw [index] at inside
    have value : (hide kernel mm.pgd keys 0 s).memory (slot k) = clearPresent (s.memory (slot k)) := by
      rw [hide_memory nodup, if_pos ((slots _).mpr ⟨k, inside, slotEq k⟩)]
    refine ⟨?_, ?_, ?_⟩
    · have page : keys[k]? = some (pageAt appBaseaddr k) := by
        rw [List.getElem?_map, List.getElem?_range inside]
        rfl
      rw [hide_pinfo nodup (length.le.trans count) (by omega : k < keys.length)]
      rw [List.getElem?_eq_getElem (by omega), Option.some.injEq] at page
      rw [page, slotEq]
      rfl
    · rw [value, getLsbD_clearPresent, if_pos rfl]
    · intro b positive
      rw [value, getLsbD_clearPresent, if_neg (by omega)]
  · intro a apart
    rw [hide_memory nodup, if_neg]
    intro member
    obtain ⟨k, inside, here⟩ := (slots a).mp member
    exact apart k (by omega) (here.trans (slotEq k).symm)

/-! ## Where the loop ends -/

/-- `page_size` and `i` at the head of the loop. -/
structure LoopHead where
  pageSize : BitVec 64
  i : Nat

/-- `page_size = page_size + 0x1000` and `i++` -/
def LoopHead.next (head : LoopHead) : LoopHead := ⟨head.pageSize + 0x1000, head.i + 1⟩

/-- The head of round `n`. -/
def headAt (n : Nat) : LoopHead := LoopHead.next^[n] ⟨0, 0⟩

section Control

variable (kernel : Kernel) (appBaseaddr appSize : BitVec 64)

/-- Neither the condition nor the `break` ends the loop here. -/
def LoopHead.GoesOn (head : LoopHead) : Prop :=
  head.pageSize < appSize ∧ appBaseaddr + head.pageSize ≠ kernel.randomDataPage

/-- The loop terminates. -/
def LoopEnds : Prop := ∃ n, ¬ (headAt n).GoesOn kernel appBaseaddr appSize

/-- The loop comes to write `pinfo[i]`. -/
def WritesEntry (i : Nat) : Prop :=
  ∃ n, (headAt n).i = i ∧ ∀ m ≤ n, (headAt m).GoesOn kernel appBaseaddr appSize

/-- The ranges whose loop ends inside the table. -/
def EndsInside : Prop :=
  appSize.toNat ≤ 1000 * 0x1000 ∨ ∃ k ≤ 1000, pageAt appBaseaddr k = kernel.randomDataPage

end Control

theorem headAt_eq (n : Nat) : headAt n = ⟨BitVec.ofNat 64 (n * 0x1000), n⟩ := by
  induction n with
  | zero => rfl
  | succ n ih =>
      have next : BitVec.ofNat 64 ((n + 1) * 0x1000) = BitVec.ofNat 64 (n * 0x1000) + 0x1000#64 := by
        rw [Nat.succ_mul, BitVec.ofNat_add]
      rw [headAt, Function.iterate_succ_apply', ← headAt, ih, next]
      rfl

section Control

variable {kernel : Kernel} {appBaseaddr appSize : BitVec 64}

theorem goesOn_iff {n : Nat} (small : n ≤ 1000) :
    (headAt n).GoesOn kernel appBaseaddr appSize ↔
      n * 0x1000 < appSize.toNat ∧ pageAt appBaseaddr n ≠ kernel.randomDataPage := by
  rw [headAt_eq, LoopHead.GoesOn, BitVec.lt_def, BitVec.toNat_ofNat, Nat.mod_eq_of_lt (by omega)]
  rfl

/-- The condition is never false for the last 4095 sizes. -/
theorem loopEnds_iff :
    LoopEnds kernel appBaseaddr appSize ↔
      appSize.toNat ≤ 2 ^ 64 - 0x1000 ∨ ∃ k, pageAt appBaseaddr k = kernel.randomDataPage := by
  have size (n : Nat) : (BitVec.ofNat 64 (n * 0x1000)).toNat = n % 2 ^ 52 * 0x1000 := by
    rw [BitVec.toNat_ofNat]
    omega
  constructor
  · rintro ⟨n, stops⟩
    rw [headAt_eq, LoopHead.GoesOn, BitVec.lt_def, size] at stops
    by_cases here : pageAt appBaseaddr n = kernel.randomDataPage
    · exact Or.inr ⟨n, here⟩
    · left
      by_contra large
      exact stops ⟨by omega, here⟩
  · rintro (small | ⟨k, here⟩)
    · refine ⟨2 ^ 52 - 1, ?_⟩
      rw [headAt_eq, LoopHead.GoesOn, BitVec.lt_def, size]
      rintro ⟨below, _⟩
      omega
    · refine ⟨k, ?_⟩
      rw [headAt_eq]
      rintro ⟨_, elsewhere⟩
      exact elsewhere here

/-- The loop leaves the table, or stops at one of its first 1001 heads. -/
theorem endsInside_iff :
    EndsInside kernel appBaseaddr appSize ↔
      ∃ n ≤ 1000, ¬ (headAt n).GoesOn kernel appBaseaddr appSize := by
  constructor
  · rintro (few | ⟨k, inside, here⟩)
    · refine ⟨1000, le_refl _, ?_⟩
      rw [goesOn_iff (le_refl _)]
      rintro ⟨below, _⟩
      omega
    · refine ⟨k, inside, ?_⟩
      rw [goesOn_iff inside]
      rintro ⟨_, elsewhere⟩
      exact elsewhere here
  · rintro ⟨n, inside, stops⟩
    rw [goesOn_iff inside] at stops
    by_cases here : pageAt appBaseaddr n = kernel.randomDataPage
    · exact Or.inr ⟨n, inside, here⟩
    · left
      by_contra many
      exact stops ⟨by omega, here⟩

/-- A loop that leaves the table goes on at every head of it. -/
theorem goesOn_of_outside (outside : ¬ EndsInside kernel appBaseaddr appSize) {m : Nat} (small : m ≤ 1000) :
    (headAt m).GoesOn kernel appBaseaddr appSize := by
  rw [endsInside_iff] at outside
  by_contra stops
  exact outside ⟨m, small, stops⟩

/-- The control alone: the loop ends and writes inside the table. -/
theorem loop_inside_iff :
    (LoopEnds kernel appBaseaddr appSize ∧ ∀ i, WritesEntry kernel appBaseaddr appSize i → i < 1000) ↔
      EndsInside kernel appBaseaddr appSize := by
  constructor
  · rintro ⟨_, inside⟩
    by_contra outside
    have index : (headAt 1000).i = 1000 := by rw [headAt_eq]
    have written : WritesEntry kernel appBaseaddr appSize 1000 :=
      ⟨1000, index, fun m small => goesOn_of_outside outside small⟩
    exact absurd (inside 1000 written) (Nat.lt_irrefl 1000)
  · intro within
    obtain ⟨n, small, stops⟩ := endsInside_iff.mp within
    refine ⟨⟨n, stops⟩, ?_⟩
    rintro i ⟨m, index, all⟩
    rw [headAt_eq] at index
    obtain rfl : m = i := index
    by_contra beyond
    exact stops (all n (by omega))

/-! ### The same loop with its effects -/

/-- A head where the loop stops. -/
theorem laucherLoop_stop (tPid : BitVec 64) {i : Nat} (room : Nat) (s : LimitState)
    (stops : ¬ (headAt i).GoesOn kernel appBaseaddr appSize) :
    laucherLoop kernel appBaseaddr tPid appSize room (BitVec.ofNat 64 (i * 0x1000)) i s =
      .ok { s with index := i } := by
  rw [headAt_eq, LoopHead.GoesOn] at stops
  rw [laucherLoop]
  by_cases inside : BitVec.ofNat 64 (i * 0x1000) < appSize
  · have here : appBaseaddr + BitVec.ofNat 64 (i * 0x1000) = kernel.randomDataPage := by
      by_contra elsewhere
      exact stops ⟨inside, elsewhere⟩
    rw [if_pos inside]
    exact if_pos here
  · rw [if_neg inside]

variable {tPid pgd : BitVec 64} (found : kernel.findPgd tPid = .ok pgd)
include found

/-- A head where it goes on, with room in the table. -/
theorem laucherLoop_turn {i : Nat} (inside : i < 1000) (room : Nat) (s : LimitState)
    (goesOn : (headAt i).GoesOn kernel appBaseaddr appSize) :
    ∃ s', laucherLoop kernel appBaseaddr tPid appSize (room + 1) (BitVec.ofNat 64 (i * 0x1000)) i s =
      laucherLoop kernel appBaseaddr tPid appSize room (BitVec.ofNat 64 ((i + 1) * 0x1000)) (i + 1) s' := by
  rw [headAt_eq] at goesOn
  have next : BitVec.ofNat 64 (i * 0x1000) + 0x1000#64 = BitVec.ofNat 64 ((i + 1) * 0x1000) := by
    rw [Nat.succ_mul, BitVec.ofNat_add]
  obtain ⟨s', walk⟩ : ∃ s', nonV2p kernel (appBaseaddr + BitVec.ofNat 64 (i * 0x1000)) tPid i s = .ok s' :=
    ⟨_, nonV2p_eq found _ inside s⟩
  refine ⟨s', ?_⟩
  rw [laucherLoop, if_pos goesOn.1, ← next]
  show (if appBaseaddr + BitVec.ofNat 64 (i * 0x1000) = kernel.randomDataPage then _ else _) = _
  rw [if_neg goesOn.2, walk]
  rfl

/-- A head where it goes on, behind the table. -/
theorem laucherLoop_behind {s : LimitState} (goesOn : (headAt 1000).GoesOn kernel appBaseaddr appSize) :
    laucherLoop kernel appBaseaddr tPid appSize 0 (BitVec.ofNat 64 (1000 * 0x1000)) 1000 s =
      .error (.pinfoOverrun 1000) := by
  rw [headAt_eq] at goesOn
  rw [laucherLoop, if_pos goesOn.1]
  show (if appBaseaddr + BitVec.ofNat 64 (1000 * 0x1000) = kernel.randomDataPage then _ else _) = _
  rw [if_neg goesOn.2, nonV2p, found]
  rfl

/-- A loop that stops at a head of the table ends, with `index` inside the table. -/
theorem laucherLoop_inside {n i room : Nat} {s : LimitState} (table : i + room = 1000) (reached : i ≤ n)
    (small : n ≤ 1000) (stops : ¬ (headAt n).GoesOn kernel appBaseaddr appSize) :
    ∃ after, laucherLoop kernel appBaseaddr tPid appSize room (BitVec.ofNat 64 (i * 0x1000)) i s =
      .ok after ∧ after.index ≤ 1000 := by
  induction room generalizing i s with
  | zero =>
      obtain rfl : n = i := by omega
      exact ⟨_, laucherLoop_stop tPid 0 s stops, small⟩
  | succ room ih =>
      by_cases goesOn : (headAt i).GoesOn kernel appBaseaddr appSize
      · obtain ⟨s', turn⟩ := laucherLoop_turn found (by omega) room s goesOn
        have later : i ≠ n := by
          rintro rfl
          exact stops goesOn
        rw [turn]
        exact ih (by omega) (by omega)
      · exact ⟨_, laucherLoop_stop tPid (room + 1) s goesOn, by show i ≤ 1000; omega⟩

/-- A loop that goes on at every head of the table faults. -/
theorem laucherLoop_overrun {i room : Nat} {s : LimitState} (table : i + room = 1000)
    (all : ∀ m ≤ 1000, (headAt m).GoesOn kernel appBaseaddr appSize) :
    laucherLoop kernel appBaseaddr tPid appSize room (BitVec.ofNat 64 (i * 0x1000)) i s =
      .error (.pinfoOverrun 1000) := by
  induction room generalizing i s with
  | zero =>
      obtain rfl : i = 1000 := by omega
      exact laucherLoop_behind found (all 1000 (le_refl _))
  | succ room ih =>
      obtain ⟨s', turn⟩ := laucherLoop_turn found (by omega) room s (all i (by omega))
      rw [turn]
      exact ih (by omega)

/-- Entries inside the table are written back without a fault. -/
theorem launchLoop_inside {n i : Nat} {s : LimitState} (inside : i + n ≤ 1000) :
    ∃ after, launchLoop kernel tPid n i s = .ok after := by
  induction n generalizing i s with
  | zero => exact ⟨s, rfl⟩
  | succ n ih =>
      have here : i < 1000 := by omega
      rw [launchLoop, Vector.getElem?_eq_getElem here]
      show ∃ after, (enV2p kernel _ tPid _ s >>= _) = .ok after
      rw [enV2p_eq found]
      exact ih (by omega)

/-- A call that leaves the table faults there. -/
theorem trampoline_overrun (s : LimitState) (outside : ¬ EndsInside kernel appBaseaddr appSize) :
    trampoline kernel tPid appBaseaddr appSize s = .error (.pinfoOverrun 1000) := by
  have fault := laucherLoop_overrun found (Nat.zero_add 1000) (fun m => goesOn_of_outside outside) (s := s)
  rw [trampoline, laucherNonV2p]
  exact congrArg (· >>= launchEnV2p kernel tPid) fault

/-- A call that stays inside ends, and its second loop reads inside the table. -/
theorem trampoline_inside (s : LimitState) (inside : EndsInside kernel appBaseaddr appSize) :
    ∃ after, trampoline kernel tPid appBaseaddr appSize s = .ok after := by
  obtain ⟨n, small, stops⟩ := endsInside_iff.mp inside
  obtain ⟨between, hidden, room⟩ := laucherLoop_inside found (Nat.zero_add 1000) (Nat.zero_le n) small stops
    (s := s)
  obtain ⟨after, restored⟩ := launchLoop_inside found (s := between) (by omega : 0 + between.index ≤ 1000)
  refine ⟨after, ?_⟩
  rw [trampoline, laucherNonV2p]
  exact (congrArg (· >>= launchEnV2p kernel tPid) hidden).trans restored

end Control

/-- **When the hide loop ends inside its table**, by its control alone and as part of a whole call. -/
theorem hide_loop_inside_iff (kernel : Kernel) (appBaseaddr appSize : BitVec 64) :
    ((LoopEnds kernel appBaseaddr appSize ∧ ∀ i, WritesEntry kernel appBaseaddr appSize i → i < 1000) ↔
      EndsInside kernel appBaseaddr appSize) ∧
    ∀ (pi pgd : BitVec 64) (s : LimitState), kernel.findPgd pi = .ok pgd →
      ((∃ after, trampoline kernel pi appBaseaddr appSize s = .ok after) ↔
        EndsInside kernel appBaseaddr appSize) := by
  refine ⟨loop_inside_iff, fun pi pgd s found => ⟨?_, trampoline_inside found s⟩⟩
  rintro ⟨after, ended⟩
  by_contra outside
  rw [trampoline_overrun found s outside] at ended
  cases ended

namespace Example

theorem away (k : Nat) (small : k ≤ 1000) : pageAt 0 k ≠ kernel.randomDataPage := by
  intro same
  have value := congrArg BitVec.toNat same
  have place : (pageAt 0 k).toNat = k * 0x1000 := by
    rw [pageAt, BitVec.toNat_add, BitVec.toNat_ofNat, show (0 : BitVec 64).toNat = 0 from rfl]
    omega
  have target : kernel.randomDataPage.toNat = 0xffffffffc0800000 := rfl
  omega

theorem distinctPtes : DistinctPtes kernel tables.pgd memory 0 0x2000 := by
  intro j k hj hk different
  have size : (0x2000 : BitVec 64).toNat = 0x2000 := rfl
  have hj : j < 2 := by omega
  have hk : k < 2 := by omega
  interval_cases j <;> interval_cases k <;> first | exact absurd rfl different | decide

/-- Both pages of the process are hidden; the second PTE was 0x6067, and the entry behind it is not touched. -/
theorem two_pages_hidden :
    ∃ after, laucherNonV2p kernel 0 42 0x2000 state = .ok after ∧ after.index = 2 ∧
      after.pinfo[1]? = some ⟨0x1000, 0x6067⟩ ∧ (after.memory 0xffff888000004008).getLsbD 0 = false ∧
      after.memory 0xffff888000004010 = 0 := by
  have size : (0x2000 : BitVec 64).toNat = 0x2000 := rfl
  obtain ⟨after, ran, index, hidden, others⟩ := laucherNonV2p_hides kernel ⟨42, some tables⟩ tables 42 0 0x2000
    state (by decide) (by decide) rfl (by decide) distinctPtes (fun k inside => away k (by omega))
  have two : after.index = 2 := index
  have slot : pteAddress kernel tables.pgd state.memory (0 + BitVec.ofNat 64 (1 * 0x1000)) = 0xffff888000004008 := by
    decide
  obtain ⟨noted, present, _⟩ := hidden 1 (by omega)
  simp only [slot] at noted present
  refine ⟨after, ran, two, noted, present, others _ fun k inside => ?_⟩
  rw [two] at inside
  interval_cases k <;> decide

/-- A range of 1000 pages is hidden and brought back. -/
theorem full_table : ∃ after, trampoline kernel 42 0 0x3e8000 state = .ok after :=
  ((hide_loop_inside_iff kernel 0 0x3e8000).2 42 tables.pgd state rfl).mpr (Or.inl (by decide))

/-- A range of 1001 pages is written one entry too far. -/
theorem table_overrun :
    WritesEntry kernel 0 0x3e9000 1000 ∧
      trampoline kernel 42 0 0x3e9000 state = .error (.pinfoOverrun 1000) := by
  have large : (0x3e9000 : BitVec 64).toNat = 0x3e9000 := rfl
  have found : kernel.findPgd 42 = .ok tables.pgd := rfl
  have outside : ¬ EndsInside kernel 0 0x3e9000 := by
    rintro (few | ⟨k, small, here⟩)
    · omega
    · exact away k small here
  refine ⟨⟨1000, by rw [headAt_eq], ?_⟩, trampoline_overrun found state outside⟩
  intro m small
  rw [goesOn_iff small]
  exact ⟨by omega, away m small⟩

end Example

end HyperSmile.Guest.Limit
