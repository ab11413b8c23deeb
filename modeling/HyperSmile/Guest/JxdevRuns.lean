/-
# Guest.JxdevRuns — the device and the page tables over whole histories

`Guest.Jxdev` says which calls of the trampoline a write asks for, `Guest.Limit` what such a call does
to the page tables. Here a write is both: the guest is the device beside the page tables and the
module's table, and a history of writes runs through them.

The arguments reach the trampoline as single bytes. A size below 256 is at most one page and a base
below 256 lies in virtual page 0, so whatever the application writes,

* a call that returns has left the page tables as they were, with no assumption on the page tables
  (`jxdev_history_restores`), and it returns unless it has a page to hide and the process has no `mm`;
* while a call is under way nothing is hidden but virtual page 0 of the process
  (`jxdev_hides_page_zero`).
-/
import HyperSmile.Guest.Jxdev
import HyperSmile.Guest.HideLoop

namespace HyperSmile.Guest.JxdevRuns

open HyperSmile.Guest.Jxdev
open HyperSmile.Guest.Limit
open HyperSmile.Theory.SavedPatch

set_option autoImplicit false

/-! ## The guest -/

structure System where
  dev : Device
  limit : LimitState

/-- What an action does to the page tables. -/
def perform (kernel : Kernel) (s : LimitState) : Action → Except Fault LimitState
  | .trampoline pi appBaseaddr appSize => trampoline kernel pi appBaseaddr appSize s
  | .crcSsa => .ok s
  | .crcAnchor => .ok s
  | .smpCall => .ok s

/-- One `write` on the device. -/
def System.write (kernel : Kernel) (g : System) (w : UserWrite) : Except Fault System := do
  let limit ← (jxdevWrite g.dev w).2.foldlM (perform kernel) g.limit
  return ⟨(jxdevWrite g.dev w).1, limit⟩

/-- A history of writes, one after the other. -/
def System.run (kernel : Kernel) (g : System) (history : List UserWrite) : Except Fault System :=
  history.foldlM (System.write kernel) g

/-- The actions a history asks for, in their order. -/
def requests (dev : Device) : List UserWrite → List Action
  | [] => []
  | w :: history => (jxdevWrite dev w).2 ++ requests (jxdevWrite dev w).1 history

/-! ## A call with byte arguments -/

/-- The trampoline has nothing to hide, or a process to hide it from. -/
def Servable (kernel : Kernel) : Action → Prop
  | .trampoline pi appBaseaddr appSize =>
      appSize = 0 ∨ appBaseaddr = kernel.randomDataPage ∨ ∃ pgd, kernel.findPgd pi = .ok pgd
  | _ => True

/-- The arguments of the trampoline are bytes of `pp`. -/
inductive ByteArguments : Action → Prop where
  | trampoline (pi appBaseaddr appSize : BitVec 8) :
      ByteArguments (.trampoline (pi.setWidth 64) (appBaseaddr.setWidth 64) (appSize.setWidth 64))
  | crcSsa : ByteArguments .crcSsa
  | crcAnchor : ByteArguments .crcAnchor
  | smpCall : ByteArguments .smpCall

theorem requested_bytes (pp : Page) : ∀ a ∈ requested pp, ByteArguments a := by
  intro a member
  rw [requested, jxdevServe] at member
  split_ifs at member
  · obtain rfl := List.mem_singleton.mp member
    exact .trampoline _ _ _
  · obtain rfl := List.mem_singleton.mp member
    exact .crcSsa
  · obtain rfl := List.mem_singleton.mp member
    exact .crcAnchor
  · obtain rfl := List.mem_singleton.mp member
    exact .smpCall
  · cases member

theorem requests_bytes (dev : Device) (history : List UserWrite) :
    ∀ a ∈ requests dev history, ByteArguments a := by
  induction history generalizing dev with
  | nil => intro a member; cases member
  | cons w history ih =>
      intro a member
      rcases List.mem_append.mp member with here | later
      · rw [jxdevWrite_actions] at here
        exact requested_bytes _ a here
      · exact ih _ a later

section OnePage

variable {kernel : Kernel} {pi appBaseaddr appSize : BitVec 64} (s : LimitState)

/-- With no page before its end or before `random_data_page` the loop hides nothing. -/
theorem laucherNonV2p_nothing (nothing : appSize = 0 ∨ appBaseaddr = kernel.randomDataPage) :
    laucherNonV2p kernel appBaseaddr pi appSize s = .ok { s with index := 0 } := by
  rw [laucherNonV2p, laucherLoop]
  split
  · rename_i more
    rcases nothing with rfl | stop
    · exact absurd more (by decide)
    · simp only [add_zero, stop, if_true]
  · rfl

/-- The first turn looks for the process. -/
theorem laucherNonV2p_fault {fault : Fault} (some_ : appSize ≠ 0) (other : appBaseaddr ≠ kernel.randomDataPage)
    (missing : kernel.findPgd pi = .error fault) :
    laucherNonV2p kernel appBaseaddr pi appSize s = .error fault := by
  have more : (0 : BitVec 64) < appSize := by
    rw [BitVec.lt_def]
    exact Nat.pos_of_ne_zero fun zero => some_ (BitVec.eq_of_toNat_eq zero)
  rw [laucherNonV2p, laucherLoop, if_pos more]
  simp only [add_zero, if_neg other, nonV2p, missing]
  rfl

theorem ready_of_small {pgd : BitVec 64} (found : kernel.findPgd pi = .ok pgd) (small : appSize.toNat ≤ 0x1000)
    (memory : PtMemory) : Ready kernel memory pi appBaseaddr appSize pgd where
  found := found
  fits := by omega
  distinct := by
    intro j k inside inside' different
    omega

/-- **A call for at most one page** returns exactly if it is servable, and then the page tables are what
they were. -/
theorem trampoline_small (small : appSize.toNat ≤ 0x1000) :
    (Servable kernel (.trampoline pi appBaseaddr appSize) ∧
      ∃ after, trampoline kernel pi appBaseaddr appSize s = .ok after ∧ after.memory = s.memory) ∨
    (¬ Servable kernel (.trampoline pi appBaseaddr appSize) ∧
      ∃ fault, trampoline kernel pi appBaseaddr appSize s = .error fault) := by
  by_cases nothing : appSize = 0 ∨ appBaseaddr = kernel.randomDataPage
  · left
    refine ⟨or_assoc.mp (Or.inl nothing), { s with index := 0 }, ?_, rfl⟩
    rw [trampoline, laucherNonV2p_nothing s nothing]
    rfl
  obtain ⟨some_, other⟩ := not_or.mp nothing
  cases found : kernel.findPgd pi with
  | ok pgd =>
      left
      obtain ⟨between, after, hidden, restored, same⟩ := (ready_of_small found small s.memory).halves
      refine ⟨Or.inr (Or.inr ⟨pgd, found⟩), after, ?_, same⟩
      rw [trampoline, hidden]
      exact restored
  | error fault =>
      right
      refine ⟨?_, fault, ?_⟩
      · rintro (zero | stop | ⟨pgd, present⟩)
        · exact some_ zero
        · exact other stop
        · rw [found] at present
          cases present
      · rw [trampoline, laucherNonV2p_fault s some_ other found]
        rfl

end OnePage

/-! ## Histories -/

theorem byte_small (b : BitVec 8) : (b.setWidth 64).toNat < 256 := by
  rw [BitVec.toNat_setWidth]
  have := b.isLt
  omega

/-- One action: served, and the page tables kept, or a fault. -/
theorem perform_cases (kernel : Kernel) (s : LimitState) {a : Action} (bytes : ByteArguments a) :
    (Servable kernel a ∧ ∃ after, perform kernel s a = .ok after ∧ after.memory = s.memory) ∨
      (¬ Servable kernel a ∧ ∃ fault, perform kernel s a = .error fault) := by
  cases bytes with
  | trampoline pi appBaseaddr appSize =>
      have := byte_small appSize
      exact trampoline_small s (by omega)
  | crcSsa => exact Or.inl ⟨trivial, s, rfl, rfl⟩
  | crcAnchor => exact Or.inl ⟨trivial, s, rfl, rfl⟩
  | smpCall => exact Or.inl ⟨trivial, s, rfl, rfl⟩

theorem performAll_cases (kernel : Kernel) (s : LimitState) {actions : List Action}
    (bytes : ∀ a ∈ actions, ByteArguments a) :
    ((∀ a ∈ actions, Servable kernel a) ∧
      ∃ after, actions.foldlM (perform kernel) s = .ok after ∧ after.memory = s.memory) ∨
    (¬ (∀ a ∈ actions, Servable kernel a) ∧
      ∃ fault, actions.foldlM (perform kernel) s = .error fault) := by
  induction actions generalizing s with
  | nil => exact Or.inl ⟨by simp, s, rfl, rfl⟩
  | cons a actions ih =>
      rw [List.forall_mem_cons] at bytes ⊢
      rw [List.foldlM_cons]
      rcases perform_cases kernel s bytes.1 with ⟨servable, after, ran, kept⟩ | ⟨unservable, fault, ran⟩
      · rw [ran]
        rcases ih after bytes.2 with ⟨all, last, rest, kept'⟩ | ⟨some_, fault, rest⟩
        · exact Or.inl ⟨⟨servable, all⟩, last, rest, kept'.trans kept⟩
        · exact Or.inr ⟨fun both => some_ both.2, fault, rest⟩
      · refine Or.inr ⟨fun both => unservable both.1, fault, ?_⟩
        rw [ran]
        rfl

theorem run_cases (kernel : Kernel) (g : System) (history : List UserWrite) :
    ((∀ a ∈ requests g.dev history, Servable kernel a) ∧
      ∃ after, g.run kernel history = .ok after ∧ after.limit.memory = g.limit.memory ∧
        after.dev = history.foldl (fun dev w => (jxdevWrite dev w).1) g.dev) ∨
    (¬ (∀ a ∈ requests g.dev history, Servable kernel a) ∧
      ∃ fault, g.run kernel history = .error fault) := by
  induction history generalizing g with
  | nil => exact Or.inl ⟨by simp [requests], g, rfl, rfl, rfl⟩
  | cons w history ih =>
      have bytes : ∀ a ∈ (jxdevWrite g.dev w).2, ByteArguments a := by
        rw [jxdevWrite_actions]
        exact requested_bytes _
      rw [requests, List.forall_mem_append, System.run, List.foldlM_cons, System.write]
      rcases performAll_cases kernel g.limit bytes with ⟨now, limit, ran, kept⟩ | ⟨refused, fault, ran⟩
      · rw [ran]
        rcases ih ⟨(jxdevWrite g.dev w).1, limit⟩ with ⟨later, after, rest, kept', dev⟩ | ⟨refused, fault, rest⟩
        · exact Or.inl ⟨⟨now, later⟩, after, rest, kept'.trans kept, dev⟩
        · exact Or.inr ⟨fun both => refused both.2, fault, rest⟩
      · refine Or.inr ⟨fun both => refused both.1, fault, ?_⟩
        rw [ran]
        rfl

/-- **Every history of writes leaves the page tables as they were**, whatever they are, and ends
exactly if every call of the trampoline it asks for has nothing to hide or a process with an `mm`. -/
theorem jxdev_history_restores (kernel : Kernel) (g : System) (history : List UserWrite) :
    ((∃ after, g.run kernel history = .ok after) ↔ ∀ a ∈ requests g.dev history, Servable kernel a) ∧
      ∀ after, g.run kernel history = .ok after →
        after.limit.memory = g.limit.memory ∧
        after.dev = history.foldl (fun dev w => (jxdevWrite dev w).1) g.dev := by
  rcases run_cases kernel g history with ⟨servable, after, ran, kept, dev⟩ | ⟨unservable, fault, ran⟩
  · refine ⟨⟨fun _ => servable, fun _ => ⟨after, ran⟩⟩, fun other ran' => ?_⟩
    obtain rfl := Except.ok.inj (ran.symm.trans ran')
    exact ⟨kept, dev⟩
  · have none (after : System) : g.run kernel history ≠ .ok after := by
      intro ran'
      rw [ran] at ran'
      cases ran'
    exact ⟨⟨fun ⟨after, ran'⟩ => absurd ran' (none after), fun servable => absurd servable unservable⟩,
      fun after ran' => absurd ran' (none after)⟩

/-! ## What is hidden meanwhile -/

/-- The low twelve bits do not move the walk. -/
theorem pteSlot_byte (kernel : Kernel) (pgd : BitVec 64) (memory : PtMemory) (b : BitVec 8) :
    pteSlot kernel pgd memory (b.setWidth 64) = pteSlot kernel pgd memory 0 := by
  have shifted {n : Nat} (low : 8 ≤ n) : b.setWidth 64 >>> n = 0#64 >>> n := by
    refine BitVec.eq_of_getLsbD_eq fun i _ => ?_
    rw [BitVec.getLsbD_ushiftRight, BitVec.getLsbD_ushiftRight, BitVec.getLsbD_setWidth,
      BitVec.getLsbD_of_ge b _ (by omega), Bool.and_false, BitVec.getLsbD_zero]
  have entry {n : Nat} (low : 8 ≤ n) (table : BitVec 64) :
      tableEntry table (b.setWidth 64) n = tableEntry table 0 n := by
    rw [tableEntry, shifted low]
    rfl
  simp only [pteSlot, entry (by decide : 8 ≤ 39), entry (by decide : 8 ≤ 30), entry (by decide : 8 ≤ 21),
    entry (by decide : 8 ≤ 12)]

/-- A page that is hidden for a request of bytes has the PTE of page 0. -/
theorem pteSlot_hidden {kernel : Kernel} (pgd : BitVec 64) (memory : PtMemory) {baseByte sizeByte : BitVec 8}
    {vaddr : BitVec 64} (member : vaddr ∈ hiddenPages kernel (baseByte.setWidth 64) (sizeByte.setWidth 64)) :
    pteSlot kernel pgd memory vaddr = pteSlot kernel pgd memory 0 := by
  have small := byte_small sizeByte
  have page := (List.takeWhile_sublist _).subset member
  obtain ⟨k, below, rfl⟩ := List.mem_map.mp page
  rw [List.mem_range'_1, pageCount] at below
  obtain rfl : k = 0 := by omega
  rw [← pteSlot_byte kernel pgd memory baseByte]
  simp [pageAt]

/-- **The device hides virtual page 0 and nothing else.**  In the middle of any call of the trampoline
that any history asks for, the one word of the page tables that may differ is the PTE of page 0 of the
process, and it differs in its present bit. -/
theorem jxdev_hides_page_zero (kernel : Kernel) (dev : Device) (history : List UserWrite)
    (pi appBaseaddr appSize : BitVec 64)
    (asked : .trampoline pi appBaseaddr appSize ∈ requests dev history) (s between : LimitState)
    (hidden : laucherNonV2p kernel appBaseaddr pi appSize s = .ok between) (a : BitVec 64)
    (changed : between.memory a ≠ s.memory a) :
    ∃ pgd, kernel.findPgd pi = .ok pgd ∧ a = pteAddress kernel pgd s.memory 0 ∧
      between.memory a = clearPresent (s.memory a) := by
  have bytes := requests_bytes dev history _ asked
  generalize action : Action.trampoline pi appBaseaddr appSize = request at bytes
  cases bytes with
  | crcSsa => cases action
  | crcAnchor => cases action
  | smpCall => cases action
  | trampoline piByte baseByte sizeByte =>
      obtain ⟨rfl, rfl, rfl⟩ := Action.trampoline.inj action
      by_cases nothing : sizeByte.setWidth 64 = 0 ∨ baseByte.setWidth 64 = kernel.randomDataPage
      · rw [laucherNonV2p_nothing s nothing] at hidden
        obtain rfl := Except.ok.inj hidden
        exact absurd rfl changed
      obtain ⟨some_, other⟩ := not_or.mp nothing
      cases found : kernel.findPgd (piByte.setWidth 64) with
      | error fault =>
          rw [laucherNonV2p_fault s some_ other found] at hidden
          cases hidden
      | ok pgd =>
          have small := byte_small sizeByte
          have ready : Ready kernel s.memory (piByte.setWidth 64) (baseByte.setWidth 64) (sizeByte.setWidth 64)
              pgd := ready_of_small found (by omega) s.memory
          rw [laucherNonV2p_eq found _ ready.fits] at hidden
          obtain rfl := Except.ok.inj hidden
          have value := patchAll_apply (pteSlot_observes kernel pgd) clearPresent_invisible _ s.memory
            ready.distinct.nodup a
          have slot : a ∈ (hiddenPages kernel (baseByte.setWidth 64) (sizeByte.setWidth 64)).map
              (pteSlot kernel pgd s.memory) := by
            by_contra outside
            exact changed (value.trans (if_neg outside))
          rw [if_pos slot] at value
          obtain ⟨vaddr, member, rfl⟩ := List.mem_map.mp slot
          have zero := pteSlot_hidden pgd s.memory member
          exact ⟨pgd, rfl, zero.trans (pteSlot_eq kernel pgd s.memory 0), value⟩

namespace Example

open HyperSmile.Guest.Limit.Example (kernel tables memory state)

/-- One page at base 5 of the process with pid 42. -/
def hidePage : Page := fun i =>
  if i.val = 700 then 0xcc
  else if i.val = 0 then 5
  else if i.val = 2 then 1
  else if i.val = 3 then 42
  else 0

def guest : System := ⟨.load, state⟩

theorem hidePage_requests : requests .load [.page hidePage] = [.trampoline 42 5 1] := by decide

theorem one_page_restored : ∃ after, guest.run kernel [.page hidePage] = .ok after ∧ after.limit.memory = memory := by
  obtain ⟨ends, kept⟩ := jxdev_history_restores kernel guest [.page hidePage]
  obtain ⟨after, ran⟩ := ends.mpr (by
    intro a member
    obtain rfl := List.mem_singleton.mp (hidePage_requests ▸ member)
    exact Or.inr (Or.inr ⟨tables.pgd, rfl⟩))
  exact ⟨after, ran, (kept after ran).1⟩

/-- Base 5 lies in page 0, which is hidden. -/
theorem page_zero_hidden :
    ∃ between, laucherNonV2p kernel 5 42 1 state = .ok between ∧ between.memory 0xffff888000004000 = 0x5066 := by
  refine ⟨_, rfl, ?_⟩
  obtain ⟨pgd, -, -, value⟩ := jxdev_hides_page_zero kernel .load [.page hidePage] 42 5 1
    (by rw [hidePage_requests]; exact List.mem_singleton_self _) state _ rfl 0xffff888000004000 (by decide +kernel)
  exact value

end Example

end HyperSmile.Guest.JxdevRuns
