/-
# Anchor.CommandLoop — the monitor commands the anchor through one word

After the two measurements the anchor polls the word at `(%r9)`: `lock xadd` brings
it into rcx, a low byte of odd parity sends control to `worker`, anything else is a
count of dwords to copy. The monitor writes the word whenever it likes, that is
between any two steps of the anchor, and between any two dwords of a copy.

rcx is 0 at every `lock xadd`, so the exchange adds nothing to the word: the command
stays where it is, and the anchor executes it again at every poll until the monitor
replaces it. The total is therefore counted by polls, not by commands
(`executed_per_poll`); `repeated_command` is a run in which one command of three
dwords copies six. It is the monitor that ends a command, by setting the word to 0.

A command is recorded with the number of polls that read it. Both numbers are
observations: no step depends on them, but for the monitor's own rule to post only
after the previous command was read.
-/
import HyperSmile.Anchor.Measure

namespace HyperSmile.Anchor.CommandLoop

open HyperSmile.Anchor.Machine
open HyperSmile.Anchor.Measure
open HyperSmile.Theory.Runs

set_option autoImplicit false

/-! ## The loop and the monitor -/

/-- A value of the word, and how many polls read it. -/
structure Command where
  value : BitVec 64
  polls : Nat
  deriving DecidableEq, Repr

/-- What executing a command at each of its polls copies. -/
def Command.dwords (c : Command) : Nat := if evenParity c.value then c.polls * c.value.toNat else 0

structure Shared where
  cpu : Cpu
  /-- what the word holds now -/
  current : Command
  /-- what it held before, newest first; the oldest is what it held on entry -/
  earlier : List Command
  /-- dwords copied in the loop -/
  copied : Nat

namespace Shared

def commands (s : Shared) : List Command := s.current :: s.earlier

/-- Every command, executed once for each poll that read it. -/
def executed (s : Shared) : Nat := (s.commands.map Command.dwords).sum

/-- Control has just met `loop`. -/
def enter (cpu : Cpu) : Shared := ⟨cpu, ⟨cpu.cell, 0⟩, [], 0⟩

end Shared

inductive Event where
  /-- the monitor writes the word -/
  | post (v : BitVec 64)
  /-- the anchor takes a step -/
  | anchor
  deriving DecidableEq, Repr

/-- The monitor posts only when the anchor has read its previous command. -/
def Shared.MayPost (s : Shared) : Prop := s.earlier = [] ∨ 0 < s.current.polls

instance (s : Shared) : Decidable s.MayPost := inferInstanceAs (Decidable (_ ∨ _))

def Shared.post (s : Shared) (v : BitVec 64) : Shared :=
  { s with cpu := { s.cpu with cell := v }, current := ⟨v, 0⟩, earlier := s.commands }

/-- An instruction of the anchor, with what an observer counts. -/
def Shared.instr (s : Shared) (instr : Instr) : Shared :=
  { s with
    cpu := exec s.cpu instr
    current :=
      if instr = .lockXadd then { s.current with polls := s.current.polls + 1 } else s.current
    copied := if instr = .repMovsd ∧ s.cpu.rcx ≠ 0 then s.copied + 1 else s.copied }

def step (L : BitVec 64) (s : Shared) : Event → Option Shared
  | .post v => if s.MayPost then some (s.post v) else none
  | .anchor => (fetch anchor (s.cpu.rip - L).toNat).map s.instr

/-- The values the monitor posts. -/
def posts : List Event → List (BitVec 64)
  | [] => []
  | .post v :: rest => v :: posts rest
  | .anchor :: rest => posts rest

/-- The sum of the counts of even parity. -/
def counts (values : List (BitVec 64)) : Nat :=
  (values.map fun v => if evenParity v then v.toNat else 0).sum

/-! ## What every step keeps -/

/-- Where the control is, and how much of what was read is still to be copied. -/
inductive Place (L : BitVec 64) (s : Shared) : Prop where
  | loop (here : At L 31 s.cpu) (clear : s.cpu.rcx = 0) (total : s.copied = s.executed)
  | branch (here : At L 36 s.cpu)
      (total : s.copied + (if s.cpu.pf then s.cpu.rcx.toNat else 0) = s.executed)
  | copy (here : At L 38 s.cpu) (total : s.copied + s.cpu.rcx.toNat = s.executed)
  | back (here : At L 40 s.cpu) (clear : s.cpu.rcx = 0) (total : s.copied = s.executed)
  | worker (here : At L 42 s.cpu) (total : s.copied = s.executed)

structure LoopInv (L : BitVec 64) (s : Shared) : Prop where
  cell : s.cpu.cell = s.current.value
  read : ∀ c ∈ s.earlier.dropLast, 0 < c.polls
  place : Place L s

theorem loopInv_enter {L : BitVec 64} {cpu : Cpu} (here : At L 31 cpu) (clear : cpu.rcx = 0) :
    LoopInv L (.enter cpu) := by
  refine ⟨rfl, by simp [Shared.enter], .loop here clear ?_⟩
  simp [Shared.enter, Shared.executed, Shared.commands, Command.dwords]

/-- A command nobody has read yet adds nothing. -/
@[simp] theorem executed_post (s : Shared) (v : BitVec 64) : (s.post v).executed = s.executed := by
  simp [Shared.executed, Shared.post, Shared.commands, Command.dwords]

theorem place_post {L : BitVec 64} {s : Shared} (v : BitVec 64) (place : Place L s) :
    Place L (s.post v) := by
  cases place with
  | loop here clear total => exact .loop here clear (total.trans (executed_post s v).symm)
  | branch here total => exact .branch here (total.trans (executed_post s v).symm)
  | copy here total => exact .copy here (total.trans (executed_post s v).symm)
  | back here clear total => exact .back here clear (total.trans (executed_post s v).symm)
  | worker here total => exact .worker here (total.trans (executed_post s v).symm)

theorem loopInv_post {L : BitVec 64} {s : Shared} (v : BitVec 64) (inv : LoopInv L s)
    (allowed : s.MayPost) : LoopInv L (s.post v) := by
  refine ⟨rfl, ?_, place_post v inv.place⟩
  intro c member
  rcases allowed with first | polled
  · simp [Shared.post, Shared.commands, first] at member
  · by_cases first : s.earlier = []
    · simp [Shared.post, Shared.commands, first] at member
    · rw [Shared.post, Shared.commands, List.dropLast_cons_of_ne_nil first, List.mem_cons] at member
      rcases member with rfl | member
      · exact polled
      · exact inv.read c member

/-- A poll executes the current command once more. -/
theorem executed_poll (s : Shared) :
    (s.instr .lockXadd).executed =
      s.executed + if evenParity s.current.value then s.current.value.toNat else 0 := by
  simp only [Shared.instr, Shared.executed, Shared.commands, Command.dwords, if_true, List.map_cons,
    List.sum_cons]
  split_ifs <;> ring

/-- No other instruction is a poll. -/
theorem executed_instr (s : Shared) {instr : Instr} (other : instr ≠ .lockXadd) :
    (s.instr instr).executed = s.executed := by
  simp only [Shared.instr, Shared.executed, Shared.commands, if_neg other]

/-- After any instruction but a poll, only the place is in question. -/
theorem LoopInv.other {L : BitVec 64} {s : Shared} {instr : Instr} (inv : LoopInv L s)
    (other : instr ≠ .lockXadd) (place : Place L (s.instr instr)) : LoopInv L (s.instr instr) where
  cell := by
    rw [Shared.instr, exec_cell s.cpu other, if_neg other]
    exact inv.cell
  read := inv.read
  place := place

/-- rcx is 0, so the word keeps its command. -/
theorem loopInv_poll {L : BitVec 64} {s : Shared} (inv : LoopInv L s) (here : At L 31 s.cpu)
    (clear : s.cpu.rcx = 0) (total : s.copied = s.executed) : LoopInv L (s.instr .lockXadd) where
  cell := by simp [Shared.instr, clear, inv.cell]
  read := inv.read
  place := by
    refine .branch ?_ ?_
    · rw [At] at here ⊢
      simp [Shared.instr, here, add_assoc]
    · rw [executed_poll, ← total]
      simp [Shared.instr, clear, inv.cell]

theorem place_jnp {L : BitVec 64} {s : Shared} (here : At L 36 s.cpu)
    (total : s.copied + (if s.cpu.pf then s.cpu.rcx.toNat else 0) = s.executed) :
    Place L (s.instr (.jnp 4)) := by
  rw [At] at here
  have kept : (s.instr (.jnp 4)).executed = s.executed := executed_instr s (by decide)
  cases parity : s.cpu.pf with
  | true =>
      refine .copy ?_ ?_
      · simp [Shared.instr, At, parity, here, add_assoc]
      · rw [kept, ← total, parity]
        simp [Shared.instr]
  | false =>
      refine .worker ?_ ?_
      · simp [Shared.instr, At, parity, here, add_assoc]
      · rw [kept, ← total, parity]
        simp [Shared.instr]

theorem place_rep {L : BitVec 64} {s : Shared} (here : At L 38 s.cpu)
    (total : s.copied + s.cpu.rcx.toNat = s.executed) : Place L (s.instr .repMovsd) := by
  have kept : (s.instr .repMovsd).executed = s.executed := executed_instr s (by decide)
  by_cases finished : s.cpu.rcx = 0
  · have cpu : (s.instr .repMovsd).cpu = s.cpu.afterRep := exec_rep_zero finished
    have copied : (s.instr .repMovsd).copied = s.copied := if_neg (by simp [finished])
    refine .back ?_ (by rw [cpu, Cpu.afterRep]) ?_
    · rw [At] at here ⊢
      simp [cpu, Cpu.afterRep, here, add_assoc]
    · rw [copied, kept, ← total, finished]
      rfl
  · have rcx : (s.instr .repMovsd).cpu.rcx = s.cpu.rcx - 1 := by
      rw [Shared.instr, exec_rep finished]
    have copied : (s.instr .repMovsd).copied = s.copied + 1 := if_pos ⟨rfl, finished⟩
    refine .copy ?_ ?_
    · rw [Shared.instr, exec_rep finished]
      exact here
    · rw [copied, rcx, kept, ← total]
      bv_omega

theorem place_jmp {L : BitVec 64} {s : Shared} (here : At L 40 s.cpu) (clear : s.cpu.rcx = 0)
    (total : s.copied = s.executed) : Place L (s.instr (.jmp (-11))) := by
  rw [At] at here
  refine .loop ?_ ?_ ?_
  · simp [Shared.instr, At, here, add_assoc]
  · simp [Shared.instr, clear]
  · rw [executed_instr s (by decide), ← total]
    simp [Shared.instr]

theorem loopInv_instr {L : BitVec 64} {s : Shared} {instr : Instr} (inv : LoopInv L s)
    (fetched : fetch anchor (s.cpu.rip - L).toNat = some instr) : LoopInv L (s.instr instr) := by
  cases inv.place with
  | loop here clear total =>
      rw [here.offset (by decide), show fetch anchor 31 = some .lockXadd from rfl] at fetched
      cases fetched
      exact loopInv_poll inv here clear total
  | branch here total =>
      rw [here.offset (by decide), show fetch anchor 36 = some (.jnp 4) from rfl] at fetched
      cases fetched
      exact inv.other (by decide) (place_jnp here total)
  | copy here total =>
      rw [here.offset (by decide), show fetch anchor 38 = some .repMovsd from rfl] at fetched
      cases fetched
      exact inv.other (by decide) (place_rep here total)
  | back here clear total =>
      rw [here.offset (by decide), show fetch anchor 40 = some (.jmp (-11)) from rfl] at fetched
      cases fetched
      exact inv.other (by decide) (place_jmp here clear total)
  | worker here total =>
      rw [here.offset (by decide), show fetch anchor 42 = none from rfl] at fetched
      cases fetched

theorem loopInv_step {L : BitVec 64} (s : Shared) (event : Event) (t : Shared) (inv : LoopInv L s)
    (stepped : step L s event = some t) : LoopInv L t := by
  cases event with
  | post v =>
      simp only [step] at stepped
      split at stepped
      · rename_i allowed
        obtain rfl := Option.some.inj stepped
        exact loopInv_post v inv allowed
      · cases stepped
  | anchor =>
      obtain ⟨instr, fetched, rfl⟩ := Option.map_eq_some_iff.mp stepped
      exact loopInv_instr inv fetched

/-- The record of commands is what the monitor posted. -/
theorem values_run {L : BitVec 64} {events : List Event} {s t : Shared}
    (ran : runEvents (step L) events s = some t) :
    t.commands.map Command.value = (posts events).reverse ++ s.commands.map Command.value := by
  induction events generalizing s with
  | nil =>
      obtain rfl := Option.some.inj ran
      rfl
  | cons event rest ih =>
      obtain ⟨next, stepped, later⟩ := runEvents_cons ran
      rw [ih later]
      cases event with
      | post v =>
          simp only [step] at stepped
          split at stepped
          · obtain rfl := Option.some.inj stepped
            simp [posts, Shared.post, Shared.commands]
          · cases stepped
      | anchor =>
          obtain ⟨instr, -, rfl⟩ := Option.map_eq_some_iff.mp stepped
          have same : (s.instr instr).commands.map Command.value =
              s.commands.map Command.value := by
            simp only [Shared.instr, Shared.commands]
            split_ifs <;> rfl
          rw [same]
          rfl

/-! ## The total -/

/-- Commands polled once each are the sum of their counts. -/
theorem dwords_once {commands : List Command}
    (once : ∀ c ∈ commands, evenParity c.value → c.value ≠ 0 → c.polls = 1) :
    (commands.map Command.dwords).sum = counts (commands.map Command.value) := by
  rw [counts, List.map_map]
  refine congrArg List.sum (List.map_congr_left fun c member => ?_)
  simp only [Command.dwords, Function.comp_apply]
  split
  · rename_i even
    by_cases zero : c.value = 0
    · simp [zero]
    · rw [once c member even zero, one_mul]
  · rfl

/-- **Every command is executed once for each poll that reads it.**  In every
interleaving, when control has left for `worker`, the dwords copied are the counts of
even parity, each as often as it was polled, over the commands the monitor posted and
what the word held on entry; and no posted command but the newest was missed. So the
total is the sum of the counts when the monitor replaces each before its second poll. -/
theorem executed_per_poll (L : BitVec 64) (cpu : Cpu) (here : At L 31 cpu) (clear : cpu.rcx = 0)
    (events : List Event) (t : Shared) (ran : runEvents (step L) events (.enter cpu) = some t)
    (left : At L 42 t.cpu) :
    t.commands.map Command.value = (posts events).reverse ++ [cpu.cell] ∧
      (∀ c ∈ t.earlier.dropLast, 0 < c.polls) ∧
      t.copied = (t.commands.map Command.dwords).sum ∧
      ((∀ c ∈ t.commands, evenParity c.value → c.value ≠ 0 → c.polls = 1) →
        t.copied = counts (posts events) + counts [cpu.cell]) := by
  have inv : LoopInv L t := runEvents_invariant loopInv_step (loopInv_enter here clear) ran
  have values : t.commands.map Command.value = (posts events).reverse ++ [cpu.cell] :=
    values_run ran
  have total : t.copied = (t.commands.map Command.dwords).sum := by
    cases inv.place with
    | worker _ total => exact total
    | loop here _ _ => exact absurd left (here.ne (by decide) (by decide) (by decide))
    | branch here _ => exact absurd left (here.ne (by decide) (by decide) (by decide))
    | copy here _ => exact absurd left (here.ne (by decide) (by decide) (by decide))
    | back here _ _ => exact absurd left (here.ne (by decide) (by decide) (by decide))
  refine ⟨values, inv.read, total, fun once => ?_⟩
  rw [total, dwords_once once, values]
  simp [counts]

namespace Example

/-- The anchor at its loop, with 0 in the shared word. -/
def cpu : Cpu := ⟨0x101f, 0, 0x1000, 0x800000, 0, false, fun _ => 0, 0⟩

/-- The monitor posts 3, lets the anchor poll `n` times, and ends with 1. A poll of 3
is seven steps: the exchange, the branch, three dwords, the end of the copy, the
jump. -/
def threeDwords (n : Nat) : List Event :=
  [.post 3] ++ List.replicate (7 * n) .anchor ++ [.post 1, .anchor, .anchor]

/-- A second poll of the same command copies the three dwords again. -/
theorem repeated_command :
    ¬ ∀ (L : BitVec 64) (cpu : Cpu) (events : List Event) (t : Shared), At L 31 cpu →
        cpu.rcx = 0 → runEvents (step L) events (.enter cpu) = some t → At L 42 t.cpu →
          t.copied = counts (posts events) := by
  intro claim
  have ran : (runEvents (step 0x1000) (threeDwords 2) (.enter cpu)).map
      (fun t => (t.cpu.rip, t.copied)) = some (0x102a, 6) := rfl
  obtain ⟨t, ran, final⟩ := Option.map_eq_some_iff.mp ran
  rw [Prod.mk.injEq] at final
  have copied := claim 0x1000 cpu (threeDwords 2) t rfl rfl ran final.1
  rw [final.2] at copied
  exact absurd copied (by decide)

/-- Replaced after one poll, the command copies its three dwords. -/
theorem command_replaced_in_time :
    ∃ t, runEvents (step 0x1000) (threeDwords 1) (.enter cpu) = some t ∧ t.copied = 3 := by
  have ran : (runEvents (step 0x1000) (threeDwords 1) (.enter cpu)).map
      (fun t => (t.cpu.rip, t.commands)) = some (0x102a, [⟨1, 1⟩, ⟨3, 1⟩, ⟨0, 0⟩]) := by
    rfl
  obtain ⟨t, ran, final⟩ := Option.map_eq_some_iff.mp ran
  rw [Prod.mk.injEq] at final
  obtain ⟨-, -, -, once⟩ := executed_per_poll 0x1000 cpu rfl rfl (threeDwords 1) t ran final.1
  refine ⟨t, ran, (once ?_).trans (by decide)⟩
  rw [final.2]
  decide

end Example

end HyperSmile.Anchor.CommandLoop
