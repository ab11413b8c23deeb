/-
# Guest.TrampolineRace — two callers of the trampoline share one table

`jxdev_write` takes no lock, so two processes can be inside `trampoline` at once.
Each call is two atomic steps, hide and restore; what passes from one to the other
is the global `pinfo` and `index`, of which there is one copy for all callers.

A run in which a caller starts to hide while another one has hidden and not yet
restored loses the first one's table: `Example.overlap_loses_a_page` is the shortest
case. Conversely (`exclusive_run_restores`) a run in which no caller starts to hide
at such a moment has the original page tables back whenever nobody is inside.
-/
import HyperSmile.Guest.Trampoline
import HyperSmile.Theory.Runs
import Mathlib.Data.Fintype.Pi

namespace HyperSmile.Guest.TrampolineRace

open HyperSmile.Guest.Limit
open HyperSmile.Theory.Runs

set_option autoImplicit false

/-- The arguments of one call of `trampoline`. -/
structure Caller where
  pi : BitVec 64
  appBaseaddr : BitVec 64
  appSize : BitVec 64
  deriving DecidableEq, Repr

inductive Phase where
  | entered
  /-- `laucher_non_v2p` has returned, `launch_en_v2p` has not been called -/
  | hidden
  | returned
  deriving DecidableEq, Repr

/-- The module's globals and page tables, and how far each caller is. -/
structure RaceState (ι : Type) where
  shared : LimitState
  phase : ι → Phase

variable {ι : Type} [DecidableEq ι]

/-- One atomic step of caller `i`. -/
inductive RaceStep (kernel : Kernel) (callers : ι → Caller) (i : ι) :
    RaceState ι → RaceState ι → Prop where
  | hide {r : RaceState ι} {s : LimitState} : r.phase i = .entered →
      laucherNonV2p kernel (callers i).appBaseaddr (callers i).pi (callers i).appSize r.shared =
        .ok s →
      RaceStep kernel callers i r ⟨s, Function.update r.phase i .hidden⟩
  | restore {r : RaceState ι} {s : LimitState} : r.phase i = .hidden →
      launchEnV2p kernel (callers i).pi r.shared = .ok s →
      RaceStep kernel callers i r ⟨s, Function.update r.phase i .returned⟩

/-- Any interleaving of the callers' steps. -/
abbrev RaceRun (kernel : Kernel) (callers : ι → Caller) : RaceState ι → RaceState ι → Prop :=
  Relation.ReflTransGen fun r t => ∃ i, RaceStep kernel callers i r t

/-- Caller `i` does not start to hide while another caller's table is pending. -/
def Exclusive (i : ι) (r : RaceState ι) : Prop :=
  r.phase i = .entered → ∀ j, r.phase j ≠ .hidden

instance [Fintype ι] (i : ι) (r : RaceState ι) : Decidable (Exclusive i r) :=
  inferInstanceAs (Decidable (_ → _))

/-- The interleavings in which every step is `Exclusive`. -/
abbrev ExclusiveRun (kernel : Kernel) (callers : ι → Caller) :
    RaceState ι → RaceState ι → Prop :=
  Relation.ReflTransGen fun r t => ∃ i, Exclusive i r ∧ RaceStep kernel callers i r t

def enter (s : LimitState) : RaceState ι := ⟨s, fun _ => .entered⟩

/-- No page of the first range resolves to the PTE of a page of the second. -/
def DisjointSlots (kernel : Kernel) (memory : PtMemory) (first second : Caller)
    (pgd pgd' : BitVec 64) : Prop :=
  ∀ j k : Nat, j * 0x1000 < first.appSize.toNat → k * 0x1000 < second.appSize.toNat →
    pteSlot kernel pgd memory (pageAt first.appBaseaddr j) ≠
      pteSlot kernel pgd' memory (pageAt second.appBaseaddr k)

/-- Every caller is a process with an `mm`, asks for at most 1000 pages, and the
PTEs of all ranges together are pairwise different. -/
structure AllReady (kernel : Kernel) (memory : PtMemory) (callers : ι → Caller)
    (pgds : ι → BitVec 64) : Prop where
  ready : ∀ i, Ready kernel memory (callers i).pi (callers i).appBaseaddr (callers i).appSize
    (pgds i)
  disjoint : ∀ i j, i ≠ j → DisjointSlots kernel memory (callers i) (callers j) (pgds i) (pgds j)

/-! ## Runs without overlap -/

/-- With nobody inside the page tables are the original ones; whoever is inside
is alone there, and the globals are what its own `laucher_non_v2p` left over the
original page tables. -/
structure RaceInv (kernel : Kernel) (callers : ι → Caller) (memory : PtMemory)
    (r : RaceState ι) : Prop where
  quiet : (∀ i, r.phase i ≠ .hidden) → r.shared.memory = memory
  alone : ∀ i, r.phase i = .hidden → ∀ j, r.phase j = .hidden → j = i
  own : ∀ i, r.phase i = .hidden → ∃ s : LimitState, s.memory = memory ∧
    laucherNonV2p kernel (callers i).appBaseaddr (callers i).pi (callers i).appSize s =
      .ok r.shared

omit [DecidableEq ι] in
theorem raceInv_enter (kernel : Kernel) (callers : ι → Caller) (s : LimitState) :
    RaceInv kernel callers s.memory (enter s : RaceState ι) where
  quiet _ := rfl
  alone i inside := by simp [enter] at inside
  own i inside := by simp [enter] at inside

theorem update_phase_hidden {phase : ι → Phase} {i j : ι} {p : Phase} (ne : p ≠ .hidden)
    (inside : Function.update phase i p j = .hidden) : j ≠ i ∧ phase j = .hidden := by
  by_cases same : j = i
  · subst same
    rw [Function.update_self] at inside
    exact absurd inside ne
  · rw [Function.update_of_ne same] at inside
    exact ⟨same, inside⟩

theorem raceInv_step {kernel : Kernel} {callers : ι → Caller} {memory : PtMemory}
    {pgds : ι → BitVec 64}
    (ready : ∀ i, Ready kernel memory (callers i).pi (callers i).appBaseaddr (callers i).appSize
      (pgds i))
    {i : ι} {r t : RaceState ι} (exclusive : Exclusive i r) (inv : RaceInv kernel callers memory r)
    (stepped : RaceStep kernel callers i r t) : RaceInv kernel callers memory t := by
  cases stepped with
  | hide entered hidden =>
      have nobody := exclusive entered
      have only : ∀ j, Function.update r.phase i Phase.hidden j = .hidden → j = i := by
        intro j inside
        by_contra other
        rw [Function.update_of_ne other] at inside
        exact nobody j inside
      refine ⟨fun none => ?_, ?_, ?_⟩
      · exact absurd (Function.update_self i Phase.hidden r.phase) (none i)
      · intro j inside k inside'
        rw [only j inside, only k inside']
      · intro j inside
        obtain rfl := only j inside
        exact ⟨r.shared, inv.quiet nobody, hidden⟩
  | restore inside restored =>
      obtain ⟨s, original, own⟩ := inv.own i inside
      have nobody : ∀ j, Function.update r.phase i Phase.returned j ≠ .hidden := by
        intro j still
        obtain ⟨other, hidden⟩ := update_phase_hidden (by decide) still
        exact other (inv.alone i inside j hidden)
      refine ⟨fun _ => ?_, fun j still => absurd still (nobody j), fun j still =>
        absurd still (nobody j)⟩
      have readyHere := ready i
      rw [← original] at readyHere
      obtain ⟨between, after, hidden, back, same⟩ := readyHere.halves
      rw [own, Except.ok.injEq] at hidden
      subst hidden
      rw [restored, Except.ok.injEq] at back
      subst back
      exact same.trans original

/-- In a run without overlap no step is ever refused by a fault. -/
theorem raceInv_progress {kernel : Kernel} {callers : ι → Caller} {memory : PtMemory}
    {pgds : ι → BitVec 64}
    (ready : ∀ i, Ready kernel memory (callers i).pi (callers i).appBaseaddr (callers i).appSize
      (pgds i))
    {i : ι} {r : RaceState ι} (exclusive : Exclusive i r) (inv : RaceInv kernel callers memory r)
    (unfinished : r.phase i ≠ .returned) : ∃ t, RaceStep kernel callers i r t := by
  have readyHere := ready i
  cases at_ : r.phase i with
  | entered =>
      rw [← inv.quiet (exclusive at_)] at readyHere
      obtain ⟨between, _, hidden, _, _⟩ := readyHere.halves
      exact ⟨_, .hide at_ hidden⟩
  | hidden =>
      obtain ⟨s, original, own⟩ := inv.own i at_
      rw [← original] at readyHere
      obtain ⟨between, after, hidden, back, _⟩ := readyHere.halves
      rw [own, Except.ok.injEq] at hidden
      subst hidden
      exact ⟨_, .restore at_ back⟩
  | returned => exact absurd at_ unfinished

/-- **Without overlap nothing is lost.**  In every state a run of exclusive steps
reaches, the page tables are the original ones unless somebody is inside, and
every caller that is not done can take its next exclusive step. -/
theorem exclusive_run_restores (kernel : Kernel) (callers : ι → Caller) (pgds : ι → BitVec 64)
    (s : LimitState) (all : AllReady kernel s.memory callers pgds) (r : RaceState ι)
    (run : ExclusiveRun kernel callers (enter s) r) :
    ((∀ i, r.phase i ≠ .hidden) → ∀ a, r.shared.memory a = s.memory a) ∧
      ∀ i, r.phase i ≠ .returned → Exclusive i r → ∃ t, RaceStep kernel callers i r t := by
  have inv : RaceInv kernel callers s.memory r := by
    refine run_invariant ?_ (raceInv_enter kernel callers s) run
    rintro r t inv ⟨i, exclusive, stepped⟩
    exact raceInv_step all.ready exclusive inv stepped
  exact ⟨fun nobody a => congrFun (inv.quiet nobody) a,
    fun i unfinished exclusive => raceInv_progress all.ready exclusive inv unfinished⟩

/-! ## The shortest overlap -/

namespace Example

open HyperSmile.Guest.Limit.Example (kernel tables memory state)

/-- The process with pid 42 is inside twice, once for each of its two pages. -/
def callers (i : Fin 2) : Caller := if i = 0 then ⟨42, 0, 0x1000⟩ else ⟨42, 0x1000, 0x1000⟩

theorem callers_size : ∀ i, (callers i).appSize.toNat = 0x1000 := by decide

theorem allReady : AllReady kernel memory callers (fun _ => tables.pgd) where
  ready i := by
    have size := callers_size i
    refine ⟨by revert i; decide, by omega, fun j k hj hk different => ?_⟩
    omega
  disjoint i j ne k l hk hl := by
    obtain rfl : k = 0 := by rw [callers_size] at hk; omega
    obtain rfl : l = 0 := by rw [callers_size] at hl; omega
    revert i j
    decide

/-- Hide, hide, restore, restore: the second caller's table has replaced the first
one's, so both restore the second page and page 0 stays not present. -/
theorem overlap_loses_a_page :
    ¬ ∀ (kernel : Kernel) (callers : Fin 2 → Caller) (pgds : Fin 2 → BitVec 64)
        (s : LimitState) (r : RaceState (Fin 2)),
        AllReady kernel s.memory callers pgds → RaceRun kernel callers (enter s) r →
        (∀ i, r.phase i = .returned) → ∀ a, r.shared.memory a = s.memory a := by
  intro claim
  have run : ∃ r, RaceRun kernel callers (enter state) r ∧ (∀ i, r.phase i = .returned) ∧
      r.shared.memory 0xffff888000004000 = 0x5066 := by
    refine ⟨_, (((Relation.ReflTransGen.refl.tail ⟨0, .hide rfl rfl⟩).tail
      ⟨1, .hide rfl rfl⟩).tail ⟨0, .restore rfl rfl⟩).tail ⟨1, .restore rfl rfl⟩, ?_, ?_⟩
    · decide
    · decide +kernel
  obtain ⟨r, run, done, lost⟩ := run
  have kept := claim kernel callers _ state r allReady run done 0xffff888000004000
  rw [lost] at kept
  exact absurd kept (by decide)

/-- One caller after the other: both are done and no word has changed. -/
theorem serial_callers_restore :
    ∃ r, ExclusiveRun kernel callers (enter state) r ∧ (∀ i, r.phase i = .returned) ∧
      ∀ a, r.shared.memory a = memory a := by
  have run : ∃ r, ExclusiveRun kernel callers (enter state) r ∧
      ∀ i, r.phase i = .returned := by
    refine ⟨_, (((Relation.ReflTransGen.refl.tail ⟨0, ?_, .hide rfl rfl⟩).tail
      ⟨0, ?_, .restore rfl rfl⟩).tail ⟨1, ?_, .hide rfl rfl⟩).tail ⟨1, ?_, .restore rfl rfl⟩, ?_⟩
    all_goals decide
  obtain ⟨r, run, done⟩ := run
  have outside : ∀ i, r.phase i ≠ .hidden := fun i inside => by
    rw [done i] at inside
    exact absurd inside (by decide)
  exact ⟨r, run, done,
    (exclusive_run_restores kernel callers _ state allReady r run).1 outside⟩

end Example

end HyperSmile.Guest.TrampolineRace
