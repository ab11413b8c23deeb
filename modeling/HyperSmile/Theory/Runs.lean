/-
# Theory.Runs — runs of a transition system

Three views of a run. A nondeterministic system is a step relation, and its runs
are `Relation.ReflTransGen`; `run_invariant` is the one induction every safety
result over such a system goes through. A system driven by events is a partial
function of state and event, an interleaving is a list of events, and `runEvents`
computes where it leads (`runEvents_invariant`). A deterministic machine is a
partial step function, and `FirstReach step target s t` says that the run from `s`
first meets `target` in `t`; it is functional (`FirstReach.unique`), so an
existential statement about it is a statement about *the* run.
-/
import Mathlib.Logic.Relation

namespace HyperSmile.Theory.Runs

set_option autoImplicit false

section Relational

variable {σ : Type}

/-- What holds at the start and survives every step holds in every state reached. -/
theorem run_invariant {step : σ → σ → Prop} {inv : σ → Prop}
    (preserved : ∀ s t, inv s → step s t → inv t) {s t : σ} (start : inv s)
    (run : Relation.ReflTransGen step s t) : inv t := by
  induction run with
  | refl => exact start
  | tail _ last ih => exact preserved _ _ ih last

end Relational

section Events

variable {σ ε : Type} (step : σ → ε → Option σ)

/-- The state a list of events leads to, if every one of them is enabled. -/
def runEvents : List ε → σ → Option σ
  | [], s => some s
  | event :: rest, s => (step s event).bind (runEvents rest)

variable {step}

theorem runEvents_cons {event : ε} {rest : List ε} {s t : σ}
    (ran : runEvents step (event :: rest) s = some t) :
    ∃ next, step s event = some next ∧ runEvents step rest next = some t :=
  Option.bind_eq_some_iff.mp ran

theorem runEvents_invariant {inv : σ → Prop}
    (preserved : ∀ s event t, inv s → step s event = some t → inv t) {events : List ε} {s t : σ}
    (start : inv s) (ran : runEvents step events s = some t) : inv t := by
  induction events generalizing s with
  | nil =>
      obtain rfl := Option.some.inj ran
      exact start
  | cons event rest ih =>
      obtain ⟨next, stepped, later⟩ := runEvents_cons ran
      exact ih (preserved s event next start stepped) later

theorem runEvents_append {events more : List ε} {s t u : σ} (ran : runEvents step events s = some t)
    (later : runEvents step more t = some u) : runEvents step (events ++ more) s = some u := by
  induction events generalizing s with
  | nil =>
      obtain rfl := Option.some.inj ran
      exact later
  | cons event rest ih =>
      obtain ⟨next, stepped, rested⟩ := runEvents_cons ran
      rw [List.cons_append, runEvents, stepped]
      exact ih rested

variable (step) in
/-- Every step of the run meets a condition on the state before it and its event. -/
def EveryStep (condition : σ → ε → Prop) : List ε → σ → Prop
  | [], _ => True
  | event :: rest, s => condition s event ∧ ∀ next ∈ step s event, EveryStep condition rest next

instance decidableEveryStep {condition : σ → ε → Prop} [∀ s event, Decidable (condition s event)] :
    (events : List ε) → (s : σ) → Decidable (EveryStep step condition events s)
  | [], _ => inferInstanceAs (Decidable True)
  | event :: rest, s =>
      have : DecidablePred (EveryStep step condition rest) := fun next => decidableEveryStep rest next
      inferInstanceAs (Decidable (condition s event ∧ ∀ next ∈ step s event, EveryStep step condition rest next))

theorem runEvents_invariant_of {condition : σ → ε → Prop} {inv : σ → Prop}
    (preserved : ∀ s event t, condition s event → inv s → step s event = some t → inv t) {events : List ε}
    {s t : σ} (met : EveryStep step condition events s) (start : inv s)
    (ran : runEvents step events s = some t) : inv t := by
  induction events generalizing s with
  | nil =>
      obtain rfl := Option.some.inj ran
      exact start
  | cons event rest ih =>
      obtain ⟨next, stepped, later⟩ := runEvents_cons ran
      exact ih (met.2 next stepped) (preserved s event next met.1 start stepped) later

end Events

section Deterministic

variable {σ : Type}

/-- The run from `s` meets `target` for the first time in the last argument. -/
inductive FirstReach (step : σ → Option σ) (target : σ → Prop) : σ → σ → Prop where
  | here {s : σ} : target s → FirstReach step target s s
  | next {s t u : σ} : ¬ target s → step s = some t → FirstReach step target t u →
      FirstReach step target s u

variable {step : σ → Option σ} {target : σ → Prop}

theorem FirstReach.unique {s t u : σ} (run : FirstReach step target s t)
    (other : FirstReach step target s u) : t = u := by
  induction run with
  | here met =>
      cases other with
      | here _ => rfl
      | next unmet _ _ => exact absurd met unmet
  | next unmet stepped _ ih =>
      cases other with
      | here met => exact absurd met unmet
      | next _ stepped' rest =>
          rw [stepped, Option.some.injEq] at stepped'
          subst stepped'
          exact ih rest

end Deterministic

end HyperSmile.Theory.Runs
