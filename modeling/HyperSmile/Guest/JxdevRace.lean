/-
# Guest.JxdevRace — the page that is hashed is fetched a second time

`jxdev_write` tests byte 700 on its copy in `pp`, then copies the page from user
space once more before it takes the CRC. Between the two copies the application can
store into the page.

The write is two atomic steps, `fetch` and `serve`, and user space stores single
bytes at any time before, between and after them. `run_eq` turns every such
interleaving into `jxdevWrite` with two views of the page; from it,
`checked_iff` says exactly when the hashed page is the tested one.
-/
import HyperSmile.Guest.Jxdev
import HyperSmile.Theory.Runs
import Mathlib.Logic.Function.Basic

namespace HyperSmile.Guest.JxdevRace

open HyperSmile.Guest.Jxdev
open HyperSmile.Theory.Runs

set_option autoImplicit false

inductive Stage where
  | entered
  | fetched
  | served
  deriving DecidableEq, Repr

/-- One `write` of a page in progress, beside the user's page itself. -/
structure Race where
  dev : Device
  user : Page
  stage : Stage
  actions : List Action

inductive Event where
  /-- user space stores a byte into the page -/
  | store (i : Fin 4096) (v : BitVec 8)
  | fetch
  | serve
  deriving DecidableEq, Repr

def Race.enter (dev : Device) (user : Page) : Race := ⟨dev, user, .entered, []⟩

def step (s : Race) : Event → Option Race
  | .store i v => some { s with user := Function.update s.user i v }
  | .fetch =>
      if s.stage = .entered then
        some { s with dev := jxdevFetch s.dev 4096 s.user, stage := .fetched }
      else none
  | .serve =>
      if s.stage = .fetched then
        let served := jxdevServe s.dev 4096 s.user
        some { s with dev := served.1, actions := served.2, stage := .served }
      else none

/-- The user's page at the first `moment` of an interleaving. -/
def userAt (moment : Event) : List Event → Page → Page
  | [], user => user
  | event :: rest, user =>
      if event = moment then user
      else
        match event with
        | .store i v => userAt moment rest (Function.update user i v)
        | _ => userAt moment rest user

/-! ## An interleaving is a write with two views -/

theorem run_served {es : List Event} {s t : Race} (stage : s.stage = .served)
    (ran : runEvents step es s = some t) : t.dev = s.dev ∧ t.actions = s.actions := by
  have inv : t.stage = .served ∧ t.dev = s.dev ∧ t.actions = s.actions := by
    refine @runEvents_invariant _ _ _
      (fun r => r.stage = .served ∧ r.dev = s.dev ∧ r.actions = s.actions) ?_ _ _ _
      ⟨stage, rfl, rfl⟩ ran
    rintro r event next ⟨served, dev, actions⟩ stepped
    cases event with
    | store i v =>
        obtain rfl := Option.some.inj stepped
        exact ⟨served, dev, actions⟩
    | fetch => simp [step, served] at stepped
    | serve => simp [step, served] at stepped
  exact inv.2

theorem run_fetched {es : List Event} {s t : Race} (stage : s.stage = .fetched)
    (ran : runEvents step es s = some t) (done : t.stage = .served) :
    (t.dev, t.actions) = jxdevServe s.dev 4096 (userAt .serve es s.user) := by
  induction es generalizing s with
  | nil =>
      obtain rfl := Option.some.inj ran
      rw [stage] at done
      cases done
  | cons event rest ih =>
      obtain ⟨next, stepped, later⟩ := runEvents_cons ran
      cases event with
      | store i v =>
          obtain rfl := Option.some.inj stepped
          simpa [userAt] using ih (by exact stage) later
      | fetch => simp [step, stage] at stepped
      | serve =>
          simp only [step, stage, if_true, Option.some.injEq] at stepped
          subst stepped
          obtain ⟨dev, actions⟩ := run_served rfl later
          rw [dev, actions]
          simp [userAt]

/-- **Every interleaving is `jxdev_write` with the page as it was at each copy.** -/
theorem run_eq {es : List Event} {dev : Device} {user : Page} {t : Race}
    (ran : runEvents step es (.enter dev user) = some t) (done : t.stage = .served) :
    (t.dev, t.actions) =
      jxdevWrite dev ⟨4096, le_rfl, userAt .fetch es user, userAt .serve es user⟩ := by
  induction es generalizing user with
  | nil =>
      obtain rfl := Option.some.inj ran
      cases done
  | cons event rest ih =>
      obtain ⟨next, stepped, later⟩ := runEvents_cons ran
      cases event with
      | store i v =>
          obtain rfl := Option.some.inj stepped
          have entered : runEvents step rest (.enter dev (Function.update user i v)) = some t :=
            later
          simpa [userAt] using ih entered
      | fetch =>
          simp only [step, Race.enter, if_true, Option.some.injEq] at stepped
          subst stepped
          simpa [userAt, jxdevWrite] using run_fetched rfl later done
      | serve => simp [step, Race.enter] at stepped

/-! ## When the hashed page is the tested one -/

/-- Whenever a checksum was updated, the buffer it was taken of is the page in
`pp`, whose tag was tested, and carries that tag. -/
structure Checked (t : Race) : Prop where
  ssa : .crcSsa ∈ t.actions → t.dev.pp0 = t.dev.pp ∧ t.dev.pp0 700 = 0xaa
  anchor : .crcAnchor ∈ t.actions → t.dev.pp1 = t.dev.pp ∧ t.dev.pp1 700 = 0xbb

theorem checked_ssa_iff {t : Race} (tag : t.dev.pp 700 = 0xaa) (actions : t.actions = [.crcSsa]) :
    Checked t ↔ t.dev.pp0 = t.dev.pp := by
  constructor
  · intro checked
    exact (checked.ssa (by simp [actions])).1
  · intro same
    refine ⟨fun _ => ⟨same, ?_⟩, fun wrong => by simp [actions] at wrong⟩
    rw [same, tag]

theorem checked_anchor_iff {t : Race} (tag : t.dev.pp 700 = 0xbb)
    (actions : t.actions = [.crcAnchor]) : Checked t ↔ t.dev.pp1 = t.dev.pp := by
  constructor
  · intro checked
    exact (checked.anchor (by simp [actions])).1
  · intro same
    refine ⟨fun wrong => by simp [actions] at wrong, fun _ => ⟨same, ?_⟩⟩
    rw [same, tag]

/-- **The exact condition.**  The page is measured or not according to the tag of
the first view; a measured page is the tested one if and only if the stores
between the two copies leave the page, as a whole, as it was. -/
theorem checked_iff (dev : Device) (user : Page) (es : List Event) (t : Race)
    (ran : runEvents step es (.enter dev user) = some t) (done : t.stage = .served) :
    Checked t ↔
      (userAt .fetch es user 700 = 0xaa ∨ userAt .fetch es user 700 = 0xbb →
        userAt .serve es user = userAt .fetch es user) := by
  have written := run_eq ran done
  generalize userAt .fetch es user = first at written ⊢
  generalize userAt .serve es user = second at written ⊢
  rcases jxdevWrite_page_cases dev first second with
    ⟨tag, ssa⟩ | ⟨tag, anchor⟩ | ⟨untagged, -, noSsa, noAnchor⟩
  · rw [ssa, Prod.mk.injEq] at written
    obtain ⟨dev, actions⟩ := written
    rw [checked_ssa_iff (by rw [dev]; exact tag) actions, dev]
    exact ⟨fun same _ => same, fun kept => kept (Or.inl tag)⟩
  · rw [anchor, Prod.mk.injEq] at written
    obtain ⟨dev, actions⟩ := written
    rw [checked_anchor_iff (by rw [dev]; exact tag) actions, dev]
    exact ⟨fun same _ => same, fun kept => kept (Or.inr tag)⟩
  · rw [← written] at noSsa noAnchor
    exact ⟨fun _ tag => absurd tag untagged,
      fun _ => ⟨fun h => absurd h noSsa, fun h => absurd h noAnchor⟩⟩

namespace Example

/-- The application clears the tag of its SSA page between the two copies. -/
theorem retagged_page_is_hashed :
    ¬ ∀ (dev : Device) (user : Page) (es : List Event) (t : Race),
        runEvents step es (.enter dev user) = some t → t.stage = .served → Checked t := by
  intro claim
  have checked := claim .load ssaPage [.fetch, .store 700 0, .serve] _ rfl rfl
  exact absurd (checked.ssa (by decide)).2 (by decide)

/-- Stores that put back what was there do no harm. -/
theorem rewritten_page_is_checked :
    ∃ t, runEvents step [.store 3 7, .fetch, .store 700 0, .store 700 0xaa, .serve, .store 9 9]
        (.enter .load ssaPage) = some t ∧ t.dev.pp0 = t.dev.pp := by
  refine ⟨_, rfl, ?_⟩
  have checked := (checked_iff .load ssaPage
    [.store 3 7, .fetch, .store 700 0, .store 700 0xaa, .serve, .store 9 9] _ rfl rfl).mpr
    (fun _ => by funext i; simp [userAt, Function.update, ssaPage]; grind)
  exact (checked.ssa (by decide)).1

end Example

end HyperSmile.Guest.JxdevRace
