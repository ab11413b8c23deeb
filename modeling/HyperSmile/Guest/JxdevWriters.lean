/-
# Guest.JxdevWriters — many writers in jxdev_write at once

The device has no lock. `pp`, `pp0`, `pp1` and the two checksums are static, so writers on several CPUs
work on the same bytes. Here any number of writers advance in any order, one byte of a copy, one test
of `pp[700]`, one byte of a checksum at a time, while user space stores into their pages.

* A writer left alone does what `jxdevWrite` says (`alone`).
* `checksum_current`: over every interleaving, whenever nobody is measuring a buffer its checksum is the
  CRC of what it holds, or neither has changed since the start, provided no writer changes a byte of
  the buffer that another has already summed. `Example.stale_checksum` shows what happens otherwise.

A call of the trampoline and the IPI are one step each.
-/
import HyperSmile.Guest.Jxdev
import HyperSmile.Theory.Runs
import Mathlib.Data.Fintype.Defs
import Mathlib.Logic.Function.Basic

namespace HyperSmile.Guest.JxdevWriters

open HyperSmile.Guest.Crc
open HyperSmile.Guest.Jxdev
open HyperSmile.Theory.Runs

set_option autoImplicit false

/-! ## The writers -/

/-- A page the module files and sums. -/
inductive Measured where
  | ssa
  | anchor
  deriving DecidableEq, Repr

namespace Measured

def buffer (dev : Device) : Measured → Page
  | .ssa => dev.pp0
  | .anchor => dev.pp1

/-- The number of bytes that are summed. -/
def len : Measured → Nat
  | .ssa => 0x100
  | .anchor => 40

def checksum (dev : Device) : Measured → BitVec 64
  | .ssa => dev.crcSsa
  | .anchor => dev.crcAnchor

def setBuffer (dev : Device) (page : Page) : Measured → Device
  | .ssa => { dev with pp0 := page }
  | .anchor => { dev with pp1 := page }

def setChecksum (dev : Device) (crc : BitVec 64) : Measured → Device
  | .ssa => { dev with crcSsa := crc }
  | .anchor => { dev with crcAnchor := crc }

def action : Measured → Action
  | .ssa => .crcSsa
  | .anchor => .crcAnchor

end Measured

/-- The comparisons of `pp[700]`, in their order. -/
inductive Test where
  | trampoline
  | ssa
  | anchor
  | worker
  deriving DecidableEq, Repr

/-- The comparison after a measurement. -/
def Measured.nextTest : Measured → Test
  | .ssa => .anchor
  | .anchor => .worker

/-- Where a writer is in `jxdev_write`. -/
inductive Stage where
  /-- the first copy, `k` bytes done -/
  | copying (k : Nat)
  | testing (test : Test)
  /-- the second copy -/
  | filing (m : Measured) (k : Nat)
  /-- `crc32`, with its register -/
  | summing (m : Measured) (k : Nat) (crc : BitVec 32)
  | returned
  deriving DecidableEq, Repr

structure Writer where
  size : Nat
  size_le : size ≤ 4096
  user : Page
  stage : Stage

theorem Writer.lt (w : Writer) {k : Nat} (inside : k < w.size) : k < 4096 := inside.trans_le w.size_le

/-- A writer that enters with the page of a `write`. -/
def Writer.enter (w : UserWrite) : Writer := ⟨w.size, w.size_le, w.first, .copying 0⟩

/-- Byte `k` of a buffer. -/
def byteAt (page : Page) (k : Nat) : BitVec 8 := if inside : k < 4096 then page ⟨k, inside⟩ else 0

/-- The next step of a writer: the device, where the writer then is, and what it asks for. -/
def advance (dev : Device) (w : Writer) : Option (Device × Stage × List Action) :=
  match w.stage with
  | .copying k =>
      if inside : k < w.size then
        let i : Fin 4096 := ⟨k, w.lt inside⟩
        some ({ dev with pp := Function.update dev.pp i (w.user i) }, .copying (k + 1), [])
      else some (dev, .testing .trampoline, [])
  | .testing .trampoline =>
      if byteAt dev.pp 700 = 0xcc then
        let dataPage := (byteAt dev.pp 0).setWidth 64
        let appSize := (byteAt dev.pp 2).setWidth 64
        let pi := (byteAt dev.pp 3).setWidth 64
        some (dev, .returned, [.trampoline pi dataPage appSize])
      else some (dev, .testing .ssa, [])
  | .testing .ssa => some (dev, if byteAt dev.pp 700 = 0xaa then .filing .ssa 0 else .testing .anchor, [])
  | .testing .anchor =>
      some (dev, if byteAt dev.pp 700 = 0xbb then .filing .anchor 0 else .testing .worker, [])
  | .testing .worker => some (dev, .returned, if byteAt dev.pp 700 = 0xdd then [.smpCall] else [])
  | .filing m k =>
      if inside : k < w.size then
        let i : Fin 4096 := ⟨k, w.lt inside⟩
        some (m.setBuffer dev (Function.update (m.buffer dev) i (w.user i)), .filing m (k + 1), [])
      else some (dev, .summing m 0 0xffffffff, [])
  | .summing m k crc =>
      if k < m.len then some (dev, .summing m (k + 1) (crcByte crc (byteAt (m.buffer dev) k)), [])
      else some (m.setChecksum dev ((crc ^^^ 0xffffffff).setWidth 64), .testing m.nextTest, [m.action])
  | .returned => none

variable {ι : Type} [DecidableEq ι]

/-- The device, its writers, and what they have asked for so far. -/
structure System (ι : Type) where
  dev : Device
  writers : ι → Writer
  actions : List Action

inductive Event (ι : Type) where
  /-- user space stores a byte into the page of a writer -/
  | store (i : ι) (k : Fin 4096) (v : BitVec 8)
  | advance (i : ι)
  deriving DecidableEq, Repr

/-- Writer `i` moves on. -/
def System.set (s : System ι) (i : ι) (dev : Device) (stage : Stage) (actions : List Action) : System ι :=
  ⟨dev, Function.update s.writers i { s.writers i with stage := stage }, s.actions ++ actions⟩

def step (s : System ι) : Event ι → Option (System ι)
  | .store i k v =>
      let w := s.writers i
      some { s with writers := Function.update s.writers i { w with user := Function.update w.user k v } }
  | .advance i => (advance s.dev (s.writers i)).map fun (dev, stage, actions) => s.set i dev stage actions

/-! ## What a step can do -/

namespace Measured

variable (dev : Device) (m m' : Measured) (page : Page) (crc : BitVec 64)

@[simp] theorem buffer_setBuffer : m.buffer (m.setBuffer dev page) = page := by cases m <;> rfl

theorem buffer_setBuffer_ne (other : m' ≠ m) : m.buffer (m'.setBuffer dev page) = m.buffer dev := by
  cases m <;> cases m' <;> first | rfl | exact absurd rfl other

@[simp] theorem checksum_setBuffer : m.checksum (m'.setBuffer dev page) = m.checksum dev := by
  cases m <;> cases m' <;> rfl

@[simp] theorem buffer_setChecksum : m.buffer (m'.setChecksum dev crc) = m.buffer dev := by
  cases m <;> cases m' <;> rfl

@[simp] theorem checksum_setChecksum : m.checksum (m.setChecksum dev crc) = crc := by cases m <;> rfl

theorem checksum_setChecksum_ne (other : m' ≠ m) :
    m.checksum (m'.setChecksum dev crc) = m.checksum dev := by
  cases m <;> cases m' <;> first | rfl | exact absurd rfl other

end Measured

/-- The writer is between the test and the checksum of `m`. -/
def Inside (m : Measured) : Stage → Prop
  | .filing m' _ => m' = m
  | .summing m' _ _ => m' = m
  | _ => False

instance (m : Measured) : (stage : Stage) → Decidable (Inside m stage)
  | .filing m' _ => inferInstanceAs (Decidable (m' = m))
  | .summing m' _ _ => inferInstanceAs (Decidable (m' = m))
  | .copying _ => isFalse id
  | .testing _ => isFalse id
  | .returned => isFalse id

/-- A step as buffer `m` sees it. -/
inductive Move (m : Measured) (dev : Device) (w : Writer) : Device → Stage → Prop where
  | elsewhere {dev' : Device} {stage : Stage} (outside : ¬ Inside m w.stage)
      (buffer : m.buffer dev' = m.buffer dev) (checksum : m.checksum dev' = m.checksum dev)
      (after : stage = .filing m 0 ∨ ¬ Inside m stage) : Move m dev w dev' stage
  | file {k : Nat} (at_ : w.stage = .filing m k) (inside : k < w.size) :
      Move m dev w
        (m.setBuffer dev
          (Function.update (m.buffer dev) ⟨k, w.lt inside⟩ (w.user ⟨k, w.lt inside⟩)))
        (.filing m (k + 1))
  | filed {k : Nat} (at_ : w.stage = .filing m k) : Move m dev w dev (.summing m 0 0xffffffff)
  | sum {k : Nat} {crc : BitVec 32} (at_ : w.stage = .summing m k crc) (inside : k < m.len) :
      Move m dev w dev (.summing m (k + 1) (crcByte crc (byteAt (m.buffer dev) k)))
  | publish {k : Nat} {crc : BitVec 32} (at_ : w.stage = .summing m k crc) (done : m.len ≤ k) :
      Move m dev w (m.setChecksum dev ((crc ^^^ 0xffffffff).setWidth 64)) (.testing m.nextTest)

/-- A test goes on to file a buffer from its start, or to another test. -/
theorem entering (m m' : Measured) {tagged : Prop} [Decidable tagged] {next : Stage} (outside : ¬ Inside m next) :
    (if tagged then .filing m' 0 else next) = .filing m 0 ∨
      ¬ Inside m (if tagged then .filing m' 0 else next) := by
  by_cases taken : tagged
  · rw [if_pos taken]
    by_cases own : m' = m
    · exact Or.inl (by rw [own])
    · exact Or.inr own
  · rw [if_neg taken]
    exact Or.inr outside

theorem advance_move (m : Measured) {dev dev' : Device} {w : Writer} {stage : Stage} {actions : List Action}
    (advanced : advance dev w = some (dev', stage, actions)) : Move m dev w dev' stage := by
  obtain ⟨size, size_le, user, before⟩ := w
  cases before with
  | copying k =>
      simp only [advance] at advanced
      split at advanced <;> cases advanced
      · exact .elsewhere id (by cases m <;> rfl) (by cases m <;> rfl) (Or.inr id)
      · exact .elsewhere id rfl rfl (Or.inr id)
  | testing test =>
      cases test with
      | trampoline =>
          simp only [advance] at advanced
          split at advanced <;> cases advanced <;> exact .elsewhere id rfl rfl (Or.inr id)
      | ssa =>
          cases advanced
          exact .elsewhere id rfl rfl (entering m .ssa id)
      | anchor =>
          cases advanced
          exact .elsewhere id rfl rfl (entering m .anchor id)
      | worker =>
          cases advanced
          exact .elsewhere id rfl rfl (Or.inr id)
  | filing m' k =>
      simp only [advance] at advanced
      by_cases own : m' = m
      · subst own
        split at advanced <;> cases advanced
        · exact .file rfl ‹_›
        · exact .filed rfl
      · split at advanced <;> cases advanced
        · exact .elsewhere own (Measured.buffer_setBuffer_ne _ _ _ _ own) (by simp) (Or.inr own)
        · exact .elsewhere own rfl rfl (Or.inr own)
  | summing m' k crc =>
      simp only [advance] at advanced
      by_cases own : m' = m
      · subst own
        split at advanced <;> cases advanced
        · exact .sum rfl ‹_›
        · exact .publish rfl (by omega)
      · split at advanced <;> cases advanced
        · exact .elsewhere own rfl rfl (Or.inr own)
        · exact .elsewhere own (by simp) (Measured.checksum_setChecksum_ne _ _ _ _ own) (Or.inr id)
  | returned => cases advanced

theorem step_cases {s t : System ι} {event : Event ι} (stepped : step s event = some t) :
    (t.dev = s.dev ∧ ∀ i, (t.writers i).stage = (s.writers i).stage) ∨
      ∃ i dev stage actions, event = .advance i ∧ advance s.dev (s.writers i) = some (dev, stage, actions) ∧
        t = s.set i dev stage actions := by
  cases event with
  | store i k v =>
      obtain rfl := Option.some.inj stepped
      refine Or.inl ⟨rfl, fun j => ?_⟩
      by_cases own : j = i
      · subst own
        simp
      · simp [own]
  | advance i =>
      obtain ⟨⟨dev, stage, actions⟩, advanced, rfl⟩ := Option.map_eq_some_iff.mp stepped
      exact Or.inr ⟨i, dev, stage, actions, rfl, advanced, rfl⟩

@[simp] theorem System.set_dev (s : System ι) (i : ι) (dev : Device) (stage : Stage) (actions : List Action) :
    (s.set i dev stage actions).dev = dev := rfl

theorem stage_set (s : System ι) (i j : ι) (dev : Device) (stage : Stage) (actions : List Action) :
    ((s.set i dev stage actions).writers j).stage = if j = i then stage else (s.writers j).stage := by
  by_cases own : j = i
  · subst own
    simp [System.set]
  · simp [System.set, own]

/-! ## The register of a sum under way -/

/-- The register of `crc32` after the first `k` bytes. -/
def registerAt (page : Page) (k : Nat) : BitVec 32 := (span page k).foldl crcByte 0xffffffff

theorem registerAt_succ (page : Page) {k : Nat} (inside : k < 4096) :
    registerAt page (k + 1) = crcByte (registerAt page k) (byteAt page k) := by
  have next : (List.ofFn page)[k]? = some (page ⟨k, inside⟩) := by
    rw [List.getElem?_ofFn, dif_pos inside]
  rw [registerAt, registerAt, span, span, List.take_add_one, next, byteAt, dif_pos inside, List.foldl_append]
  rfl

theorem registerAt_congr {page page' : Page} {k : Nat} (same : ∀ i : Fin 4096, i.val < k → page i = page' i) :
    registerAt page k = registerAt page' k := by
  have spans : span page k = span page' k := by
    refine List.ext_getElem? fun n => ?_
    rw [span, span, List.getElem?_take, List.getElem?_take]
    split
    · rename_i below
      rw [List.getElem?_ofFn, List.getElem?_ofFn]
      split
      · exact congrArg some (same _ below)
      · rfl
    · rfl
  rw [registerAt, registerAt, spans]

theorem crc32_span (page : Page) (k : Nat) : crc32 (span page k) = registerAt page k ^^^ 0xffffffff := rfl

/-! ## Interleavings -/

/-- The checksum is the one of what the buffer holds. -/
def Current (m : Measured) (dev : Device) : Prop :=
  m.checksum dev = (crc32 (span (m.buffer dev) m.len)).setWidth 64

instance (m : Measured) (dev : Device) : Decidable (Current m dev) :=
  inferInstanceAs (Decidable (_ = _))

/-- Byte `k` of `m` has gone into the sum of a writer at this stage. -/
def Summed (m : Measured) (k : Nat) : Stage → Prop
  | .summing m' n _ => m' = m ∧ k < n
  | _ => False

instance (m : Measured) (k : Nat) : (stage : Stage) → Decidable (Summed m k stage)
  | .summing m' n _ => inferInstanceAs (Decidable (m' = m ∧ k < n))
  | .copying _ => isFalse id
  | .testing _ => isFalse id
  | .filing _ _ => isFalse id
  | .returned => isFalse id

/-- The byte a writer is about to file in `m`, if it changes the buffer. -/
def changes (m : Measured) (dev : Device) (w : Writer) : Option (Fin 4096) :=
  match w.stage with
  | .filing m' k =>
      if inside : m' = m ∧ k < w.size then
        let i : Fin 4096 := ⟨k, w.lt inside.2⟩
        if w.user i = m.buffer dev i then none else some i
      else none
  | _ => none

/-- The step changes a byte of `m` that another writer has already summed. -/
def Disturbs (m : Measured) (s : System ι) : Event ι → Prop
  | .store _ _ _ => False
  | .advance j => ∃ k ∈ changes m s.dev (s.writers j), ∃ i, Summed m k (s.writers i).stage

instance [Fintype ι] (m : Measured) (s : System ι) : (event : Event ι) → Decidable (Disturbs m s event)
  | .store _ _ _ => isFalse id
  -- at most one byte, not a search through the page
  | .advance j => Option.decidableExistsMem (changes m s.dev (s.writers j))

/-- Nobody is measuring `m`. -/
def Quiet (m : Measured) (s : System ι) : Prop := ∀ i, ¬ Inside m (s.writers i).stage

instance [Fintype ι] (m : Measured) (s : System ι) : Decidable (Quiet m s) :=
  inferInstanceAs (Decidable (∀ _, _))

/-- The invariant: every sum under way is one of the bytes now in the buffer, and a quiet buffer has its
checksum or is as it was at the start. -/
structure Sound (m : Measured) (start : Device) (s : System ι) : Prop where
  sums : ∀ i k crc, (s.writers i).stage = .summing m k crc →
    k ≤ m.len ∧ crc = registerAt (m.buffer s.dev) k
  quiet : Quiet m s → Current m s.dev ∨
    (m.buffer s.dev = m.buffer start ∧ m.checksum s.dev = m.checksum start)

theorem Measured.len_le (m : Measured) : m.len ≤ 4096 := by cases m <;> decide

/-! ### What each move keeps -/

section Moves

variable {m : Measured} {start dev : Device} {s : System ι} {j : ι} {stage : Stage} {actions : List Action}

/-- Writer `j` has moved: what is to be shown of its sum, of the others', and of a quiet buffer. -/
theorem Sound.set
    (own : ∀ k crc, stage = .summing m k crc → k ≤ m.len ∧ crc = registerAt (m.buffer dev) k)
    (others : ∀ i ≠ j, ∀ k crc, (s.writers i).stage = .summing m k crc →
      k ≤ m.len ∧ crc = registerAt (m.buffer dev) k)
    (quiet : Quiet m (s.set j dev stage actions) → Current m dev ∨
      (m.buffer dev = m.buffer start ∧ m.checksum dev = m.checksum start)) :
    Sound m start (s.set j dev stage actions) := by
  refine ⟨fun i k crc summing => ?_, quiet⟩
  rw [stage_set] at summing
  by_cases mover : i = j
  · rw [if_pos mover] at summing
    exact own k crc summing
  · rw [if_neg mover] at summing
    exact others i mover k crc summing

/-- A buffer with the mover inside is not quiet. -/
theorem not_quiet_set (inside : Inside m stage) : ¬ Quiet m (s.set j dev stage actions) := by
  intro quiet
  refine quiet j ?_
  rw [stage_set, if_pos rfl]
  exact inside

theorem Sound.elsewhere (sound : Sound m start s) (outside : ¬ Inside m (s.writers j).stage)
    (buffer : m.buffer dev = m.buffer s.dev) (checksum : m.checksum dev = m.checksum s.dev)
    (after : stage = .filing m 0 ∨ ¬ Inside m stage) : Sound m start (s.set j dev stage actions) := by
  refine Sound.set (fun k crc summing => ?_) (fun i _ k crc summing => ?_) fun quiet => ?_
  · rw [summing] at after
    rcases after with filing | outside'
    · cases filing
    · exact absurd rfl outside'
  · rw [buffer]
    exact sound.sums i k crc summing
  · have before : Quiet m s := by
      intro i inside
      by_cases mover : i = j
      · subst mover
        exact outside inside
      · refine quiet i ?_
        rw [stage_set, if_neg mover]
        exact inside
    rw [Current, buffer, checksum]
    exact sound.quiet before

/-- A byte is filed that nobody has summed, or that changes nothing: the sums of the others are still
those of what the buffer holds. -/
theorem Sound.file (sound : Sound m start s) (undisturbed : ¬ Disturbs m s (.advance j)) {k : Nat}
    (at_ : (s.writers j).stage = .filing m k) (inside : k < (s.writers j).size) :
    let b : Fin 4096 := ⟨k, (s.writers j).lt inside⟩
    Sound m start (s.set j (m.setBuffer s.dev (Function.update (m.buffer s.dev) b ((s.writers j).user b)))
      (.filing m (k + 1)) actions) := by
  intro b
  refine Sound.set (fun n crc summing => by cases summing) (fun i _ n crc summing => ?_)
    fun quiet => absurd quiet (not_quiet_set rfl)
  obtain ⟨bound, value⟩ := sound.sums i n crc summing
  rw [Measured.buffer_setBuffer]
  refine ⟨bound, value.trans (registerAt_congr fun c read => ?_)⟩
  by_cases here : c = b
  · subst here
    rw [Function.update_self]
    by_contra changed
    have different : (s.writers j).user ⟨k, (s.writers j).lt inside⟩ ≠ m.buffer s.dev ⟨k, (s.writers j).lt inside⟩ :=
      Ne.symm changed
    refine undisturbed ⟨b, ?_, i, ?_⟩
    · simp only [changes, at_, inside, and_self, dif_pos, if_neg different]
      rfl
    · rw [summing]
      exact ⟨rfl, read⟩
  · rw [Function.update_of_ne here]

theorem Sound.filed (sound : Sound m start s) :
    Sound m start (s.set j s.dev (.summing m 0 0xffffffff) actions) := by
  refine Sound.set (fun k crc summing => ?_) (fun i _ => sound.sums i) fun quiet => absurd quiet (not_quiet_set rfl)
  obtain ⟨-, rfl, rfl⟩ := Stage.summing.inj summing
  exact ⟨Nat.zero_le _, rfl⟩

theorem Sound.sum (sound : Sound m start s) {k : Nat} {crc : BitVec 32}
    (at_ : (s.writers j).stage = .summing m k crc) (inside : k < m.len) :
    Sound m start (s.set j s.dev (.summing m (k + 1) (crcByte crc (byteAt (m.buffer s.dev) k))) actions) := by
  refine Sound.set (fun n crc' summing => ?_) (fun i _ => sound.sums i) fun quiet => absurd quiet (not_quiet_set rfl)
  obtain ⟨-, rfl, rfl⟩ := Stage.summing.inj summing
  obtain ⟨-, value⟩ := sound.sums j _ _ at_
  rw [value, ← registerAt_succ _ (inside.trans_le m.len_le)]
  exact ⟨inside, rfl⟩

theorem Sound.publish (sound : Sound m start s) {k : Nat} {crc : BitVec 32}
    (at_ : (s.writers j).stage = .summing m k crc) (done : m.len ≤ k) :
    Sound m start (s.set j (m.setChecksum s.dev ((crc ^^^ 0xffffffff).setWidth 64)) (.testing m.nextTest)
      actions) := by
  refine Sound.set (fun n crc' summing => by cases summing) (fun i _ n crc' summing => ?_) fun _ => Or.inl ?_
  · rw [Measured.buffer_setChecksum]
    exact sound.sums i n crc' summing
  · obtain ⟨bound, value⟩ := sound.sums j _ _ at_
    obtain rfl := Nat.le_antisymm bound done
    rw [Current, Measured.checksum_setChecksum, Measured.buffer_setChecksum, crc32_span, value]

end Moves

theorem Sound.step {m : Measured} {start : Device} {s t : System ι} {event : Event ι}
    (undisturbed : ¬ Disturbs m s event) (sound : Sound m start s)
    (stepped : step s event = some t) : Sound m start t := by
  rcases step_cases stepped with ⟨dev, stages⟩ | ⟨j, dev', stage, actions, rfl, advanced, rfl⟩
  · refine ⟨fun i k crc summing => ?_, fun quiet => ?_⟩
    · rw [dev]
      exact sound.sums i k crc ((stages i).symm.trans summing)
    · rw [dev]
      exact sound.quiet fun i inside => quiet i (by rw [stages]; exact inside)
  · cases advance_move m advanced with
    | elsewhere outside buffer checksum after => exact sound.elsewhere outside buffer checksum after
    | file at_ inside => exact sound.file undisturbed at_ inside
    | filed => exact sound.filed
    | sum at_ inside => exact sound.sum at_ inside
    | publish at_ done => exact sound.publish at_ done

/-- **The checksum belongs to the buffer whenever nobody is measuring it**, in every interleaving of any
number of writers and of user space in which no byte already summed is changed. -/
theorem checksum_current (m : Measured) (s t : System ι) (events : List (Event ι)) (start : Quiet m s)
    (undisturbed : EveryStep step (fun r event => ¬ Disturbs m r event) events s)
    (ran : runEvents step events s = some t) (quiet : Quiet m t) :
    Current m t.dev ∨ (m.buffer t.dev = m.buffer s.dev ∧ m.checksum t.dev = m.checksum s.dev) := by
  have sound : Sound m s.dev s := by
    refine ⟨fun i k crc summing => ?_, fun _ => Or.inr ⟨rfl, rfl⟩⟩
    have inside : Inside m (s.writers i).stage := by
      rw [summing]
      rfl
    exact absurd inside (start i)
  have kept : Sound m s.dev t :=
    runEvents_invariant_of (fun _ _ _ calm inv stepped => inv.step calm stepped) undisturbed sound ran
  exact kept.quiet quiet

/-! ## One writer alone -/

/-- Writer `i`, and nobody else, gets from the first place to the second. -/
def Reaches (s : System ι) (i : ι) (dev : Device) (stage : Stage) (actions : List Action) (dev' : Device)
    (stage' : Stage) (actions' : List Action) : Prop :=
  ∃ n, runEvents step (List.replicate n (.advance i)) (s.set i dev stage actions) =
    some (s.set i dev' stage' actions')

section Alone

variable {s : System ι} {i : ι} {dev dev' dev'' : Device} {stage stage' stage'' : Stage}
  {actions actions' actions'' : List Action}

theorem Reaches.trans (first : Reaches s i dev stage actions dev' stage' actions')
    (second : Reaches s i dev' stage' actions' dev'' stage'' actions'') :
    Reaches s i dev stage actions dev'' stage'' actions'' := by
  obtain ⟨n, ran⟩ := first
  obtain ⟨n', ran'⟩ := second
  refine ⟨n + n', ?_⟩
  rw [List.replicate_add]
  exact runEvents_append ran ran'

theorem Reaches.one
    (advanced : advance dev { s.writers i with stage := stage } = some (dev', stage', actions')) :
    Reaches s i dev stage actions dev' stage' (actions ++ actions') := by
  refine ⟨1, ?_⟩
  have mover : (s.set i dev stage actions).writers i = { s.writers i with stage := stage } :=
    Function.update_self ..
  have moved : step (s.set i dev stage actions) (.advance i) =
      some ((s.set i dev stage actions).set i dev' stage' actions') := by
    rw [step, System.set_dev, mover, advanced]
    rfl
  have same : (s.set i dev stage actions).set i dev' stage' actions' =
      s.set i dev' stage' (actions ++ actions') := by
    simp only [System.set, Function.update_self, Function.update_idem, List.append_assoc]
  rw [List.replicate_one, runEvents, moved, same]
  rfl

/-- A step that asks for nothing. -/
theorem Reaches.silent (advanced : advance dev { s.writers i with stage := stage } = some (dev', stage', [])) :
    Reaches s i dev stage actions dev' stage' actions := by
  have one : Reaches s i dev stage actions dev' stage' (actions ++ []) := .one advanced
  rwa [List.append_nil] at one

/-- What is left of a copy after `k` bytes. -/
def copyFrom (k : Nat) (dst buf : Page) (size : Nat) : Page :=
  fun j => if k ≤ j.val ∧ j.val < size then buf j else dst j

theorem copyFrom_zero (dst buf : Page) (size : Nat) : copyFrom 0 dst buf size = copyFromUser dst buf size := by
  funext j
  simp [copyFrom, copyFromUser]

theorem copyFrom_done {k size : Nat} (dst buf : Page) (done : size ≤ k) : copyFrom k dst buf size = dst := by
  funext j
  rw [copyFrom, if_neg (by omega)]

theorem copyFrom_step {size : Nat} (dst buf : Page) (k : Fin 4096) (inside : k < size) :
    copyFrom (k + 1) (Function.update dst k (buf k)) buf size = copyFrom k dst buf size := by
  funext j
  by_cases here : j = k
  · subst here
    rw [copyFrom, copyFrom, if_neg (by omega), if_pos (by omega), Function.update_self]
  · have apart : j.val ≠ k.val := fun same => here (Fin.ext same)
    rw [copyFrom, copyFrom, Function.update_of_ne here]
    exact if_congr (by omega) rfl rfl

variable (s i dev actions)

theorem reaches_copied (k : Nat) :
    Reaches s i dev (.copying k) actions
      { dev with pp := copyFrom k dev.pp (s.writers i).user (s.writers i).size } (.testing .trampoline)
      actions := by
  induction left : (s.writers i).size - k generalizing k dev with
  | zero =>
      rw [copyFrom_done _ _ (by omega)]
      refine .silent ?_
      simp only [advance]
      rw [dif_neg (by omega)]
  | succ left ih =>
      have inside : k < (s.writers i).size := by omega
      let j : Fin 4096 := ⟨k, (s.writers i).lt inside⟩
      have rest := ih { dev with pp := Function.update dev.pp j ((s.writers i).user j) } (k + 1) (by omega)
      rw [copyFrom_step _ _ j inside] at rest
      refine Reaches.trans (.silent ?_) rest
      simp only [advance]
      rw [dif_pos inside]

theorem Measured.setBuffer_self (dev : Device) (m : Measured) : m.setBuffer dev (m.buffer dev) = dev := by
  cases m <;> rfl

theorem Measured.setBuffer_setBuffer (dev : Device) (m : Measured) (page page' : Page) :
    m.setBuffer (m.setBuffer dev page) page' = m.setBuffer dev page' := by
  cases m <;> rfl

theorem reaches_filed (m : Measured) (k : Nat) :
    Reaches s i dev (.filing m k) actions
      (m.setBuffer dev (copyFrom k (m.buffer dev) (s.writers i).user (s.writers i).size))
      (.summing m 0 0xffffffff) actions := by
  induction left : (s.writers i).size - k generalizing k dev with
  | zero =>
      rw [copyFrom_done _ _ (by omega), Measured.setBuffer_self]
      refine .silent ?_
      simp only [advance]
      rw [dif_neg (by omega)]
  | succ left ih =>
      have inside : k < (s.writers i).size := by omega
      let j : Fin 4096 := ⟨k, (s.writers i).lt inside⟩
      have rest := ih (m.setBuffer dev (Function.update (m.buffer dev) j ((s.writers i).user j))) (k + 1)
        (by omega)
      rw [Measured.buffer_setBuffer, copyFrom_step _ _ j inside, Measured.setBuffer_setBuffer] at rest
      refine Reaches.trans (.silent ?_) rest
      simp only [advance]
      rw [dif_pos inside]

theorem reaches_summed (m : Measured) (k : Nat) (bound : k ≤ m.len) :
    Reaches s i dev (.summing m k (registerAt (m.buffer dev) k)) actions
      (m.setChecksum dev ((crc32 (span (m.buffer dev) m.len)).setWidth 64)) (.testing m.nextTest)
      (actions ++ [m.action]) := by
  induction left : m.len - k generalizing k with
  | zero =>
      obtain rfl : k = m.len := by omega
      refine .one ?_
      simp only [advance]
      rw [if_neg (by omega), crc32_span]
  | succ left ih =>
      have inside : k < m.len := by omega
      refine Reaches.trans (.silent ?_) (ih (k + 1) inside (by omega))
      simp only [advance]
      rw [if_pos inside, registerAt_succ _ (inside.trans_le m.len_le)]

/-- The device after the second copy and the checksum. -/
def Measured.measure (m : Measured) (dev : Device) (size : Nat) (buf : Page) : Device :=
  let page := copyFromUser (m.buffer dev) buf size
  m.setChecksum (m.setBuffer dev page) ((crc32 (span page m.len)).setWidth 64)

theorem reaches_measured (m : Measured) :
    Reaches s i dev (.filing m 0) actions (m.measure dev (s.writers i).size (s.writers i).user)
      (.testing m.nextTest) (actions ++ [m.action]) := by
  have filed := reaches_filed s i dev actions m 0
  rw [copyFrom_zero] at filed
  have summed := reaches_summed s i (m.setBuffer dev (copyFromUser (m.buffer dev) (s.writers i).user
    (s.writers i).size)) actions m 0 (Nat.zero_le _)
  rw [Measured.buffer_setBuffer] at summed
  exact filed.trans summed

section Tests

variable {dev}

theorem passes_trampoline (tag : byteAt dev.pp 700 ≠ 0xcc) :
    Reaches s i dev (.testing .trampoline) actions dev (.testing .ssa) actions :=
  .silent (by simp only [advance, if_neg tag])

theorem passes_ssa (tag : byteAt dev.pp 700 ≠ 0xaa) :
    Reaches s i dev (.testing .ssa) actions dev (.testing .anchor) actions :=
  .silent (by simp only [advance, if_neg tag])

theorem passes_anchor (tag : byteAt dev.pp 700 ≠ 0xbb) :
    Reaches s i dev (.testing .anchor) actions dev (.testing .worker) actions :=
  .silent (by simp only [advance, if_neg tag])

theorem passes_worker (tag : byteAt dev.pp 700 ≠ 0xdd) :
    Reaches s i dev (.testing .worker) actions dev .returned actions :=
  .silent (by simp only [advance, if_neg tag])

theorem enters_ssa (tag : byteAt dev.pp 700 = 0xaa) :
    Reaches s i dev (.testing .ssa) actions dev (.filing .ssa 0) actions :=
  .silent (by simp only [advance, if_pos tag])

theorem enters_anchor (tag : byteAt dev.pp 700 = 0xbb) :
    Reaches s i dev (.testing .anchor) actions dev (.filing .anchor 0) actions :=
  .silent (by simp only [advance, if_pos tag])

end Tests

theorem Measured.measure_pp (m : Measured) (dev : Device) (size : Nat) (buf : Page) :
    (m.measure dev size buf).pp = dev.pp := by
  cases m <;> rfl

/-- The tests after the first copy. -/
theorem reaches_served :
    Reaches s i dev (.testing .trampoline) [] (jxdevServe dev (s.writers i).size (s.writers i).user).1 .returned
      (jxdevServe dev (s.writers i).size (s.writers i).user).2 := by
  -- a page that was measured still has its tag, and fails the tests that follow
  have tagged (m : Measured) (tag : BitVec 8) (own : dev.pp 700 = tag) :
      byteAt (m.measure dev (s.writers i).size (s.writers i).user).pp 700 = tag := by
    rw [Measured.measure_pp]
    exact own
  by_cases hide : dev.pp 700 = 0xcc
  · rw [jxdevServe, if_pos hide]
    have tag : byteAt dev.pp 700 = 0xcc := hide
    refine .one ?_
    simp only [advance, if_pos tag]
    rfl
  refine (passes_trampoline s i [] hide).trans ?_
  rw [jxdevServe, if_neg hide]
  by_cases ssa : dev.pp 700 = 0xaa
  · rw [if_pos ssa]
    refine ((enters_ssa s i [] ssa).trans (reaches_measured s i dev [] .ssa)).trans ?_
    refine Reaches.trans (passes_anchor s i _ ?_) (passes_worker s i _ ?_)
    · rw [tagged .ssa _ ssa]
      decide
    · rw [tagged .ssa _ ssa]
      decide
  refine (passes_ssa s i [] ssa).trans ?_
  rw [if_neg ssa]
  by_cases anchor : dev.pp 700 = 0xbb
  · rw [if_pos anchor]
    refine ((enters_anchor s i [] anchor).trans (reaches_measured s i dev [] .anchor)).trans ?_
    refine passes_worker s i _ ?_
    rw [tagged .anchor _ anchor]
    decide
  refine (passes_anchor s i [] anchor).trans ?_
  rw [if_neg anchor]
  by_cases worker : dev.pp 700 = 0xdd
  · rw [if_pos worker]
    have tag : byteAt dev.pp 700 = 0xdd := worker
    exact .one (by simp only [advance, if_pos tag])
  · rw [if_neg worker]
    exact passes_worker s i [] worker

end Alone

/-- **A writer that is left alone does one `jxdev_write`.** -/
theorem alone (s : System ι) (i : ι) (entered : (s.writers i).stage = .copying 0) :
    ∃ n, runEvents step (List.replicate n (.advance i)) s =
      some (s.set i (jxdevWrite s.dev ⟨_, (s.writers i).size_le, (s.writers i).user, (s.writers i).user⟩).1
        .returned (jxdevWrite s.dev ⟨_, (s.writers i).size_le, (s.writers i).user, (s.writers i).user⟩).2) := by
  have here : s = s.set i s.dev (.copying 0) [] := by
    rw [System.set, ← entered, List.append_nil]
    simp
  have copied := reaches_copied s i s.dev [] 0
  rw [copyFrom_zero] at copied
  obtain ⟨n, ran⟩ := copied.trans (reaches_served s i _)
  rw [← here] at ran
  exact ⟨n, ran⟩

namespace Example

/-- The device after a page tagged 0xbb was written. -/
def anchored : Device := after [.page (taggedPage 0 0xbb)]

/-- A write of one byte, which is measured for the tag left in `pp`. -/
def oneByte (v : BitVec 8) : Writer := ⟨1, by decide, taggedPage v 0xbb, .copying 0⟩

/-- Two writers, of the bytes 1 and 2. -/
def two : System Bool := ⟨anchored, fun i => oneByte (if i then 2 else 1), []⟩

/-- `n` steps of one writer. -/
def steps (i : Bool) (n : Nat) : List (Event Bool) := List.replicate n (.advance i)

theorem page_pos : 0 < 4096 := by decide

/-- The byte that the writers file. -/
def first : Fin 4096 := ⟨0, page_pos⟩

/-- User space changes the byte of the second writer, which files it before the first begins to sum; from
then on the two sum in turns, and user space changes the page of the first. -/
def interleaved : List (Event Bool) :=
  steps false 7 ++ [.store true first 3] ++ steps true 7 ++ steps false 20 ++ steps true 30 ++ steps false 8 ++
    steps true 5 ++ [.store false first 9] ++ steps false 14 ++ steps true 7

theorem interleaved_runs : (runEvents step interleaved two).isSome := by decide +kernel

/-- The checksum is that of the byte user space had chosen. -/
theorem anchor_checksum :
    ∃ t, runEvents step interleaved two = some t ∧ Current .anchor t.dev ∧ t.dev.pp1 first = 3 := by
  have ran := (Option.some_get interleaved_runs).symm
  have written : ((runEvents step interleaved two).get interleaved_runs).dev.pp1 first = 3 := by decide +kernel
  refine ⟨_, ran, ?_, written⟩
  rcases checksum_current .anchor two _ interleaved (by decide) (by decide +kernel) ran (by decide +kernel) with
    current | ⟨same, -⟩
  · exact current
  · exact absurd (written.symm.trans (congrFun same first)) (by decide +kernel)

/-- The second writer files its byte when the first has summed one byte, and is done before it. -/
def overlapping : List (Event Bool) := steps false 8 ++ steps true 49 ++ steps false 41

theorem overlapping_runs : (runEvents step overlapping two).isSome := by decide +kernel

/-- Nobody is measuring the anchor any more, and its checksum is that of a page that is gone. -/
theorem stale_checksum : ∃ t, runEvents step overlapping two = some t ∧ Quiet .anchor t ∧ ¬ Current .anchor t.dev :=
  ⟨_, (Option.some_get overlapping_runs).symm, by decide +kernel, by decide +kernel⟩

end Example

end HyperSmile.Guest.JxdevWriters
