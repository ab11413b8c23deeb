/-
# Theory.SavedPatch — patch a list of slots, keep what they held, put it back

A store maps addresses to values. A key is resolved to an address by a walk over
the store itself (`addr`), so a write can move the very slots later keys resolve
to. What keeps the walk stable is an observation `obs` of each value: the walk
reads values through `obs` only (`Observes`), and the patch leaves `obs` alone
(`Invisible`).

* `patchAll` patches the slot of each key in order, walking the current store;
  `savedAll` is the table of the values found there.
* `restoreAll` writes a table back, again walking the current store.
* `savedAll_eq`, `patchAll_apply`: over pairwise different slots the table holds
  the original values and exactly the slots are patched.
* `restoreAll_patchAll`: restoring the saved table gives the original store back,
  with no assumption that a slot is not also read by another key's walk.
-/
import Mathlib.Data.List.Nodup
import Mathlib.Logic.Function.Basic

namespace HyperSmile.Theory.SavedPatch

set_option autoImplicit false

section

variable {A V K O : Type} [DecidableEq A]
variable (addr : (A → V) → K → A) (patch : V → V) (obs : V → O)

/-- Patch the slot of every key, in order. -/
def patchAll : List K → (A → V) → (A → V)
  | [], store => store
  | key :: rest, store =>
      patchAll rest (Function.update store (addr store key) (patch (store (addr store key))))

/-- What each key's slot held at the moment it was patched. -/
def savedAll : List K → (A → V) → List (K × V)
  | [], _ => []
  | key :: rest, store =>
      (key, store (addr store key)) ::
        savedAll rest (Function.update store (addr store key) (patch (store (addr store key))))

/-- Write a saved table back, walking the store as it is at each entry. -/
def restoreAll : List (K × V) → (A → V) → (A → V)
  | [], store => store
  | entry :: rest, store => restoreAll rest (Function.update store (addr store entry.1) entry.2)

/-- The walk reads a value only through `obs`. -/
def Observes : Prop :=
  ∀ (s t : A → V) (key : K), (∀ a, obs (s a) = obs (t a)) → addr s key = addr t key

/-- The patch does not change the observation of a value. -/
def Invisible : Prop := ∀ v, obs (patch v) = obs v

variable {addr patch obs}

theorem obs_update {store : A → V} {a : A} {v : V} (same : obs v = obs (store a)) (b : A) :
    obs (Function.update store a v b) = obs (store b) := by
  by_cases at_ : b = a
  · subst at_; simpa using same
  · rw [Function.update_of_ne at_]

/-- Patching leaves every observation as it was. -/
theorem patchAll_obs (invisible : Invisible patch obs) (keys : List K) (store : A → V) (a : A) :
    obs (patchAll addr patch keys store a) = obs (store a) := by
  induction keys generalizing store with
  | nil => rfl
  | cons key rest ih =>
      rw [patchAll, ih]
      exact obs_update (invisible _) a

/-- One patch never moves the slot of a key. -/
theorem patch_addr (observes : Observes addr obs) (invisible : Invisible patch obs)
    (store : A → V) (key other : K) :
    addr (Function.update store (addr store key) (patch (store (addr store key)))) other =
      addr store other :=
  observes _ _ other (obs_update (invisible _))

theorem patch_slots (observes : Observes addr obs) (invisible : Invisible patch obs)
    (store : A → V) (key : K) (rest : List K) :
    rest.map (addr (Function.update store (addr store key) (patch (store (addr store key))))) =
      rest.map (addr store) :=
  List.map_congr_left fun other _ => patch_addr observes invisible store key other

theorem savedAll_length (keys : List K) (store : A → V) :
    (savedAll addr patch keys store).length = keys.length := by
  induction keys generalizing store with
  | nil => rfl
  | cons key rest ih => simp [savedAll, ih]

/-- Over pairwise different slots the table holds the original values. -/
theorem savedAll_eq (observes : Observes addr obs) (invisible : Invisible patch obs)
    (keys : List K) (store : A → V) (distinct : (keys.map (addr store)).Nodup) :
    savedAll addr patch keys store = keys.map fun key => (key, store (addr store key)) := by
  induction keys generalizing store with
  | nil => rfl
  | cons key rest ih =>
      rw [List.map_cons, List.nodup_cons] at distinct
      obtain ⟨fresh, distinct⟩ := distinct
      have slots := patch_slots observes invisible store key rest
      rw [savedAll, ih _ (slots ▸ distinct), List.map_cons]
      congr 1
      apply List.map_congr_left
      intro other member
      rw [patch_addr observes invisible store key other]
      have ne : addr store other ≠ addr store key :=
        fun eq => fresh (List.mem_map.mpr ⟨other, member, eq⟩)
      rw [Function.update_of_ne ne]

/-- Over pairwise different slots exactly the slots are patched, once each. -/
theorem patchAll_apply (observes : Observes addr obs) (invisible : Invisible patch obs)
    (keys : List K) (store : A → V) (distinct : (keys.map (addr store)).Nodup) (a : A) :
    patchAll addr patch keys store a =
      if a ∈ keys.map (addr store) then patch (store a) else store a := by
  induction keys generalizing store with
  | nil => rfl
  | cons key rest ih =>
      rw [List.map_cons, List.nodup_cons] at distinct
      obtain ⟨fresh, distinct⟩ := distinct
      have slots := patch_slots observes invisible store key rest
      rw [patchAll, ih _ (slots ▸ distinct), slots, List.map_cons]
      by_cases at_ : a = addr store key
      · subst at_
        simp [fresh]
      · simp [at_]

/-- Writing original values back, from any store the walk cannot tell from the
original, gives the original at every slot written and keeps the rest. -/
theorem restoreAll_apply (observes : Observes addr obs) (keys : List K) (store now : A → V)
    (same : ∀ a, obs (now a) = obs (store a)) (a : A) :
    restoreAll addr (keys.map fun key => (key, store (addr store key))) now a =
      if a ∈ keys.map (addr store) then store a else now a := by
  induction keys generalizing now with
  | nil => rfl
  | cons key rest ih =>
      have here : addr now key = addr store key := observes _ _ key same
      simp only [List.map_cons, restoreAll, here]
      have same' := fun b => (obs_update (same (addr store key)).symm b).trans (same b)
      rw [ih _ same']
      by_cases at_ : a = addr store key
      · subst at_; simp
      · simp [at_]

/-- **Restoring the saved table undoes the patches.**  A slot may be read by the
walk of another key: the walks see only what the patch keeps. -/
theorem restoreAll_patchAll (observes : Observes addr obs) (invisible : Invisible patch obs)
    (keys : List K) (store : A → V) (distinct : (keys.map (addr store)).Nodup) :
    restoreAll addr (savedAll addr patch keys store) (patchAll addr patch keys store) = store := by
  funext a
  rw [savedAll_eq observes invisible keys store distinct,
    restoreAll_apply observes keys store _ (patchAll_obs invisible keys store),
    patchAll_apply observes invisible keys store distinct]
  split <;> rfl

end

end HyperSmile.Theory.SavedPatch
