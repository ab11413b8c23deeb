/-
# Theory.PagedMemory — reading memory page by page

A read of `len` elements from an address fetches what it needs of the page of the address, goes on
with the next page, and ends when it has all or a page is refused. Pages have `2 ^ shift` elements of
any type; `fetch` gets a part of a page by its number, or says why it cannot.

Where every part is there, the read is the elements one by one (`readPages_eq`). A read that did not
stop was refused none of its pages (`readPages_found`).
-/
import Mathlib.Algebra.Ring.Nat
import Mathlib.Tactic.Common

namespace HyperSmile.Theory.PagedMemory

set_option autoImplicit false

variable {ε α : Type} (shift : Nat)

theorem offset_lt (addr : Nat) : addr % 2 ^ shift < 2 ^ shift := Nat.mod_lt _ (Nat.two_pow_pos shift)

/-- What the page of `addr` has of `len` elements from there on. -/
def segment (len addr : Nat) : Nat := min len (2 ^ shift - addr % 2 ^ shift)

theorem segment_pos {len : Nat} (some_ : len ≠ 0) (addr : Nat) : 0 < segment shift len addr := by
  have := offset_lt shift addr
  rw [segment]
  omega

theorem segment_le (len addr : Nat) : segment shift len addr ≤ len := Nat.min_le_left _ _

theorem segment_inside (len addr : Nat) : addr % 2 ^ shift + segment shift len addr ≤ 2 ^ shift := by
  have := offset_lt shift addr
  rw [segment]
  omega

/-- The read, with the reason if it stopped and what it has copied. `fetch` takes the number of a page,
an offset in it and how much to fetch. -/
def readPages (fetch : Nat → Nat → Nat → Except ε (List α)) (len addr : Nat) : Option ε × List α :=
  if _none : len = 0 then (none, [])
  else
    let n := segment shift len addr
    match fetch (addr / 2 ^ shift) (addr % 2 ^ shift) n with
    | .error reason => (some reason, [])
    | .ok part =>
        let rest := readPages fetch (len - n) (addr + n)
        (rest.1, part ++ rest.2)
termination_by len
decreasing_by
  have := segment_pos shift _none addr
  omega

variable {shift} {fetch : Nat → Nat → Nat → Except ε (List α)}

theorem readPages_zero (addr : Nat) : readPages shift fetch 0 addr = (none, []) := by
  rw [readPages, dif_pos rfl]

theorem readPages_refused {len addr : Nat} {reason : ε} (some_ : len ≠ 0)
    (refused : fetch (addr / 2 ^ shift) (addr % 2 ^ shift) (segment shift len addr) = .error reason) :
    readPages shift fetch len addr = (some reason, []) := by
  rw [readPages, dif_neg some_]
  dsimp only
  rw [refused]

theorem readPages_fetched {len addr : Nat} {part : List α} (some_ : len ≠ 0)
    (fetched : fetch (addr / 2 ^ shift) (addr % 2 ^ shift) (segment shift len addr) = .ok part) :
    readPages shift fetch len addr =
      ((readPages shift fetch (len - segment shift len addr) (addr + segment shift len addr)).1,
        part ++ (readPages shift fetch (len - segment shift len addr) (addr + segment shift len addr)).2) := by
  rw [readPages, dif_neg some_]
  dsimp only
  rw [fetched]

/-- Inside of the first page. -/
theorem page_of_segment {len addr i : Nat} (inside : i < segment shift len addr) :
    (addr + i) / 2 ^ shift = addr / 2 ^ shift ∧ (addr + i) % 2 ^ shift = addr % 2 ^ shift + i := by
  have whole := Nat.div_add_mod addr (2 ^ shift)
  have small : addr % 2 ^ shift + i < 2 ^ shift :=
    lt_of_lt_of_le (Nat.add_lt_add_left inside _) (segment_inside shift len addr)
  have split : addr + i = 2 ^ shift * (addr / 2 ^ shift) + (addr % 2 ^ shift + i) := by omega
  constructor
  · rw [split, Nat.mul_add_div (Nat.two_pow_pos shift), Nat.div_eq_of_lt small, Nat.add_zero]
  · rw [split, Nat.mul_add_mod, Nat.mod_eq_of_lt small]

/-- **Every part is there**: the elements one by one. -/
theorem readPages_eq {len addr : Nat} {element : Nat → α}
    (present : ∀ a n, 0 < n → addr ≤ a → a + n ≤ addr + len → a % 2 ^ shift + n ≤ 2 ^ shift →
      fetch (a / 2 ^ shift) (a % 2 ^ shift) n = .ok ((List.range n).map fun i => element (a + i))) :
    readPages shift fetch len addr = (none, (List.range len).map fun i => element (addr + i)) := by
  induction len using Nat.strong_induction_on generalizing addr with
  | _ len ih =>
      by_cases none : len = 0
      · subst none
        exact readPages_zero addr
      have positive := segment_pos shift none addr
      have most := segment_le shift len addr
      have first := present addr _ positive (le_refl _) (by omega) (segment_inside shift len addr)
      rw [readPages_fetched none first]
      generalize segment shift len addr = n at positive most ⊢
      have all : List.range len = List.range n ++ (List.range (len - n)).map (n + ·) := by
        rw [← List.range_add]
        congr 1
        omega
      have rest : readPages shift fetch (len - n) (addr + n) =
          (Option.none, (List.range (len - n)).map fun i => element (addr + n + i)) :=
        ih (len - n) (by omega) fun a m some_ low high part => present a m some_ (by omega) (by omega) part
      rw [rest, all, List.map_append, List.map_map]
      simp only [Function.comp_def, Nat.add_assoc]

/-- **A read that did not stop** was refused none of its pages. -/
theorem readPages_found {len addr : Nat} (done : (readPages shift fetch len addr).1 = none) :
    ∀ i < len, ∃ offset n part, fetch ((addr + i) / 2 ^ shift) offset n = .ok part := by
  induction len using Nat.strong_induction_on generalizing addr with
  | _ len ih =>
      intro i inside
      have some_ : len ≠ 0 := by omega
      cases found : fetch (addr / 2 ^ shift) (addr % 2 ^ shift) (segment shift len addr) with
      | error reason =>
          rw [readPages_refused some_ found] at done
          cases done
      | ok part =>
          rw [readPages_fetched some_ found] at done
          have positive := segment_pos shift some_ addr
          by_cases first : i < segment shift len addr
          · rw [(page_of_segment first).1]
            exact ⟨_, _, part, found⟩
          · have later := ih _ (by omega) done (i - segment shift len addr) (by omega)
            rwa [Nat.add_assoc, Nat.add_sub_cancel' (by omega)] at later

end HyperSmile.Theory.PagedMemory
