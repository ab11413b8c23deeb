/-
# Theory.BlockCipher — what makes a block cipher invertible

Three facts that every table-and-matrix cipher rests on, whatever its tables are.

* **Layers.** A map built from shifts and xors distributes over xor (`XorAdditive`),
  so two such maps are equal when they agree on the single bits
  (`XorAdditive.ext`): `w` inputs decide instead of `2 ^ w`.
* **Rounds.** If one decryption round undoes one encryption round *through* a
  layer, then the rounds in reverse order undo the whole sequence through that layer
  (`foldl_reverse_undo`).
* **Blocks.** A loop that maps a buffer block by block (`mapBlocks`) is undone by the
  loop of an inverse block map, and leaves the rest of the output buffer alone
  (`mapBlocks_mapBlocks`). A loop that copies within one buffer (`copyBlocks`) copies
  the window as it was, if source and destination have nothing in common.
-/
import Mathlib.Data.BitVec
import Mathlib.Data.List.Basic

namespace HyperSmile.Theory.BlockCipher

set_option autoImplicit false

/-! ## Layers -/

section Layers

variable {w : Nat}

def XorAdditive (f : BitVec w → BitVec w) : Prop := ∀ x y, f (x ^^^ y) = f x ^^^ f y

namespace XorAdditive

variable {f g : BitVec w → BitVec w}

theorem zero (additive : XorAdditive f) : f 0 = 0 := by
  have doubled := additive 0 0
  rw [BitVec.xor_self, BitVec.xor_self] at doubled
  exact doubled

theorem id : XorAdditive (fun x : BitVec w => x) := fun _ _ => rfl

theorem const_zero : XorAdditive (fun _ : BitVec w => (0 : BitVec w)) := by
  intro x y
  simp

theorem comp (additive : XorAdditive f) (additive' : XorAdditive g) :
    XorAdditive (fun x => f (g x)) := by
  intro x y
  show f (g (x ^^^ y)) = _
  rw [additive', additive]

theorem xor (additive : XorAdditive f) (additive' : XorAdditive g) :
    XorAdditive (fun x => f x ^^^ g x) := by
  intro x y
  show f (x ^^^ y) ^^^ g (x ^^^ y) = (f x ^^^ g x) ^^^ (f y ^^^ g y)
  rw [additive, additive']
  ac_rfl

end XorAdditive

/-- The `n` low bits of a vector. -/
def lowBits (x : BitVec w) (n : Nat) : BitVec w := (x.setWidth n).setWidth w

theorem lowBits_succ (x : BitVec w) (n : Nat) :
    lowBits x (n + 1) = lowBits x n ^^^ if x.getLsbD n then BitVec.twoPow w n else 0 := by
  ext i inside
  have bit (n : Nat) : (lowBits x n)[i] = (decide (i < n) && x.getLsbD i) := by simp [lowBits]
  rw [BitVec.getElem_xor, bit, bit]
  rcases Nat.lt_trichotomy i n with below | rfl | above
  · have other : ¬ i = n := by omega
    split <;> simp [below, Nat.lt_succ_of_lt below, other]
  · cases x.getLsbD i <;> simp
  · have other : ¬ i = n := by omega
    have outside : ¬ i < n + 1 := by omega
    split <;> simp [above.not_gt, other, outside]

/-- **Additive maps are known by their values at the single bits.** -/
theorem XorAdditive.ext {f g : BitVec w → BitVec w} (additive : XorAdditive f)
    (additive' : XorAdditive g)
    (bits : ∀ n < w, f (BitVec.twoPow w n) = g (BitVec.twoPow w n)) (x : BitVec w) : f x = g x := by
  suffices low : ∀ n ≤ w, f (lowBits x n) = g (lowBits x n) by
    have whole : lowBits x w = x := by simp [lowBits]
    simpa [whole] using low w le_rfl
  intro n
  induction n with
  | zero =>
      intro _
      have none : lowBits x 0 = 0 := by
        ext i inside
        simp [lowBits]
      rw [none, additive.zero, additive'.zero]
  | succ n ih =>
      intro inside
      rw [lowBits_succ, additive, additive', ih (by omega)]
      split
      · rw [bits n (by omega)]
      · rw [additive.zero, additive'.zero]

/-- The sum of the columns `i`, `i + 1`, ... that `x` selects. -/
def combineFrom (x : BitVec w) : List (BitVec w) → Nat → BitVec w → BitVec w
  | [], _, sum => sum
  | column :: rest, i, sum => combineFrom x rest (i + 1) (if x.getLsbD i then sum ^^^ column else sum)

/-- A matrix, given by its columns, applied to a vector. -/
def combine (columns : List (BitVec w)) (x : BitVec w) : BitVec w := combineFrom x columns 0 0

theorem combineFrom_xor (x y : BitVec w) (columns : List (BitVec w)) (i : Nat) (a b : BitVec w) :
    combineFrom (x ^^^ y) columns i (a ^^^ b) =
      combineFrom x columns i a ^^^ combineFrom y columns i b := by
  induction columns generalizing i a b with
  | nil => rfl
  | cons column rest ih =>
      rw [combineFrom, combineFrom, combineFrom, ← ih, BitVec.getLsbD_xor]
      congr 1
      cases x.getLsbD i <;> cases y.getLsbD i
      · rfl
      · exact BitVec.xor_assoc ..
      · show a ^^^ b ^^^ column = a ^^^ column ^^^ b
        ac_rfl
      · show a ^^^ b = a ^^^ column ^^^ (b ^^^ column)
        rw [BitVec.xor_comm b, BitVec.xor_assoc, ← BitVec.xor_assoc column, BitVec.xor_self,
          BitVec.zero_xor]

theorem combine_additive (columns : List (BitVec w)) : XorAdditive (combine columns) := by
  intro x y
  have both := combineFrom_xor x y columns 0 0 0
  rwa [BitVec.xor_self] at both

/-- The sum on numbers: the form to compute with. -/
def combineNat : List (BitVec w) → Nat → Nat → Nat
  | [], _, sum => sum
  | column :: rest, x, sum => combineNat rest (x / 2) (sum ^^^ column.toNat * (x % 2))

theorem combine_eq_ofNat (columns : List (BitVec w)) (x : BitVec w) :
    combine columns x = BitVec.ofNat w (combineNat columns x.toNat 0) := by
  suffices rest : ∀ (i : Nat) (sum : BitVec w), combineFrom x columns i sum =
      BitVec.ofNat w (combineNat columns (x.toNat >>> i) sum.toNat) from rest 0 0
  induction columns with
  | nil =>
      intro i sum
      rw [combineNat, BitVec.ofNat_toNat, BitVec.setWidth_eq]
      rfl
  | cons column columns ih =>
      intro i sum
      have term : (if x.getLsbD i then sum ^^^ column else sum).toNat =
          sum.toNat ^^^ column.toNat * (x.toNat >>> i % 2) := by
        rw [BitVec.getLsbD, Nat.testBit_eq_decide_div_mod_eq, ← Nat.shiftRight_eq_div_pow]
        rcases Nat.mod_two_eq_zero_or_one (x.toNat >>> i) with clear | set
        · simp [clear]
        · simp [set]
      rw [combineFrom, ih, combineNat, term, Nat.shiftRight_succ]

/-- **An additive map with a one-dimensional kernel.**  If `g` takes the image of every single bit
back, up to `kernel` at one of them, then `f` takes two vectors to one exactly if they differ by
nothing or by `kernel`. -/
theorem XorAdditive.eq_iff {f g : BitVec w → BitVec w} (additive : XorAdditive f)
    (additive' : XorAdditive g) {free : Nat} {kernel : BitVec w}
    (back : ∀ n < w, g (f (BitVec.twoPow w n)) =
      BitVec.twoPow w n ^^^ if n = free then kernel else 0)
    (null : f kernel = 0) (x y : BitVec w) : f x = f y ↔ x = y ∨ x = y ^^^ kernel := by
  let project (x : BitVec w) : BitVec w := x ^^^ if x.getLsbD free then kernel else 0
  have select : XorAdditive fun x : BitVec w => if x.getLsbD free then kernel else 0 := by
    intro x y
    simp only [BitVec.getLsbD_xor]
    cases x.getLsbD free <;> cases y.getLsbD free <;> simp
  have inverse (x : BitVec w) : g (f x) = project x := by
    refine XorAdditive.ext (additive'.comp additive) (XorAdditive.id.xor select) (fun n inside => ?_) x
    rw [back n inside, BitVec.getLsbD_twoPow]
    by_cases here : n = free
    · subst here
      simp [inside]
    · simp [here]
  constructor
  · intro same
    have zero : f (x ^^^ y) = 0 := by rw [additive, same, BitVec.xor_self]; rfl
    have projected := inverse (x ^^^ y)
    rw [zero, additive'.zero] at projected
    have difference : x ^^^ y = if (x ^^^ y).getLsbD free then kernel else 0 :=
      BitVec.xor_eq_zero_iff.mp projected.symm
    split at difference
    · right
      rw [← difference, BitVec.xor_comm x, ← BitVec.xor_assoc, BitVec.xor_self, BitVec.zero_xor]
    · left
      exact BitVec.xor_eq_zero_iff.mp difference
  · rintro (rfl | rfl)
    · rfl
    · rw [additive, null]
      exact BitVec.xor_zero

end Layers

/-! ## Rounds -/

/-- **Rounds undo each other in reverse order**, seen through the layer with which
each decryption round starts. -/
theorem foldl_reverse_undo {σ κ : Type} {encRound decRound : σ → κ → σ} {layer : σ → σ}
    (undo : ∀ s k, decRound (layer (encRound s k)) k = layer s) (keys : List κ) (s : σ) :
    keys.reverse.foldl decRound (layer (keys.foldl encRound s)) = layer s := by
  induction keys generalizing s with
  | nil => rfl
  | cons k rest ih =>
      have first : (k :: rest).foldl encRound s = rest.foldl encRound (encRound s k) := rfl
      rw [List.reverse_cons, List.foldl_append, first, ih]
      exact undo s k

/-! ## Blocks -/

section Blocks

variable {α : Type} {size : Nat}

def readBlock (size : Nat) (buffer : Nat → α) (pos : Nat) : Fin size → α :=
  fun i => buffer (pos + i)

def writeBlock (buffer : Nat → α) (pos : Nat) (block : Fin size → α) : Nat → α :=
  fun a => if inside : pos ≤ a ∧ a - pos < size then block ⟨a - pos, inside.2⟩ else buffer a

theorem readBlock_writeBlock (buffer : Nat → α) (pos : Nat) (block : Fin size → α) :
    readBlock size (writeBlock buffer pos block) pos = block := by
  funext i
  have here : pos ≤ pos + i ∧ pos + i - pos < size := by omega
  rw [readBlock, writeBlock, dif_pos here]
  exact congrArg block (Fin.ext (Nat.add_sub_cancel_left ..))

/-- A write elsewhere is not seen. -/
theorem readBlock_writeBlock_apart {count : Nat} (buffer : Nat → α) (block : Fin size → α) {a b : Nat}
    (apart : a + count ≤ b ∨ b + size ≤ a) :
    readBlock count (writeBlock buffer b block) a = readBlock count buffer a := by
  funext i
  have outside : ¬ (b ≤ a + i ∧ a + i - b < size) := by omega
  rw [readBlock, writeBlock, dif_neg outside, readBlock]

/-- Other blocks stay as they are. -/
theorem readBlock_writeBlock_other (buffer : Nat → α) (block : Fin size → α) {a b : Nat} (other : a ≠ b) :
    readBlock size (writeBlock buffer (size * b) block) (size * a) = readBlock size buffer (size * a) := by
  apply readBlock_writeBlock_apart
  rcases Nat.lt_or_gt_of_ne other with before | after
  · have := Nat.mul_le_mul_left size (Nat.succ_le_of_lt before)
    rw [Nat.mul_succ] at this
    omega
  · have := Nat.mul_le_mul_left size (Nat.succ_le_of_lt after)
    rw [Nat.mul_succ] at this
    omega

/-- Writing a block again changes nothing. -/
theorem writeBlock_writeBlock (buffer : Nat → α) (pos : Nat) (block : Fin size → α) :
    writeBlock (writeBlock buffer pos block) pos block = writeBlock buffer pos block := by
  funext a
  by_cases inside : pos ≤ a ∧ a - pos < size
  · rw [writeBlock, dif_pos inside, writeBlock, dif_pos inside]
  · rw [writeBlock, dif_neg inside]

/-- Copy `n` blocks within one buffer, one after the other. -/
def copyBlocks (size : Nat) (buffer : Nat → α) (src dst : Nat) : Nat → Nat → α
  | 0 => buffer
  | n + 1 =>
      let copied := copyBlocks size buffer src dst n
      writeBlock copied (dst + size * n) (readBlock size copied (src + size * n))

/-- **Over windows with nothing in common the copy is simultaneous.** -/
theorem copyBlocks_apart (buffer : Nat → α) {src dst n : Nat}
    (apart : src + size * n ≤ dst ∨ dst + size * n ≤ src) (a : Nat) :
    copyBlocks size buffer src dst n a =
      if dst ≤ a ∧ a < dst + size * n then buffer (src + (a - dst)) else buffer a := by
  induction n generalizing a with
  | zero => rw [copyBlocks, if_neg (by omega)]
  | succ n ih =>
      rw [Nat.mul_succ] at apart ⊢
      have before := ih (by omega)
      rw [copyBlocks, writeBlock]
      by_cases last : dst + size * n ≤ a ∧ a - (dst + size * n) < size
      · -- the block read is a source block, which the turns before have not touched
        have source : src + size * n + (a - (dst + size * n)) = src + (a - dst) := by omega
        have untouched : ¬ (dst ≤ src + (a - dst) ∧ src + (a - dst) < dst + size * n) := by omega
        have inside : dst ≤ a ∧ a < dst + (size * n + size) := by omega
        rw [dif_pos last, if_pos inside, readBlock, source, before, if_neg untouched]
      · rw [dif_neg last, before]
        by_cases earlier : dst ≤ a ∧ a < dst + size * n
        · rw [if_pos earlier, if_pos (by omega)]
        · rw [if_neg earlier, if_neg (by omega)]

theorem readBlock_copyBlocks (buffer : Nat → α) {src dst n : Nat}
    (apart : src + size * n ≤ dst ∨ dst + size * n ≤ src) :
    readBlock (size * n) (copyBlocks size buffer src dst n) dst = readBlock (size * n) buffer src := by
  funext i
  rw [readBlock, copyBlocks_apart buffer apart, if_pos (by omega), Nat.add_sub_cancel_left, readBlock]

/-- Map the first `n` blocks of `input` into `output`, one after the other. -/
def mapBlocks (f : (Fin size → α) → Fin size → α) (input : Nat → α) :
    Nat → (Nat → α) → Nat → α
  | 0, output => output
  | n + 1, output =>
      writeBlock (mapBlocks f input n output) (size * n) (f (readBlock size input (size * n)))

variable {f g : (Fin size → α) → Fin size → α}

theorem mapBlocks_outside (f : (Fin size → α) → Fin size → α) (input output : Nat → α) {n a : Nat}
    (outside : size * n ≤ a) : mapBlocks f input n output a = output a := by
  induction n with
  | zero => rfl
  | succ n ih =>
      rw [Nat.mul_succ] at outside
      rw [mapBlocks, writeBlock, dif_neg (by omega), ih (by omega)]

/-- Block `b` of the result is the image of block `b` of the input. -/
theorem readBlock_mapBlocks (f : (Fin size → α) → Fin size → α) (input output : Nat → α) {n b : Nat}
    (inside : b < n) :
    readBlock size (mapBlocks f input n output) (size * b) =
      f (readBlock size input (size * b)) := by
  induction n with
  | zero => omega
  | succ n ih =>
      rw [mapBlocks]
      rcases Nat.lt_succ_iff_lt_or_eq.mp inside with earlier | rfl
      · rw [readBlock_writeBlock_other _ _ earlier.ne, ih earlier]
      · rw [readBlock_writeBlock]

/-- **Mapping the blocks back restores the input**, and touches nothing else. -/
theorem mapBlocks_mapBlocks (inverse : ∀ block, g (f block) = block) (input middle output : Nat → α)
    (n a : Nat) :
    mapBlocks g (mapBlocks f input n middle) n output a =
      if a < size * n then input a else output a := by
  split
  · rename_i inside
    have positive : 0 < size := by
      rcases Nat.eq_zero_or_pos size with rfl | positive
      · omega
      · exact positive
    have block : a / size < n := Nat.div_lt_of_lt_mul inside
    have own := congrFun (readBlock_mapBlocks g (mapBlocks f input n middle) output block)
      ⟨a % size, Nat.mod_lt _ positive⟩
    rw [readBlock_mapBlocks f input middle block, inverse] at own
    simpa [readBlock, Nat.div_add_mod] using own
  · exact mapBlocks_outside g _ _ (by omega)

end Blocks

end HyperSmile.Theory.BlockCipher
