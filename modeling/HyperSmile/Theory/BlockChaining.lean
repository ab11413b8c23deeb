/-
# Theory.BlockChaining — loops over blocks that pass a value on

`mapBlocks` treats every block alike. In a chaining mode each turn also takes a value from the turn
before and leaves one for the next (`Turn`); `chainBlocks` is the loop.

* `chainBlocks_undo`: a loop is undone by one whose turns undo its turns and pass the same values on.
* `chainBlocks_simulates`: the value may be kept in another form.
* Cipher block chaining over any pair of inverse block maps: a plaintext block comes from the
  ciphertext block and the one before it (`readBlock_cbcDecrypt`), so a change to one ciphertext block
  reaches two plaintext blocks and no others (`cbcDecrypt_changed`).
-/
import HyperSmile.Theory.BlockCipher

namespace HyperSmile.Theory.BlockChaining

open HyperSmile.Theory.BlockCipher

set_option autoImplicit false

/-! ## Loops -/

section Loops

variable {α σ τ : Type} {size : Nat}

/-- One turn: the block to write, and the value for the next turn. -/
abbrev Turn (α σ : Type) (size : Nat) := σ → (Fin size → α) → (Fin size → α) × σ

/-- The value that reaches block `n`. -/
def carried (turn : Turn α σ size) (input : Nat → α) (start : σ) : Nat → σ
  | 0 => start
  | n + 1 => (turn (carried turn input start n) (readBlock size input (size * n))).2

/-- The loop over the first `n` blocks of `input`. -/
def chainBlocks (turn : Turn α σ size) (input : Nat → α) (start : σ) : Nat → (Nat → α) → Nat → α
  | 0, output => output
  | n + 1, output =>
      writeBlock (chainBlocks turn input start n output) (size * n)
        (turn (carried turn input start n) (readBlock size input (size * n))).1

variable {turn : Turn α σ size}

theorem chainBlocks_outside (turn : Turn α σ size) (input output : Nat → α) (start : σ) {n a : Nat}
    (outside : size * n ≤ a) : chainBlocks turn input start n output a = output a := by
  induction n with
  | zero => rfl
  | succ n ih =>
      rw [Nat.mul_succ] at outside
      rw [chainBlocks, writeBlock, dif_neg (by omega), ih (by omega)]

theorem readBlock_chainBlocks (turn : Turn α σ size) (input output : Nat → α) (start : σ) {n b : Nat}
    (inside : b < n) :
    readBlock size (chainBlocks turn input start n output) (size * b) =
      (turn (carried turn input start b) (readBlock size input (size * b))).1 := by
  induction n with
  | zero => omega
  | succ n ih =>
      rw [chainBlocks]
      rcases Nat.lt_succ_iff_lt_or_eq.mp inside with earlier | rfl
      · rw [readBlock_writeBlock_other _ _ earlier.ne, ih earlier]
      · rw [readBlock_writeBlock]

/-- Buffers with the same blocks have the same bytes. -/
theorem eq_of_blocks {x y : Nat → α} {n a : Nat}
    (same : ∀ b < n, readBlock size x (size * b) = readBlock size y (size * b))
    (inside : a < size * n) : x a = y a := by
  have positive : 0 < size := by
    rcases Nat.eq_zero_or_pos size with rfl | positive
    · omega
    · exact positive
  have block : a / size < n := Nat.div_lt_of_lt_mul inside
  have byte := congrFun (same (a / size) block) ⟨a % size, Nat.mod_lt _ positive⟩
  simpa [readBlock, Nat.div_add_mod] using byte

/-- **Turns that undo each other make loops that undo each other.** -/
theorem chainBlocks_undo {back : Turn α σ size}
    (undo : ∀ s block, back s (turn s block).1 = (block, (turn s block).2)) (input middle output : Nat → α)
    (start : σ) (n a : Nat) :
    chainBlocks back (chainBlocks turn input start n middle) start n output a =
      if a < size * n then input a else output a := by
  let between := chainBlocks turn input start n middle
  have turned (b : Nat) (inside : b < n) : readBlock size between (size * b) =
      (turn (carried turn input start b) (readBlock size input (size * b))).1 :=
    readBlock_chainBlocks turn input middle start inside
  -- both loops pass the same values on
  have values (b : Nat) (inside : b ≤ n) :
      carried back between start b = carried turn input start b := by
    induction b with
    | zero => rfl
    | succ b ih => rw [carried, carried, ih (by omega), turned b (by omega), undo]
  split
  · rename_i inside
    refine eq_of_blocks (fun b before => ?_) inside
    rw [readBlock_chainBlocks back between output start before, values b before.le, turned b before, undo]
  · exact chainBlocks_outside back between output start (by omega)

/-- The value may be kept in another form. -/
theorem chainBlocks_simulates {turn' : Turn α τ size} {view : σ → τ}
    (simulates : ∀ s block, turn' (view s) block = ((turn s block).1, view (turn s block).2))
    (input output : Nat → α) (start : σ) (n : Nat) :
    chainBlocks turn' input (view start) n output = chainBlocks turn input start n output := by
  have values (b : Nat) : carried turn' input (view start) b = view (carried turn input start b) := by
    induction b with
    | zero => rfl
    | succ b ih => rw [carried, ih, simulates, carried]
  induction n with
  | zero => rfl
  | succ n ih => rw [chainBlocks, ih, values, simulates, chainBlocks]

end Loops

/-! ## Cipher block chaining -/

section Chaining

variable {w size : Nat}

def xorBlock (a b : Fin size → BitVec w) : Fin size → BitVec w := fun i => a i ^^^ b i

theorem xorBlock_cancel (a b : Fin size → BitVec w) : xorBlock (xorBlock a b) b = a := by
  funext i
  rw [xorBlock, xorBlock, BitVec.xor_assoc, BitVec.xor_self, BitVec.xor_zero]

variable (enc dec : (Fin size → BitVec w) → Fin size → BitVec w)

def cbcEncrypt : Turn (BitVec w) (Fin size → BitVec w) size := fun before block =>
  let sent := enc (xorBlock block before)
  (sent, sent)

def cbcDecrypt : Turn (BitVec w) (Fin size → BitVec w) size := fun before block =>
  (xorBlock (dec block) before, block)

variable {enc dec}

theorem cbcDecrypt_cbcEncrypt (inverse : ∀ block, dec (enc block) = block) (before block : Fin size → BitVec w) :
    cbcDecrypt dec before (cbcEncrypt enc before block).1 = (block, (cbcEncrypt enc before block).2) := by
  rw [cbcDecrypt, cbcEncrypt, inverse, xorBlock_cancel]

variable (enc dec)

/-- The block before block `b`: the initial vector before the first one. -/
def previous (buffer : Nat → BitVec w) (iv : Fin size → BitVec w) : Nat → Fin size → BitVec w
  | 0 => iv
  | b + 1 => readBlock size buffer (size * b)

theorem carried_cbcDecrypt (input : Nat → BitVec w) (iv : Fin size → BitVec w) (b : Nat) :
    carried (cbcDecrypt dec) input iv b = previous input iv b := by
  cases b <;> rfl

/-- What is carried forward is what was written last. -/
theorem carried_cbcEncrypt (input output : Nat → BitVec w) (iv : Fin size → BitVec w) {n b : Nat} (inside : b ≤ n) :
    carried (cbcEncrypt enc) input iv b = previous (chainBlocks (cbcEncrypt enc) input iv n output) iv b := by
  cases b with
  | zero => rfl
  | succ b =>
      rw [previous, readBlock_chainBlocks _ _ _ _ inside]
      rfl

/-- **Encryption**: every block goes through the cipher with the ciphertext block before it. -/
theorem readBlock_cbcEncrypt (input output : Nat → BitVec w) (iv : Fin size → BitVec w) {n b : Nat}
    (inside : b < n) :
    let sent := chainBlocks (cbcEncrypt enc) input iv n output
    readBlock size sent (size * b) = enc (xorBlock (readBlock size input (size * b)) (previous sent iv b)) := by
  intro sent
  rw [readBlock_chainBlocks _ _ _ _ inside, carried_cbcEncrypt enc input output iv inside.le]
  rfl

/-- **Decryption** looks at a ciphertext block and the one before it. -/
theorem readBlock_cbcDecrypt (input output : Nat → BitVec w) (iv : Fin size → BitVec w) {n b : Nat}
    (inside : b < n) :
    readBlock size (chainBlocks (cbcDecrypt dec) input iv n output) (size * b) =
      xorBlock (dec (readBlock size input (size * b))) (previous input iv b) := by
  rw [readBlock_chainBlocks _ _ _ _ inside, carried_cbcDecrypt]
  rfl

variable {dec}

/-- **A changed ciphertext block** changes its own plaintext block, changes the next one by the
difference, bit for bit, and no other. -/
theorem cbcDecrypt_changed (injective : Function.Injective dec) {input input' : Nat → BitVec w}
    (output : Nat → BitVec w) (iv : Fin size → BitVec w) {n k : Nat}
    (others : ∀ b < n, b ≠ k → readBlock size input' (size * b) = readBlock size input (size * b))
    {b : Nat} (inside : b < n) :
    let plain := chainBlocks (cbcDecrypt dec) input iv n output
    let plain' := chainBlocks (cbcDecrypt dec) input' iv n output
    (b = k → (readBlock size plain' (size * b) = readBlock size plain (size * b) ↔
      readBlock size input' (size * k) = readBlock size input (size * k))) ∧
    (b = k + 1 → xorBlock (readBlock size plain' (size * b)) (readBlock size plain (size * b)) =
      xorBlock (readBlock size input' (size * k)) (readBlock size input (size * k))) ∧
    (b ≠ k → b ≠ k + 1 → readBlock size plain' (size * b) = readBlock size plain (size * b)) := by
  intro plain plain'
  have before (other : b ≠ k + 1) : previous input' iv b = previous input iv b := by
    cases b with
    | zero => rfl
    | succ b => exact others b (by omega) (by omega)
  rw [readBlock_cbcDecrypt dec input output iv inside, readBlock_cbcDecrypt dec input' output iv inside]
  refine ⟨?_, ?_, ?_⟩
  · rintro rfl
    rw [before (by omega)]
    refine ⟨fun same => injective ?_, fun same => by rw [same]⟩
    rw [← xorBlock_cancel (dec _) (previous input iv b), same, xorBlock_cancel]
  · rintro rfl
    rw [others (k + 1) inside (by omega)]
    funext i
    simp only [xorBlock, previous]
    generalize dec (readBlock size input (size * (k + 1))) i = d
    have cancel (x y : BitVec w) : d ^^^ x ^^^ (d ^^^ y) = x ^^^ y := by
      rw [BitVec.xor_comm d x, BitVec.xor_assoc x, ← BitVec.xor_assoc d, BitVec.xor_self, BitVec.zero_xor]
    exact cancel _ _
  · intro other next
    rw [others b inside other, before next]

end Chaining

end HyperSmile.Theory.BlockChaining
