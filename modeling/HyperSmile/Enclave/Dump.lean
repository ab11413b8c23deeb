/-
# Enclave.Dump — the page that worker() dumps, in two enclaves

`ecall_worker` of smile_test encrypts block `i` of its data into block `i` of its page, for all 256
blocks (`ecallWorker_dumps`). `worker` of smile_anchor_test has the same loop without the index:
256 times it encrypts block 1 of `input` into block 1 of `buf`. The page it reports is the dump
exactly if the other 255 blocks held it before (`worker_dumps_iff`).

`aes_encrypt` is any function of a block and a key. `buf` comes from the bridge of the enclave and
does not overlap `input`.
-/
import HyperSmile.Theory.BlockCipher
import Mathlib.Logic.Function.Iterate
import Mathlib.Data.Fin.VecNotation

namespace HyperSmile.Enclave.Dump

open HyperSmile.Theory.BlockCipher

set_option autoImplicit false

abbrev Block := Fin 16 → BitVec 8

abbrev Buffer := Nat → BitVec 8

section Loops

variable (aesEncrypt : Block → Block → Block) (key : Block)

/-- `aes_encrypt(input + src, output + dst, key)` -/
def encryptInto (input : Buffer) (src : Nat) (output : Buffer) (dst : Nat) : Buffer :=
  writeBlock output dst (aesEncrypt (readBlock 16 input src) key)

/-- `worker(buf)` of smile_anchor_test -/
def worker (input buf : Buffer) : Buffer :=
  (fun buf => encryptInto aesEncrypt key input 16 buf 16)^[256] buf

/-- `for(int i=0;i<n;i++)` of `ecall_worker` -/
def ecallLoop (data : Buffer) : Nat → Buffer → Buffer
  | 0, dataPage => dataPage
  | n + 1, dataPage => encryptInto aesEncrypt key data (n * 16) (ecallLoop data n dataPage) (n * 16)

/-- `ecall_worker()` of smile_test: the loop, 11462 times -/
def ecallWorker (data dataPage : Buffer) : Buffer := (ecallLoop aesEncrypt key data 256)^[11462] dataPage

/-- The page holds every block of `input`, encrypted. -/
def Dumps (input page : Buffer) : Prop :=
  ∀ i < 256, readBlock 16 page (16 * i) = aesEncrypt (readBlock 16 input (16 * i)) key

/-! ## The loop with an index -/

theorem ecallLoop_eq (data : Buffer) (n : Nat) (dataPage : Buffer) :
    ecallLoop aesEncrypt key data n dataPage = mapBlocks (fun block => aesEncrypt block key) data n dataPage := by
  induction n with
  | zero => rfl
  | succ n ih => rw [ecallLoop, ih, encryptInto, mapBlocks, Nat.mul_comm n]

/-- `ecall_worker` dumps its data. -/
theorem ecallWorker_dumps (data dataPage : Buffer) :
    Dumps aesEncrypt key data (ecallWorker aesEncrypt key data dataPage) := by
  intro i inside
  rw [ecallWorker, Function.iterate_succ_apply', ecallLoop_eq,
    readBlock_mapBlocks (fun block => aesEncrypt block key) data _ inside]

/-! ## The loop without -/

/-- 256 turns do what one does. -/
theorem worker_eq (input buf : Buffer) :
    worker aesEncrypt key input buf = encryptInto aesEncrypt key input 16 buf 16 := by
  have turns (n : Nat) : (fun buf => encryptInto aesEncrypt key input 16 buf 16)^[n + 1] buf =
      encryptInto aesEncrypt key input 16 buf 16 := by
    induction n with
    | zero => rfl
    | succ n ih =>
        rw [Function.iterate_succ_apply', ih]
        exact writeBlock_writeBlock buf 16 _
  exact turns 255

/-- **When `worker` reports the whole page**: if every block but block 1 was there before. -/
theorem worker_dumps_iff (input buf : Buffer) :
    Dumps aesEncrypt key input (worker aesEncrypt key input buf) ↔
      ∀ i < 256, i ≠ 1 → readBlock 16 buf (16 * i) = aesEncrypt (readBlock 16 input (16 * i)) key := by
  have other (i : Nat) (apart : i ≠ 1) :
      readBlock 16 (worker aesEncrypt key input buf) (16 * i) = readBlock 16 buf (16 * i) := by
    rw [worker_eq]
    exact readBlock_writeBlock_other buf _ apart
  constructor
  · intro dumps i inside apart
    rw [← other i apart]
    exact dumps i inside
  · intro before i inside
    by_cases one : i = 1
    · subst one
      rw [worker_eq]
      exact readBlock_writeBlock buf 16 _
    · rw [other i one]
      exact before i inside one

end Loops

namespace Example

/-- `key` of Enclave.cpp -/
def keyBlock : Block :=
  ![0x2b, 0x7e, 0x15, 0x16, 0x28, 0xae, 0xd2, 0xa6, 0xab, 0xf7, 0x32, 0x29, 0x1a, 0xc1, 0x30, 0x08]

/-- The page after `init_input`, a cleared buffer, and a function that adds the key: block 0 of the
buffer stays clear. -/
theorem first_block_missing :
    let sum : Block → Block → Block := fun block key n => block n ^^^ key n
    worker sum keyBlock (fun _ => 0xac) (fun _ => 0) 0 = 0 ∧
      ¬ Dumps sum keyBlock (fun _ => 0xac) (worker sum keyBlock (fun _ => 0xac) fun _ => 0) := by
  intro sum
  have first : worker sum keyBlock (fun _ => 0xac) (fun _ => 0) 0 = 0 := by
    rw [worker_eq]
    rfl
  refine ⟨first, fun dumps => ?_⟩
  have byte := congrFun (dumps 0 (by decide)) 0
  exact absurd (first.symm.trans byte) (by decide)

end Example

end HyperSmile.Enclave.Dump
