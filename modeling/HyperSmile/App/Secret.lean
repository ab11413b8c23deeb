/-
# App.Secret — the page that worker() reports

`worker` copies a page into `data` and has `create_secret` encrypt it into `data_crypto`,
which is zero before. The call there is `aesEncrypt(key, 16, pt, ct, 1)`: a length of one is
refused, the return value is dropped, and the zeros are what is reported. They decrypt to one
and the same block 256 times, so the page can be had back exactly if it consists of that
block (`reported_page_iff`).
-/
import HyperSmile.Crypto.AesRoundTrip
import HyperSmile.Enclave.AesNi

namespace HyperSmile.App.Secret

open HyperSmile.Crypto.Aes
open HyperSmile.Enclave.AesNi (cipherRegister cipherRegister_eq)
open HyperSmile.Enclave.Sse (ofBytes byteAt)
open HyperSmile.Theory.BlockCipher

set_option autoImplicit false

/-! ## The program -/

def memset (buffer : Buffer) (value : BitVec 8) (size : Nat) : Buffer :=
  fun i => if i < size then value else buffer i

def memcpy (dst src : Buffer) (size : Nat) : Buffer := fun i => if i < size then src i else dst i

def keyBytes : List (BitVec 8) :=
  [0x2b, 0x7e, 0x15, 0x16, 0x28, 0xae, 0xd2, 0xa6, 0xab, 0xf7, 0x15, 0x88, 0x09, 0xcf, 0x4f, 0x3c]

def key : Buffer := fun i => keyBytes.getD i 0

/-- What `create_secret(pt, ct)` leaves in `ct`; its RSA part touches neither buffer. -/
def createSecret (pt ct : Buffer) : Buffer :=
  ((aesEncrypt (some key) 16 (some pt) (some ct) 1).output).getD ct

/-- The buffers of `worker` that matter here. -/
structure Buffers where
  dataPage : Buffer
  data : Buffer
  dataCrypto : Buffer

/-- `worker()`, up to the report.  The page is shared: between the `memset` that clears it and the
`memcpy` that copies it, others may write to it (`shared`). -/
def worker (shared : Buffer → Buffer) (b : Buffers) : Buffers :=
  let size := 4096
  let b := { b with data := memset b.data 0 size, dataCrypto := memset b.dataCrypto 0 size }
  let b := { b with dataPage := shared (memset b.dataPage 0 size) }
  let b := { b with data := memcpy b.data b.dataPage size }
  { b with dataCrypto := createSecret b.data b.dataCrypto }

/-! ## What is reported -/

/-- The length one is refused, whatever the buffers hold. -/
theorem createSecret_eq (pt ct : Buffer) : createSecret pt ct = ct := by
  have refused := (aesCrypt_refused encryptState key pt ct
    (show 16 < (16 : BitVec 32) ∨ (1 : BitVec 32) % 16 ≠ 0 from Or.inr (by decide))).2
  rw [createSecret, aesEncrypt, refused, Option.getD_some]

theorem worker_data (shared : Buffer → Buffer) (b : Buffers) {i : Nat} (inside : i < 4096) :
    (worker shared b).data i = (worker shared b).dataPage i := if_pos inside

/-- What is reported is zero. -/
theorem worker_dataCrypto (shared : Buffer → Buffer) (b : Buffers) {i : Nat} (inside : i < 4096) :
    (worker shared b).dataCrypto i = 0 := by
  rw [worker, createSecret_eq]
  exact if_pos inside

/-- The block that the key takes to zero. -/
def zeroBlock : Fin 16 → BitVec 8 :=
  ![0xad, 0xb6, 0x37, 0x51, 0x4c, 0xca, 0x39, 0x92, 0x24, 0x2c, 0xd8, 0xb7, 0x5d, 0xbd, 0x0a, 0xd5]

theorem encryptBlock_zeroBlock : encryptBlock key zeroBlock = fun _ => 0 := by
  rw [encryptBlock_eq_cipher, ← cipherRegister_eq]
  have zeros : cipherRegister (ofBytes fun n => key n) (ofBytes zeroBlock) = 0 := by decide +kernel
  funext n
  exact (congrArg (byteAt · n) zeros).trans (by simp [byteAt])

theorem decrypt_zeros :
    storeStateArray (decryptState (schedule key 16) (loadStateArray fun _ => 0)) = zeroBlock := by
  rw [← encryptBlock_zeroBlock]
  exact decryptBlock_encryptBlock key 16 zeroBlock

/-- Decrypting 256 blocks of zeros. -/
theorem aesDecrypt_zeros {input : Buffer} (zeros : ∀ i < 4096, input i = 0) (out : Buffer) :
    ∃ out', aesDecrypt (some key) 16 (some input) (some out) 4096 = ⟨0, "", some out'⟩ ∧
      ∀ i < 4096, out' i = zeroBlock ⟨i % 16, Nat.mod_lt i (by decide)⟩ := by
  refine ⟨_, aesCrypt_accepted decryptState key input out (by decide) (by decide), ?_⟩
  intro i inside
  have block : i / 16 < 256 := by omega
  have zero : readBlock 16 input (16 * (i / 16)) = fun _ => 0 := by
    funext n
    exact zeros _ (by omega)
  have own := congrFun (readBlock_mapBlocks (fun block =>
    storeStateArray (decryptState (schedule key 16) (loadStateArray block))) input out block)
    ⟨i % 16, Nat.mod_lt i (by decide)⟩
  rw [zero, decrypt_zeros, readBlock] at own
  rw [← own]
  exact congrArg _ (Nat.div_add_mod i 16).symm

/-- **When the reported page decrypts to the page**: if it is `zeroBlock`, 256 times. -/
theorem reported_page_iff (shared : Buffer → Buffer) (b : Buffers) (out : Buffer) :
    ∃ out', aesDecrypt (some key) 16 (some (worker shared b).dataCrypto) (some out) 4096 =
        ⟨0, "", some out'⟩ ∧
      ((∀ i < 4096, out' i = (worker shared b).data i) ↔
        ∀ i < 4096, (worker shared b).dataPage i = zeroBlock ⟨i % 16, Nat.mod_lt i (by decide)⟩) := by
  obtain ⟨out', accepted, blocks⟩ := aesDecrypt_zeros (fun i => worker_dataCrypto shared b) out
  refine ⟨out', accepted, ?_⟩
  constructor
  · intro same i inside
    rw [← worker_data shared b inside, ← same i inside, blocks i inside]
  · intro page i inside
    rw [worker_data shared b inside, page i inside, blocks i inside]

namespace Example

/-- A page that nobody wrote to. -/
def untouched : Buffers := worker id ⟨fun _ => 7, fun _ => 8, fun _ => 9⟩

/-- The page is zero, and comes back as 0xad, 0xb6, ... -/
theorem untouched_page_lost :
    ∃ out', aesDecrypt (some key) 16 (some untouched.dataCrypto) (some fun _ => 0) 4096 =
        ⟨0, "", some out'⟩ ∧ untouched.data 0 = 0 ∧ out' 0 = 0xad := by
  obtain ⟨out', accepted, blocks⟩ := aesDecrypt_zeros
    (fun i => worker_dataCrypto id ⟨fun _ => 7, fun _ => 8, fun _ => 9⟩) fun _ => 0
  exact ⟨out', accepted, rfl, blocks 0 (by decide)⟩

end Example

end HyperSmile.App.Secret
