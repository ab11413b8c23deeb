/-
# Enclave.Sealing — encryptMessage and decryptMessage of Crypto.c

Tag, initialisation vector and ciphertext stand at offsets 0, 16 and 28 of one buffer, for the
writer and for the reader alike: what `encryptMessage` builds opens to the message
(`decryptMessage_pDst`). But it builds it in a local array and never copies it out, so the
caller's buffer is as it was, and what comes back is what that buffer held before: the message
exactly if the buffer already opened to it, or did not open and the message is what a failed
decryption leaves (`sealed_message_iff`).

The SGX SDK is a parameter, with what its documentation promises: decryption returns the plaintext
for what encryption produced under the same key, and a ciphertext is as long as its plaintext. What
a decryption that fails leaves in its destination is a part of the parameter nothing is said about;
`decryptMessage` looks at no status and hands it out.
-/
import HyperSmile.Enclave.GcmTag
import HyperSmile.Theory.CInt

namespace HyperSmile.Enclave.Sealing

open HyperSmile.Crypto
open HyperSmile.Theory.CInt (C Fault ok_bind)

set_option autoImplicit false

/-! ## The SDK -/

abbrev Bytes := List (BitVec 8)

/-- `sgx_rijndael128GCM_encrypt` and `sgx_rijndael128GCM_decrypt`, without additional data. -/
structure Sdk where
  /-- ciphertext and tag, from key, IV and plaintext -/
  encrypt : Bytes → Bytes → Bytes → Bytes × Bytes
  /-- the plaintext, from key, IV, ciphertext and tag; `none` is an error -/
  decrypt : Bytes → Bytes → Bytes → Bytes → Option Bytes
  /-- what an error leaves of the destination, from key, IV, ciphertext and tag -/
  failed : Bytes → Bytes → Bytes → Bytes → (Nat → BitVec 8) → Nat → BitVec 8
  decrypt_encrypt : ∀ key iv p, decrypt key iv (encrypt key iv p).1 (encrypt key iv p).2 = some p
  length_encrypt : ∀ key iv p, (encrypt key iv p).1.length = p.length
  length_tag : ∀ key iv p, (encrypt key iv p).2.length = 16
  length_decrypt : ∀ key iv c t p, decrypt key iv c t = some p → p.length = c.length

/-! ## Buffers -/

abbrev Buffer := Nat → BitVec 8

/-- `n` bytes from an offset on. -/
def slice (b : Buffer) (offset n : Nat) : Bytes := (List.range n).map fun i => b (offset + i)

/-- Bytes written at an offset. -/
def write (b : Buffer) (offset : Nat) (bytes : Bytes) : Buffer :=
  fun i => if offset ≤ i ∧ i < offset + bytes.length then bytes.getD (i - offset) 0 else b i

@[simp] theorem length_slice (b : Buffer) (offset n : Nat) : (slice b offset n).length = n := by
  rw [slice, List.length_map, List.length_range]

theorem slice_write (b : Buffer) (offset : Nat) (bytes : Bytes) :
    slice (write b offset bytes) offset bytes.length = bytes := by
  apply List.ext_getElem
  · exact length_slice _ _ _
  · intro i _ inside
    simp [slice, write, inside]

/-- A write elsewhere is not seen. -/
theorem slice_write_apart (b : Buffer) {offset offset' n : Nat} {bytes : Bytes}
    (apart : offset + n ≤ offset' ∨ offset' + bytes.length ≤ offset) :
    slice (write b offset' bytes) offset n = slice b offset n := by
  apply List.map_congr_left
  intro i member
  have inside := List.mem_range.mp member
  exact if_neg (by omega)

/-- Two buffers agree on `n` bytes exactly if their slices are one. -/
theorem slice_eq_iff (b b' : Buffer) (n : Nat) : slice b 0 n = slice b' 0 n ↔ ∀ i < n, b i = b' i := by
  constructor
  · intro same i inside
    have here := congrArg (fun l => l[i]?) same
    simpa [slice, inside] using here
  · intro same
    apply List.map_congr_left
    intro i member
    rw [Nat.zero_add, same i (List.mem_range.mp member)]

/-! ## Crypto.c -/

/-- `BUFLEN` -/
def bufLen : Nat := 2048

/-- `SGX_AESGCM_MAC_SIZE` -/
def macSize : Nat := 16

/-- `SGX_AESGCM_IV_SIZE` -/
def ivSize : Nat := 12

def aesKey : Bytes := (List.range 16).map (BitVec.ofNat 8)

/-- What `encryptMessage` leaves: its local array and the caller's buffer. -/
structure Encrypted where
  pDst : Buffer
  encMessageOut : Buffer

/-- `encryptMessage`, with the IV that `sgx_read_rand` gives. -/
def encryptMessage (sdk : Sdk) (iv : Bytes) (decMessageIn : Buffer) (len : Nat)
    (encMessageOut : Buffer) (_lenOut : Nat) : C Encrypted :=
  if macSize + ivSize + len ≤ bufLen then
    let pDst : Buffer := fun _ => 0
    let pDst := write pDst macSize iv
    let sealing := sdk.encrypt aesKey iv (slice decMessageIn 0 len)
    let pDst := write pDst (macSize + ivSize) sealing.1
    let pDst := write pDst 0 sealing.2
    .ok ⟨pDst, encMessageOut⟩
  else .error .outOfBounds

/-- What an encrypted message of `len` bytes opens to. -/
def opened (sdk : Sdk) (encMessage : Buffer) (len : Nat) : Option Bytes :=
  sdk.decrypt aesKey (slice encMessage macSize ivSize) (slice encMessage (macSize + ivSize) len)
    (slice encMessage 0 macSize)

/-- What is left of a destination when such a message does not open. -/
def leftover (sdk : Sdk) (encMessage : Buffer) (len : Nat) (pDst : Buffer) : Buffer :=
  sdk.failed aesKey (slice encMessage macSize ivSize) (slice encMessage (macSize + ivSize) len)
    (slice encMessage 0 macSize) pDst

/-- `decryptMessage`; the status of the decryption is dropped. -/
def decryptMessage (sdk : Sdk) (encMessageIn : Buffer) (_len : Nat) (decMessageOut : Buffer)
    (lenOut : Nat) : C Buffer :=
  if lenOut ≤ bufLen then
    let pDst : Buffer := fun _ => 0
    let pDst := match opened sdk encMessageIn lenOut with
      | some plaintext => write pDst 0 plaintext
      | none => leftover sdk encMessageIn lenOut pDst
    .ok (write decMessageOut 0 (slice pDst 0 lenOut))
  else .error .outOfBounds

/-! ## What comes back -/

section Results

variable (sdk : Sdk)

/-- The bytes `decryptMessage` hands out. -/
theorem decryptMessage_eq (enc dec : Buffer) (size : Nat) {len : Nat} (room : len ≤ bufLen) :
    ∃ out, decryptMessage sdk enc size dec len = .ok out ∧
      slice out 0 len = (opened sdk enc len).getD (slice (leftover sdk enc len fun _ => 0) 0 len) := by
  rw [decryptMessage, if_pos room]
  refine ⟨_, rfl, ?_⟩
  have whole (bytes : Bytes) (size : bytes.length = len) : slice (write dec 0 bytes) 0 len = bytes := by
    rw [← size, slice_write]
  rw [whole _ (length_slice _ _ _)]
  cases result : opened sdk enc len with
  | none => rfl
  | some plaintext =>
      have size : plaintext.length = len := by
        rw [sdk.length_decrypt _ _ _ _ _ result, length_slice]
      rw [Option.getD_some, ← size, slice_write]

/-- The three parts stand where they were written. -/
theorem slices_layout {iv c t : Bytes} (nonce : iv.length = ivSize) (tag : t.length = macSize) :
    let b := write (write (write (fun _ => 0) macSize iv) (macSize + ivSize) c) 0 t
    slice b macSize ivSize = iv ∧ slice b (macSize + ivSize) c.length = c ∧ slice b 0 macSize = t := by
  refine ⟨?_, ?_, ?_⟩
  · rw [slice_write_apart _ (Or.inr (by omega)), slice_write_apart _ (Or.inl (le_refl _)), ← nonce, slice_write]
  · rw [slice_write_apart _ (Or.inr (by omega)), slice_write]
  · rw [← tag, slice_write]

/-- **What `encryptMessage` builds opens to the message**: the two layouts are one. -/
theorem decryptMessage_pDst {iv : Bytes} (nonce : iv.length = ivSize) (m enc : Buffer) {len : Nat}
    (room : len + 28 ≤ bufLen) :
    ∃ after, encryptMessage sdk iv m len enc (len + 28) = .ok after ∧ after.encMessageOut = enc ∧
      opened sdk after.pDst len = some (slice m 0 len) := by
  have fits : macSize + ivSize + len ≤ bufLen := by
    rw [macSize, ivSize]
    omega
  rw [encryptMessage, if_pos fits]
  refine ⟨_, rfl, rfl, ?_⟩
  have size := sdk.length_encrypt aesKey iv (slice m 0 len)
  obtain ⟨ivSlice, ciphertext, tag⟩ := slices_layout (c := (sdk.encrypt aesKey iv (slice m 0 len)).1) nonce
    (sdk.length_tag aesKey iv (slice m 0 len))
  rw [size, length_slice] at ciphertext
  rw [opened, ivSlice, ciphertext, tag, sdk.decrypt_encrypt]

/-- **When a message comes back through the caller's buffer**: if the buffer opened to it before
the call, or did not open at all and the message is what a failed decryption leaves. -/
theorem sealed_message_iff {iv : Bytes} (nonce : iv.length = ivSize) (m enc dec : Buffer) {len : Nat}
    (room : len + 28 ≤ bufLen) :
    ∃ after out, encryptMessage sdk iv m len enc (len + 28) = .ok after ∧
      decryptMessage sdk after.encMessageOut (len + 28) dec len = .ok out ∧
      ((∀ i < len, out i = m i) ↔ opened sdk enc len = some (slice m 0 len) ∨
        opened sdk enc len = none ∧ ∀ i < len, leftover sdk enc len (fun _ => 0) i = m i) := by
  obtain ⟨after, built, same, _⟩ := decryptMessage_pDst sdk nonce m enc room
  obtain ⟨out, ran, content⟩ := decryptMessage_eq sdk after.encMessageOut dec (len + 28) (by omega : len ≤ bufLen)
  refine ⟨after, out, built, ran, ?_⟩
  rw [← slice_eq_iff, content, same]
  cases result : opened sdk enc len with
  | none => simp [slice_eq_iff]
  | some plaintext => simp

end Results

namespace Example

open HyperSmile.Enclave.GcmTag (aes)

/-- AES-128 under a key given as a list. -/
noncomputable def blockCipher (key : Bytes) : Gcm.Block → Gcm.Block := aes fun n => key.getD n 0

/-- The 96-bit IV of a list. -/
def ivOf (iv : Bytes) : BitVec 96 := (Gcm.block iv).extractLsb' 32 96

theorem length_gctr (ciph : Gcm.Block → Gcm.Block) (icb : Gcm.Block) (text : Bytes) :
    (Gcm.gctr ciph icb text).length = text.length := List.length_mapIdx

/-- The SDK as it is: AES-128-GCM, with the destination cleared after an error. -/
noncomputable def gcmSdk : Sdk where
  encrypt := fun key iv p => Gcm.encrypt (blockCipher key) (ivOf iv) p []
  decrypt := fun key iv c t => Gcm.decrypt (blockCipher key) (ivOf iv) c [] t
  failed := fun _ _ c _ pDst => write pDst 0 (List.replicate c.length 0)
  decrypt_encrypt := fun key iv p => Gcm.open_seal (blockCipher key) (ivOf iv) p []
  length_encrypt := fun _ _ _ => length_gctr _ _ _
  length_tag := fun _ _ _ => by
    rw [Gcm.encrypt, Gcm.tag, length_gctr, Gcm.bytesOf, List.length_map, List.length_range]
  length_decrypt := by
    intro key iv c t p result
    rw [Gcm.decrypt] at result
    split at result
    · cases result
      exact length_gctr _ _ _
    · cases result

/-- `report`, and `enable`. -/
def report : Buffer := fun i => [0x72, 0x65, 0x70, 0x6f, 0x72, 0x74].getD i 0

def enable : Buffer := fun i => [0x65, 0x6e, 0x61, 0x62, 0x6c, 0x65].getD i 0

/-- IVs of 96 bits. -/
theorem nonce (b : BitVec 8) : (List.replicate 12 b).length = ivSize := List.length_replicate

/-- A buffer that holds what was sealed for `report`, with IV 07 .. 07. -/
theorem sealed_report :
    ∃ enc, (∃ built, encryptMessage gcmSdk (List.replicate 12 7) report 6 (fun _ => 0) 34 = .ok built ∧
        built.pDst = enc) ∧
      opened gcmSdk enc 6 = some (slice report 0 6) := by
  obtain ⟨built, ran, _, opens⟩ := decryptMessage_pDst gcmSdk (nonce 7) report (fun _ => 0)
    (by decide : 6 + 28 ≤ bufLen)
  exact ⟨built.pDst, ⟨built, ran, rfl⟩, opens⟩

/-- `enable`, sealed into the buffer of `report`, comes back as `report`. -/
theorem enable_lost :
    ∃ enc, (∃ built, encryptMessage gcmSdk (List.replicate 12 7) report 6 (fun _ => 0) 34 = .ok built ∧
        built.pDst = enc) ∧
      ∃ after out, encryptMessage gcmSdk (List.replicate 12 9) enable 6 enc 34 = .ok after ∧
        decryptMessage gcmSdk after.encMessageOut 34 (fun _ => 0) 6 = .ok out ∧
        slice out 0 6 = slice report 0 6 ∧ ¬ ∀ i < 6, out i = enable i := by
  obtain ⟨enc, built, opens⟩ := sealed_report
  obtain ⟨after, again, same, _⟩ := decryptMessage_pDst gcmSdk (nonce 9) enable enc (by decide : 6 + 28 ≤ bufLen)
  obtain ⟨out, ran, content⟩ := decryptMessage_eq gcmSdk after.encMessageOut (fun _ => 0) 34
    (by decide : 6 ≤ bufLen)
  rw [same, opens, Option.getD_some] at content
  refine ⟨enc, built, after, out, again, ran, content, fun returned => ?_⟩
  have first := (slice_eq_iff out report 6).mp content 0 (by omega)
  rw [returned 0 (by omega)] at first
  exact absurd first (by decide)

/-- `report`, sealed once more into its own buffer with another IV, comes back. -/
theorem report_comes_back :
    ∃ enc after out, encryptMessage gcmSdk (List.replicate 12 9) report 6 enc 34 = .ok after ∧
      decryptMessage gcmSdk after.encMessageOut 34 (fun _ => 5) 6 = .ok out ∧ ∀ i < 6, out i = report i := by
  obtain ⟨enc, _, opens⟩ := sealed_report
  obtain ⟨after, out, built, ran, comesBack⟩ := sealed_message_iff gcmSdk (nonce 9) report enc (fun _ => 5)
    (by decide : 6 + 28 ≤ bufLen)
  exact ⟨enc, after, out, built, ran, comesBack.mpr (Or.inl opens)⟩

end Example

end HyperSmile.Enclave.Sealing
