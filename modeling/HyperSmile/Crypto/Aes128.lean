/-
# Crypto.Aes128 — AES128.c: padding, ECB and CBC, and the program around them

AES128.c has the rounds and tables of aes.h, line for line, so the work on one block is that of
`Crypto.Aes`. New are the modes: both encryptions pad the plaintext to `ctlen` bytes first, the
CBC functions add a chaining value to each block.

The initial vector is loaded row by row, the blocks column by column. Both directions do it, so
nothing is lost; the mode is CBC with the transposed vector (`aesCBCEncrypt_is_cbc`).

`case2` of main.c reads a word with `scanf`, encrypts it up to its first zero byte, decrypts that and
prints what is left without the padding. How much padding there is it asks `getNumOfPadding`, which
looks at the sixteen bytes *before* the array: if they happen to be 0x10 it answers 16. The text comes
back exactly if they are not, or if its length is a multiple of 16 (`case2_prints_iff`).

A store or a load outside of an array is a fault, and so is the loop over `input` when `scanf` stored
nothing. The hex dumps the functions print for information
are left out; lengths are below 2^31, as the loops count in an `int`.
-/
import HyperSmile.Crypto.AesFips
import HyperSmile.Theory.BlockChaining
import HyperSmile.Theory.CInt
import Mathlib.Data.Fintype.Pi

namespace HyperSmile.Crypto.Aes128

open HyperSmile.Crypto.Aes
open HyperSmile.Crypto.Fips197 (cipher)
open HyperSmile.Theory.BlockChaining
open HyperSmile.Theory.BlockCipher
open HyperSmile.Theory.CInt

set_option autoImplicit false

/-! ## Padding: AES128.c and utils.c -/

/-- The first multiple of 16 that is not less than `curlen`. -/
def findTrueLen (curlen : Int) : C Int :=
  if curlen ≤ 0 then .ok (-1)
  else do
    let rest ← CType.int.rem curlen 16
    if rest = 0 then return curlen
    else do
      let blocks ← CType.int.quot curlen 16
      let blocks ← CType.int.add blocks 1
      CType.int.mul blocks 16

def getCiphertextLen (plainTextLen : Int) : C Int := do
  let rest ← CType.int.rem plainTextLen 16
  if rest = 0 then do
    let ciphertextLen ← CType.int.add plainTextLen 16
    findTrueLen ciphertextLen
  else findTrueLen plainTextLen

/-- `PKCS7Padding`; `plaintext` is an array of `ciphertextLen` bytes. -/
def pkcs7Padding (input : Buffer) (inputLen : Int) (plaintext : Buffer) (ciphertextLen : Nat)
    (numOfPadding : Int) : C Buffer :=
  if ciphertextLen < inputLen then .error .outOfBounds
  else .ok fun i =>
    if i < inputLen then input i
    else if i < ciphertextLen then BitVec.ofInt 8 numOfPadding
    else plaintext i

/-- `getNumOfPadding`; `before` are the sixteen bytes at `plaintextFull - BLOCKSIZE`. -/
def getNumOfPadding (before : Fin 16 → BitVec 8) (plaintextFull : Buffer) (ciphertextLen : Nat) : Nat :=
  if ∀ i, before i = 16 then 16 else (plaintextFull (ciphertextLen - 1)).toNat

/-! ## The modes: AES128.c -/

/-- `state[i][j] ^= iv[i][j]` -/
def xoriv (state iv : State) : State := .ofBytes fun i j => (state.get i).get j ^^^ (iv.get i).get j

/-- `iv_tmp[i][j] = iv[4 * i + j]` -/
def ivTmp (iv : Buffer) : State := .ofBytes fun i j => iv (4 * i + j)

/-- One turn of the loop in `aesCBCEncrypt`. -/
def encryptTurn (aesKey : AesKey) : Turn (BitVec 8) State 16 := fun iv block =>
  let state := encryptState aesKey (xoriv (loadStateArray block) iv)
  (storeStateArray state, state)

/-- One turn of the loop in `aesCBCDecrypt`. At its end `iv_tmp[i][j] = ct[4 * j + i]`, which is what
`loadStateArray` does to the state. -/
def decryptTurn (aesKey : AesKey) : Turn (BitVec 8) State 16 := fun iv block =>
  let state := xoriv (decryptState aesKey (loadStateArray block)) iv
  (storeStateArray state, loadStateArray block)

/-- What the two encryptions share. `mode` is the loop over the blocks, `array` what the stack holds
where `ptWithPadding` is; a last block that is not whole is read beyond it. -/
def paddedEncrypt (mode : AesKey → Buffer → Nat → Buffer → Buffer) (array key : Buffer) (keyLen : BitVec 32)
    (pt : Buffer) (ptLen : Int) (ct : Buffer) (ctlen : BitVec 32) : C Call :=
  if 16 < keyLen then .ok ⟨-1, "keyLen must be 16.\n", some ct⟩
  else do
    let numOfPadding := ctlen.toNat - ptLen
    let ptWithPadding ← pkcs7Padding pt ptLen array ctlen.toNat numOfPadding
    if ctlen % 16 ≠ 0 then .error .outOfBounds
    else
      let aesKey := (keyExpansion (some (actualKey key keyLen)) 16 .blank).2
      return ⟨0, "", some (mode aesKey ptWithPadding (ctlen.toNat / 16) ct)⟩

def aesECBEncrypt (array : Buffer) (key : Option Buffer) (keyLen : BitVec 32) (pt : Option Buffer)
    (ptLen : Int) (ct : Option Buffer) (ctlen : BitVec 32) : C Call :=
  match key, ct, pt with
  | some key, some ct, some pt =>
      paddedEncrypt (fun aesKey => mapBlocks fun block =>
        storeStateArray (encryptState aesKey (loadStateArray block))) array key keyLen pt ptLen ct ctlen
  | _, _, _ => .ok ⟨-1, "param err.\n", ct⟩

def aesCBCEncrypt (array : Buffer) (key : Option Buffer) (keyLen : BitVec 32) (pt : Option Buffer)
    (ptLen : Int) (ct : Option Buffer) (ctlen : BitVec 32) (iv : Option Buffer) : C Call :=
  match key, ct, pt, iv with
  | some key, some ct, some pt, some iv =>
      paddedEncrypt (fun aesKey input => chainBlocks (encryptTurn aesKey) input (ivTmp iv)) array key keyLen
        pt ptLen ct ctlen
  | _, _, _, _ => .ok ⟨-1, "param err.\n", ct⟩

/-- `aesECBDecrypt` is `aesDecrypt` of aes.h under another name. -/
def aesECBDecrypt : Option Buffer → BitVec 32 → Option Buffer → Option Buffer → BitVec 32 → Call := aesDecrypt

/-- `aesCBCDecrypt` does not test `iv`. -/
def aesCBCDecrypt (key : Option Buffer) (keyLen : BitVec 32) (ct pt : Option Buffer) (len : BitVec 32)
    (iv : Option Buffer) : C Call :=
  match key, ct, pt with
  | some key, some ct, some pt =>
      if 16 < keyLen then .ok ⟨-1, "keyLen must be 16.\n", some pt⟩
      else if len % 16 ≠ 0 then .ok ⟨-1, "inLen is invalid.\n", some pt⟩
      else
        match iv with
        | none => .error .outOfBounds
        | some iv =>
            let aesKey := (keyExpansion (some (actualKey key keyLen)) 16 .blank).2
            .ok ⟨0, "", some (chainBlocks (decryptTurn aesKey) ct (ivTmp iv) (len.toNat / 16) pt)⟩
  | _, _, _ => .ok ⟨-1, "param err.\n", pt⟩

/-! ## The program: main.c -/

inductive WorkMode where
  | cbc
  | ecb
  deriving DecidableEq, Repr

/-- The calls `case1` and `case2` make in each mode. -/
def WorkMode.encrypt (mode : WorkMode) (array : Buffer) (key : Option Buffer) (keyLen : BitVec 32)
    (pt : Option Buffer) (ptLen : Int) (ct : Option Buffer) (ctlen : BitVec 32) (iv : Option Buffer) : C Call :=
  match mode with
  | .cbc => aesCBCEncrypt array key keyLen pt ptLen ct ctlen iv
  | .ecb => aesECBEncrypt array key keyLen pt ptLen ct ctlen

def WorkMode.decrypt (mode : WorkMode) (key : Option Buffer) (keyLen : BitVec 32) (ct pt : Option Buffer)
    (len : BitVec 32) (iv : Option Buffer) : C Call :=
  match mode with
  | .cbc => aesCBCDecrypt key keyLen ct pt len iv
  | .ecb => .ok (aesECBDecrypt key keyLen ct pt len)

def key : Buffer := fun i =>
  [0x2b, 0x7e, 0x15, 0x16, 0x28, 0xae, 0xd2, 0xa6, 0xab, 0xf7, 0x15, 0x88, 0x09, 0xcf, 0x4f, 0x3c].getD i 0

/-- `{1, 2, ..., 16}` -/
def iv : Buffer := fun i => BitVec.ofNat 8 (i + 1)

/-- What is in the arrays of `case2` before anything is stored there. -/
structure Arrays where
  ptWithPadding : Buffer
  ciphertext : Buffer
  plaintextFull : Buffer
  /-- the bytes in front of `plaintextFull` -/
  before : Fin 16 → BitVec 8

/-- White space to `scanf`: tab, line feed, vertical tab, form feed, carriage return and blank. -/
def isSpace (c : BitVec 8) : Bool := c = 0x20 || (0x09 ≤ c && c ≤ 0x0d)

/-- `scanf("%s", input)`: the word it stores, a zero byte behind it. It stores nothing if the input
ends before a word. -/
def scanWord (stdin : List (BitVec 8)) : Option (List (BitVec 8)) :=
  let word := (stdin.dropWhile isSpace).takeWhile fun c => !isSpace c
  if word = [] then none else some word

/-- `while(input[inputLen++] != '\0'); inputLen--;` -/
def inputLen (input : List (BitVec 8)) : Nat := (input.takeWhile (· ≠ 0)).length

/-- `case2`: the characters its last line prints. -/
def case2 (mode : WorkMode) (a : Arrays) (stdin : List (BitVec 8)) : C (List (BitVec 8)) :=
  match scanWord stdin with
  | none => .error .indeterminate
  | some word =>
      if 100 ≤ word.length then .error .outOfBounds
      else do
        let input := word ++ [0]
        let text : Buffer := fun i => input.getD i 0
        let inputLen := inputLen input
        let ciphertextLen ← getCiphertextLen inputLen
        let len := BitVec.ofInt 32 ciphertextLen
        let sent ← mode.encrypt a.ptWithPadding (some key) 16 (some text) inputLen (some a.ciphertext) len (some iv)
        let got ← mode.decrypt (some key) 16 sent.output (some a.plaintextFull) len (some iv)
        let plaintextFull := got.output.getD a.plaintextFull
        let numOfPadding := getNumOfPadding a.before plaintextFull len.toNat
        return (List.range (len.toNat - numOfPadding)).map plaintextFull

/-! ## A block in a chain -/

/-- The initial vector as the state has it. -/
def transposed (iv : Buffer) : Fin 16 → BitVec 8 := fun n => iv (4 * (n.val % 4) + n.val / 4)

theorem storeStateArray_ivTmp (iv : Buffer) : storeStateArray (ivTmp iv) = transposed iv := by
  funext n
  have row : n.val % 4 < 4 := by omega
  have column : n.val / 4 < 4 := by omega
  simp [storeStateArray, ivTmp, transposed, State.ofBytes_get _ row column]

theorem storeStateArray_xoriv (state iv : State) :
    storeStateArray (xoriv state iv) = xorBlock (storeStateArray state) (storeStateArray iv) := by
  funext n
  have row : n.val % 4 < 4 := by omega
  have column : n.val / 4 < 4 := by omega
  simp only [storeStateArray, xoriv, xorBlock, State.ofBytes_get _ row column]
  rfl

/-- What the rounds make of a block. -/
def encBlock (aesKey : AesKey) (block : Fin 16 → BitVec 8) : Fin 16 → BitVec 8 :=
  storeStateArray (encryptState aesKey (loadStateArray block))

def decBlock (aesKey : AesKey) (block : Fin 16 → BitVec 8) : Fin 16 → BitVec 8 :=
  storeStateArray (decryptState aesKey (loadStateArray block))

/-- The matrix that is carried along is the ciphertext block. -/
theorem cbcEncrypt_eq (aesKey : AesKey) (iv : State) (block : Fin 16 → BitVec 8) :
    cbcEncrypt (encBlock aesKey) (storeStateArray iv) block =
      ((encryptTurn aesKey iv block).1, storeStateArray (encryptTurn aesKey iv block).2) := by
  have loaded : loadStateArray (xorBlock block (storeStateArray iv)) = xoriv (loadStateArray block) iv := by
    rw [← loadStateArray_storeStateArray (xoriv _ _), storeStateArray_xoriv, storeStateArray_loadStateArray]
  rw [cbcEncrypt, encBlock, loaded]
  rfl

theorem cbcDecrypt_eq (aesKey : AesKey) (iv : State) (block : Fin 16 → BitVec 8) :
    cbcDecrypt (decBlock aesKey) (storeStateArray iv) block =
      ((decryptTurn aesKey iv block).1, storeStateArray (decryptTurn aesKey iv block).2) := by
  have kept : (decryptTurn aesKey iv block).2 = loadStateArray block := rfl
  rw [kept, storeStateArray_loadStateArray, decryptTurn, storeStateArray_xoriv]
  rfl

/-- The loops of the source are the chaining mode of the library. -/
theorem chainBlocks_encryptTurn (aesKey : AesKey) (iv input output : Buffer) (n : Nat) :
    chainBlocks (encryptTurn aesKey) input (ivTmp iv) n output =
      chainBlocks (cbcEncrypt (encBlock aesKey)) input (transposed iv) n output := by
  rw [← storeStateArray_ivTmp]
  exact (chainBlocks_simulates (cbcEncrypt_eq aesKey) input output (ivTmp iv) n).symm

theorem chainBlocks_decryptTurn (aesKey : AesKey) (iv input output : Buffer) (n : Nat) :
    chainBlocks (decryptTurn aesKey) input (ivTmp iv) n output =
      chainBlocks (cbcDecrypt (decBlock aesKey)) input (transposed iv) n output := by
  rw [← storeStateArray_ivTmp]
  exact (chainBlocks_simulates (cbcDecrypt_eq aesKey) input output (ivTmp iv) n).symm

/-! ## The calls -/

/-- A plaintext of `len` bytes, filled up to `total` bytes with their number. -/
def padded (pt : Buffer) (len total : Nat) : Buffer := fun i => if i < len then pt i else BitVec.ofNat 8 (total - len)

theorem pkcs7Padding_ok (pt array : Buffer) {len total : Nat} (room : len ≤ total) :
    ∃ full, pkcs7Padding pt len array total (total - len) = .ok full ∧
      ∀ i < total, full i = padded pt len total i := by
  refine ⟨_, if_neg (by omega), fun i inside => ?_⟩
  have number : (total : Int) - len = ((total - len : Nat) : Int) := by omega
  simp only [padded, Nat.cast_lt, inside, if_true, number, BitVec.ofInt_natCast]

/-- The loop over the blocks, by its mode. -/
def WorkMode.encryptLoop (mode : WorkMode) (iv : Buffer) (aesKey : AesKey) (input : Buffer) (n : Nat)
    (output : Buffer) : Buffer :=
  match mode with
  | .cbc => chainBlocks (encryptTurn aesKey) input (ivTmp iv) n output
  | .ecb => mapBlocks (encBlock aesKey) input n output

def WorkMode.decryptLoop (mode : WorkMode) (iv : Buffer) (aesKey : AesKey) (input : Buffer) (n : Nat)
    (output : Buffer) : Buffer :=
  match mode with
  | .cbc => chainBlocks (decryptTurn aesKey) input (ivTmp iv) n output
  | .ecb => mapBlocks (decBlock aesKey) input n output

section Calls

variable (mode : WorkMode) (array key pt ct iv : Buffer) {keyLen ctlen : BitVec 32}

theorem encrypt_eq (ptLen : Int) :
    mode.encrypt array (some key) keyLen (some pt) ptLen (some ct) ctlen (some iv) =
      paddedEncrypt (mode.encryptLoop iv) array key keyLen pt ptLen ct ctlen := by
  cases mode <;> rfl

theorem encrypt_accepted {ptLen : Nat} (short : keyLen ≤ 16) (whole : ctlen % 16 = 0)
    (room : ptLen ≤ ctlen.toNat) :
    ∃ full, (∀ i < ctlen.toNat, full i = padded pt ptLen ctlen.toNat i) ∧
      mode.encrypt array (some key) keyLen (some pt) ptLen (some ct) ctlen (some iv) =
        .ok ⟨0, "", some (mode.encryptLoop iv (schedule key keyLen) full (ctlen.toNat / 16) ct)⟩ := by
  obtain ⟨full, filled, bytes⟩ := pkcs7Padding_ok pt array room
  have accepted : ¬ 16 < keyLen := by simpa using short
  refine ⟨full, bytes, ?_⟩
  rw [encrypt_eq, paddedEncrypt, if_neg accepted]
  dsimp only
  rw [filled, ok_bind, if_neg (by simpa using whole), pure_eq_ok]
  rfl

theorem decrypt_accepted (short : keyLen ≤ 16) (whole : ctlen % 16 = 0) :
    mode.decrypt (some key) keyLen (some ct) (some pt) ctlen (some iv) =
      .ok ⟨0, "", some (mode.decryptLoop iv (schedule key keyLen) ct (ctlen.toNat / 16) pt)⟩ := by
  have accepted : ¬ 16 < keyLen := by simpa using short
  cases mode with
  | cbc =>
      simp only [WorkMode.decrypt, aesCBCDecrypt, if_neg accepted, whole, ne_eq, not_true, if_false]
      rfl
  | ecb => exact congrArg Except.ok (aesCrypt_accepted decryptState key ct pt short whole)

/-- A key that is too long is refused, and nothing is written. -/
theorem encrypt_refused (long : 16 < keyLen) (ptLen : Int) :
    mode.encrypt array (some key) keyLen (some pt) ptLen (some ct) ctlen (some iv) =
      .ok ⟨-1, "keyLen must be 16.\n", some ct⟩ := by
  rw [encrypt_eq, paddedEncrypt, if_pos long]

theorem decrypt_refused (long : 16 < keyLen) :
    mode.decrypt (some key) keyLen (some ct) (some pt) ctlen (some iv) =
      .ok ⟨-1, "keyLen must be 16.\n", some pt⟩ := by
  cases mode with
  | cbc => simp only [WorkMode.decrypt, aesCBCDecrypt, if_pos long]
  | ecb =>
      refine congrArg Except.ok ?_
      simp only [aesECBDecrypt, aesDecrypt, aesCrypt, if_pos long]

end Calls

/-! ## Both modes lose nothing -/

theorem decBlock_encBlock (key : Buffer) (keyLen : BitVec 32) (block : Fin 16 → BitVec 8) :
    decBlock (schedule key keyLen) (encBlock (schedule key keyLen) block) = block :=
  decryptBlock_encryptBlock key keyLen block

theorem decryptLoop_encryptLoop (mode : WorkMode) (iv key : Buffer) (keyLen : BitVec 32)
    (input middle output : Buffer) (n a : Nat) :
    mode.decryptLoop iv (schedule key keyLen) (mode.encryptLoop iv (schedule key keyLen) input n middle) n output a =
      if a < 16 * n then input a else output a := by
  cases mode with
  | cbc =>
      simp only [WorkMode.decryptLoop, WorkMode.encryptLoop, chainBlocks_encryptTurn, chainBlocks_decryptTurn]
      exact chainBlocks_undo (cbcDecrypt_cbcEncrypt (decBlock_encBlock key keyLen)) input middle output _ n a
  | ecb => exact mapBlocks_mapBlocks (decBlock_encBlock key keyLen) input middle output n a

theorem whole_blocks {len : BitVec 32} (whole : len % 16 = 0) : 16 * (len.toNat / 16) = len.toNat := by
  have remainder : len.toNat % 16 = 0 := congrArg BitVec.toNat whole
  omega

/-- **Decryption returns the padded plaintext**, in both modes, for every key of at most 16 bytes and
every plaintext that fits the ciphertext's length; a longer key is refused by both calls. -/
theorem padded_round_trip (mode : WorkMode) (array key pt ct out iv : Buffer) (keyLen ctlen : BitVec 32) (ptLen : Nat)
    (_ : ctlen.toNat < 2 ^ 31) :
    (keyLen ≤ 16 → ctlen % 16 = 0 → ptLen ≤ ctlen.toNat →
      ∃ ct' out', mode.encrypt array (some key) keyLen (some pt) ptLen (some ct) ctlen (some iv) =
          .ok ⟨0, "", some ct'⟩ ∧
        mode.decrypt (some key) keyLen (some ct') (some out) ctlen (some iv) = .ok ⟨0, "", some out'⟩ ∧
        ∀ i, out' i = if i < ctlen.toNat then padded pt ptLen ctlen.toNat i else out i) ∧
      (16 < keyLen →
        mode.encrypt array (some key) keyLen (some pt) ptLen (some ct) ctlen (some iv) =
          .ok ⟨-1, "keyLen must be 16.\n", some ct⟩ ∧
        mode.decrypt (some key) keyLen (some ct) (some out) ctlen (some iv) =
          .ok ⟨-1, "keyLen must be 16.\n", some out⟩) := by
  constructor
  · intro short whole room
    obtain ⟨full, bytes, sent⟩ := encrypt_accepted mode array key pt ct iv short whole room
    refine ⟨_, _, sent, decrypt_accepted mode key out _ iv short whole, fun i => ?_⟩
    rw [decryptLoop_encryptLoop, whole_blocks whole]
    split
    · rename_i inside
      exact bytes i inside
    · rfl
  · intro long
    exact ⟨encrypt_refused mode array key pt ct iv long ptLen, decrypt_refused mode key out ct iv long⟩

namespace Example

/-- Five bytes and eleven of padding. -/
theorem five_bytes_come_back :
    ∃ ct' out', WorkMode.cbc.encrypt (fun _ => 0) (some key) 16 (some fun i => BitVec.ofNat 8 (7 * i)) (5 : Nat)
          (some fun _ => 0) 16 (some iv) = .ok ⟨0, "", some ct'⟩ ∧
      WorkMode.cbc.decrypt (some key) 16 (some ct') (some fun _ => 0xee) 16 (some iv) = .ok ⟨0, "", some out'⟩ ∧
      ∀ i, out' i = if i < 16 then padded (fun i => BitVec.ofNat 8 (7 * i)) 5 16 i else 0xee :=
  (padded_round_trip .cbc (fun _ => 0) key (fun i => BitVec.ofNat 8 (7 * i)) (fun _ => 0) (fun _ => 0xee) iv
    16 16 5 (by decide)).1 (by decide) (by decide) (by decide)

end Example

/-! ## The mode is CBC -/

/-- A short key is filled up with zeros. -/
theorem schedule_short (key : Buffer) {keyLen : BitVec 32} (short : keyLen ≤ 16) :
    schedule key keyLen = schedule (actualKey key keyLen) 16 := by
  have bound : keyLen.toNat ≤ 16 := short
  have same : actualKey (actualKey key keyLen) 16 = actualKey key keyLen := by
    funext i
    by_cases inside : i < 16
    · exact if_pos inside
    · refine (if_neg inside).trans (if_neg ?_).symm
      omega
  rw [schedule, schedule, same]

theorem encBlock_eq_cipher (key : Buffer) {keyLen : BitVec 32} (short : keyLen ≤ 16) (block : Fin 16 → BitVec 8) :
    encBlock (schedule key keyLen) block = cipher (keyBytes (actualKey key keyLen)) block := by
  rw [schedule_short key short]
  exact encryptBlock_eq_cipher (actualKey key keyLen) block

/-- **`aesCBCEncrypt` is AES-128 in CBC mode** over the padded plaintext, from the transposed initial
vector: every block is the cipher of the plaintext block and the ciphertext block before it, and
nothing is written behind them. -/
theorem aesCBCEncrypt_is_cbc (array key pt ct iv : Buffer) (keyLen ctlen : BitVec 32) (ptLen : Nat)
    (short : keyLen ≤ 16) (whole : ctlen % 16 = 0) (_ : ctlen.toNat < 2 ^ 31) (room : ptLen ≤ ctlen.toNat) :
    ∃ ct', aesCBCEncrypt array (some key) keyLen (some pt) ptLen (some ct) ctlen (some iv) = .ok ⟨0, "", some ct'⟩ ∧
      (∀ b < ctlen.toNat / 16, readBlock 16 ct' (16 * b) = cipher (keyBytes (actualKey key keyLen))
        (xorBlock (readBlock 16 (padded pt ptLen ctlen.toNat) (16 * b)) (previous ct' (transposed iv) b))) ∧
      ∀ a, ctlen.toNat ≤ a → ct' a = ct a := by
  obtain ⟨full, bytes, sent⟩ := encrypt_accepted .cbc array key pt ct iv short whole room
  have blocks := whole_blocks whole
  refine ⟨_, sent, fun b inside => ?_, fun a outside => ?_⟩
  · have plain : readBlock 16 full (16 * b) = readBlock 16 (padded pt ptLen ctlen.toNat) (16 * b) := by
      funext i
      exact bytes (16 * b + i) (by omega)
    rw [WorkMode.encryptLoop, chainBlocks_encryptTurn, readBlock_cbcEncrypt _ full ct (transposed iv) inside,
      encBlock_eq_cipher key short, plain]
  · rw [WorkMode.encryptLoop]
    exact chainBlocks_outside _ _ _ _ (by omega)

/-- A plaintext of 20 bytes under a key of ten. -/
theorem Example.twenty_bytes_chained :
    ∃ ct', aesCBCEncrypt (fun _ => 0) (some key) 10 (some fun i => BitVec.ofNat 8 i) (20 : Nat) (some fun _ => 0) 32
        (some iv) = .ok ⟨0, "", some ct'⟩ ∧
      readBlock 16 ct' 16 = cipher (keyBytes (actualKey key 10))
        (xorBlock (readBlock 16 (padded (fun i => BitVec.ofNat 8 i) 20 32) 16) (readBlock 16 ct' 0)) := by
  obtain ⟨ct', sent, blocks, -⟩ := aesCBCEncrypt_is_cbc (fun _ => 0) key (fun i => BitVec.ofNat 8 i) (fun _ => 0) iv
    10 32 20 (by decide) (by decide) (by decide) (by decide)
  exact ⟨ct', sent, blocks 1 (by decide)⟩

theorem decBlock_injective (key : Buffer) (keyLen : BitVec 32) :
    Function.Injective (decBlock (schedule key keyLen)) := by
  -- an injective map of a finite set to itself has its left inverse on both sides
  have inverse := decBlock_encBlock key keyLen
  have finite : Finite (BitVec 8) := Finite.of_injective BitVec.toFin fun _ _ => BitVec.toFin_inj.mp
  have onto : Function.Surjective (encBlock (schedule key keyLen)) :=
    Finite.surjective_of_injective (Function.LeftInverse.injective inverse)
  intro a b same
  obtain ⟨a, rfl⟩ := onto a
  obtain ⟨b, rfl⟩ := onto b
  rw [inverse, inverse] at same
  rw [same]

/-- **A changed ciphertext block** is decrypted to a different block, flips the same bits in the
block after it, and reaches no other: `aesCBCDecrypt` cannot tell. -/
theorem aesCBCDecrypt_changed (key ct changed pt iv : Buffer) (keyLen len : BitVec 32) (short : keyLen ≤ 16)
    (whole : len % 16 = 0) (_ : len.toNat < 2 ^ 31) (k : Nat)
    (others : ∀ b < len.toNat / 16, b ≠ k → readBlock 16 changed (16 * b) = readBlock 16 ct (16 * b)) :
    ∃ pt' pt'', aesCBCDecrypt (some key) keyLen (some ct) (some pt) len (some iv) = .ok ⟨0, "", some pt'⟩ ∧
      aesCBCDecrypt (some key) keyLen (some changed) (some pt) len (some iv) = .ok ⟨0, "", some pt''⟩ ∧
      ∀ b < len.toNat / 16,
        (b = k → (readBlock 16 pt'' (16 * b) = readBlock 16 pt' (16 * b) ↔
          readBlock 16 changed (16 * k) = readBlock 16 ct (16 * k))) ∧
        (b = k + 1 → xorBlock (readBlock 16 pt'' (16 * b)) (readBlock 16 pt' (16 * b)) =
          xorBlock (readBlock 16 changed (16 * k)) (readBlock 16 ct (16 * k))) ∧
        (b ≠ k → b ≠ k + 1 → readBlock 16 pt'' (16 * b) = readBlock 16 pt' (16 * b)) := by
  refine ⟨_, _, decrypt_accepted .cbc key pt ct iv short whole,
    decrypt_accepted .cbc key pt changed iv short whole, fun b inside => ?_⟩
  simp only [WorkMode.decryptLoop, chainBlocks_decryptTurn]
  exact cbcDecrypt_changed (decBlock_injective key keyLen) pt (transposed iv) others inside

/-- One bit of block 0 is flipped: in block 1 the same bit, block 2 unchanged. -/
theorem Example.flipped_bit :
    let changed : Buffer := fun i => if i = 3 then 1 else 0
    ∃ pt' pt'', aesCBCDecrypt (some key) 16 (some fun _ => 0) (some fun _ => 0) 48 (some iv) =
        .ok ⟨0, "", some pt'⟩ ∧
      aesCBCDecrypt (some key) 16 (some changed) (some fun _ => 0) 48 (some iv) = .ok ⟨0, "", some pt''⟩ ∧
      xorBlock (readBlock 16 pt'' 16) (readBlock 16 pt' 16) = readBlock 16 changed 0 ∧
      readBlock 16 pt'' 32 = readBlock 16 pt' 32 := by
  intro changed
  have others (b : Nat) (_ : b < (48 : BitVec 32).toNat / 16) (other : b ≠ 0) :
      readBlock 16 changed (16 * b) = readBlock 16 (fun _ => 0) (16 * b) := by
    funext i
    exact if_neg (by omega)
  obtain ⟨pt', pt'', plain, plain', blocks⟩ := aesCBCDecrypt_changed key (fun _ => 0) changed (fun _ => 0) iv 16 48
    (by decide) (by decide) (by decide) 0 others
  refine ⟨pt', pt'', plain, plain', ?_, (blocks 2 (by decide)).2.2 (by decide) (by decide)⟩
  refine ((blocks 1 (by decide)).2.1 rfl).trans ?_
  funext i
  exact BitVec.xor_zero

/-! ## case2 -/

/-- The ciphertext of a line has room for it, and for one byte of padding. -/
theorem getCiphertextLen_eq {len : Nat} (short : len < 100) :
    getCiphertextLen len = .ok ((len / 16 * 16 + 16 : Nat) : Int) := by
  have rest : CType.int.rem (len : Int) 16 = .ok ((len % 16 : Nat) : Int) :=
    CType.int_rem (by decide) (by omega)
  rw [getCiphertextLen, rest, ok_bind]
  by_cases multiple : len % 16 = 0
  · have longer : CType.int.add (len : Int) 16 = .ok ((len + 16 : Nat) : Int) :=
      CType.int_add (y := 16) (by omega)
    have rest' : CType.int.rem ((len + 16 : Nat) : Int) 16 = .ok (((len + 16) % 16 : Nat) : Int) :=
      CType.int_rem (by decide) (by omega)
    have total : len + 16 = len / 16 * 16 + 16 := by omega
    rw [if_pos (by omega), longer, ok_bind, findTrueLen, if_neg (by omega), rest', ok_bind, if_pos (by omega),
      pure_eq_ok, total]
  · have blocks : CType.int.quot (len : Int) 16 = .ok ((len / 16 : Nat) : Int) :=
      CType.quot_ok (by decide) (by omega) (CType.int_fits (by omega)).2
    have more : CType.int.add ((len / 16 : Nat) : Int) 1 = .ok ((len / 16 + 1 : Nat) : Int) :=
      CType.int_add (y := 1) (by omega)
    have product : CType.int.mul ((len / 16 + 1 : Nat) : Int) 16 = .ok (((len / 16 + 1) * 16 : Nat) : Int) :=
      CType.int_mul (y := 16) (by omega)
    rw [if_neg (by omega), findTrueLen, if_neg (by omega), rest, ok_bind, if_neg (by omega), blocks, ok_bind,
      more, ok_bind, product, Nat.succ_mul]

/-- The text of a word: its bytes up to the first zero. -/
def textOf (word : List (BitVec 8)) : List (BitVec 8) := word.takeWhile (· ≠ 0)

theorem textOf_zero (word : List (BitVec 8)) : (word ++ [0]).takeWhile (· ≠ 0) = textOf word := by
  induction word with
  | nil => rfl
  | cons c word ih =>
      rw [textOf, List.cons_append, List.takeWhile_cons, List.takeWhile_cons, ih]
      rfl

theorem textOf_get (word : List (BitVec 8)) {i : Nat} (inside : i < (textOf word).length) :
    (word ++ [0]).getD i 0 = (textOf word)[i] := by
  have first : textOf word <+: word ++ [0] := (List.takeWhile_prefix _).trans (List.prefix_append word [0])
  rw [List.getD_eq_getElem?_getD, List.getElem?_eq_getElem (inside.trans_le first.length_le), Option.getD_some]
  exact (first.getElem inside).symm

/-- What `case2` prints, by what `getNumOfPadding` answers. -/
theorem case2_eq (mode : WorkMode) (a : Arrays) {stdin word : List (BitVec 8)} (scanned : scanWord stdin = some word)
    (short : word.length < 100) :
    case2 mode a stdin =
      .ok (if ∀ i, a.before i = 16 then (textOf word).take ((textOf word).length / 16 * 16) else textOf word) := by
  let len := (textOf word).length
  let total := len / 16 * 16 + 16
  have few : len < 100 := (List.takeWhile_prefix _).length_le.trans_lt short
  have counted : inputLen (word ++ [0]) = len := congrArg List.length (textOf_zero word)
  have code : BitVec.ofInt 32 ((total : Nat) : Int) = BitVec.ofNat 32 total := BitVec.ofInt_natCast ..
  have value : (BitVec.ofNat 32 total).toNat = total := by
    rw [BitVec.toNat_ofNat, Nat.mod_eq_of_lt (by omega)]
  have whole : BitVec.ofNat 32 total % 16 = 0 := by
    refine BitVec.eq_of_toNat_eq ?_
    rw [BitVec.toNat_umod, value]
    show total % 16 = 0
    omega
  have short16 : (16 : BitVec 32) ≤ 16 := by decide
  obtain ⟨full, bytes, sent⟩ := encrypt_accepted mode a.ptWithPadding key (fun i => (word ++ [0]).getD i 0)
    a.ciphertext iv short16 whole (by rw [value]; omega : len ≤ _)
  have got := decrypt_accepted mode key a.plaintextFull (mode.encryptLoop iv (schedule key 16) full
    ((BitVec.ofNat 32 total).toNat / 16) a.ciphertext) iv short16 whole
  rw [value] at bytes sent got
  -- the array after decryption
  have back (i : Nat) (inside : i < total) := (decryptLoop_encryptLoop mode iv key 16 full a.ciphertext
    a.plaintextFull (total / 16) i).trans (if_pos (by omega))
  rw [case2, scanned]
  dsimp only
  rw [if_neg (by omega), counted, getCiphertextLen_eq few, ok_bind,
    show ((len / 16 * 16 + 16 : Nat) : Int) = ((total : Nat) : Int) from rfl, code, sent, ok_bind, got,
    ok_bind, pure_eq_ok, value, Option.getD_some]
  refine congrArg Except.ok ?_
  have kept (n : Nat) (inside : n ≤ len) : (List.range n).map (mode.decryptLoop iv (schedule key 16)
      (mode.encryptLoop iv (schedule key 16) full (total / 16) a.ciphertext) (total / 16) a.plaintextFull) =
        (textOf word).take n := by
    refine List.ext_getElem (by simp; omega) fun i below _ => ?_
    have here : i < n := by simpa using below
    rw [List.getElem_map, List.getElem_range, back i (by omega), bytes i (by omega), padded, if_pos (by omega),
      textOf_get word (by omega), List.getElem_take]
  by_cases sixteens : ∀ i, a.before i = 16
  · have rest : total - 16 = len / 16 * 16 := Nat.add_sub_cancel ..
    rw [getNumOfPadding, if_pos sixteens, if_pos sixteens, rest, kept _ (by omega)]
  · have last : ((mode.decryptLoop iv (schedule key 16) (mode.encryptLoop iv (schedule key 16) full (total / 16)
        a.ciphertext) (total / 16) a.plaintextFull) (total - 1)).toNat = total - len := by
      rw [back _ (by omega), bytes _ (by omega), padded, if_neg (by omega), BitVec.toNat_ofNat,
        Nat.mod_eq_of_lt (by omega)]
    have rest : total - (total - len) = len := by omega
    rw [getNumOfPadding, if_neg sixteens, if_neg sixteens, last, rest, kept _ (le_refl _), List.take_length]

/-- **When the text comes back**: unless the sixteen bytes in front of the array are all 0x10 and the
text does not end with a block. -/
theorem case2_prints_iff (mode : WorkMode) (a : Arrays) {stdin word : List (BitVec 8)}
    (scanned : scanWord stdin = some word) (short : word.length < 100) :
    ∃ shown, case2 mode a stdin = .ok shown ∧
      (shown = textOf word ↔ (∃ i, a.before i ≠ 16) ∨ 16 ∣ (textOf word).length) := by
  refine ⟨_, case2_eq mode a scanned short, ?_⟩
  by_cases sixteens : ∀ i, a.before i = 16
  · have none : ¬ ∃ i, a.before i ≠ 16 := fun ⟨i, other⟩ => other (sixteens i)
    rw [if_pos sixteens, or_iff_right none, List.take_eq_self_iff]
    omega
  · rw [if_neg sixteens, eq_self, true_iff]
    exact Or.inl (not_forall.mp sixteens)

namespace Example

/-- A word of three letters, a zero byte and a fourth letter, with another word behind it. -/
def letters : List (BitVec 8) := [0x20, 0x09, 0x61, 0x62, 0x63, 0x00, 0x64, 0x20, 0x65, 0x0a]

/-- The three letters come back. -/
theorem three_letters_printed :
    ∃ shown, case2 .cbc ⟨fun _ => 0, fun _ => 0, fun _ => 0, fun _ => 0⟩ letters = .ok shown ∧
      shown = [0x61, 0x62, 0x63] := by
  have scanned : scanWord letters = some [0x61, 0x62, 0x63, 0x00, 0x64] := by decide
  obtain ⟨shown, ran, back⟩ := case2_prints_iff .cbc ⟨fun _ => 0, fun _ => 0, fun _ => 0, fun _ => 0⟩ scanned
    (by decide)
  exact ⟨shown, ran, back.mpr (Or.inl ⟨0, by decide⟩)⟩

end Example

end HyperSmile.Crypto.Aes128
