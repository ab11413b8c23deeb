/-
# Enclave.AesGcm — aes_gcm_encrypt of aesni_encrypt2.S

One block of plaintext under a fixed key and initialisation vector: the counter block is
enciphered with the stored round keys, and the tag is two products in GF(2^128), written
out twice. The two copies share their first 39 instructions (`multiply`) and differ in the
end of the reduction: the first adds the bits carried between lanes, in `%xmm8`
(`reduceFirst`), the second adds `%xmm6` in their place (`reduceSecond`).
-/
import HyperSmile.Enclave.AesNi
import HyperSmile.Crypto.Gcm

namespace HyperSmile.Enclave.AesGcm

open HyperSmile.Enclave.Sse
open HyperSmile.Enclave.AesNi (keyRegister cipherRegister encryptRounds)
open HyperSmile.Crypto

set_option autoImplicit false

/-! ## The read-only data -/

/-- Sixteen bytes of the read-only data. -/
def bytes (l : List (BitVec 8)) : Xmm := ofBytes fun n => l.getD n 0

def key0 : Xmm := bytes
  [0x00, 0x11, 0x22, 0x33, 0x44, 0x55, 0x66, 0x77, 0x88, 0x99, 0xaa, 0xbb, 0xcc, 0xdd, 0xee, 0xff]

def key1 : Xmm := bytes
  [0xc0, 0x39, 0x34, 0x78, 0x84, 0x6c, 0x52, 0x0f, 0x0c, 0xf5, 0xf8, 0xb4, 0xc0, 0x28, 0x16, 0x4b]

def key2 : Xmm := bytes
  [0xf6, 0x7e, 0x87, 0xc2, 0x72, 0x12, 0xd5, 0xcd, 0x7e, 0xe7, 0x2d, 0x79, 0xbe, 0xcf, 0x3b, 0x32]

def key3 : Xmm := bytes
  [0x78, 0x9c, 0xa4, 0x6c, 0x0a, 0x8e, 0x71, 0xa1, 0x74, 0x69, 0x5c, 0xd8, 0xca, 0xa6, 0x67, 0xea]

def key4 : Xmm := bytes
  [0x54, 0x19, 0x23, 0x18, 0x5e, 0x97, 0x52, 0xb9, 0x2a, 0xfe, 0x0e, 0x61, 0xe0, 0x58, 0x69, 0x8b]

def key5 : Xmm := bytes
  [0x2e, 0xe0, 0x1e, 0xf9, 0x70, 0x77, 0x4c, 0x40, 0x5a, 0x89, 0x42, 0x21, 0xba, 0xd1, 0x2b, 0xaa]

def key6 : Xmm := bytes
  [0x30, 0x11, 0xb2, 0x0d, 0x40, 0x66, 0xfe, 0x4d, 0x1a, 0xef, 0xbc, 0x6c, 0xa0, 0x3e, 0x97, 0xc6]

def key7 : Xmm := bytes
  [0xc2, 0x99, 0x06, 0xed, 0x82, 0xff, 0xf8, 0xa0, 0x98, 0x10, 0x44, 0xcc, 0x38, 0x2e, 0xd3, 0x0a]

def key8 : Xmm := bytes
  [0x73, 0xff, 0x61, 0xea, 0xf1, 0x00, 0x99, 0x4a, 0x69, 0x10, 0xdd, 0x86, 0x51, 0x3e, 0x0e, 0x8c]

def key9 : Xmm := bytes
  [0xda, 0x54, 0x05, 0x3b, 0x2b, 0x54, 0x9c, 0x71, 0x42, 0x44, 0x41, 0xf7, 0x13, 0x7a, 0x4f, 0x7b]

def key10 : Xmm := bytes
  [0x36, 0xd0, 0x24, 0x46, 0x1d, 0x84, 0xb8, 0x37, 0x5f, 0xc0, 0xf9, 0xc0, 0x4c, 0xba, 0xb6, 0xbb]

def j0 : Xmm := bytes
  [0x10, 0x11, 0x12, 0x13, 0x14, 0x15, 0x16, 0x17, 0x18, 0x19, 0x1a, 0x1b, 0x00, 0x00, 0x00, 0x01]

def j1 : Xmm := bytes
  [0x10, 0x11, 0x12, 0x13, 0x14, 0x15, 0x16, 0x17, 0x18, 0x19, 0x1a, 0x1b, 0x00, 0x00, 0x00, 0x02]

def zero : Xmm := bytes
  [0x00, 0x00, 0x00, 0x00, 0x00, 0x00, 0x00, 0x00, 0x00, 0x00, 0x00, 0x00, 0x00, 0x00, 0x00, 0x00]

def len : Xmm := bytes
  [0x00, 0x00, 0x00, 0x00, 0x00, 0x00, 0x00, 0x00, 0x00, 0x00, 0x00, 0x00, 0x00, 0x00, 0x00, 0x80]

/-! ## The listing -/

/-- The eleven instructions that encipher a register, three times in the source. -/
def encipher (r : Fin 16) : List Instr :=
  [.pxor (.rodata key0) r,
    .aesenc (.rodata key1) r,
    .aesenc (.rodata key2) r,
    .aesenc (.rodata key3) r,
    .aesenc (.rodata key4) r,
    .aesenc (.rodata key5) r,
    .aesenc (.rodata key6) r,
    .aesenc (.rodata key7) r,
    .aesenc (.rodata key8) r,
    .aesenc (.rodata key9) r,
    .aesenclast (.rodata key10) r]

/-- Up to `X1`: the ciphertext in `%xmm10`, `H` in `%xmm0`, `EJ0` in `%xmm3`. -/
def prepare : List Instr :=
  [.movdqu (.rodata j1) 0] ++ encipher 0 ++
    [.movdqu (.mem .rsi 0) 1, .pxor (.xmm 0) 1, .movdqa (.xmm 1) 10, .movdqu (.rodata zero) 2] ++
    encipher 2 ++ [.movdqu (.rodata j0) 3] ++ encipher 3 ++
    [.movdqa (.xmm 2) 0, .movdqa (.xmm 10) 1]

/-- The product of `%xmm0` and `%xmm1`, into `<%xmm6:%xmm5>` -/
def products : List Instr :=
  [.movdqa (.xmm 0) 5,
    .pclmulqdq 0x00 (.xmm 1) 5,
    .movdqa (.xmm 0) 6,
    .pclmulqdq 0x11 (.xmm 1) 6,
    .movdqa (.xmm 0) 7,
    .pclmulqdq 0x10 (.xmm 1) 7,
    .movdqa (.xmm 0) 8,
    .pclmulqdq 0x01 (.xmm 1) 8,
    .pxor (.xmm 8) 7,
    .movdqa (.xmm 7) 8,
    .psrldq 8 7,
    .pslldq 8 8,
    .pxor (.xmm 8) 5,
    .pxor (.xmm 7) 6]

/-- The 256 bits, moved up by one. -/
def moveUp : List Instr :=
  [.movdqa (.xmm 5) 7,
    .movdqa (.xmm 6) 8,
    .pslld 1 5,
    .pslld 1 6,
    .psrld 31 7,
    .psrld 31 8,
    .movdqa (.xmm 7) 9,
    .pslldq 4 8,
    .pslldq 4 7,
    .psrldq 12 9,
    .por (.xmm 7) 5,
    .por (.xmm 8) 6,
    .por (.xmm 9) 6]

/-- The first phase of the reduction. -/
def foldLow : List Instr :=
  [.movdqa (.xmm 5) 7,
    .movdqa (.xmm 5) 8,
    .movdqa (.xmm 5) 9,
    .pslld 31 7,
    .pslld 30 8,
    .pslld 25 9,
    .pxor (.xmm 8) 7,
    .pxor (.xmm 9) 7,
    .movdqa (.xmm 7) 8,
    .psrldq 4 8,
    .pslldq 12 7,
    .pxor (.xmm 7) 5]

/-- What the two products have in common. -/
def multiply : List Instr := products ++ moveUp ++ foldLow

/-- The end of the product that gives `X1`. -/
def reduceFirst : List Instr :=
  [.movdqa (.xmm 5) 2,
    .movdqa (.xmm 5) 4,
    .movdqa (.xmm 5) 1,
    .psrld 1 2,
    .psrld 2 4,
    .psrld 7 1,
    .pxor (.xmm 4) 2,
    .pxor (.xmm 1) 2,
    .pxor (.xmm 8) 2,
    .pxor (.xmm 2) 5,
    .pxor (.xmm 5) 6]

/-- `X1 ^ L`, and `H`, into place -/
def addLength : List Instr :=
  [.movdqu (.rodata len) 2,
    .pxor (.xmm 6) 2,
    .movdqa (.xmm 0) 0,
    .movdqa (.xmm 2) 1]

/-- The end of the product that gives `X2`. -/
def reduceSecond : List Instr :=
  [.movdqa (.xmm 5) 1,
    .movdqa (.xmm 5) 2,
    .movdqa (.xmm 5) 4,
    .psrld 1 1,
    .psrld 2 2,
    .psrld 7 4,
    .pxor (.xmm 2) 1,
    .pxor (.xmm 4) 1,
    .pxor (.xmm 6) 1,
    .pxor (.xmm 1) 5,
    .pxor (.xmm 5) 6]

/-- `Tag = EJ0 ^ X2`, and the two stores -/
def finish : List Instr :=
  [.pxor (.xmm 6) 3,
    .store 10 .rdi 0,
    .store 3 .rdi 16]

def aesGcmEncrypt : List Instr :=
  prepare ++ (multiply ++ reduceFirst) ++ addLength ++ (multiply ++ reduceSecond) ++ finish

/-! ## What the parts compute -/

/-- Low and high half of the product of two registers, one bit short. -/
def product (a b : Xmm) : Xmm × Xmm :=
  let middle := pclmulqdq 0x10 b a ^^^ pclmulqdq 0x01 b a
  (pclmulqdq 0x00 b a ^^^ pslldq 8 middle, pclmulqdq 0x11 b a ^^^ psrldq 8 middle)

/-- The 256 bits, moved up by one. -/
def moved (p : Xmm × Xmm) : Xmm × Xmm :=
  (pslld 1 p.1 ||| pslldq 4 (psrld 31 p.1),
    pslld 1 p.2 ||| pslldq 4 (psrld 31 p.2) ||| psrldq 12 (psrld 31 p.1))

/-- The bits that `moveUp` joins never meet: it is a shift of the 256 bits. -/
theorem moved_eq (p : Xmm × Xmm) : moved p = (p.1 <<< 1, p.2 <<< 1 ^^^ p.1 >>> 127) := by
  have within (x : Xmm) : pslld 1 x ||| pslldq 4 (psrld 31 x) = x <<< 1 := by
    rw [or_eq_xor, ← pslld_carried (by decide : 1 ≤ 32)]
    intro b inside
    rw [getLsbD_pslld _ _ inside, getLsbD_pslldq _ _ inside, getLsbD_psrld _ _ (by omega : b - 8 * 4 < 128)]
    by_cases lowest : 1 ≤ b % 32
    · have higher : ¬ (b - 8 * 4) % 32 + 31 < 32 ∨ ¬ 8 * 4 ≤ b := by omega
      rcases higher with higher | higher <;> simp [higher]
    · simp [lowest]
  have across : p.2 <<< 1 ||| p.1 >>> 127 = p.2 <<< 1 ^^^ p.1 >>> 127 := by
    apply or_eq_xor
    intro b inside
    rw [BitVec.getLsbD_shiftLeft, BitVec.getLsbD_ushiftRight]
    by_cases lowest : b = 0
    · simp [lowest]
    · rw [BitVec.getLsbD_of_ge p.1 _ (by omega)]
      exact Or.inr rfl
  rw [moved, within, within, psrldq_psrld (by decide : 1 ≤ 32), across]

/-- The first phase of the reduction of the low half. -/
def folded (lo : Xmm) : Xmm := pslld 31 lo ^^^ pslld 30 lo ^^^ pslld 25 lo

/-- The right shifts of the second phase. -/
def shifted (lo : Xmm) : Xmm := psrld 1 lo ^^^ psrld 2 lo ^^^ psrld 7 lo

/-- `X1` from `H` and the ciphertext. -/
def productFirst (a b : Xmm) : Xmm :=
  let p := moved (product a b)
  let lo := p.1 ^^^ pslldq 12 (folded p.1)
  p.2 ^^^ (lo ^^^ (shifted lo ^^^ psrldq 4 (folded p.1)))

/-- `X2` from `H` and `X1 ^ L`. -/
def productSecond (a b : Xmm) : Xmm :=
  let p := moved (product a b)
  let lo := p.1 ^^^ pslldq 12 (folded p.1)
  p.2 ^^^ (lo ^^^ (shifted lo ^^^ p.2))

theorem products_run (s : Cpu) :
    (run products s).xmm 5 = (product (s.xmm 0) (s.xmm 1)).1 ∧
      (run products s).xmm 6 = (product (s.xmm 0) (s.xmm 1)).2 := by
  simp [products, product]

theorem moveUp_run (s : Cpu) :
    (run moveUp s).xmm 5 = (moved (s.xmm 5, s.xmm 6)).1 ∧
      (run moveUp s).xmm 6 = (moved (s.xmm 5, s.xmm 6)).2 := by
  simp [moveUp, moved]

theorem foldLow_run (s : Cpu) :
    (run foldLow s).xmm 5 = s.xmm 5 ^^^ pslldq 12 (folded (s.xmm 5)) ∧
      (run foldLow s).xmm 6 = s.xmm 6 ∧ (run foldLow s).xmm 8 = psrldq 4 (folded (s.xmm 5)) := by
  simp [foldLow, folded]

theorem multiply_run (s : Cpu) :
    let p := moved (product (s.xmm 0) (s.xmm 1))
    (run multiply s).xmm 5 = p.1 ^^^ pslldq 12 (folded p.1) ∧ (run multiply s).xmm 6 = p.2 ∧
      (run multiply s).xmm 8 = psrldq 4 (folded p.1) := by
  obtain ⟨lo, hi⟩ := products_run s
  obtain ⟨lo', hi'⟩ := moveUp_run (run products s)
  obtain ⟨lo'', hi'', carried⟩ := foldLow_run (run moveUp (run products s))
  rw [multiply, run_append, run_append, lo'', hi'', carried, lo', hi', lo, hi]
  exact ⟨rfl, rfl, rfl⟩

theorem reduceFirst_run (s : Cpu) :
    (run reduceFirst s).xmm 6 = s.xmm 6 ^^^ (s.xmm 5 ^^^ (shifted (s.xmm 5) ^^^ s.xmm 8)) := by
  simp [reduceFirst, shifted]

theorem reduceSecond_run (s : Cpu) :
    (run reduceSecond s).xmm 6 = s.xmm 6 ^^^ (s.xmm 5 ^^^ (shifted (s.xmm 5) ^^^ s.xmm 6)) := by
  simp [reduceSecond, shifted]

theorem first_run (s : Cpu) :
    (run (multiply ++ reduceFirst) s).xmm 6 = productFirst (s.xmm 0) (s.xmm 1) := by
  obtain ⟨lo, hi, carried⟩ := multiply_run s
  rw [run_append, reduceFirst_run, lo, hi, carried, productFirst]

theorem second_run (s : Cpu) :
    (run (multiply ++ reduceSecond) s).xmm 6 = productSecond (s.xmm 0) (s.xmm 1) := by
  obtain ⟨lo, hi, _⟩ := multiply_run s
  rw [run_append, reduceSecond_run, lo, hi, productSecond]

/-- The cipher with the stored round keys. -/
def enciphered (y : Xmm) : Xmm :=
  aesenclast key10 (aesenc key9 (aesenc key8 (aesenc key7 (aesenc key6 (aesenc key5 (aesenc key4
    (aesenc key3 (aesenc key2 (aesenc key1 (y ^^^ key0))))))))))

theorem encipher_run (r : Fin 16) (s : Cpu) :
    run (encipher r) s = s.set r (enciphered (s.xmm r)) := by
  simp [encipher, enciphered]

/-- `H` -/
def hashKey : Xmm := enciphered zero

/-- The registers when the products begin. -/
theorem prepare_run (s : Cpu) :
    let c := ofBytes (blockAt s.mem (s.reg .rsi)) ^^^ enciphered j1
    let s' := run prepare s
    s'.xmm 0 = hashKey ∧ s'.xmm 1 = c ∧ s'.xmm 3 = enciphered j0 ∧ s'.xmm 10 = c ∧
      s'.reg = s.reg ∧ s'.mem = s.mem := by
  simp [prepare, run_append, encipher_run, hashKey]

theorem addLength_run (s : Cpu) :
    (run addLength s).xmm 0 = s.xmm 0 ∧ (run addLength s).xmm 1 = len ^^^ s.xmm 6 := by
  simp [addLength]

/-- The first product, with what follows it, touches neither `%xmm0`, `%xmm3` and `%xmm10` nor
memory. -/
theorem first_frame (s : Cpu) :
    let s' := run (multiply ++ reduceFirst) s
    s'.xmm 0 = s.xmm 0 ∧ s'.xmm 3 = s.xmm 3 ∧ s'.xmm 10 = s.xmm 10 ∧ s'.reg = s.reg ∧
      s'.mem = s.mem := by
  simp [multiply, products, moveUp, foldLow, reduceFirst]

theorem addLength_frame (s : Cpu) :
    let s' := run addLength s
    s'.xmm 3 = s.xmm 3 ∧ s'.xmm 10 = s.xmm 10 ∧ s'.reg = s.reg ∧ s'.mem = s.mem := by
  simp [addLength]

theorem second_frame (s : Cpu) :
    let s' := run (multiply ++ reduceSecond) s
    s'.xmm 3 = s.xmm 3 ∧ s'.xmm 10 = s.xmm 10 ∧ s'.reg = s.reg ∧ s'.mem = s.mem := by
  simp [multiply, products, moveUp, foldLow, reduceSecond]

theorem finish_run (s : Cpu) :
    (run finish s).mem = storeAt (storeAt s.mem (s.reg .rdi + 0) (s.xmm 10)) (s.reg .rdi + 16)
      (s.xmm 3 ^^^ s.xmm 6) := by
  simp [finish]

/-- The ciphertext in its register. -/
def ciphertext (s : Cpu) : Xmm := ofBytes (blockAt s.mem (s.reg .rsi)) ^^^ enciphered j1

/-- The tag of a ciphertext. -/
def tag (c : Xmm) : Xmm := enciphered j0 ^^^ productSecond hashKey (len ^^^ productFirst hashKey c)

/-- **What `aes_gcm_encrypt` stores.** -/
theorem aesGcmEncrypt_run (s : Cpu) :
    (run aesGcmEncrypt s).mem =
      storeAt (storeAt s.mem (s.reg .rdi) (ciphertext s)) (s.reg .rdi + 16) (tag (ciphertext s)) := by
  obtain ⟨h, c, e, c', reg, mem⟩ := prepare_run s
  let s₁ := run prepare s
  obtain ⟨h₁, e₁, c₁, reg₁, mem₁⟩ := first_frame s₁
  let s₂ := run (multiply ++ reduceFirst) s₁
  obtain ⟨h₂, x₂⟩ := addLength_run s₂
  obtain ⟨e₂, c₂, reg₂, mem₂⟩ := addLength_frame s₂
  let s₃ := run addLength s₂
  obtain ⟨e₃, c₃, reg₃, mem₃⟩ := second_frame s₃
  have first : s₂.xmm 6 = productFirst hashKey (ciphertext s) := by
    rw [show s₂.xmm 6 = _ from first_run s₁, h, c, ciphertext]
  have second : (run (multiply ++ reduceSecond) s₃).xmm 6 =
      productSecond hashKey (len ^^^ productFirst hashKey (ciphertext s)) := by
    rw [second_run, h₂, x₂, h₁, h, first]
  have whole : run aesGcmEncrypt s = run finish (run (multiply ++ reduceSecond) s₃) := by
    rw [aesGcmEncrypt, run_append _ finish, run_append _ (multiply ++ reduceSecond), run_append _ addLength,
      run_append prepare]
  rw [whole, finish_run, second, e₃, c₃, reg₃, mem₃, e₂, c₂, reg₂, mem₂, e₁, c₁, reg₁, mem₁, e, c', reg,
    mem, add_zero]
  rfl

end HyperSmile.Enclave.AesGcm
