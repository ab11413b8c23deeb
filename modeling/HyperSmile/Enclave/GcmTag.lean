/-
# Enclave.GcmTag — aes_gcm_encrypt against GCM

The ciphertext is that of the standard for every plaintext (`ciphertext_eq`). The tag is
not: the registers are multiplied without the byte swap that GCM's bit order asks for,
and the reduction of the second product adds `%xmm6` where the first adds the carried
bits. Both tags are the ciphertext under a map that distributes over xor, plus a
constant; the difference of the two maps takes two ciphertexts to one exactly if they
differ by nothing or by `kernel` (`difference_eq_iff`). So there are two plaintexts whose
tag is right, and no others (`gcm_agrees_iff`).
-/
import HyperSmile.Enclave.AesGcm
import HyperSmile.Theory.BlockCipher

namespace HyperSmile.Enclave.GcmTag

open HyperSmile.Enclave.Sse
open HyperSmile.Enclave.AesGcm
open HyperSmile.Enclave.AesNi (keyRegister cipherRegister encryptRounds cipherRegister_eq)
open HyperSmile.Crypto
open HyperSmile.Crypto.Fips197 (cipher)
open HyperSmile.Theory.BlockCipher
open HyperSmile.Theory.BinaryPolynomial (clmul_eq_ofNat)

set_option autoImplicit false

/-! ## The routine's products distribute over xor -/

section Additive

theorem shiftLeft_additive (k : Nat) : XorAdditive fun x : Xmm => x <<< k := fun x y =>
  BitVec.shiftLeft_xor_distrib x y k

theorem ushiftRight_additive (k : Nat) : XorAdditive fun x : Xmm => x >>> k := fun x y =>
  BitVec.ushiftRight_xor_distrib x y k

variable (h : Xmm)

theorem middle_additive : XorAdditive fun x => pclmulqdq 0x10 x h ^^^ pclmulqdq 0x01 x h :=
  (pclmulqdq_additive 0x10 h).xor (pclmulqdq_additive 0x01 h)

theorem product_low_additive : XorAdditive fun x => (product h x).1 :=
  (pclmulqdq_additive 0x00 h).xor ((pslldq_additive 8).comp (middle_additive h))

theorem product_high_additive : XorAdditive fun x => (product h x).2 :=
  (pclmulqdq_additive 0x11 h).xor ((psrldq_additive 8).comp (middle_additive h))

theorem moved_low_additive : XorAdditive fun x => (moved (product h x)).1 := by
  simp only [moved_eq]
  exact (shiftLeft_additive 1).comp (product_low_additive h)

theorem moved_high_additive : XorAdditive fun x => (moved (product h x)).2 := by
  simp only [moved_eq]
  exact ((shiftLeft_additive 1).comp (product_high_additive h)).xor
    ((ushiftRight_additive 127).comp (product_low_additive h))

theorem folded_additive : XorAdditive folded :=
  ((pslld_additive 31).xor (pslld_additive 30)).xor (pslld_additive 25)

theorem shifted_additive : XorAdditive shifted :=
  ((psrld_additive 1).xor (psrld_additive 2)).xor (psrld_additive 7)

/-- The low half after the first phase of the reduction. -/
theorem low_additive : XorAdditive fun x =>
    (moved (product h x)).1 ^^^ pslldq 12 (folded (moved (product h x)).1) :=
  (moved_low_additive h).xor (((pslldq_additive 12).comp folded_additive).comp (moved_low_additive h))

theorem productFirst_additive : XorAdditive (productFirst h) :=
  (moved_high_additive h).xor ((low_additive h).xor ((shifted_additive.comp (low_additive h)).xor
    (((psrldq_additive 4).comp folded_additive).comp (moved_low_additive h))))

theorem productSecond_additive : XorAdditive (productSecond h) :=
  (moved_high_additive h).xor ((low_additive h).xor ((shifted_additive.comp (low_additive h)).xor
    (moved_high_additive h)))

end Additive

/-! ## The difference of the two products -/

/-- The bytes in the other order: the block of a register, and back. -/
def reversed (x : Xmm) : Xmm := ofBytes fun n => byteAt x n.rev

theorem byteAt_reversed (x : Xmm) (n : Fin 16) : byteAt (reversed x) n = byteAt x n.rev :=
  byteAt_ofBytes _ n

theorem reversed_reversed (x : Xmm) : reversed (reversed x) = x := by
  refine byteAt_ext fun n => ?_
  rw [byteAt_reversed, byteAt_reversed, Fin.rev_rev]

theorem reversed_additive : XorAdditive reversed := by
  intro x y
  refine byteAt_ext fun n => ?_
  rw [byteAt_xor, byteAt_reversed, byteAt_reversed, byteAt_reversed, byteAt_xor]

/-- The product of the standard, by `h`, on registers. -/
def gcmProduct (h x : Xmm) : Xmm := reversed (Gcm.mul (reversed x) (reversed h))

theorem gcmProduct_additive (h : Xmm) : XorAdditive (gcmProduct h) := by
  intro x y
  rw [gcmProduct, reversed_additive, Gcm.mul_xor, reversed_additive]
  rfl

/-- The two products of the routine and the two of the standard. -/
def difference (h x : Xmm) : Xmm := productSecond h (productFirst h x) ^^^ gcmProduct h (gcmProduct h x)

theorem difference_additive (h : Xmm) : XorAdditive (difference h) :=
  ((productSecond_additive h).comp (productFirst_additive h)).xor
    ((gcmProduct_additive h).comp (gcmProduct_additive h))

/-- `H`, as the number in its register. -/
def hashKeyValue : Xmm := 0x2b83839f9622f7ef20e0094aaefbe4fd

theorem hashKey_eq : hashKey = hashKeyValue := by decide +kernel

/-- The ciphertext that `difference` takes to zero. -/
def kernel : Xmm := 0xa7581b07b4ebbbe576f101649b62a211

/-- The columns of a map that takes `difference` back, up to `kernel` at the highest bit. -/
def backColumns : List Xmm :=
  [0x00000000000000000000000000000000, 0x2502282226b27c8f1f4ffaba02c9f105, 0x3522d450b58df035a292d6bcde45ab0c,
    0x1dd39218047f1f138977b70cc0a5331f, 0x497f83e6874e3d2b5bc24017e582e6ea, 0x3dfdcbc687764b6f5697931bb931e7c6,
    0x47fb354094af18aae99a0d8c1a51aded, 0x4b217e46a42595ae9d6f0b6d9e432c02, 0x52db7379b5e2b91a152a9fbc2a88bdb8,
    0x0d275f6c24d75a9c273f6e8195c2d040, 0x0b2765e5053d5076ffffc90493e1d567, 0x4d09a2a30a9bb2a68c39ff2d287c7c5d,
    0x2907cc11ce3e937b576c54dd3fdb3148, 0x0aaddba0f83fe5f3821fae33f9c85e0d, 0x0650bea166719198c08625146cad29ab,
    0x585df6077b4959e0a6db73212d07bae0, 0x24e9abfad3a947a7846e0bb446569b2f, 0x52a474127f2ae279411da7c806b87fc1,
    0x7b150a01cff9e25461435530edb48089, 0x25dcf68a5f041b0a5713ba892e974e65, 0x3da1cbcb1f40a343f285464868778294,
    0x6e119b927e865b5565a9168aed8421f8, 0x390f9d13f3a48d5b22c6e74077e2d0d3, 0x1be888acba3fe430da142123948e063a,
    0x750bb5e92dc7445dd929f2294ac6b9c7, 0x7df1245d151ff10d72f8b09633cda25d, 0x4eebd0df3aba926e7635d483bddcd030,
    0x5c08b076d7391fafc2006ef45c06c098, 0x502808e063b4f0edeca313bcb3dfd559, 0x23285b9d01bcffd9854770dea80a04e5,
    0x06a5d9fbff80953e50da7f0f602fa58f, 0x224afc5c0455566d81c3c3e98feb4136, 0x7837e3019a1d5e6122a4fbcf0a278f26,
    0x7392e07b3975fbadda3e77e03ba23da8, 0x0e1c847cf7983edf5c3bab4d273c2299, 0x1e3ee4393f88493ce0394007531d043f,
    0x29ded404cedc115819f9460d3f439260, 0x1fad3f0d609f07ced14c048aea8ee43f, 0x70ef0260b79d365677786d1c07f12b6c,
    0x67a20017f121cc17703ad66c597739f8, 0x6ac67b1d497ba9514e38f844a08a9405, 0x4761766891225efa4f9465463ea4825a,
    0x769ec7f5f7047a1dd21215fbf43442a2, 0x25e6f60120edbeaad347ec39e6c8958a, 0x174f1e9cf2922c6613fe9359d848ec48,
    0x09a850e5fbb897cf21cb55022678eec5, 0x3e28c49c82f9599820fba2710918260b, 0x6e79cfd4c6d21e4985c30c6a55109904,
    0x06d519e621d6241fcee812e0ffdc3a8c, 0x10577401da2952c98736e15d11c0b584, 0x330b0eaef6af1635de4f11b42b320af0,
    0x46208d543b3bd55b90c897603564ad06, 0x0f02b3c10fcd37fc8d5a10d75e0bb20e, 0x3a99ccdd901c6dcb11ed366f300cf0ba,
    0x54624513272d6dd7ac3681b76be38a87, 0x047828b0fe5052aadc10385c748e87b1, 0x72d8b475dcc07cf1b441efd19aaf6e05,
    0x1c5910707fb5ac41d55edb6cfb7a4f97, 0x0ee2bdff7b74f901596caad8b1992d42, 0x657a33abca61237d8f5004c7e6f835e2,
    0x5c9437745d29ba48729c86f14f219e47, 0x52813877f85c44c2efbb4ac57815b28a, 0x350c874c8ba56a2e68c799d562068864,
    0x683acedddcec9890401020062dc5cf6d, 0x54c9d94bef64a8c0738f82edf18dde54, 0x48544508feeb7fd914512bcbd5c4e262,
    0x472fbfda02852ca8607abef86e0a2081, 0x7564808e668836316d3d1088a81bdca0, 0x2a35771c5410fdfcc00ceb35ead737d0,
    0x16d31b943fbed983a23143af70de163e, 0x75eba489bcf139a98856d86837aacacc, 0x1694f3e006e00dc818b8e5496b713b8c,
    0x77497b705b5a34ebfc39132aa34d04cd, 0x3d546a4ee4ed0df8d88722e7f46fc98c, 0x5961330339a7f8a2b444cce6cca7911f,
    0x651de82330011951b899e50911e7341d, 0x4001501cb79646daebbeff982f6d1049, 0x31669b7359000c19b57e31d358b09d11,
    0x6fc24996a1f62d684fc21db5d62c2f4b, 0x39a4878a34ae7101a02f16c4b6b7eeea, 0x2e6a89d092119e6d6fd4bad08b595c07,
    0x1e92da90562ef24af926698b624aa3d0, 0x07ea20d647ca26f2723180c1716497bc, 0x5319572e667232730e77f689337103a6,
    0x76a8ac69fe20852717b7f8d8d6936f8b, 0x3d2abf3827268a9860b7d5d1a6c58d77, 0x2868b91786eebe5d5284926e6039fd25,
    0x42937012a7a55d69e396a6428e07d084, 0x7a07c742426e4905da3ecb33a6a712f9, 0x0c28c5c3379a1f2fefed76b5220c2691,
    0x0b35878a6f9684c3c93b128bd4b8b8c7, 0x378cae2e9f87ed758ea0af7f66498f01, 0x395252f1e9f387eb72ee4cdee7e0aca9,
    0x630341cb2f27f70ef101c4b18dac0298, 0x08eff76eb460399be689b3df64fa1a0c, 0x5d7ca2a5daa2acc115d594ec9706c3b3,
    0x0053b7df4156cd456756dd84bb8c9844, 0x4a946273e1177c5c1de966ac9cee00e4, 0x1084a9480e2c0a4df4a3e79e17792c74,
    0x5b35b0f252c48a61f9303dbb6cd151d6, 0x64634121552e5e99b533e538a2b59454, 0x772772152fe3321e11f4baf39fe9676b,
    0x0a31853333140d828914dad0c50d4662, 0x552409a352b0abae60dbdaf0eec0d9b3, 0x219fd8f7f28fd8950eebf1e0ff075621,
    0x38eb3a4af4b22c95c46392d10a60e3f5, 0x146061a7e5cb5d0f7a300f183344e263, 0x7e8a5456660f78be8483b14ee6536898,
    0x5bb3df31ac8c7992454d9bd2ca6f15fb, 0x2f2bba55c333aab56baedabaa9418a78, 0x6d9b70d5b4897fc54c14256e6e18c3a4,
    0x4487c4243eac3dca1794b6acc98a436c, 0x0225677fa69c78d6929c434b658c4ad6, 0x49433392f7ac9edbd19cc3a58379bd8d,
    0x70900280b886ae46c4e332f673b88868, 0x77961ec4908e63b40a19a768f37f6cd9, 0x28b7aa67f630fe9fa4b9e8ddd6fad150,
    0x210d62fc188c22a072e5f2608fd5cb26, 0x7115995ee8935680d9e8ffa44fc2ce6d, 0x6f1da21162a4eef2e10c4e3029c5e1b7,
    0x4d560e3f18a0d62d9bb62a08a7089e34, 0x2f41753558b461f651476625903cc3a9, 0x28ece0ceef47f4d9d2b070a6b9573ec0,
    0x6f4ebf0baa13e03540d8db3e682c6882, 0x68e1118f5c24bc05152222fc29f7f3c0, 0x2341695886d94a687c3f29e17e50747a,
    0x69c91752a028ead34e50794b50c2904e, 0x225f1f673530a42660b40439747b98b9]

/-- A function of the value of its argument, which is computed first. -/
def strict (f : Xmm → Xmm) (x : Xmm) : Xmm :=
  match x.toNat with
  | 0 => f 0
  | n + 1 => f (BitVec.ofNat 128 (n + 1))

theorem strict_eq (f : Xmm → Xmm) (x : Xmm) : strict f x = f x := by
  rw [strict]
  split
  · rename_i value
    exact congrArg f (BitVec.eq_of_toNat_eq value).symm
  · rename_i value
    rw [← Nat.succ_eq_add_one, ← value, BitVec.ofNat_toNat, BitVec.setWidth_eq]

/-- The high half cancels in the second product. -/
theorem productSecond_eq (h x : Xmm) :
    productSecond h x =
      let p := moved (product h x)
      let lo := p.1 ^^^ pslldq 12 (folded p.1)
      lo ^^^ shifted lo := by
  simp only [productSecond]
  generalize (moved (product h x)).2 = hi
  generalize shifted _ = sh
  rw [BitVec.xor_comm sh, ← BitVec.xor_assoc _ hi, BitVec.xor_comm _ hi, BitVec.xor_assoc hi,
    ← BitVec.xor_assoc hi hi, BitVec.xor_self, BitVec.zero_xor]

theorem difference_strict (h x : Xmm) :
    difference h x = strict (fun y => productSecond h y) (productFirst h x) ^^^
      strict (fun y => gcmProduct h y) (gcmProduct h x) := by
  rw [strict_eq, strict_eq, difference]

theorem back_difference : ∀ n < 128,
    strict (fun y => combine backColumns y) (difference hashKeyValue (BitVec.twoPow 128 n)) =
      BitVec.twoPow 128 n ^^^ if n = 127 then kernel else 0 := by
  simp only [difference_strict, gcmProduct, productSecond_eq, productFirst, product, pclmulqdq,
    clmul_eq_ofNat, Gcm.mul_eq_ofNat, combine_eq_ofNat]
  decide +kernel

theorem difference_kernel : difference hashKeyValue kernel = 0 := by
  simp only [difference_strict, gcmProduct, productSecond_eq, productFirst, product, pclmulqdq,
    clmul_eq_ofNat, Gcm.mul_eq_ofNat]
  decide +kernel

/-- **Two ciphertexts with one difference** differ by nothing or by `kernel`. -/
theorem difference_eq_iff (x y : Xmm) :
    difference hashKeyValue x = difference hashKeyValue y ↔ x = y ∨ x = y ^^^ kernel := by
  have back (n : Nat) (inside : n < 128) := back_difference n inside
  simp only [strict_eq] at back
  exact (difference_additive hashKeyValue).eq_iff (combine_additive backColumns) back
    difference_kernel x y

/-! ## The standard on registers -/

/-- The key of the routine. -/
def keyBytes : Fin 16 → BitVec 8 := fun n => BitVec.ofNat 8 (0x11 * n)

/-- The initialisation vector of the routine. -/
def iv : BitVec 96 := 0x101112131415161718191a1b

/-- AES-128 under a key, as the block cipher of the mode. -/
noncomputable def aes (key : Fin 16 → BitVec 8) (x : Gcm.Block) : Gcm.Block :=
  Gcm.block (List.ofFn (cipher key fun n => Gcm.byteOf x n))

theorem byteOf_eq (x : Xmm) (n : Fin 16) : Gcm.byteOf x n = byteAt x n.rev := by
  have index : 15 - n.val = n.rev := by
    rw [Fin.val_rev]
    omega
  rw [Gcm.byteOf, byteAt, index]

theorem block_ofFn (f : Fin 16 → BitVec 8) : Gcm.block (List.ofFn f) = reversed (ofBytes f) := by
  refine byteAt_ext fun n => ?_
  rw [byteAt_reversed, byteAt_ofBytes, ← Fin.rev_rev n, ← byteOf_eq, Gcm.byteOf_block _ n.rev.isLt,
    Fin.rev_rev, List.getD_eq_getElem?_getD, List.getElem?_ofFn, dif_pos n.rev.isLt]
  rfl

theorem stored_keys :
    key1 = keyRegister key0 1 ∧ key2 = keyRegister key0 2 ∧ key3 = keyRegister key0 3 ∧
      key4 = keyRegister key0 4 ∧ key5 = keyRegister key0 5 ∧ key6 = keyRegister key0 6 ∧
      key7 = keyRegister key0 7 ∧ key8 = keyRegister key0 8 ∧ key9 = keyRegister key0 9 ∧
      key10 = keyRegister key0 10 := by
  decide

/-- The stored round keys are those of the key. -/
theorem enciphered_eq (y : Xmm) : enciphered y = cipherRegister (ofBytes keyBytes) y := by
  have key : ofBytes keyBytes = key0 := by decide
  obtain ⟨k1, k2, k3, k4, k5, k6, k7, k8, k9, k10⟩ := stored_keys
  rw [enciphered, k1, k2, k3, k4, k5, k6, k7, k8, k9, k10, cipherRegister, key]
  rfl

/-- The block cipher of the mode, with the instructions of the processor. -/
theorem aes_register (key : Fin 16 → BitVec 8) (y : Xmm) :
    aes key (reversed y) = reversed (cipherRegister (ofBytes key) y) := by
  have input : (fun n : Fin 16 => Gcm.byteOf (reversed y) n) = byteAt y := by
    funext n
    rw [byteOf_eq, byteAt_reversed, Fin.rev_rev]
  have output : cipher key (byteAt y) = byteAt (cipherRegister (ofBytes key) y) := by
    rw [← cipherRegister_eq, ofBytes_byteAt]
  rw [aes, input, output, block_ofFn, ofBytes_byteAt]

theorem aes_reversed (y : Xmm) : aes keyBytes (reversed y) = reversed (enciphered y) := by
  rw [aes_register, enciphered_eq]

/-- Counter mode on the bytes of one register. -/
theorem gctr_register (y x : Xmm) :
    Gcm.gctr (aes keyBytes) (reversed y) (List.ofFn (byteAt x)) =
      List.ofFn (byteAt (x ^^^ enciphered y)) := by
  apply List.ext_getElem
  · simp [Gcm.gctr]
  · intro i inside _
    have small : i < 16 := by simpa [Gcm.gctr] using inside
    have first : i / 16 = 0 := by omega
    have byte : Gcm.byteOf (reversed (enciphered y)) i = byteAt (enciphered y) ⟨i, small⟩ := by
      rw [← Fin.rev_rev ⟨i, small⟩, ← byteAt_reversed, ← byteOf_eq]
    simp only [Gcm.gctr, List.getElem_mapIdx, List.getElem_ofFn]
    rw [first, Nat.mod_eq_of_lt small, Function.iterate_zero_apply, aes_reversed, byte, byteAt_xor]

theorem blocks_register (x : Xmm) : Gcm.blocks (List.ofFn (byteAt x)) = [reversed x] := by
  rw [← ofBytes_byteAt x, ← block_ofFn]
  simp [Gcm.blocks, byteAt_ofBytes]

theorem bytesOf_eq (x : Xmm) : Gcm.bytesOf x = List.ofFn (byteAt (reversed x)) := by
  apply List.ext_getElem
  · simp [Gcm.bytesOf]
  · intro i inside _
    have small : i < 16 := by simpa [Gcm.bytesOf] using inside
    simp only [Gcm.bytesOf, List.getElem_map, List.getElem_range, List.getElem_ofFn, byteAt_reversed]
    exact byteOf_eq x ⟨i, small⟩

/-- GHASH of two blocks, by the product on registers. -/
theorem ghash_registers (h x y : Xmm) :
    Gcm.ghash (reversed h) [reversed x, reversed y] =
      reversed (gcmProduct h (gcmProduct h x ^^^ y)) := by
  have start : (0 : Gcm.Block) ^^^ reversed x = reversed x := BitVec.zero_xor
  rw [Gcm.ghash, List.foldl_cons, List.foldl_cons, List.foldl_nil, start, gcmProduct, reversed_reversed,
    reversed_additive, gcmProduct, reversed_reversed]

theorem aes_zero : aes keyBytes 0 = reversed hashKey := by
  have zeros : (0 : Gcm.Block) = reversed zero := rfl
  rw [zeros, aes_reversed, hashKey]

theorem lengths_register (x : Xmm) : Gcm.lengths [] (List.ofFn (byteAt x)) = reversed len := by
  rw [Gcm.lengths, List.length_ofFn]
  rfl

/-- The ciphertext and the tag of the standard, for one block of plaintext in a register. -/
theorem encrypt_register (x : Xmm) :
    Gcm.encrypt (aes keyBytes) iv (List.ofFn (byteAt x)) [] =
      let c := x ^^^ enciphered j1
      (List.ofFn (byteAt c), List.ofFn (byteAt (enciphered j0 ^^^
        gcmProduct hashKey (gcmProduct hashKey c ^^^ len)))) := by
  have counter : Gcm.inc32 (Gcm.j0 iv) = reversed j1 := rfl
  have first : Gcm.j0 iv = reversed j0 := rfl
  have none : Gcm.blocks [] = [] := rfl
  simp only [Gcm.encrypt, Gcm.tag]
  rw [counter, gctr_register, first, aes_zero, none, blocks_register, lengths_register, List.nil_append,
    List.singleton_append, ghash_registers, bytesOf_eq, reversed_reversed, gctr_register,
    BitVec.xor_comm (enciphered j0)]

/-! ## The routine against the standard -/

/-- The plaintexts whose tag is right. -/
def rightPlaintext : Fin 16 → BitVec 8 :=
  ![0x1d, 0xd1, 0xf0, 0x7e, 0x3a, 0xa0, 0xc1, 0x70, 0xde, 0x44, 0xbd, 0x87, 0x4b, 0x72, 0x2e, 0x29]

def rightPlaintext' : Fin 16 → BitVec 8 :=
  ![0x0c, 0x73, 0x92, 0xe5, 0x5e, 0xa1, 0x30, 0x06, 0x3b, 0xff, 0x56, 0x33, 0x4c, 0x69, 0x76, 0x8e]

/-- The constant parts of the two tags differ as the products of this ciphertext do. -/
theorem length_difference :
    productSecond hashKeyValue len ^^^ gcmProduct hashKeyValue len =
      difference hashKeyValue (ofBytes rightPlaintext ^^^ enciphered j1) := by
  have value : ofBytes rightPlaintext ^^^ enciphered j1 = 0x838e28a6f358a9a3c1e26b167dd99595 := by
    decide +kernel
  rw [value]
  simp only [difference_strict, gcmProduct, productSecond_eq, productFirst, product, pclmulqdq,
    clmul_eq_ofNat, Gcm.mul_eq_ofNat]
  decide +kernel

/-- **The tags agree on two ciphertexts.** -/
theorem tag_eq_iff (c : Xmm) :
    tag c = enciphered j0 ^^^ gcmProduct hashKey (gcmProduct hashKey c ^^^ len) ↔
      c = ofBytes rightPlaintext ^^^ enciphered j1 ∨
        c = ofBytes rightPlaintext ^^^ enciphered j1 ^^^ kernel := by
  rw [← difference_eq_iff, ← length_difference, tag, hashKey_eq, BitVec.xor_right_inj,
    productSecond_additive, gcmProduct_additive, difference]
  generalize productSecond hashKeyValue len = a
  generalize productSecond hashKeyValue _ = b
  generalize gcmProduct hashKeyValue len = d
  generalize gcmProduct hashKeyValue _ = e
  rw [← BitVec.xor_eq_zero_iff (x := a ^^^ b), ← BitVec.xor_eq_zero_iff (x := b ^^^ e)]
  rw [show a ^^^ b ^^^ (e ^^^ d) = b ^^^ e ^^^ (a ^^^ d) by ac_rfl]

/-- What the routine leaves at `(%rdi)`: the ciphertext and the tag. -/
def stored (s : Cpu) : List (BitVec 8) × List (BitVec 8) :=
  let mem := (run aesGcmEncrypt s).mem
  (List.ofFn (blockAt mem (s.reg .rdi)), List.ofFn (blockAt mem (s.reg .rdi + 16)))

theorem stored_eq (s : Cpu) :
    stored s = (List.ofFn (byteAt (ciphertext s)), List.ofFn (byteAt (tag (ciphertext s)))) := by
  rw [stored, aesGcmEncrypt_run, blockAt_storeAt, blockAt_storeAt_next, blockAt_storeAt]

/-- The plaintext block at `(%rsi)`. -/
def plaintext (s : Cpu) : Fin 16 → BitVec 8 := blockAt s.mem (s.reg .rsi)

/-- **When `aes_gcm_encrypt` is AES-128-GCM.**  The ciphertext is always that of the standard; the
tag is for two plaintexts. -/
theorem gcm_agrees_iff (s : Cpu) :
    (stored s).1 = (Gcm.encrypt (aes keyBytes) iv (List.ofFn (plaintext s)) []).1 ∧
      (stored s = Gcm.encrypt (aes keyBytes) iv (List.ofFn (plaintext s)) [] ↔
        plaintext s = rightPlaintext ∨ plaintext s = rightPlaintext') := by
  have bytes : byteAt (ofBytes (plaintext s)) = plaintext s := funext (byteAt_ofBytes _)
  have standard := encrypt_register (ofBytes (plaintext s))
  have injective : Function.Injective ofBytes := Function.LeftInverse.injective fun f =>
    funext (byteAt_ofBytes f)
  have other : ofBytes rightPlaintext ^^^ enciphered j1 ^^^ kernel =
      ofBytes rightPlaintext' ^^^ enciphered j1 := by
    decide +kernel
  rw [bytes] at standard
  refine ⟨?_, ?_⟩
  · rw [stored_eq, standard]
    rfl
  · have tags := tag_eq_iff (ciphertext s)
    rw [other] at tags
    have cancel (p : Fin 16 → BitVec 8) :
        ciphertext s = ofBytes p ^^^ enciphered j1 ↔ plaintext s = p := by
      rw [ciphertext, BitVec.xor_left_inj, injective.eq_iff, plaintext]
    rw [stored_eq, standard, Prod.mk.injEq, List.ofFn_inj, List.ofFn_inj, byteAt_injective.eq_iff,
      byteAt_injective.eq_iff, ← cancel, ← cancel]
    exact (and_iff_right rfl).trans tags

namespace Example

/-- Sixteen zero bytes to encrypt, at 0x2000. -/
def zerosCpu : Cpu where
  xmm := fun _ => 0
  reg := fun
    | .rdi => 0x1000
    | .rsi => 0x2000
    | .rdx => 0
  mem := fun _ => 0

/-- The tag of the standard begins with 0xd6, that of the routine with 0xae. -/
theorem zeros_tag_differs :
    (stored zerosCpu).2.head? = some 0xae ∧
      (Gcm.encrypt (aes keyBytes) iv (List.ofFn (plaintext zerosCpu)) []).2.head? = some 0xd6 := by
  have bytes : plaintext zerosCpu = byteAt zero := by decide
  constructor
  · rw [stored_eq]
    decide +kernel
  · rw [bytes, encrypt_register]
    decide +kernel

end Example

end HyperSmile.Enclave.GcmTag
