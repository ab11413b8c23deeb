/-
# Crypto.Rsa — rsa.h

The functions of rsa.h, in checked C arithmetic: a run that yields a value did not
overflow, divide by zero or leave an array. Loops that end for every argument get the
turns they need from their arguments; those that may go on, because they wait for the right
`rand()`, get them as a parameter, and so do the loops they contain.

`rand()` is a stream of values up to RAND_MAX and the number of those taken so far; the
functions that call it return the number taken after them. The progress output (`printf`) is
left out.
-/
import HyperSmile.Theory.CInt
import Mathlib.Data.BitVec

namespace HyperSmile.Crypto.Rsa

open HyperSmile.Theory.CInt
open HyperSmile.Theory.CInt.CType (shl shr toInt)

set_option autoImplicit false

/-! ## Constants -/

/-- `ACCURACY` -/
def accuracy : Nat := 5

/-- `SINGLE_MAX` -/
def singleMax : Int := 10000

/-- `EXPONENT_MAX` -/
def exponentMax : Int := 1000

/-! ## Powers -/

/-- `while(b > 0)` of `modpow`; in the loop `b & 1` is `b % 2` and `b >> 1` is `b / 2`. -/
def modpowLoop (c : Int) : Nat → Int → Int → Int → C Int
  | 0, _, _, _ => .error .endless
  | turns + 1, res, a, b =>
      if 0 < b then do
        let res ← if b % 2 = 1 then do
            let product ← CType.longLong.mul res a
            let product ← CType.longLong.rem product c
            pure (toInt product)
          else pure res
        let square ← CType.longLong.mul a a
        let a ← CType.longLong.rem square c
        modpowLoop c turns res a (b / 2)
      else .ok res

/-- Computes a^b mod c -/
def modpow (a b c : Int) : C Int := modpowLoop c 64 1 a b

/-! ## Probable primes -/

abbrev Rand := Nat → Fin (2 ^ 31)

/-- `while(a % 2 == 0 && ++twos) a /= 2;` -/
def factorTwos : Nat → Int → Int → C (Int × Int)
  | 0, _, _ => .error .endless
  | turns + 1, a, twos => do
      let low ← CType.int.rem a 2
      if low = 0 then do
        let twos ← CType.int.add twos 1
        let a ← CType.int.quot a 2
        factorTwos turns a twos
      else .ok (a, twos)

/-- `while(a > 1 && a != n)` of `jacobi`: the `a` and the `mult` it leaves -/
def jacobiLoop : Nat → Int → Int → Int → C (Int × Int)
  | 0, _, _, _ => .error .endless
  | turns + 1, a, n, mult =>
      if 1 < a ∧ a ≠ n then do
        let a ← CType.int.rem a n
        if a ≤ 1 ∨ a = n then .ok (a, mult)
        else do
          let (a, twos) ← factorTwos (turns + 1) a 0
          let sign := (if n.tmod 8 = 1 ∨ n.tmod 8 = 7 then 1 else 0) * 2 - 1
          let mult ← if 0 < twos ∧ twos.tmod 2 = 1 then CType.int.mul mult sign else pure mult
          if a ≤ 1 ∨ a = n then .ok (a, mult)
          else do
            -- Coefficient for flipping
            let mult ← if n.tmod 4 ≠ 1 ∧ a.tmod 4 ≠ 1 then CType.int.mul mult (-1) else pure mult
            jacobiLoop turns n a mult
      else .ok (a, mult)

/-- Computes the Jacobi symbol, (a, n) -/
def jacobi (turns : Nat) (a n : Int) : C Int := do
  let (a, mult) ← jacobiLoop turns a n 1
  return if a = 0 then 0 else if a = 1 then mult else 0

/-- Check whether a is a Euler witness for n -/
def solovayPrime (turns : Nat) (a n : Int) : C Bool := do
  let x ← jacobi turns a n
  let x := if x = -1 then n - 1 else x
  if x = 0 then return false
  else do
    let power ← modpow a ((n - 1).tdiv 2) n
    return power = x

/-- `while(k-- > 0)` of `probablePrime`, from the value of `rand()` with number `taken` on -/
def solovayTests (turns : Nat) (rand : Rand) (n : Int) : Nat → Nat → C (Bool × Nat)
  | 0, taken => .ok (true, taken)
  | k + 1, taken => do
      let offset ← CType.int.rem (rand taken).val (n - 2)
      let passed ← solovayPrime turns (offset + 2) n
      if passed then solovayTests turns rand n k (taken + 1) else .ok (false, taken + 1)

/-- Test if n is probably prime, using accuracy of k (k solovay tests) -/
def probablePrime (turns : Nat) (rand : Rand) (n : Int) (k taken : Nat) : C (Bool × Nat) :=
  if n = 2 then .ok (true, taken)
  else if n.tmod 2 = 0 ∨ n = 1 then .ok (false, taken)
  else solovayTests turns rand n k taken

/-- `while(1)` of `randPrime` -/
def randPrimeLoop (rand : Rand) (n : Int) : Nat → Int → Nat → C (Int × Nat)
  | 0, _, _ => .error .endless
  | turns + 1, prime, taken => do
      let (passed, taken) ← probablePrime (turns + 1) rand prime accuracy taken
      if passed then .ok (prime, taken)
      else do
        let next ← CType.int.add prime 2
        let next ← CType.int.rem next n
        randPrimeLoop rand n turns next taken

/-- Find a random (probable) prime between 3 and n - 1 -/
def randPrime (turns : Nat) (rand : Rand) (n : Int) (taken : Nat) : C (Int × Nat) := do
  let prime ← CType.int.rem (rand taken).val n
  let n ← CType.int.add n (n.tmod 2)
  let prime ← CType.int.add prime (1 - prime.tmod 2)
  randPrimeLoop rand n turns prime (taken + 1)

/-! ## Exponents -/

/-- Compute gcd(a, b) -/
def gcd : Nat → Int → Int → C Int
  | 0, _, _ => .error .endless
  | turns + 1, a, b =>
      if b ≠ 0 then do
        let rest ← CType.int.rem a b
        gcd turns b rest
      else .ok a

/-- `while(1)` of `randExponent` -/
def randExponentLoop (phi n : Int) : Nat → Int → C Int
  | 0, _ => .error .endless
  | turns + 1, e => do
      let divisor ← gcd (turns + 1) e phi
      if divisor = 1 then .ok e
      else do
        let next ← CType.int.add e 1
        let next ← CType.int.rem next n
        randExponentLoop phi n turns (if next ≤ 2 then 3 else next)

/-- Find a random exponent x between 3 and n - 1 such that gcd(x, phi) = 1 -/
def randExponent (turns : Nat) (rand : Rand) (phi n : Int) (taken : Nat) : C (Int × Nat) := do
  let e ← CType.int.rem (rand taken).val n
  let e ← randExponentLoop phi n turns e
  return (e, taken + 1)

/-- `while(b != 0)` of `inverse`: the `x0` it leaves -/
def inverseLoop : Nat → Int → Int → Int → Int → Int → Int → C Int
  | 0, _, _, _, _, _, _ => .error .endless
  | turns + 1, a, b, x, y, x0, y0 =>
      if b ≠ 0 then do
        let q ← CType.int.quot a b
        let rest ← CType.int.rem a b
        let qx ← CType.int.mul q x
        let x' ← CType.int.sub x0 qx
        let qy ← CType.int.mul q y
        let y' ← CType.int.sub y0 qy
        inverseLoop turns b rest x' y' x y
      else .ok x0

/-- Compute n^-1 mod m by extended euclidian method -/
def inverse (n modulus : Int) : C Int := do
  let x0 ← inverseLoop (modulus.toNat + 2) n modulus 0 1 1 0
  if x0 < 0 then CType.int.add x0 modulus else return x0

/-! ## Messages -/

/-- Encode the message m using public exponent and modulus, c = m^e mod n -/
def encode (m e n : Int) : C Int := modpow m e n

/-- Decode cryptogram c using private exponent and public modulus, m = c^d mod n -/
def decode (c d n : Int) : C Int := modpow c d n

/-- `x += message[i + j] * (1 << (7 * j));` where a `char` is signed -/
def addDigit (message : List (BitVec 8)) (i j x : Int) : C Int := do
  let index ← CType.int.add i j
  let char ← load message index
  let shift ← CType.int.mul 7 j
  let place ← shl 1 shift
  let digit ← CType.int.mul char.toInt place
  CType.int.add x digit

/-- The loop over `j`: "bytes" consecutive characters, m1 + m2*128 + m3*128^2 + .. -/
def encodeBlock (bytes : Int) (message : List (BitVec 8)) (i : Int) : C Int :=
  forLoop 1 bytes (addDigit message i) (bytes.toNat + 1) 0 0

/-- One turn of the loop over `i`. -/
def encodeAt (bytes : Int) (message : List (BitVec 8)) (exponent modulus i : Int) (encoded : Cells) :
    C Cells := do
  let x ← encodeBlock bytes message i
  let c ← encode x exponent modulus
  let index ← CType.int.quot i bytes
  store encoded index c

/-- Encode the message of given length, using the public key (exponent, modulus) -/
def encodeMessage (len bytes : Int) (message : List (BitVec 8)) (exponent modulus : Int) : C Cells := do
  let count ← CType.int.quot len bytes
  forLoop bytes len (encodeAt bytes message exponent modulus) (len.toNat + 1) 0 (malloc count)

/-- `decoded[i*bytes + j] = (x >> (7 * j)) % 128;` -/
def storeDigit (bytes i x j : Int) (decoded : Cells) : C Cells := do
  let start ← CType.int.mul i bytes
  let index ← CType.int.add start j
  let shift ← CType.int.mul 7 j
  let rest ← shr x shift
  let digit ← CType.int.rem rest 128
  store decoded index digit

/-- One turn of the loop over `i`, with the loop over `j` in it. -/
def decodeAt (bytes : Int) (cryptogram : Cells) (exponent modulus i : Int) (decoded : Cells) :
    C Cells := do
  let cell ← load cryptogram i
  let c ← value cell
  let x ← decode c exponent modulus
  forLoop 1 bytes (storeDigit bytes i x) (bytes.toNat + 1) 0 decoded

/-- Decode the cryptogram of given length, using the private key (exponent, modulus) -/
def decodeMessage (len bytes : Int) (cryptogram : Cells) (exponent modulus : Int) : C Cells := do
  let count ← CType.int.mul len bytes
  forLoop 1 len (decodeAt bytes cryptogram exponent modulus) (len.toNat + 1) 0 (malloc count)

/-! ## The key that create_secret makes -/

structure Key where
  p : Int
  q : Int
  n : Int
  phi : Int
  e : Int
  d : Int
  deriving DecidableEq, Repr

/-- `while(1)` of `create_secret`: two primes whose product has room for a byte -/
def drawPrimes (rand : Rand) : Nat → Nat → C (Int × Int × Nat)
  | 0, _ => .error .endless
  | turns + 1, taken => do
      let (p, taken) ← randPrime (turns + 1) rand singleMax taken
      let (q, taken) ← randPrime (turns + 1) rand singleMax taken
      let n ← CType.int.mul p q
      if n < 128 then drawPrimes rand turns taken else .ok (p, q, taken)

/-- The key of `create_secret`, from a stream of random numbers. -/
def createKey (turns : Nat) (rand : Rand) : C Key := do
  let (p, q, taken) ← drawPrimes rand turns 0
  let n ← CType.int.mul p q
  let phi ← CType.int.mul (p - 1) (q - 1)
  let (e, _) ← randExponent turns rand phi exponentMax taken
  let d ← inverse e phi
  return ⟨p, q, n, phi, e, d⟩

/-- The block size `create_secret` chooses. -/
def blockBytes (n : Int) : Int := if n / 2 ^ 21 ≠ 0 then 3 else if n / 2 ^ 14 ≠ 0 then 2 else 1

end HyperSmile.Crypto.Rsa
