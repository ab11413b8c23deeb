/-
# Guest.Crc — the checksum module: crc.c

`crc32(ptr, len)` walks `len` bytes with a 32-bit register. The pair of a pointer
and a length is the list of the bytes they span.
-/
import Mathlib.Data.BitVec

namespace HyperSmile.Guest.Crc

set_option autoImplicit false

/-- One turn of the inner loop: `(crc >> 1) ^ (0xEDB88320 & (-(crc & 1)))`. -/
def crcBit (crc : BitVec 32) : BitVec 32 :=
  (crc >>> 1) ^^^ (0xEDB88320#32 &&& (-(crc &&& 1#32)))

/-- The `j` loop, eight turns. -/
def crcBits : Nat → BitVec 32 → BitVec 32
  | 0, crc => crc
  | j + 1, crc => crcBits j (crcBit crc)

/-- One round of the `while` loop. -/
def crcByte (crc : BitVec 32) (byte : BitVec 8) : BitVec 32 :=
  crcBits 8 (crc ^^^ byte.setWidth 32)

def crc32 (bytes : List (BitVec 8)) : BitVec 32 :=
  bytes.foldl crcByte 0xffffffff#32 ^^^ 0xffffffff#32

-- The check value of this CRC, over the ASCII digits 1 to 9.
example : crc32 [0x31, 0x32, 0x33, 0x34, 0x35, 0x36, 0x37, 0x38, 0x39] = 0xCBF43926#32 := by
  decide +kernel

end HyperSmile.Guest.Crc
