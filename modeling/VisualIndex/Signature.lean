import VisualIndex.LittleEndian
import VisualIndex.Error

/-! Binary signatures.

A signature of `b` bytes holds `8 b` bits, bit `i` in byte `i / 8` at weight
`2 ^ (i % 8)`. Set bits and differing bits are counted a word of eight bytes at a time,
the bytes left over one by one. The text is the signature read as one little-endian
number, in hexadecimal and padded to its width. -/
namespace VisualIndex

structure Signature (b : Nat) where
  bytes : Vector UInt8 b
  deriving DecidableEq

/-- The byte whose bit `j` is `f j`. -/
def packByte (f : Nat → Bool) : UInt8 :=
  .ofNat ((List.range 8).foldr (fun j n => (f j).toNat + 2 * n) 0)

namespace Signature

variable {b : Nat}

def allClear : Signature b := ⟨.replicate b 0⟩

def allSet : Signature b := ⟨.replicate b 255⟩

/-- The signature with the given bits. -/
def ofBits (f : Nat → Bool) : Signature b :=
  ⟨.ofFn fun k : Fin b => packByte fun j => f (8 * k + j)⟩

/-- The bit at an index, if the signature has one there. -/
def bit? (s : Signature b) (i : Nat) : Option Bool :=
  s.bytes[i / 8]?.map fun byte => byte.toNat.testBit (i % 8)

/-- Set or clear the bit at an index. -/
def setBit (s : Signature b) (i : Nat) (value : Bool) : Except Violation (Signature b) :=
  if h : i / 8 < b then
    let mask : UInt8 := .ofNat (2 ^ (i % 8))
    let byte := s.bytes[i / 8]
    .ok ⟨s.bytes.set (i / 8) (if value then byte ||| mask else byte &&& ~~~mask)⟩
  else .error .outOfBounds

/-- The signature of the bits in which two signatures differ. -/
def xor (s t : Signature b) : Signature b := ⟨s.bytes.zipWith (· ^^^ ·) t.bytes⟩

instance : XorOp (Signature b) := ⟨xor⟩

/-- The number of set bits. -/
def bitCount (s : Signature b) : Nat :=
  let bytes := s.bytes.toList
  ((wholeWords bytes).map fun word => setBits 64 word.toNat).foldr (· + ·) 0
    + ((wordTail bytes).map fun byte => setBits 8 byte.toNat).foldr (· + ·) 0

/-- The number of bits in which two signatures differ. -/
def distance (s t : Signature b) : Nat :=
  let differing := List.zipWith fun (x y : UInt64) => setBits 64 (x ^^^ y).toNat
  let differingTail := List.zipWith fun (x y : UInt8) => setBits 8 (x ^^^ y).toNat
  (differing (wholeWords s.bytes.toList) (wholeWords t.bytes.toList)).foldr (· + ·) 0
    + (differingTail (wordTail s.bytes.toList) (wordTail t.bytes.toList)).foldr (· + ·) 0

/-- The hexadecimal digits, most significant byte first. -/
def digits (s : Signature b) : List Char := s.bytes.toList.reverse.flatMap hexByte

def text (s : Signature b) : String := String.ofList s.digits

end Signature

end VisualIndex
