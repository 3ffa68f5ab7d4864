import VisualIndex.Number.Format

/-! Numbers as bytes, least significant byte first. -/
namespace VisualIndex

/-- The low `width` bytes of a number. -/
def littleEndian : Nat → Nat → List UInt8
  | 0, _ => []
  | width + 1, n => UInt8.ofNat n :: littleEndian width (n / 256)

/-- The number that some bytes spell. -/
def ofLittleEndian : List UInt8 → Nat
  | [] => 0
  | byte :: rest => byte.toNat + 256 * ofLittleEndian rest

/-- The word in the first eight bytes, if there are that many. -/
def firstWord? (bytes : List UInt8) : Option UInt64 :=
  if 8 ≤ bytes.length then some (.ofNat (ofLittleEndian (bytes.take 8))) else none

/-- The eight-byte words that fit. -/
def wholeWords : List UInt8 → List UInt64
  | a :: b :: c :: d :: e :: f :: g :: h :: rest =>
    .ofNat (ofLittleEndian [a, b, c, d, e, f, g, h]) :: wholeWords rest
  | _ => []

/-- The bytes after the last whole word. -/
def wordTail : List UInt8 → List UInt8
  | _ :: _ :: _ :: _ :: _ :: _ :: _ :: _ :: rest => wordTail rest
  | tail => tail

/-- How many of the low `width` bits are set. -/
def setBits : Nat → Nat → Nat
  | 0, _ => 0
  | width + 1, n => n % 2 + setBits width (n / 2)

/-- Two lower-case hexadecimal digits. -/
def hexByte (byte : UInt8) : List Char :=
  [Nat.digitChar (byte.toNat / 16), Nat.digitChar (byte.toNat % 16)]

theorem length_littleEndian (width n : Nat) : (littleEndian width n).length = width := by
  induction width generalizing n with
  | zero => rfl
  | succ width ih => simp [littleEndian, ih]

theorem ofLittleEndian_littleEndian (width n : Nat) :
    ofLittleEndian (littleEndian width n) = n % 256 ^ width := by
  induction width generalizing n with
  | zero => simp [littleEndian, ofLittleEndian, Nat.mod_one]
  | succ width ih =>
    simp only [littleEndian, ofLittleEndian, ih, UInt8.toNat_ofNat', Nat.reducePow]
    rw [Nat.pow_succ', Nat.mod_mul]

theorem littleEndian_ofLittleEndian (bytes : List UInt8) :
    littleEndian bytes.length (ofLittleEndian bytes) = bytes := by
  induction bytes with
  | nil => rfl
  | cons byte rest ih =>
    have bound := byte.toNat_lt
    simp only [List.length_cons, littleEndian, ofLittleEndian]
    rw [show (byte.toNat + 256 * ofLittleEndian rest) / 256 = ofLittleEndian rest by omega, ih]
    congr 1
    apply UInt8.toNat_inj.1
    rw [UInt8.toNat_ofNat']
    omega

theorem ofLittleEndian_lt (bytes : List UInt8) : ofLittleEndian bytes < 256 ^ bytes.length := by
  induction bytes with
  | nil => exact Nat.one_pos
  | cons byte rest ih =>
    have bound := byte.toNat_lt
    rw [List.length_cons, Nat.pow_succ', ofLittleEndian]
    omega

end VisualIndex
