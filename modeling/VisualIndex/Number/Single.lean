import VisualIndex.Number.Format

/-! Single-precision numbers, kept as their 32 bits.

Every bit pattern is a value of its own, so storing a number never changes it. The
numeric comparisons go through `key`, which orders the patterns that are numbers and
puts both zeros at one place; `rank` extends it to all patterns with NaN on top. -/
namespace VisualIndex

/-- The format with 24 significant bits and 8 exponent bits. -/
def singleFormat : Format := ⟨23, 8⟩

structure Single where
  bits : UInt32
  deriving DecidableEq

namespace Single

def ofCode (n : Nat) : Single := ⟨UInt32.ofNat n⟩

def datum (x : Single) : Datum := singleFormat.decode x.bits.toNat

def isNegative (x : Single) : Bool := 2 ^ 31 ≤ x.bits.toNat

/-- The encoding without its sign. -/
def magnitude (x : Single) : Nat := x.bits.toNat % 2 ^ 31

def isNaN (x : Single) : Bool := singleFormat.infinity < x.magnitude

def isFinite (x : Single) : Bool := x.magnitude < singleFormat.infinity

/-- The place of a number on the line; both zeros are at 0. -/
def key (x : Single) : Int := if x.isNegative then -(x.magnitude : Int) else x.magnitude

/-- `x > y`, false when either is NaN. -/
def gt (x y : Single) : Bool := !x.isNaN && !y.isNaN && decide (y.key < x.key)

/-- `x ≥ y`, false when either is NaN. -/
def ge (x y : Single) : Bool := !x.isNaN && !y.isNaN && decide (y.key ≤ x.key)

/-- Numeric equality: the zeros are equal, and NaN equals nothing. -/
def numEq (x y : Single) : Bool := !x.isNaN && !y.isNaN && decide (x.key = y.key)

/-- The place in the order of all values: NaN is one place above every number. -/
def rank (x : Single) : Int := if x.isNaN then singleFormat.infinity + 1 else x.key

def zero : Single := ⟨0⟩

def ofNat (n : Nat) : Single := ofCode (singleFormat.ofNat n)

def ofInt (n : Int) : Single :=
  ofCode (singleFormat.pack (n < 0) (singleFormat.ofNat n.natAbs))

def add (x y : Single) : Single := ofCode (singleFormat.add x.datum y.datum)

def mul (x y : Single) : Single := ofCode (singleFormat.mul x.datum y.datum)

def div (x y : Single) : Single := ofCode (singleFormat.div x.datum y.datum)

def sqrt (x : Single) : Single := ofCode (singleFormat.sqrt x.datum)

/-- The same number with the other sign. -/
def neg (x : Single) : Single := ⟨x.bits ^^^ 0x80000000⟩

instance : Add Single := ⟨add⟩
instance : Mul Single := ⟨mul⟩
instance : Div Single := ⟨div⟩
instance : Neg Single := ⟨neg⟩

/-- The nearest natural number below `2 ^ 64`, a half going up; what is out of range
goes to the nearer end, and NaN to 0. -/
def roundToWord (x : Single) : UInt64 :=
  match x.datum with
  | .nan _ _ => 0
  | .infinite negative => if negative then 0 else UInt64.ofNat (2 ^ 64 - 1)
  | .finite negative quanta =>
    let one := 2 ^ singleFormat.unitShift
    if negative then 0 else UInt64.ofNat (min (nearestUp quanta one) (2 ^ 64 - 1))

end Single

end VisualIndex
