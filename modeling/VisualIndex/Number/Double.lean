import VisualIndex.Number.Single

/-! Double-precision numbers, kept as their 64 bits, and the conversions between the
two precisions. Widening is exact; narrowing rounds to nearest. -/
namespace VisualIndex

/-- The format with 53 significant bits and 11 exponent bits. -/
def doubleFormat : Format := ⟨52, 11⟩

structure Double where
  bits : UInt64
  deriving DecidableEq

namespace Double

def ofCode (n : Nat) : Double := ⟨UInt64.ofNat n⟩

def datum (x : Double) : Datum := doubleFormat.decode x.bits.toNat

def isNaN (x : Double) : Bool :=
  match x.datum with
  | .nan _ _ => true
  | _ => false

def isInfinite (x : Double) : Bool :=
  match x.datum with
  | .infinite _ => true
  | _ => false

def zero : Double := ⟨0⟩

def ofNat (n : Nat) : Double := ofCode (doubleFormat.ofNat n)

def add (x y : Double) : Double := ofCode (doubleFormat.add x.datum y.datum)

def mul (x y : Double) : Double := ofCode (doubleFormat.mul x.datum y.datum)

def div (x y : Double) : Double := ofCode (doubleFormat.div x.datum y.datum)

/-- The same number with the other sign. -/
def neg (x : Double) : Double := ⟨x.bits ^^^ 0x8000000000000000⟩

instance : Add Double := ⟨add⟩
instance : Mul Double := ⟨mul⟩
instance : Div Double := ⟨div⟩
instance : Neg Double := ⟨neg⟩

/-- The single nearest to a double. -/
def narrow (x : Double) : Single := .ofCode (doubleFormat.convert singleFormat x.datum)

end Double

/-- The double equal to a single. -/
def Single.widen (x : Single) : Double := .ofCode (singleFormat.convert doubleFormat x.datum)

end VisualIndex
