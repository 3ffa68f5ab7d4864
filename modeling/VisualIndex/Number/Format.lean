/-! Binary floating-point formats over exact integers.

A format's least positive value is one quantum, and every finite value is a whole
number of quanta. A magnitude code is an encoding without its sign bit: codes and
values are ordered alike, and rounding is a single function from an exact quotient
of quanta to the nearest code, ties going to the even one. Sums, products, quotients
and roots are formed exactly and then rounded once; a NaN among the operands is the
answer, the first of two. -/

-- powers of naturals are those of the core library, whatever other instances are in scope
attribute [instance (2000), default_instance (20000)] instPowNat

namespace VisualIndex

/-- The nearest integer to `num / den`; a half goes to the even neighbour. -/
def nearestEven (num den : Nat) : Nat :=
  let whole := num / den
  let twice := 2 * (num % den)
  if twice < den then whole
  else if den < twice then whole + 1
  else whole + whole % 2

/-- The nearest integer to `num / den`; a half goes up. -/
def nearestUp (num den : Nat) : Nat := (2 * num + den) / (2 * den)

/-- The integer part of the square root, by pairs of binary digits. -/
def rootByPairs : Nat → Nat → Nat
  | 0, _ => 0
  | pairs + 1, n =>
    let root := 2 * rootByPairs pairs (n / 4)
    if (root + 1) * (root + 1) ≤ n then root + 1 else root

/-- The integer part of the square root. -/
def floorRoot (n : Nat) : Nat := rootByPairs (n.log2 / 2 + 1) n

/-- The widths of the exponent field and of the fraction field. -/
structure Format where
  fractionBits : Nat
  exponentBits : Nat

/-- A decoded value: finite values are counted in quanta, and a NaN's payload is what its
code exceeds infinity's by. -/
inductive Datum where
  | nan (negative : Bool) (payload : Nat)
  | infinite (negative : Bool)
  | finite (negative : Bool) (quanta : Nat)

namespace Format

/-- There are `2 ^ unitShift` quanta in one. -/
def unitShift (f : Format) : Nat := 2 ^ (f.exponentBits - 1) - 2 + f.fractionBits

/-- The magnitude code of infinity; the codes above it are NaN. -/
def infinity (f : Format) : Nat := (2 ^ f.exponentBits - 1) * 2 ^ f.fractionBits

/-- The weight of the sign bit. -/
def signWeight (f : Format) : Nat := 2 ^ (f.fractionBits + f.exponentBits)

/-- The encoding with the given sign and magnitude code. -/
def pack (f : Format) (negative : Bool) (code : Nat) : Nat :=
  if negative then f.signWeight + code else code

/-- The quiet NaN with the given sign and the low part of the given payload. -/
def quiet (f : Format) (negative : Bool) (payload : Nat) : Nat :=
  let weight := 2 ^ (f.fractionBits - 1)
  f.pack negative (f.infinity + weight + payload % weight)

/-- The NaN that stands for a missing result. -/
def quietNaN (f : Format) : Nat := f.quiet true 0

/-- The quanta of a magnitude code. At infinity's code this is the first power of two
out of range, the bound that rounding to the largest finite value is judged by. -/
def quanta (f : Format) (code : Nat) : Nat :=
  let exponent := code / 2 ^ f.fractionBits
  let fraction := code % 2 ^ f.fractionBits
  if exponent = 0 then fraction else (2 ^ f.fractionBits + fraction) * 2 ^ (exponent - 1)

/-- The code nearest to `num / den` quanta, with overflow going to infinity. -/
def round (f : Format) (num den : Nat) : Nat :=
  let shift := (num / den).log2 - f.fractionBits
  min (shift * 2 ^ f.fractionBits + nearestEven num (den * 2 ^ shift)) f.infinity

/-- Decode an encoding. -/
def decode (f : Format) (bits : Nat) : Datum :=
  let negative := bits / f.signWeight % 2 = 1
  let code := bits % f.signWeight
  if f.infinity < code then .nan negative (code - f.infinity)
  else if code = f.infinity then .infinite negative
  else .finite negative (f.quanta code)

def add (f : Format) : Datum → Datum → Nat
  | .nan s p, _ => f.quiet s p
  | _, .nan s p => f.quiet s p
  | .infinite s, .infinite t => if s = t then f.pack s f.infinity else f.quietNaN
  | .infinite s, .finite _ _ => f.pack s f.infinity
  | .finite _ _, .infinite t => f.pack t f.infinity
  | .finite s a, .finite t b =>
    if s = t then f.pack s (f.round (a + b) 1)
    else if a = b then f.pack false 0
    else if b < a then f.pack s (f.round (a - b) 1)
    else f.pack t (f.round (b - a) 1)

def mul (f : Format) : Datum → Datum → Nat
  | .nan s p, _ => f.quiet s p
  | _, .nan s p => f.quiet s p
  | .infinite s, .infinite t => f.pack (s != t) f.infinity
  | .infinite s, .finite t b => if b = 0 then f.quietNaN else f.pack (s != t) f.infinity
  | .finite s a, .infinite t => if a = 0 then f.quietNaN else f.pack (s != t) f.infinity
  | .finite s a, .finite t b => f.pack (s != t) (f.round (a * b) (2 ^ f.unitShift))

def div (f : Format) : Datum → Datum → Nat
  | .nan s p, _ => f.quiet s p
  | _, .nan s p => f.quiet s p
  | .infinite _, .infinite _ => f.quietNaN
  | .infinite s, .finite t _ => f.pack (s != t) f.infinity
  | .finite s _, .infinite t => f.pack (s != t) 0
  | .finite s a, .finite t b =>
    if b = 0 then if a = 0 then f.quietNaN else f.pack (s != t) f.infinity
    else f.pack (s != t) (f.round (a * 2 ^ f.unitShift) b)

/-- The square root. Half a quantum stands in for the missing part of an inexact
root; a rounding boundary is a whole number of quanta, so it is judged the same. -/
def sqrt (f : Format) : Datum → Nat
  | .nan s p => f.quiet s p
  | .infinite s => if s then f.quietNaN else f.pack s f.infinity
  | .finite s a =>
    if a = 0 then f.pack s 0
    else if s then f.quietNaN
    else
      let square := a * 2 ^ f.unitShift
      let root := floorRoot square
      f.pack s (f.round (2 * root + if root * root = square then 0 else 1) 2)

/-- The nearest value to a natural number. -/
def ofNat (f : Format) (n : Nat) : Nat := f.round (n * 2 ^ f.unitShift) 1

/-- The value in format `g` nearest to a datum of format `f`. A payload keeps its leading
digits. -/
def convert (f g : Format) : Datum → Nat
  | .nan s p => g.quiet s (p * 2 ^ g.fractionBits / 2 ^ f.fractionBits)
  | .infinite s => g.pack s g.infinity
  | .finite s a => g.pack s (g.round (a * 2 ^ g.unitShift) (2 ^ f.unitShift))

end Format

end VisualIndex
