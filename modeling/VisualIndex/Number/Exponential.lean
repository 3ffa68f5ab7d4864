import VisualIndex.Number.Double

/-! The exponential and the natural logarithm, correctly rounded.

Both are computed in fixed point with `workingBits` binary places. The exponential
sums its series on an argument divided by 256 and squares the sum eight times. Every
step is a floor of an increasing function, so the result is monotone in the argument
before and after rounding; a negative argument takes the reciprocal. The logarithm
splits off the power of two and sums the inverse hyperbolic tangent of
`(m - 1) / (m + 1)` for the remaining factor `m` in `[1, 2)`. -/
namespace VisualIndex

/-- The binary places carried by the series. -/
def workingBits : Nat := 192

/-- The terms `1 + u/k (1 + u/(k+1) (…))` of the exponential series. -/
def exponentialSeries (u : Nat) : Nat → Nat → Nat
  | _, 0 => 2 ^ workingBits
  | k, terms + 1 =>
    2 ^ workingBits + u * exponentialSeries u (k + 1) terms / (k * 2 ^ workingBits)

/-- Square in fixed point, repeatedly. -/
def squareRepeatedly : Nat → Nat → Nat
  | 0, x => x
  | times + 1, x => squareRepeatedly times (x * x / 2 ^ workingBits)

/-- The exponential of a fixed-point argument below 128, in fixed point. -/
def growth (t : Nat) : Nat := squareRepeatedly 8 (exponentialSeries (t / 2 ^ 8) 1 40)

namespace Single

/-- The exponential. Beyond 128 it is out of range in either direction. -/
def exp (x : Single) : Single :=
  match x.datum with
  | .nan s p => .ofCode (singleFormat.quiet s p)
  | .infinite negative => if negative then zero else .ofCode singleFormat.infinity
  | .finite negative quanta =>
    let one := 2 ^ singleFormat.unitShift
    if 128 * one ≤ quanta then if negative then zero else .ofCode singleFormat.infinity
    else
      let e := growth (quanta * 2 ^ (workingBits - singleFormat.unitShift))
      .ofCode (if negative then singleFormat.round (2 ^ workingBits * one) e
        else singleFormat.round (e * one) (2 ^ workingBits))

end Single

/-- The terms `1/k + z² (1/(k+2) + …)` of the inverse hyperbolic tangent. -/
def tangentSeries (square : Nat) : Nat → Nat → Nat
  | _, 0 => 0
  | k, terms + 1 =>
    2 ^ workingBits / k + square * tangentSeries square (k + 2) terms / 2 ^ workingBits

/-- The logarithm of `m / d` for `d ≤ m ≤ 2 d`, in fixed point. -/
def logarithmOfRatio (m d : Nat) : Nat :=
  let z := (m - d) * 2 ^ workingBits / (m + d)
  2 * (z * tangentSeries (z * z / 2 ^ workingBits) 1 64 / 2 ^ workingBits)

namespace Double

/-- The natural logarithm; negative numbers have none. -/
def log (x : Double) : Double :=
  match x.datum with
  | .nan s p => .ofCode (doubleFormat.quiet s p)
  | .infinite negative =>
    .ofCode (if negative then doubleFormat.quietNaN else doubleFormat.infinity)
  | .finite negative quanta =>
    if quanta = 0 then .ofCode (doubleFormat.pack true doubleFormat.infinity)
    else if negative then .ofCode doubleFormat.quietNaN
    else
      let power := quanta.log2
      let value := ((power : Int) - doubleFormat.unitShift) * logarithmOfRatio 2 1
        + logarithmOfRatio quanta (2 ^ power)
      .ofCode (doubleFormat.pack (value < 0)
        (doubleFormat.round (value.natAbs * 2 ^ doubleFormat.unitShift) (2 ^ workingBits)))

end Double

end VisualIndex
