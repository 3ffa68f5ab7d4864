import VisualIndex.Number.Single

/-! The shortest decimal of a single, and its written forms.

The reals that round to a number form an interval around it, closed exactly when its
code is even. The digits come from the coarsest power of ten that has a multiple in
this interval, and of two such multiples from the nearer. A number halfway between the
two is where the written forms differ. There are two of them: `plainText` goes to the
greater multiple and never uses an exponent; `compactText` goes to the even multiple,
uses an exponent for very large and very small numbers, and always marks a fraction. -/
namespace VisualIndex

/-- `digits · 10 ^ exponent`. -/
structure Decimal where
  digits : Nat
  exponent : Int
  deriving DecidableEq

/-- Which of two equally near multiples is taken: the even or the greater one. -/
inductive Halfway where
  | even
  | greater
  deriving DecidableEq

/-- The nearest integer to `num / den`. -/
def Halfway.nearest : Halfway → Nat → Nat → Nat
  | even => nearestEven
  | greater => nearestUp

/-- A closed or open interval of naturals around a centre. -/
structure Interval where
  lower : Nat
  centre : Nat
  upper : Nat
  closed : Bool

namespace Interval

def holds (i : Interval) (n : Nat) : Bool :=
  if i.closed then decide (i.lower ≤ n) && decide (n ≤ i.upper)
  else decide (i.lower < n) && decide (n < i.upper)

/-- The multiple of `step` in the interval that is nearest to the centre, as the
factor. Only the centre's two neighbours are looked at. -/
def multiple? (i : Interval) (h : Halfway) (step : Nat) : Option Nat :=
  let below := i.centre / step
  let above := below + 1
  match i.holds (below * step), i.holds (above * step) with
  | false, false => none
  | true, false => some below
  | false, true => some above
  | true, true => some (h.nearest i.centre step)

end Interval

/-- The least power of ten tried: a quantum is wider. -/
def finestExponent : Nat := 46

/-- The reals that round to a magnitude code, in units of `2 ^ -150 · 10 ^ -46`. -/
def roundingInterval (code : Nat) : Interval where
  lower := (singleFormat.quanta (code - 1) + singleFormat.quanta code) * 10 ^ finestExponent
  centre := 2 * singleFormat.quanta code * 10 ^ finestExponent
  upper := (singleFormat.quanta code + singleFormat.quanta (code + 1)) * 10 ^ finestExponent
  closed := code % 2 = 0

/-- The first hit on the grids `10 ^ (power - 46)`, `10 ^ (power - 47)`, … -/
def coarsestMultiple (i : Interval) (h : Halfway) : Nat → Decimal
  | 0 => ⟨(i.multiple? h (2 ^ 150)).getD 0, -finestExponent⟩
  | power + 1 =>
    match i.multiple? h (10 ^ (power + 1) * 2 ^ 150) with
    | some digits => ⟨digits, (power + 1 : Int) - finestExponent⟩
    | none => coarsestMultiple i h power

/-- The shortest decimal that rounds to a magnitude code, and the nearest of those. -/
def shortestDecimal (h : Halfway) (code : Nat) : Decimal :=
  coarsestMultiple (roundingInterval code) h 85

namespace Decimal

def numeral (d : Decimal) : List Char := (Nat.repr d.digits).toList

/-- Positional digits, without a point when the value is whole. -/
def positional (d : Decimal) : List Char :=
  let numeral := d.numeral
  match d.exponent with
  | .ofNat zeros => numeral ++ List.replicate zeros '0'
  | .negSucc _ =>
    let places := d.exponent.natAbs
    if places < numeral.length then
      numeral.take (numeral.length - places) ++ '.' :: numeral.drop (numeral.length - places)
    else '0' :: '.' :: List.replicate (places - numeral.length) '0' ++ numeral

/-- The exponent with one digit before the point. -/
def leadingExponent (d : Decimal) : Int := d.exponent + (d.numeral.length - 1 : Nat)

/-- One digit, the others after a point if there are any, and a signed exponent. -/
def scientific (d : Decimal) : List Char :=
  let mantissa := match d.numeral with
    | first :: second :: rest => first :: '.' :: second :: rest
    | short => short
  let exponent := d.leadingExponent
  mantissa ++ 'e' :: (if exponent < 0 then '-' else '+') :: (Nat.repr exponent.natAbs).toList

end Decimal

namespace Single

def signText (x : Single) : List Char := if x.isNegative then ['-'] else []

/-- The text of a number in messages. -/
def plainText (x : Single) : String :=
  if x.isNaN then "NaN"
  else if x.magnitude = singleFormat.infinity then String.ofList (x.signText ++ "inf".toList)
  else if x.magnitude = 0 then String.ofList (x.signText ++ ['0'])
  else String.ofList (x.signText ++ (shortestDecimal .greater x.magnitude).positional)

/-- The text of a finite number in documents: positional from `1e-6` up to below
`1e13`, with at least one digit after the point. -/
def compactText (x : Single) : List Char :=
  if x.magnitude = 0 then x.signText ++ "0.0".toList
  else
    let decimal := shortestDecimal .even x.magnitude
    let exponent := decimal.leadingExponent
    x.signText ++
      if -6 ≤ exponent && exponent < 13 then
        if 0 ≤ decimal.exponent then decimal.positional ++ ".0".toList else decimal.positional
      else decimal.scientific

end Single

end VisualIndex
