import VisualIndex.Json.Lexical
import VisualIndex.Number.Double

/-! JSON numbers.

The grammar of a number and its value are kept apart. A whole number in plain digits
stays exact while it fits 64 bits. Any other number is a double: its leading digits that
fit 64 bits are converted first and then multiplied or divided by a power of ten. A
number out of the range of doubles is malformed. -/
namespace VisualIndex.Json

/-- The written parts of a number; the exponent comes with its sign. -/
structure Numeral where
  negative : Bool
  whole : List Nat
  fraction : Option (List Nat)
  exponent : Option (Bool × List Nat)

/-- The digits at the front of a text, and what follows them. -/
def takeDigits (input : List UInt8) : List Nat × List UInt8 :=
  ((input.takeWhile isDigit).map digitValue, input.dropWhile isDigit)

/-- At least one digit; a text that ends here has the fault `atEnd`. -/
def someDigits (atEnd : DocumentFault) (input : List UInt8) :
    Except DocumentFault (List Nat × List UInt8) :=
  match takeDigits input with
  | ([], []) => .error atEnd
  | ([], _ :: _) => .error .malformed
  | (digits, rest) => .ok (digits, rest)

/-- The part before the point: a zero alone, or digits that do not start with one. -/
def scanWhole (atEnd : DocumentFault) (input : List UInt8) :
    Except DocumentFault (List Nat × List UInt8) :=
  match someDigits atEnd input with
  | .error fault => .error fault
  | .ok (0 :: _ :: _, _) => .error .malformed
  | .ok (digits, rest) => .ok (digits, rest)

def scanFraction (atEnd : DocumentFault) (input : List UInt8) :
    Except DocumentFault (Option (List Nat) × List UInt8) :=
  match input with
  | point :: rest =>
    match someDigits atEnd rest with
    | .error fault => .error fault
    | .ok (digits, rest) => .ok (some digits, rest)
  | _ => .ok (none, input)

/-- An optional sign, as whether it is a minus. -/
def scanSign (input : List UInt8) : Bool × List UInt8 :=
  match input with
  | plus :: rest => (false, rest)
  | minus :: rest => (true, rest)
  | _ => (false, input)

/-- The letter that opens an exponent. -/
def isExponentMark (c : UInt8) : Bool := c = 0x65 || c = 0x45

def scanExponent (atEnd : DocumentFault) (input : List UInt8) :
    Except DocumentFault (Option (Bool × List Nat) × List UInt8) :=
  match input with
  | [] => .ok (none, input)
  | c :: rest =>
    if isExponentMark c then
      match someDigits atEnd (scanSign rest).2 with
      | .error fault => .error fault
      | .ok (digits, tail) => .ok (some ((scanSign rest).1, digits), tail)
    else .ok (none, input)

/-- A number, from its minus sign or first digit on. -/
def scanNumeral (atEnd : DocumentFault) (input : List UInt8) :
    Except DocumentFault (Numeral × List UInt8) :=
  let (negative, unsigned) := match input with
    | minus :: rest => (true, rest)
    | _ => (false, input)
  match scanWhole atEnd unsigned with
  | .error fault => .error fault
  | .ok (whole, rest) =>
    match scanFraction atEnd rest with
    | .error fault => .error fault
    | .ok (fraction, rest) =>
      match scanExponent atEnd rest with
      | .error fault => .error fault
      | .ok (exponent, rest) => .ok (⟨negative, whole, fraction, exponent⟩, rest)

/-- The value of a number. -/
inductive Number where
  | natural (n : UInt64)
  | negative (n : Nat)
  | real (x : Double)
  deriving DecidableEq

/-- `significand · 10 ^ exponent` while digits are being read; `full` once a digit no
longer fits. -/
structure Significand where
  value : Nat
  exponent : Int
  full : Bool

namespace Significand

/-- Append a digit if the value still fits 64 bits. -/
def append? (s : Significand) (digit : Nat) : Option Nat :=
  let value := 10 * s.value + digit
  if !s.full && value < 2 ^ 64 then some value else none

/-- A digit before the point: one that does not fit counts as a factor of ten. -/
def wholeDigit (s : Significand) (digit : Nat) : Significand :=
  match s.append? digit with
  | some value => { s with value }
  | none => { s with exponent := s.exponent + 1, full := true }

/-- A digit after the point: one that does not fit ends the significand. -/
def fractionDigit (s : Significand) (digit : Nat) : Significand :=
  match s.append? digit with
  | some value => { s with value, exponent := s.exponent - 1 }
  | none => { s with full := true }

end Significand

/-- The digits before the point. -/
def Numeral.wholePart (n : Numeral) : Significand :=
  n.whole.foldl Significand.wholeDigit ⟨0, 0, false⟩

/-- All digits. The point gives the digits after it a new chance to fit. -/
def Numeral.significand (n : Numeral) : Significand :=
  match n.fraction with
  | none => n.wholePart
  | some digits => digits.foldl Significand.fractionDigit { n.wholePart with full := false }

/-- The greatest power of ten among the doubles. -/
def greatestPower : Nat := 308

def powerOfTen (k : Nat) : Double := .ofNat (10 ^ k)

/-- Divide by powers of ten, the greatest first, for at most `rounds` extra divisions:
more would leave nothing. -/
def divideByPower (x : Double) : Nat → Nat → Double
  | 0, power => x / powerOfTen (min power greatestPower)
  | rounds + 1, power =>
    if power ≤ greatestPower then x / powerOfTen power
    else divideByPower (x / powerOfTen greatestPower) rounds (power - greatestPower)

/-- A significand and a power of ten as a double, if it is in range. -/
def scaleToDouble (significand : Nat) (exponent : Int) : Except DocumentFault Double :=
  let x := Double.ofNat significand
  if exponent < 0 then .ok (divideByPower x 2 exponent.natAbs)
  else if exponent ≤ greatestPower then
    let y := x * powerOfTen exponent.natAbs
    if y.isInfinite then .error .malformed else .ok y
  else if significand = 0 then .ok .zero
  else .error .malformed

/-- The greatest exponent that is added up; beyond it a number is zero or out of range. -/
def greatestExponent : Nat := 2 ^ 31 - 1

/-- The number without its sign, as a double. -/
def Numeral.toDouble (n : Numeral) : Except DocumentFault Double :=
  let s := n.significand
  match n.exponent with
  | none => scaleToDouble s.value s.exponent
  | some (below, digits) =>
    let exponent := digits.foldl (fun e digit => 10 * e + digit) 0
    if exponent ≤ greatestExponent then
      scaleToDouble s.value (if below then s.exponent - exponent else s.exponent + exponent)
    else if below || s.value = 0 then .ok .zero
    else .error .malformed

/-- Whether a number is written in plain digits that fit 64 bits. -/
def Numeral.isPlain (n : Numeral) : Bool :=
  n.fraction.isNone && n.exponent.isNone && !n.wholePart.full

/-- The value of a numeral, where a conversion to doubles is given for those that are not kept
as whole numbers. Minus zero is a double, and so is a whole number below `-2 ^ 63`. -/
def Numeral.value (double : Numeral → Except DocumentFault Double) (n : Numeral) :
    Except DocumentFault Number :=
  let whole := n.wholePart.value
  if n.isPlain && !n.negative then .ok (.natural (.ofNat whole))
  else if n.isPlain && 0 < whole && whole ≤ 2 ^ 63 then .ok (.negative whole)
  else
    match double n with
    | .error fault => .error fault
    | .ok x => .ok (.real (if n.negative then -x else x))

/-- The single nearest to a number. -/
def Number.toSingle : Number → Single
  | .natural n => .ofNat n.toNat
  | .negative n => .ofInt (-n)
  | .real x => x.narrow

theorem length_of_takeDigits (input : List UInt8) :
    (takeDigits input).1.length + (takeDigits input).2.length = input.length := by
  simp only [takeDigits, List.length_map]
  rw [← List.length_append, List.takeWhile_append_dropWhile]

theorem length_of_someDigits {atEnd : DocumentFault} {input rest : List UInt8} {digits : List Nat}
    (h : someDigits atEnd input = .ok (digits, rest)) : rest.length < input.length := by
  have parts := length_of_takeDigits input
  rcases ht : takeDigits input with ⟨found, tail⟩
  simp only [someDigits, ht] at h
  rw [ht] at parts
  cases found with
  | nil => cases tail <;> cases h
  | cons digit more =>
    cases h
    simp only [List.length_cons] at parts
    omega

theorem length_of_scanWhole {atEnd : DocumentFault} {input rest : List UInt8} {digits : List Nat}
    (h : scanWhole atEnd input = .ok (digits, rest)) : rest.length < input.length := by
  unfold scanWhole at h
  split at h
  · cases h
  · cases h
  · next hs => cases h; exact length_of_someDigits hs

theorem length_of_scanFraction {atEnd : DocumentFault} {input rest : List UInt8}
    {fraction : Option (List Nat)} (h : scanFraction atEnd input = .ok (fraction, rest)) :
    rest.length ≤ input.length := by
  unfold scanFraction at h
  split at h
  · split at h
    · cases h
    · next hs =>
      cases h
      exact Nat.le_succ_of_le (Nat.le_of_lt (length_of_someDigits hs))
  · cases h; exact Nat.le_refl _

theorem length_scanSign_le (input : List UInt8) : (scanSign input).2.length ≤ input.length := by
  unfold scanSign
  split
  · exact Nat.le_succ _
  · exact Nat.le_succ _
  · exact Nat.le_refl _

theorem length_of_scanExponent {atEnd : DocumentFault} {input rest : List UInt8}
    {exponent : Option (Bool × List Nat)} (h : scanExponent atEnd input = .ok (exponent, rest)) :
    rest.length ≤ input.length := by
  unfold scanExponent at h
  split at h
  · cases h; exact Nat.le_refl _
  · next c tail =>
    split at h
    · split at h
      · cases h
      · next hs =>
        cases h
        have := length_of_someDigits hs
        have := length_scanSign_le tail
        simp only [List.length_cons]
        omega
    · cases h; exact Nat.le_refl _

theorem length_of_scanNumeral {atEnd : DocumentFault} {input rest : List UInt8} {n : Numeral}
    (h : scanNumeral atEnd input = .ok (n, rest)) : rest.length < input.length := by
  unfold scanNumeral at h
  split at h
  next negative unsigned hu =>
  have bound : unsigned.length ≤ input.length := by
    split at hu
    · cases hu; exact Nat.le_succ _
    · cases hu; exact Nat.le_refl _
  split at h
  · cases h
  · next hw =>
    have := length_of_scanWhole hw
    split at h
    · cases h
    · next hf =>
      have := length_of_scanFraction hf
      split at h
      · cases h
      · next he =>
        have := length_of_scanExponent he
        cases h
        omega

end VisualIndex.Json
