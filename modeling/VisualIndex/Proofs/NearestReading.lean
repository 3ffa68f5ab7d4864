import VisualIndex.Proofs.SettingsDocument

/-! Converting numerals to the nearest doubles.

All figures of a numeral are gathered, and what they stand for is rounded once. A scanner that
converts numerals in this way loses one width: its shortest decimal is so near the midpoint to
the next single that the nearest double is the midpoint. -/
namespace VisualIndex

open Json

/-- The number that some digits stand for. -/
def digitsValue (digits : List Nat) : Nat := digits.foldl (fun v digit => 10 * v + digit) 0

namespace Json.Numeral

/-- All digits before the exponent, as one number. -/
def allDigits (n : Numeral) : Nat := digitsValue (n.whole ++ n.fraction.getD [])

/-- The power of ten that all digits are to be multiplied by. -/
def power (n : Numeral) : Int :=
  let exponent : Int := match n.exponent with
    | some (below, digits) => if below then -digitsValue digits else digitsValue digits
    | none => 0
  exponent - (n.fraction.getD []).length

/-- The code of the double nearest to a number without its sign. -/
def nearestCode (n : Numeral) : Nat :=
  match n.power with
  | .ofNat k => doubleFormat.round (n.allDigits * 10 ^ k * unit) 1
  | .negSucc k => doubleFormat.round (n.allDigits * unit) (10 ^ (k + 1))

/-- The double nearest to a number without its sign, if it is in range. -/
def nearestDouble (n : Numeral) : Except DocumentFault Double :=
  if n.nearestCode < doubleFormat.infinity then .ok (.ofCode n.nearestCode) else .error .malformed

end Json.Numeral

namespace WrittenNumber

variable (n : WrittenNumber)

theorem allDigits_numeral : n.numeral.allDigits = n.significand := by
  have figures : n.numeral.whole ++ n.numeral.fraction.getD [] =
      (n.whole.chars ++ n.places).map digitOf := by
    cases fraction : n.fraction <;> simp [numeral, fraction, Figures.digits]
  rw [Numeral.allDigits, figures, digitsValue, foldl_exponent, significand]

theorem power_numeral : n.numeral.power = n.shift - n.places.length := by
  have places : (n.numeral.fraction.getD []).length = n.places.length := by
    cases fraction : n.fraction <;> simp [numeral, fraction, Figures.digits]
  rw [Numeral.power, places]
  cases exponent : n.exponent with
  | none => simp [numeral, exponent, shift]
  | some e =>
    have written : digitsValue e.figures.digits = e.figures.value :=
      foldl_exponent e.figures.chars 0
    simp [numeral, exponent, shift, WrittenExponent.parts, written, WrittenExponent.value]

/-- The size of a number is rounded once, as whatever quotient it is given. -/
theorem nearestCode_numeral {num den : Nat} (pos : 0 < den)
    (size : n.magnitude * unit = num / den) :
    n.numeral.nearestCode = doubleFormat.round num den := by
  have scale : (den : ℚ) ≠ 0 := Nat.cast_ne_zero.mpr pos.ne'
  have value := n.allDigits_numeral
  have power := n.power_numeral
  rw [magnitude, ← value, ← power, eq_div_iff scale] at size
  unfold Numeral.nearestCode
  cases exponent : n.numeral.power with
  | ofNat k =>
    rw [exponent, Int.ofNat_eq_natCast, zpow_natCast] at size
    refine doubleFormat.round_congr (by decide) Nat.one_pos pos ?_
    have size : n.numeral.allDigits * 10 ^ k * unit * den = num := by exact_mod_cast size
    rw [size, Nat.mul_one]
  | negSucc k =>
    rw [exponent, zpow_negSucc] at size
    refine doubleFormat.round_congr (by decide) (Nat.pow_pos (by decide)) pos ?_
    have ten : (10 : ℚ) ^ (k + 1) ≠ 0 := pow_ne_zero _ (by norm_num)
    have cancel (a u d : ℚ) : a * u * d = a * (10 ^ (k + 1))⁻¹ * u * d * 10 ^ (k + 1) := by
      field_simp
    have size := (cancel n.numeral.allDigits unit den).trans (congrArg (· * _) size)
    exact_mod_cast size

end WrittenNumber

namespace DocumentLibrary

/-- The scanner that rounds every number once. -/
def nearest : DocumentLibrary := scanner Numeral.nearestDouble

theorem nearest_readsNearest : nearest.ReadsNearest := by
  intro n marked num den pos size inside
  change n.numeral.nearestDouble = _
  rw [Numeral.nearestDouble, n.nearestCode_numeral pos size, if_pos inside]

end DocumentLibrary

end VisualIndex
