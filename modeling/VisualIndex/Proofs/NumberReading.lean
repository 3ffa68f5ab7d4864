import Mathlib.Algebra.Order.Field.Basic
import Mathlib.Data.Rat.Cast.Order
import VisualIndex.Proofs.WrittenNumbers

/-! What a written number is read from.

The figures are gathered into a significand while they fit 64 bits. A figure before the point
that does not fit counts as a factor of ten, one after it is left out, and the point gives the
next figure one more chance. So either no figure is lost, or the significand is the front of
the figures and too large for another one. -/
namespace VisualIndex

open Json

/-- A front of the digits `all`, with `lost` more of them behind it. The chance after the point
may have put a wrong last figure to the front, but then the front is the larger for it. -/
structure Truncated (front lost all : Nat) : Prop where
  some : 0 < lost
  fits : front < 2 ^ 64
  below : front * 10 ^ lost ≤ all
  large : 2 ^ 64 * 10 ^ lost ≤ 10 * all
  above : all < (front + 1) * 10 ^ lost ∨ 2 ^ 64 ≤ 10 * front ∧ all < (front + 10) * 10 ^ lost

namespace Truncated

variable {front lost all digit : Nat}

/-- The first digit that does not fit. -/
theorem first (fits : front < 2 ^ 64) (large : 2 ^ 64 ≤ 10 * front + digit) (small : digit < 10) :
    Truncated front 1 (10 * front + digit) := by
  refine ⟨Nat.one_pos, fits, ?_, ?_, .inl ?_⟩ <;> omega

/-- A digit that is left out. -/
theorem drop (t : Truncated front lost all) (small : digit < 10) :
    Truncated front (lost + 1) (10 * all + digit) := by
  obtain ⟨some, fits, below, large, above⟩ := t
  have next (n : Nat) : n * 10 ^ (lost + 1) = 10 * (n * 10 ^ lost) := by ring
  refine ⟨lost.succ_pos, fits, ?_, ?_, ?_⟩
  · rw [next]
    omega
  · rw [next]
    omega
  · rw [next, next]
    omega

/-- A digit that has its chance after the point. -/
theorem append (t : Truncated front lost all) (small : digit < 10)
    (fits : 10 * front + digit < 2 ^ 64) :
    Truncated (10 * front + digit) lost (10 * all + digit) := by
  obtain ⟨some, -, below, large, above⟩ := t
  have scale : 0 < 10 ^ lost := Nat.pow_pos (by decide)
  rcases above with above | ⟨full, -⟩
  · have full : 2 ^ 64 < 10 * (front + 1) := by
      by_contra few
      have := Nat.mul_le_mul_right (10 ^ lost) (Nat.le_of_not_lt few)
      rw [Nat.mul_assoc] at this
      omega
    have wide : (10 * front + digit) * 10 ^ lost ≤ 2 ^ 64 * 10 ^ lost :=
      Nat.mul_le_mul_right _ fits.le
    have room : 10 * ((front + 1) * 10 ^ lost) ≤ (10 * front + digit + 10) * 10 ^ lost := by
      rw [← Nat.mul_assoc]
      exact Nat.mul_le_mul_right _ (by omega)
    exact ⟨some, fits, by omega, by omega, .inr ⟨by omega, by omega⟩⟩
  · omega

/-- A front is that of a number too large for 64 bits. -/
theorem le_all (t : Truncated front lost all) : 2 ^ 64 ≤ all := by
  have large := t.large
  have ten : 10 ^ 1 ≤ 10 ^ lost := Nat.pow_le_pow_right (by decide) t.some
  omega

end Truncated

namespace Json.Significand

/-- The significand is all digits, with `places` of them after the point. -/
structure IsExact (s : Significand) (places all : Nat) : Prop where
  free : s.full = false
  value : s.value = all
  exponent : s.exponent = -(places : Int)
  fits : all < 2 ^ 64

/-- The significand is a front of the digits. -/
def IsFront (s : Significand) (places all : Nat) : Prop :=
  ∃ lost, Truncated s.value lost all ∧ s.exponent = (lost : Int) - places

variable {s : Significand} {digit places all : Nat}

theorem append?_eq_some {value : Nat} (h : s.append? digit = some value) :
    s.full = false ∧ value = 10 * s.value + digit ∧ value < 2 ^ 64 := by
  simp only [append?, Bool.and_eq_true, Bool.not_eq_true', decide_eq_true_eq,
    Option.ite_none_right_eq_some, Option.some.injEq] at h
  obtain ⟨⟨free, fits⟩, rfl⟩ := h
  exact ⟨free, rfl, fits⟩

theorem append?_eq_none (h : s.append? digit = none) (free : s.full = false) :
    2 ^ 64 ≤ 10 * s.value + digit := by
  simpa [append?, free] using h

/-- Before the point a digit is appended, or it fills the significand for good. -/
theorem wholeDigit_spec (small : digit < 10)
    (h : s.IsExact 0 all ∨ s.full = true ∧ s.IsFront 0 all) :
    (s.wholeDigit digit).IsExact 0 (10 * all + digit) ∨
      (s.wholeDigit digit).full = true ∧ (s.wholeDigit digit).IsFront 0 (10 * all + digit) := by
  unfold wholeDigit
  cases appended : s.append? digit with
  | some value =>
    obtain ⟨free, rfl, fits⟩ := append?_eq_some appended
    rcases h with ⟨-, rfl, exponent, -⟩ | ⟨full, -⟩
    · exact .inl ⟨free, rfl, exponent, fits⟩
    · rw [free] at full
      cases full
  | none =>
    refine .inr ⟨rfl, ?_⟩
    rcases h with ⟨free, rfl, exponent, fits⟩ | ⟨-, lost, front, exponent⟩
    · have full := append?_eq_none appended free
      exact ⟨1, .first fits full small, by simp [exponent]⟩
    · exact ⟨lost + 1, front.drop small, by simp [exponent]⟩

/-- After the point a digit is appended or left out. -/
theorem fractionDigit_spec (small : digit < 10) (h : s.IsExact places all ∨ s.IsFront places all) :
    (s.fractionDigit digit).IsExact (places + 1) (10 * all + digit) ∨
      (s.fractionDigit digit).IsFront (places + 1) (10 * all + digit) := by
  unfold fractionDigit
  cases appended : s.append? digit with
  | some value =>
    obtain ⟨free, rfl, fits⟩ := append?_eq_some appended
    rcases h with ⟨-, rfl, exponent, -⟩ | ⟨lost, front, exponent⟩
    · exact .inl ⟨free, rfl, by simp [exponent]; omega, fits⟩
    · exact .inr ⟨lost, front.append small fits, by simp [exponent]; omega⟩
  | none =>
    right
    rcases h with ⟨free, rfl, exponent, fits⟩ | ⟨lost, front, exponent⟩
    · have full := append?_eq_none appended free
      exact ⟨1, .first fits full small, by simp [exponent]⟩
    · exact ⟨lost + 1, front.drop small, by simp [exponent]⟩

variable {cs : List Char} (digits : ∀ c ∈ cs, c.isDigit = true)
include digits

theorem foldl_wholeDigit (h : s.IsExact 0 all ∨ s.full = true ∧ s.IsFront 0 all) :
    let t := (cs.map digitOf).foldl wholeDigit s
    t.IsExact 0 (Nat.ofDigitChars 10 cs all) ∨
      t.full = true ∧ t.IsFront 0 (Nat.ofDigitChars 10 cs all) := by
  induction cs generalizing s all with
  | nil => exact h
  | cons c cs ih =>
    rw [Nat.ofDigitChars_cons]
    exact ih (fun d hd => digits d (List.mem_cons_of_mem _ hd))
      (wholeDigit_spec (digitOf_lt (digits c List.mem_cons_self)) h)

theorem foldl_fractionDigit (h : s.IsExact places all ∨ s.IsFront places all) :
    let t := (cs.map digitOf).foldl fractionDigit s
    t.IsExact (places + cs.length) (Nat.ofDigitChars 10 cs all) ∨
      t.IsFront (places + cs.length) (Nat.ofDigitChars 10 cs all) := by
  induction cs generalizing s places all with
  | nil => exact h
  | cons c cs ih =>
    rw [Nat.ofDigitChars_cons, List.length_cons, Nat.add_comm cs.length, ← Nat.add_assoc]
    exact ih (fun d hd => digits d (List.mem_cons_of_mem _ hd))
      (fractionDigit_spec (digitOf_lt (digits c List.mem_cons_self)) h)

omit digits

/-- No digit is lost of a number that fits 64 bits. -/
theorem isExact_of_fits (h : s.IsExact places all ∨ s.IsFront places all)
    (fits : all < 2 ^ 64) : s.IsExact places all := by
  rcases h with exact_ | ⟨lost, front, -⟩
  · exact exact_
  · exact absurd fits (Nat.not_lt.mpr front.le_all)

end Json.Significand

/-- The value of an exponent's figures. -/
theorem foldl_exponent (cs : List Char) (v : Nat) :
    (cs.map digitOf).foldl (fun e digit => 10 * e + digit) v = Nat.ofDigitChars 10 cs v := by
  rw [List.foldl_map, Nat.ofDigitChars_eq_foldl]
  rfl

/-- The exponent that is written. -/
def WrittenExponent.value (e : WrittenExponent) : Int :=
  if e.sign.getD false then -e.figures.value else e.figures.value

theorem WrittenExponent.natAbs_value (e : WrittenExponent) : e.value.natAbs = e.figures.value := by
  unfold value
  split <;> simp

namespace WrittenNumber

variable (n : WrittenNumber)

/-- The figures after the point. -/
@[simp] def places : List Char := (n.fraction.map Figures.chars).getD []

/-- The value of all figures before the exponent. -/
def significand : Nat := Nat.ofDigitChars 10 (n.whole.chars ++ n.places) 0

/-- By how many places the exponent shifts the point. -/
def shift : Int := (n.exponent.map WrittenExponent.value).getD 0

/-- The exact size of the number. -/
def magnitude : ℚ := n.significand * 10 ^ (n.shift - n.places.length)

/-- The exact value of the number. -/
def exactValue : ℚ := if n.negative then -n.magnitude else n.magnitude

theorem magnitude_nonneg : 0 ≤ n.magnitude :=
  mul_nonneg n.significand.cast_nonneg (zpow_nonneg (Nat.cast_nonneg 10) _)

theorem wholePart_numeral :
    n.numeral.wholePart.IsExact 0 n.whole.value ∨
      n.numeral.wholePart.full = true ∧ n.numeral.wholePart.IsFront 0 n.whole.value :=
  Significand.foldl_wholeDigit n.whole.isDigit (.inl ⟨rfl, rfl, rfl, by decide⟩)

theorem significand_numeral :
    n.numeral.significand.IsExact n.places.length n.significand ∨
      n.numeral.significand.IsFront n.places.length n.significand := by
  have whole := n.wholePart_numeral
  unfold Numeral.significand significand
  rw [Nat.ofDigitChars_append]
  cases fraction : n.fraction with
  | none => simpa [numeral, fraction, Figures.value] using whole.imp_right And.right
  | some f =>
    have reopened : ({ n.numeral.wholePart with full := false } : Significand).IsExact 0
        n.whole.value ∨ ({ n.numeral.wholePart with full := false } : Significand).IsFront 0
        n.whole.value :=
      whole.imp (fun e => ⟨rfl, e.value, e.exponent, e.fits⟩) And.right
    simpa [numeral, fraction, Figures.digits, Figures.value] using
      Significand.foldl_fractionDigit f.isDigit reopened

/-- A number in plain figures that fits 64 bits has no figure lost. -/
theorem value_of_isPlain (plain : n.numeral.isPlain = true) :
    n.places = [] ∧ n.shift = 0 ∧ n.numeral.wholePart.value = n.significand ∧
      n.significand < 2 ^ 64 := by
  simp only [Numeral.isPlain, numeral, Bool.and_eq_true, Option.isNone_iff_eq_none,
    Option.map_eq_none_iff, Bool.not_eq_true'] at plain
  obtain ⟨⟨fraction, exponent⟩, free⟩ := plain
  have all : n.significand = n.whole.value := by simp [significand, fraction, Figures.value]
  rcases n.wholePart_numeral with ⟨-, value, -, fits⟩ | ⟨full, -⟩
  · exact ⟨by simp [fraction], by simp [shift, exponent], value.trans all.symm, all ▸ fits⟩
  · exact absurd (full.symm.trans free) (by decide)

/-- A number in plain figures that fits 64 bits is read exactly, whatever becomes of others. -/
theorem value_of_plain (double : Numeral → Except DocumentFault Double)
    (positive : n.negative = false) (fraction : n.fraction = none) (exponent : n.exponent = none)
    (fits : n.significand < 2 ^ 64) :
    n.numeral.value double = .ok (.natural (.ofNat n.significand)) := by
  have all : n.significand = n.whole.value := by simp [significand, fraction, Figures.value]
  have gathered := Significand.isExact_of_fits (n.wholePart_numeral.imp_right And.right)
    (all ▸ fits)
  have plain : n.numeral.isPlain = true := by
    rw [Numeral.isPlain, gathered.free]
    simp [numeral, fraction, exponent]
  have sign : n.numeral.negative = false := positive
  unfold Numeral.value
  rw [plain, sign, gathered.value, all]
  rfl

/-- The exponent is added to what the significand stands for. -/
theorem toDouble_of_near (near : n.shift.natAbs ≤ greatestExponent) :
    n.numeral.toDouble =
      scaleToDouble n.numeral.significand.value (n.numeral.significand.exponent + n.shift) := by
  unfold Numeral.toDouble
  cases exponent : n.exponent with
  | none => simp [numeral, exponent, shift]
  | some e =>
    have written : e.figures.digits.foldl (fun e digit => 10 * e + digit) 0 = e.figures.value :=
      foldl_exponent e.figures.chars 0
    rw [shift, exponent, Option.map_some, Option.getD_some, e.natAbs_value] at near
    simp only [numeral, exponent, Option.map_some, WrittenExponent.parts, written, near, if_true,
      shift, Option.getD_some, WrittenExponent.value]
    split <;> rfl

/-- Beyond the greatest exponent that is added up a number counts as zero or as out of range. -/
theorem toDouble_of_far (far : greatestExponent < n.shift.natAbs) :
    n.numeral.toDouble = if n.shift < 0 ∨ n.numeral.significand.value = 0 then .ok .zero
      else .error .malformed := by
  unfold Numeral.toDouble
  cases exponent : n.exponent with
  | none => simp [shift, exponent] at far
  | some e =>
    have written : e.figures.digits.foldl (fun e digit => 10 * e + digit) 0 = e.figures.value :=
      foldl_exponent e.figures.chars 0
    rw [shift, exponent, Option.map_some, Option.getD_some, e.natAbs_value] at far
    have some : 0 < e.figures.value := Nat.zero_lt_of_lt far
    have below : e.value < 0 ↔ e.sign.getD false = true := by
      rw [WrittenExponent.value]
      split
      · next minus => simp [minus, some]
      · next plus => simp [plus]
    simp [numeral, exponent, WrittenExponent.parts, written, Nat.not_le.mpr far, shift, below]

/-- Any other number is read as the double that its numeral is converted to. -/
theorem value_of_double {double : Numeral → Except DocumentFault Double} {y : Double}
    (marked : n.numeral.isPlain = false) (read : double n.numeral = .ok y) :
    n.numeral.value double = .ok (.real (if n.negative then -y else y)) := by
  unfold Numeral.value
  rw [marked, read]
  rfl

end WrittenNumber

section Widths

variable (double : Numeral → Except DocumentFault Double)

/-- A number as a width is read from it. -/
def WrittenNumber.width (n : WrittenNumber) : Except DocumentFault Single :=
  (n.numeral.value double).map Number.toSingle

/-- A number whose conversion stays in range. -/
def WrittenNumber.Fits (n : WrittenNumber) : Prop := ∃ number, n.numeral.value double = .ok number

variable {double}

theorem WrittenNumber.width_eq_ok_iff {n : WrittenNumber} {width : Single} :
    n.width double = .ok width ↔
      ∃ number, n.numeral.value double = .ok number ∧ number.toSingle = width := by
  rw [WrittenNumber.width]
  cases n.numeral.value double <;> simp [Except.map]

end Widths

end VisualIndex
