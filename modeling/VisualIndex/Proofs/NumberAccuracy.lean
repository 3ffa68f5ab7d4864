import VisualIndex.Proofs.NumberReading
import VisualIndex.Proofs.ScalingError

/-! How closely written numbers are read.

A whole number in plain figures that fits a word is read exactly. Any other number is read as a
double: the front of its figures that fits 64 bits misses less than one part in `2 ^ 57`, and
scaling it misses little more. That holds up to the safe magnitude, beyond which the
product of two rounded doubles may be out of range although the number itself is not. -/
namespace VisualIndex

open Json

/-- The other sign is the sign bit. -/
theorem Double.neg_ofCode {c : Nat} (finite : c < doubleFormat.infinity) :
    -ofCode c = ofCode (doubleFormat.pack true c) := by
  have small : c < 2 ^ 63 := finite.trans (by decide)
  have flipped : c ^^^ 2 ^ 63 = 2 ^ 63 + c := by
    apply Nat.eq_of_testBit_eq
    intro i
    rw [Nat.testBit_xor, Nat.testBit_two_pow]
    rcases Nat.lt_trichotomy i 63 with below | rfl | above
    · rw [Nat.testBit_two_pow_add_gt below, decide_eq_false below.ne', Bool.xor_false]
    · rw [Nat.testBit_two_pow_add_eq, decide_eq_true rfl, Bool.xor_true]
    · have more : 2 ^ 63 + c < 2 ^ i :=
        lt_of_lt_of_le (show 2 ^ 63 + c < 2 ^ 64 by omega) (Nat.pow_le_pow_right (by decide) above)
      rw [Nat.testBit_lt_two_pow more, Nat.testBit_lt_two_pow (by omega),
        decide_eq_false above.ne, Bool.xor_false]
  have packed : doubleFormat.pack true c = 2 ^ 63 + c := if_pos rfl
  rw [packed]
  change Double.mk (UInt64.ofNat c ^^^ 0x8000000000000000) = Double.mk (UInt64.ofNat _)
  congr 1
  apply UInt64.toNat_inj.mp
  rw [UInt64.toNat_xor, UInt64.toNat_ofNat_of_lt' (small.trans (by decide)),
    UInt64.toNat_ofNat_of_lt' (show 2 ^ 63 + c < 2 ^ 64 by omega)]
  exact flipped

theorem Double.datum_neg {c : Nat} (finite : c < doubleFormat.infinity) :
    (-ofCode c).datum = .finite true (doubleFormat.quanta c) := by
  rw [neg_ofCode finite, datum_ofCode true finite.le, if_neg finite.ne]

namespace WrittenNumber

variable (n : WrittenNumber)

/-- The significand that is gathered, shifted, misses little of the number. -/
theorem gathered_close :
    n.numeral.significand.value < 2 ^ 64 ∧
      (n.numeral.significand.value : ℚ) * 10 ^ (n.numeral.significand.exponent + n.shift) ≤
        n.magnitude ∧
      n.magnitude - n.magnitude / 2 ^ 57 ≤
        n.numeral.significand.value * 10 ^ (n.numeral.significand.exponent + n.shift) := by
  have scale : (0 : ℚ) < 10 ^ (n.shift - n.places.length) :=
    zpow_pos (by norm_num) _
  rcases n.significand_numeral with ⟨-, value, exponent, fits⟩ | ⟨lost, front, exponent⟩
  · have same : (n.numeral.significand.value : ℚ) *
        10 ^ (n.numeral.significand.exponent + n.shift) = n.magnitude := by
      rw [value, exponent, neg_add_eq_sub, magnitude]
    have nonneg := n.magnitude_nonneg
    rw [same]
    exact ⟨value ▸ fits, le_rfl, by linarith⟩
  · have split : (n.numeral.significand.value : ℚ) *
        10 ^ (n.numeral.significand.exponent + n.shift) =
        n.numeral.significand.value * 10 ^ lost * 10 ^ (n.shift - n.places.length) := by
      rw [exponent, sub_add_eq_add_sub, add_sub_assoc, zpow_add₀ (by norm_num), zpow_natCast,
        mul_assoc]
    have missing : 2 ^ 57 * n.significand ≤
        2 ^ 57 * (n.numeral.significand.value * 10 ^ lost) + n.significand := by
      obtain ⟨-, -, below, large, above⟩ := front
      rcases above with above | ⟨-, above⟩
      · rw [Nat.add_mul] at above
        omega
      · rw [Nat.add_mul] at above
        omega
    have missing : (2 : ℚ) ^ 57 * n.significand ≤
        2 ^ 57 * (n.numeral.significand.value * 10 ^ lost) + n.significand := by
      exact_mod_cast missing
    have below : (n.numeral.significand.value : ℚ) * 10 ^ lost ≤ n.significand := by
      exact_mod_cast front.below
    rw [split, magnitude]
    refine ⟨front.fits, mul_le_mul_of_nonneg_right below scale.le, ?_⟩
    rw [mul_div_right_comm, ← sub_mul]
    exact mul_le_mul_of_nonneg_right (by linarith) scale.le

/-- The figures are part of the text. -/
theorem length_figures_le : n.whole.chars.length + n.places.length ≤ n.text.length := by
  have unsigned : n.whole.chars.length + n.places.length ≤ n.unsigned.length := by
    rw [WrittenNumber.unsigned, List.length_append]
    refine Nat.add_le_add_left ?_ _
    cases fraction : n.fraction <;> simp [fraction]
    omega
  unfold text
  split
  · exact unsigned.trans (Nat.le_succ _)
  · exact unsigned

variable {n} (range : n.magnitude ≤ safeMagnitude)
include range

theorem toDouble_near (near : n.shift.natAbs ≤ greatestExponent) :
    ∃ c < doubleFormat.infinity, n.numeral.toDouble = .ok (.ofCode c) ∧
      Within (1 / 2 ^ 46) 1 (doubleFormat.quanta c) (n.magnitude * unit) := by
  obtain ⟨few, below, missing⟩ := n.gathered_close
  obtain ⟨c, finite, read, within⟩ := scaleToDouble_within few (below.trans range)
  refine ⟨c, finite, (n.toDouble_of_near near).trans read, ?_⟩
  have one : (0 : ℚ) ≤ unit := unit.cast_nonneg
  have below := mul_le_mul_of_nonneg_right below one
  have missing := mul_le_mul_of_nonneg_right missing one
  have nonneg := mul_nonneg n.magnitude_nonneg one
  rw [sub_mul, div_mul_eq_mul_div] at missing
  unfold Within at within ⊢
  rw [abs_le] at within ⊢
  generalize n.magnitude * unit = z at *
  generalize (n.numeral.significand.value : ℚ) *
    10 ^ (n.numeral.significand.exponent + n.shift) * unit = z' at *
  constructor <;> linarith

omit range

/-- Few figures far behind the point are less than a quantum. -/
theorem magnitude_of_low (low : n.shift < 0) (far : greatestExponent < n.shift.natAbs)
    (short : n.text.length ≤ 2 ^ 30) : n.magnitude * unit ≤ 1 := by
  have figures := n.length_figures_le
  have digits : ∀ c ∈ n.whole.chars ++ n.places, c.isDigit = true := by
    intro c hc
    rcases List.mem_append.mp hc with h | h
    · exact n.whole.isDigit c h
    · cases fraction : n.fraction with
      | none => simp [fraction] at h
      | some f =>
        simp only [places, fraction, Option.map_some, Option.getD_some] at h
        exact f.isDigit c h
  have bounded := Figures.value_lt_of_digits digits 0
  rw [Nat.zero_add, Nat.mul_one, List.length_append] at bounded
  have size : (n.significand : ℚ) ≤ 10 ^ (n.whole.chars.length + n.places.length) := by
    exact_mod_cast bounded.le
  have scale : (unit : ℚ) ≤ 10 ^ doubleFormat.unitShift := by
    exact_mod_cast Nat.pow_le_pow_left (show 2 ≤ 10 by decide) doubleFormat.unitShift
  have room : ((n.whole.chars.length + n.places.length : Nat) : Int) +
      (n.shift - n.places.length) + (doubleFormat.unitShift : Nat) ≤ 0 := by
    have places : doubleFormat.unitShift = 1074 := by decide
    unfold greatestExponent at far
    omega
  calc n.magnitude * unit
      ≤ 10 ^ (n.whole.chars.length + n.places.length) * 10 ^ (n.shift - n.places.length) *
          10 ^ doubleFormat.unitShift :=
        have power : (0 : ℚ) ≤ 10 ^ (n.shift - n.places.length) := zpow_nonneg (by norm_num) _
        mul_le_mul (mul_le_mul_of_nonneg_right size power) scale unit.cast_nonneg
          (mul_nonneg (pow_nonneg (by norm_num) _) power)
    _ = 10 ^ (((n.whole.chars.length + n.places.length : Nat) : Int) +
          (n.shift - n.places.length) + (doubleFormat.unitShift : Nat)) := by
        rw [zpow_add₀ (by norm_num), zpow_add₀ (by norm_num), zpow_natCast, zpow_natCast]
    _ ≤ 1 := zpow_le_one_of_nonpos₀ (by norm_num) room

/-- Figures far before the point are out of range unless they are all zero. -/
theorem magnitude_of_high (high : 0 ≤ n.shift) (far : greatestExponent < n.shift.natAbs)
    (short : n.text.length ≤ 2 ^ 30) (range : n.magnitude ≤ safeMagnitude) : n.magnitude = 0 := by
  have figures := n.length_figures_le
  by_contra nonzero
  have some : (1 : ℚ) ≤ n.significand := by
    rw [Nat.one_le_cast, Nat.one_le_iff_ne_zero]
    intro none
    exact nonzero (by rw [magnitude, none, Nat.cast_zero, zero_mul])
  have limit : (safeMagnitude : ℚ) < ((10 ^ (greatestPower + 1) : Nat) : ℚ) :=
    Nat.cast_lt.mpr (by decide +kernel)
  have exponent : ((greatestPower + 1 : Nat) : Int) ≤ n.shift - n.places.length := by
    unfold greatestPower
    unfold greatestExponent at far
    omega
  have large : (10 : ℚ) ^ (greatestPower + 1) ≤ n.magnitude :=
    calc (10 : ℚ) ^ (greatestPower + 1) = 10 ^ ((greatestPower + 1 : Nat) : Int) :=
          (zpow_natCast _ _).symm
      _ ≤ 10 ^ (n.shift - n.places.length) := zpow_le_zpow_right₀ (by norm_num) exponent
      _ ≤ n.magnitude := le_mul_of_one_le_left (zpow_nonneg (by norm_num) _) some
  rw [Nat.cast_pow, Nat.cast_ofNat] at limit
  linarith

include range

/-- A number with an exponent beyond what is added up is as good as zero. -/
theorem toDouble_far (far : greatestExponent < n.shift.natAbs) (short : n.text.length ≤ 2 ^ 30) :
    ∃ c < doubleFormat.infinity, n.numeral.toDouble = .ok (.ofCode c) ∧
      Within (1 / 2 ^ 46) 1 (doubleFormat.quanta c) (n.magnitude * unit) := by
  have nonneg : 0 ≤ n.magnitude * unit := mul_nonneg n.magnitude_nonneg unit.cast_nonneg
  have small : (n.shift < 0 ∨ n.numeral.significand.value = 0) ∧ n.magnitude * unit ≤ 1 := by
    rcases lt_or_ge n.shift 0 with low | high
    · exact ⟨.inl low, magnitude_of_low low far short⟩
    · have none := magnitude_of_high high far short range
      have below := n.gathered_close.2.1
      have scale : (0 : ℚ) < 10 ^ (n.numeral.significand.exponent + n.shift) :=
        zpow_pos (by norm_num) _
      rw [none] at below ⊢
      have value := nonpos_of_mul_nonpos_left below scale
      exact ⟨.inr (Nat.cast_eq_zero.mp (le_antisymm value (Nat.cast_nonneg _))),
        (zero_mul _).trans_le zero_le_one⟩
  have zero : doubleFormat.quanta 0 = 0 := by decide
  refine ⟨0, by decide, ?_, ?_⟩
  · rw [n.toDouble_of_far far, if_pos small.1]
    rfl
  · rw [zero]
    exact within_zero (by norm_num) nonneg small.2

/-- Up to the safe magnitude a number is read in range and closely. -/
theorem toDouble_within (short : n.text.length ≤ 2 ^ 30) :
    ∃ c < doubleFormat.infinity, n.numeral.toDouble = .ok (.ofCode c) ∧
      Within (1 / 2 ^ 46) 1 (doubleFormat.quanta c) (n.magnitude * unit) := by
  rcases Nat.lt_or_ge greatestExponent n.shift.natAbs with far | near
  · exact toDouble_far range far short
  · exact toDouble_near range near

end WrittenNumber

/-- What has been read is close to an exact value. Whole numbers are exact; a double is off by a
share of the value, and by a quantum where it is too small for all its bits. -/
def Json.Number.IsClose (number : Number) (q : ℚ) : Prop :=
  match number with
  | .natural w => q = w.toNat
  | .negative w => q = -w
  | .real x => ∃ negative quanta, x.datum = .finite negative quanta ∧
      |(if negative then -(quanta : ℚ) else quanta) / unit - q| ≤
        |q| / 2 ^ 46 + 1 / unit

/-- A double that is off by quanta is close with either sign. -/
theorem Json.Number.isClose_of_within {c : Nat} {z : ℚ} (negative : Bool)
    (finite : c < doubleFormat.infinity) (nonneg : 0 ≤ z)
    (within : Within (1 / 2 ^ 46) 1 (doubleFormat.quanta c) (z * unit)) :
    (Number.real (if negative then -Double.ofCode c else .ofCode c)).IsClose
      (if negative then -z else z) := by
  have one : (0 : ℚ) < unit := Nat.cast_pos.mpr unit_pos
  have scaled : |(doubleFormat.quanta c : ℚ) / unit - z| ≤ z / 2 ^ 46 + 1 / unit := by
    have quotient : (doubleFormat.quanta c : ℚ) / unit - z =
        (doubleFormat.quanta c - z * unit) / unit := by
      rw [sub_div, mul_div_cancel_right₀ _ one.ne']
    rw [quotient, abs_div, abs_of_pos one, div_le_iff₀ one]
    refine within.trans_eq ?_
    rw [add_mul, div_mul_cancel₀ _ one.ne']
    ring
  cases negative with
  | false =>
    refine ⟨false, _, Double.datum_of_finite finite, ?_⟩
    rw [if_neg (by decide), if_neg (by decide), abs_of_nonneg nonneg]
    exact scaled
  | true =>
    refine ⟨true, _, Double.datum_neg finite, ?_⟩
    rw [if_pos rfl, if_pos rfl, neg_div, neg_sub_neg, abs_sub_comm, abs_neg, abs_of_nonneg nonneg]
    exact scaled

namespace WrittenNumber

variable {n : WrittenNumber}

/-- The magnitude of a number in plain figures that fits 64 bits. -/
theorem magnitude_of_isPlain (plain : n.numeral.isPlain = true) :
    n.magnitude = n.numeral.wholePart.value ∧ n.numeral.wholePart.value < 2 ^ 64 := by
  obtain ⟨places, shift, whole, fits⟩ := n.value_of_isPlain plain
  rw [magnitude, places, shift, whole]
  exact ⟨by simp, fits⟩

/-- A number that is surely in range: up to the safe magnitude, and not of endless length. -/
def IsSafe (n : WrittenNumber) : Prop := n.magnitude ≤ safeMagnitude ∧ n.text.length ≤ 2 ^ 30

/-- A safe number has a value, and a close one. -/
theorem IsSafe.value_close (safe : n.IsSafe) :
    ∃ number, n.numeral.value Numeral.toDouble = .ok number ∧ number.IsClose n.exactValue := by
  have sign : n.numeral.negative = n.negative := rfl
  unfold Numeral.value
  simp only [sign]
  split
  · next natural =>
    obtain ⟨plain, positive⟩ := (Bool.and_eq_true _ _).mp natural
    obtain ⟨magnitude, fits⟩ := magnitude_of_isPlain plain
    refine ⟨_, rfl, ?_⟩
    rw [Number.IsClose, UInt64.toNat_ofNat_of_lt' fits, ← magnitude, exactValue,
      if_neg (by simpa using positive)]
  · next other =>
    split
    · next negative =>
      simp only [Bool.and_eq_true, decide_eq_true_eq] at negative
      obtain ⟨magnitude, -⟩ := magnitude_of_isPlain negative.1.1
      have below : n.negative = true := by simpa [negative.1.1] using other
      refine ⟨_, rfl, ?_⟩
      rw [Number.IsClose, ← magnitude, exactValue, if_pos below]
    · obtain ⟨c, finite, read, within⟩ := toDouble_within safe.1 safe.2
      rw [read]
      exact ⟨_, rfl, Number.isClose_of_within n.negative finite n.magnitude_nonneg within⟩

end WrittenNumber

end VisualIndex
