import Mathlib.Data.Nat.GCD.Basic
import Mathlib.Tactic.Linarith
import Mathlib.Tactic.LinearCombination
import Mathlib.Tactic.Ring
import VisualIndex.Json.Numeral
import VisualIndex.Number.Shortest

/-! Short decimals near the midpoints between singles.

A shortest decimal is read as a double first and as a single from there. That can go wrong
only if the decimal lies so near a midpoint that the errors of the first step carry it
across. Where singles stand `2 ^ s` quanta apart, their shortest decimals are multiples of
one power of ten, and their midpoints are odd multiples of half a gap. The pairs of such
multiples form a lattice in the plane; a basis of two short vectors, one on each side of
the diagonal, tells all pairs that are nearly equal. There are few, and each is read back
by evaluation. Around one, where all powers of ten are exact, pairs that are nearly equal
are equal. -/
namespace VisualIndex

/-- The significand and the exponent that a decimal is written with in documents: a whole
number without an exponent gets one zero after the point. -/
def Decimal.written (d : Decimal) : Nat × Int :=
  if -6 ≤ d.leadingExponent && d.leadingExponent < 13 && 0 ≤ d.exponent then
    (d.digits * 10 ^ (d.exponent.toNat + 1), -1)
  else (d.digits, d.exponent)

/-- Whether a shortest decimal is read as the number it stands for. -/
def readsBack (c : Nat) : Bool :=
  let decimal := (shortestDecimal .even c).written
  match Json.scaleToDouble decimal.1 decimal.2 with
  | .ok y => y.narrow = .ofCode c
  | .error _ => false

theorem readsBack_iff {c : Nat} : readsBack c = true ↔
    ∃ y, Json.scaleToDouble (shortestDecimal .even c).written.1
      (shortestDecimal .even c).written.2 = .ok y ∧ y.narrow = .ofCode c := by
  simp only [readsBack]
  split
  · next y scaled => simp [scaled]
  · next fault scaled => simp [scaled]

namespace Json

/-- One in quanta of doubles. -/
def unit : Nat := 2 ^ doubleFormat.unitShift

end Json

/-- The code of the double nearest to a decimal of a single. -/
def Decimal.nearestCode (d : Decimal) : Nat :=
  doubleFormat.round (d.digits * 10 ^ (d.exponent + finestExponent).toNat * Json.unit)
    (10 ^ finestExponent)

/-- Whether the double nearest to a shortest decimal narrows to the number it stands for. -/
def nearestBack (c : Nat) : Bool :=
  (Double.ofCode (shortestDecimal .even c).nearestCode).narrow = .ofCode c

/-- The code of the one single whose shortest decimal, 7.038531e-26, is so near a midpoint that
the double nearest to it is the midpoint. -/
def nearestLost : Nat := 0x15ae43fd

/-- Whether the number of a code, if it is a positive one, is read back, also by way of the
nearest double unless it is the one for which that fails. -/
def settledCode (c : Nat) : Bool :=
  c = 0 || singleFormat.infinity ≤ c || readsBack c && (c = nearestLost || nearestBack c)

/-- The grid of decimals that is fine enough for singles `2 ^ s` quanta apart, as the power
of ten over `10 ^ -46`. -/
def gridPower (s : Nat) : Nat := (1233 * s + 4184) / 4096

/-- The step of this grid, in units of `2 ^ -150 · 10 ^ -46`. -/
def gridStep (s : Nat) : Nat := 10 ^ gridPower s * 2 ^ 150

/-- Half the distance of singles `2 ^ s` quanta apart, in the same units. -/
def halfGap (s : Nat) : Nat := 2 ^ s * 10 ^ finestExponent

/-- The error of reading, relative to `2 ^ 54`. -/
def readingError : Nat := 5

/-- Whether `d` steps of the grid are nearly the midpoint of `m` half gaps. -/
def near (s d m : Nat) : Bool :=
  m % 2 = 1 && m < 2 ^ 25 && (s = 0 || 2 ^ 24 ≤ m) &&
    2 ^ 54 * (d * gridStep s) ≤ (2 ^ 54 + readingError) * (m * halfGap s) &&
    (2 ^ 54 - readingError) * (m * halfGap s) ≤ 2 ^ 54 * (d * gridStep s)

/-- Whether a pair is not near, or the singles on both sides are read back. -/
def settledPair (s d m : Nat) : Bool :=
  !near s d m || settledCode (s * 2 ^ 23 + m / 2) && settledCode (s * 2 ^ 23 + m / 2 + 1)

/-- A greatest distance of pairs that are near. -/
def reach (s : Nat) : Nat := readingError * 2 ^ 25 * halfGap s / 2 ^ 54

/-- A greatest number of steps in pairs that are near. -/
def mostSteps (s : Nat) : Nat := (2 ^ 25 * halfGap s + reach s) / gridStep s

/-- Two pairs of steps and half gaps. -/
structure Basis where
  d₁ : Nat
  m₁ : Nat
  d₂ : Nat
  m₂ : Nat

namespace Basis

/-- By how much the half gaps of the first pair exceed its steps. -/
def lack (v : Basis) (s : Nat) : Nat := v.m₁ * halfGap s - v.d₁ * gridStep s

/-- By how much the steps of the second pair exceed its half gaps. -/
def excess (v : Basis) (s : Nat) : Nat := v.d₂ * gridStep s - v.m₂ * halfGap s

/-- Every pair is an integral combination of a valid basis, whose pairs lie on different
sides of the diagonal. -/
def isValid (v : Basis) (s : Nat) : Bool :=
  0 < v.d₁ && v.m₁ * v.d₂ = v.m₂ * v.d₁ + 1 &&
    v.d₁ * gridStep s < v.m₁ * halfGap s && v.m₂ * halfGap s < v.d₂ * gridStep s

/-- Euclid's algorithm, as far as the steps stay below `2 ^ 28`. -/
def shorten (s : Nat) : Nat → Basis → Basis
  | 0, v => v
  | rounds + 1, v =>
    if v.excess s < v.lack s then
      let k := (v.lack s - 1) / v.excess s
      if 2 ^ 28 < v.d₁ + k * v.d₂ then v
      else shorten s rounds { v with d₁ := v.d₁ + k * v.d₂, m₁ := v.m₁ + k * v.m₂ }
    else
      let k := (v.excess s - 1) / v.lack s
      if k = 0 || 2 ^ 28 < v.d₂ + k * v.d₁ then v
      else shorten s rounds { v with d₂ := v.d₂ + k * v.d₁, m₂ := v.m₂ + k * v.m₁ }

end Basis

/-- The difference of two naturals. -/
def distance (x y : Nat) : Nat := (x - y) + (y - x)

theorem eq_distance {n x y : Nat} (h : (n : Int) = x - y ∨ (n : Int) = y - x) :
    n = distance x y := by
  unfold distance
  omega

/-- Whether all combinations of a basis that can be near are settled. -/
def settledByBasis (s : Nat) (v : Basis) : Bool :=
  v.isValid s &&
    ((List.range (mostSteps s / v.d₁ + 1)).all fun x =>
      (List.range (mostSteps s / v.d₂ + 1)).all fun y =>
        settledPair s (x * v.d₁ + y * v.d₂) (x * v.m₁ + y * v.m₂)) &&
    ((List.range (reach s / v.lack s)).all fun x =>
      (List.range (reach s / v.excess s)).all fun y =>
        settledPair s (distance ((x + 1) * v.d₁) ((y + 1) * v.d₂))
          (distance ((x + 1) * v.m₁) ((y + 1) * v.m₂)))

/-- Whether pairs that are near are equal, and near one. -/
def onlyTies (s : Nat) : Bool :=
  113 ≤ s && s ≤ 187 && reach s < Nat.gcd (gridStep s) (halfGap s)

/-- Whether the midpoints between singles `2 ^ s` quanta apart do no harm. -/
def settledSpacing (s : Nat) : Bool :=
  2 * gridStep s < 3 * halfGap s && halfGap s < 8 * gridStep s &&
    (onlyTies s || settledByBasis s (Basis.shorten s 100 ⟨0, 1, 1, 0⟩))

theorem settled_first : ((List.range 254).take 64).all settledSpacing = true := by
  decide +kernel

theorem settled_last : ((List.range 254).drop 64).all settledSpacing = true := by
  decide +kernel

theorem spacing_settled {s : Nat} (hs : s < 254) : settledSpacing s = true := by
  have all : (List.range 254).all settledSpacing = true := by
    rw [← List.take_append_drop 64 (List.range 254), List.all_append, settled_first, settled_last]
    rfl
  exact List.all_eq_true.mp all s (List.mem_range.mpr hs)

theorem gridStep_pos (s : Nat) : 0 < gridStep s :=
  Nat.mul_pos (Nat.pow_pos (by decide)) (Nat.two_pow_pos _)

theorem halfGap_pos (s : Nat) : 0 < halfGap s :=
  Nat.mul_pos (Nat.two_pow_pos _) (Nat.pow_pos (by decide))

/-- The grid is finer than three halves of half a gap, but not much. -/
theorem gridStep_bounds {s : Nat} (hs : s < 254) :
    2 * gridStep s < 3 * halfGap s ∧ halfGap s < 8 * gridStep s := by
  have settled := spacing_settled hs
  simp only [settledSpacing, Bool.and_eq_true, decide_eq_true_eq] at settled
  exact settled.1

section Near
variable {s d m : Nat} (h : near s d m = true)
include h

theorem bounds_of_near : m % 2 = 1 ∧ m < 2 ^ 25 ∧
    2 ^ 54 * (d * gridStep s) ≤ (2 ^ 54 + readingError) * (m * halfGap s) ∧
    (2 ^ 54 - readingError) * (m * halfGap s) ≤ 2 ^ 54 * (d * gridStep s) := by
  simp only [near, Bool.and_eq_true, decide_eq_true_eq] at h
  exact ⟨h.1.1.1.1, h.1.1.1.2, h.1.2, h.2⟩

/-- The distance of a near pair is within reach, in either direction. -/
theorem near_reach : d * gridStep s ≤ m * halfGap s + reach s ∧
    m * halfGap s ≤ d * gridStep s + reach s := by
  obtain ⟨-, most, above, below⟩ := bounds_of_near h
  have small := Nat.mul_le_mul_right (halfGap s) most.le
  have bound {n : Nat} (hn : n * 2 ^ 54 ≤ readingError * (m * halfGap s)) : n ≤ reach s := by
    rw [reach, Nat.le_div_iff_mul_le (Nat.two_pow_pos _)]
    unfold readingError at *
    omega
  unfold readingError at above below
  have beyond := bound (n := d * gridStep s - m * halfGap s) (by unfold readingError; omega)
  have under := bound (n := m * halfGap s - d * gridStep s) (by unfold readingError; omega)
  omega

theorem near_mostSteps : d ≤ mostSteps s := by
  have within := (near_reach h).1
  have small := Nat.mul_le_mul_right (halfGap s) (bounds_of_near h).2.1.le
  rw [mostSteps, Nat.le_div_iff_mul_le (gridStep_pos s)]
  omega

theorem eq_of_onlyTies (ties : onlyTies s = true) :
    d * gridStep s = m * halfGap s ∧ 113 ≤ s ∧ s ≤ 187 := by
  simp only [onlyTies, Bool.and_eq_true, decide_eq_true_eq] at ties
  obtain ⟨⟨first, last⟩, apart⟩ := ties
  refine ⟨?_, first, last⟩
  have steps : Nat.gcd (gridStep s) (halfGap s) ∣ d * gridStep s :=
    Nat.dvd_mul_left_of_dvd (Nat.gcd_dvd_left _ _) d
  have gaps : Nat.gcd (gridStep s) (halfGap s) ∣ m * halfGap s :=
    Nat.dvd_mul_left_of_dvd (Nat.gcd_dvd_right _ _) m
  obtain ⟨beyond, under⟩ := near_reach h
  have none := Nat.eq_zero_of_dvd_of_lt (Nat.dvd_sub steps gaps) (by omega)
  have none' := Nat.eq_zero_of_dvd_of_lt (Nat.dvd_sub gaps steps) (by omega)
  omega

end Near

namespace Basis

theorem isValid_iff (v : Basis) (s : Nat) : v.isValid s = true ↔
    0 < v.d₁ ∧ v.m₁ * v.d₂ = v.m₂ * v.d₁ + 1 ∧
      v.d₁ * gridStep s < v.m₁ * halfGap s ∧ v.m₂ * halfGap s < v.d₂ * gridStep s := by
  simp only [isValid, Bool.and_eq_true, decide_eq_true_eq, and_assoc]

section Cover

variable {v : Basis} {s d m : Nat} (valid : v.isValid s = true)
include valid

theorem lack_spec : v.m₁ * halfGap s = v.d₁ * gridStep s + v.lack s ∧ 0 < v.lack s := by
  obtain ⟨-, -, left, -⟩ := (isValid_iff v s).mp valid
  unfold lack
  omega

theorem excess_spec : v.d₂ * gridStep s = v.m₂ * halfGap s + v.excess s ∧ 0 < v.excess s := by
  obtain ⟨-, -, -, right⟩ := (isValid_iff v s).mp valid
  unfold excess
  omega

theorem d₂_pos : 0 < v.d₂ := by
  obtain ⟨-, -, -, right⟩ := (isValid_iff v s).mp valid
  exact Nat.pos_of_mul_pos_right (Nat.zero_lt_of_lt right)

/-- Every pair has integral coordinates, since the determinant of the basis is one. The
difference of its two lengths is that of what the coordinates add up. -/
theorem exists_coordinates (d m : Nat) : ∃ x y : ℤ,
    (d : ℤ) = x * v.d₁ + y * v.d₂ ∧ (m : ℤ) = x * v.m₁ + y * v.m₂ ∧
      (d : ℤ) * gridStep s - m * halfGap s = y * v.excess s - x * v.lack s := by
  obtain ⟨-, unit, -, -⟩ := (isValid_iff v s).mp valid
  have lack := (lack_spec valid).1
  have excess := (excess_spec valid).1
  zify at unit lack excess
  have hd : (d : ℤ) = (m * v.d₂ - d * v.m₂) * v.d₁ + (d * v.m₁ - m * v.d₁) * v.d₂ := by
    linear_combination (-(d : ℤ)) * unit
  have hm : (m : ℤ) = (m * v.d₂ - d * v.m₂) * v.m₁ + (d * v.m₁ - m * v.d₁) * v.m₂ := by
    linear_combination (-(m : ℤ)) * unit
  refine ⟨_, _, hd, hm, ?_⟩
  linear_combination (gridStep s : ℤ) * hd - halfGap s * hm +
    (d * v.m₁ - m * v.d₁) * excess - (m * v.d₂ - d * v.m₂) * lack

/-- Coordinates of opposite signs are few, as what they add up does not cancel out. -/
theorem few_differences {a b : Nat} (some_a : 0 < a) (some_b : 0 < b)
    (sum : (a : ℤ) * v.lack s + b * v.excess s ≤ reach s)
    (hd : d = distance (a * v.d₁) (b * v.d₂)) (hm : m = distance (a * v.m₁) (b * v.m₂)) :
    ∃ x < reach s / v.lack s, ∃ y < reach s / v.excess s,
      d = distance ((x + 1) * v.d₁) ((y + 1) * v.d₂) ∧
      m = distance ((x + 1) * v.m₁) ((y + 1) * v.m₂) := by
  obtain ⟨x, rfl⟩ := Nat.exists_eq_succ_of_ne_zero some_a.ne'
  obtain ⟨y, rfl⟩ := Nat.exists_eq_succ_of_ne_zero some_b.ne'
  have total : (x + 1) * v.lack s + (y + 1) * v.excess s ≤ reach s := by exact_mod_cast sum
  refine ⟨x, ?_, y, ?_, hd, hm⟩
  · rw [Nat.lt_iff_add_one_le, Nat.le_div_iff_mul_le (lack_spec valid).2]
    omega
  · rw [Nat.lt_iff_add_one_le, Nat.le_div_iff_mul_le (excess_spec valid).2]
    omega

/-- A pair of positive steps within reach is a sum of multiples of the basis, or the
difference of short ones. -/
theorem cover (positive : 0 < d) (steps : d ≤ mostSteps s)
    (beyond : d * gridStep s ≤ m * halfGap s + reach s)
    (under : m * halfGap s ≤ d * gridStep s + reach s) :
    (∃ x ≤ mostSteps s / v.d₁, ∃ y ≤ mostSteps s / v.d₂,
      d = x * v.d₁ + y * v.d₂ ∧ m = x * v.m₁ + y * v.m₂) ∨
    ∃ x < reach s / v.lack s, ∃ y < reach s / v.excess s,
      d = distance ((x + 1) * v.d₁) ((y + 1) * v.d₂) ∧
      m = distance ((x + 1) * v.m₁) ((y + 1) * v.m₂) := by
  obtain ⟨first, -, -, -⟩ := (isValid_iff v s).mp valid
  have second := d₂_pos valid
  obtain ⟨x, y, hd, hm, hr⟩ := exists_coordinates valid d m
  zify at beyond under
  rcases lt_or_ge x 0 with negative | nonnegative
  · rcases le_or_gt y 0 with bad | good
    · have := mul_neg_of_neg_of_pos negative (show (0 : ℤ) < v.d₁ by omega)
      have := mul_nonpos_of_nonpos_of_nonneg bad (show (0 : ℤ) ≤ v.d₂ by omega)
      omega
    · obtain ⟨a, rfl⟩ := Int.exists_eq_neg_ofNat negative.le
      obtain ⟨b, rfl⟩ := Int.eq_ofNat_of_zero_le good.le
      exact Or.inr (few_differences valid (a := a) (b := b) (by omega) (by omega) (by linarith)
        (eq_distance (Or.inr (by push_cast; linarith)))
        (eq_distance (Or.inr (by push_cast; linarith))))
  · obtain ⟨a, rfl⟩ := Int.eq_ofNat_of_zero_le nonnegative
    rcases lt_or_ge y 0 with negative | nonnegative'
    · obtain ⟨b, rfl⟩ := Int.exists_eq_neg_ofNat negative.le
      have some : 0 < a := by
        rcases Nat.eq_zero_or_pos a with rfl | some
        · have := mul_neg_of_neg_of_pos negative (show (0 : ℤ) < v.d₂ by omega)
          push_cast at hd
          omega
        · exact some
      exact Or.inr (few_differences valid (b := b) some (by omega) (by linarith)
        (eq_distance (Or.inl (by push_cast; linarith)))
        (eq_distance (Or.inl (by push_cast; linarith))))
    · obtain ⟨b, rfl⟩ := Int.eq_ofNat_of_zero_le nonnegative'
      have sum : d = a * v.d₁ + b * v.d₂ := by exact_mod_cast hd
      refine Or.inl ⟨a, ?_, b, ?_, sum, by exact_mod_cast hm⟩
      · rw [Nat.le_div_iff_mul_le first]
        omega
      · rw [Nat.le_div_iff_mul_le second]
        omega

end Cover

end Basis

theorem settledPair_of_basis {s d m : Nat} {v : Basis} (settled : settledByBasis s v = true)
    (positive : 0 < d) (h : near s d m = true) : settledPair s d m = true := by
  simp only [settledByBasis, Bool.and_eq_true, List.all_eq_true, List.mem_range] at settled
  obtain ⟨⟨valid, sums⟩, differences⟩ := settled
  obtain ⟨beyond, under⟩ := near_reach h
  rcases Basis.cover valid positive (near_mostSteps h) beyond under with
    ⟨x, hx, y, hy, rfl, rfl⟩ | ⟨x, hx, y, hy, rfl, rfl⟩
  · exact sums x (Nat.lt_succ_of_le hx) y (Nat.lt_succ_of_le hy)
  · exact differences x hx y hy

/-- A pair of positive steps that is near is an exact one around one, or the singles on both
sides of its midpoint are read back. -/
theorem near_settled {s d m : Nat} (hs : s < 254) (positive : 0 < d) (h : near s d m = true) :
    d * gridStep s = m * halfGap s ∧ 113 ≤ s ∧ s ≤ 187 ∨
      settledCode (s * 2 ^ 23 + m / 2) = true ∧ settledCode (s * 2 ^ 23 + m / 2 + 1) = true := by
  have settled := spacing_settled hs
  simp only [settledSpacing, Bool.and_eq_true, Bool.or_eq_true] at settled
  rcases settled.2 with ties | lattice
  · exact Or.inl (eq_of_onlyTies h ties)
  · have pair := settledPair_of_basis lattice positive h
    simp only [settledPair, h, Bool.not_true, Bool.false_or, Bool.and_eq_true] at pair
    exact Or.inr pair

end VisualIndex
