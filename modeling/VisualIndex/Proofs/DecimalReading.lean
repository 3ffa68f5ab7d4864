import VisualIndex.Proofs.NearMidpoints
import VisualIndex.Proofs.Rounding

/-! Shortest decimals are read back.

A decimal is read with two roundings of doubles: that of a power of ten and that of the
product or quotient. The relative error is small, and there is none beyond the last step
while the powers of ten are exact. The decimal lies between the midpoints around its number;
away from them the error cannot carry it across, and close to them pairs of grid steps and
half gaps are settled one by one. -/
namespace VisualIndex

namespace Interval
variable {i : Interval} {step : Nat}

theorem nearestEven_cases (num den : Nat) :
    nearestEven num den = num / den ∨ nearestEven num den = num / den + 1 := by
  unfold nearestEven
  dsimp only
  split
  · exact Or.inl rfl
  · split
    · exact Or.inr rfl
    · omega

/-- What is found on a grid is a multiple in the interval. -/
theorem holds_of_multiple? {n : Nat} (found : i.multiple? .even step = some n) :
    i.holds (n * step) = true := by
  unfold multiple? at found
  dsimp only at found
  split at found
  · cases found
  · next below _ =>
    cases found
    exact below
  · next _ above =>
    cases found
    exact above
  · next below above =>
    cases found
    rcases nearestEven_cases i.centre step with lower | upper
    · rw [Halfway.nearest, lower]
      exact below
    · rw [Halfway.nearest, upper]
      exact above

theorem holds_of_inside {n : Nat} (above : i.lower < n) (below : n < i.upper) :
    i.holds n = true := by
  unfold holds
  split <;> simp <;> omega

theorem bounds_of_holds {n : Nat} (held : i.holds n = true) :
    i.lower ≤ n ∧ n ≤ i.upper ∧ (n = i.lower ∨ n = i.upper → i.closed = true) := by
  unfold holds at held
  split at held
  · next closed =>
    simp only [Bool.and_eq_true, decide_eq_true_eq] at held
    exact ⟨held.1, held.2, fun _ => closed⟩
  · simp only [Bool.and_eq_true, decide_eq_true_eq] at held
    exact ⟨held.1.le, held.2.le, by omega⟩

theorem multiple?_ne_none (left : i.lower < i.centre) (right : i.centre < i.upper)
    (fine : i.lower + step < i.upper) (pos : 0 < step) : i.multiple? .even step ≠ none := by
  have parts := Nat.div_add_mod' i.centre step
  have rest := Nat.mod_lt i.centre pos
  intro none
  unfold multiple? at none
  dsimp only at none
  rw [Nat.succ_mul] at none
  generalize i.centre / step * step = multiple at *
  split at none
  · next below above =>
    have under : multiple ≤ i.lower := by
      by_contra inside
      rw [holds_of_inside (by omega) (by omega)] at below
      cases below
    have beyond : i.upper ≤ multiple + step := by
      by_contra inside
      rw [holds_of_inside (by omega) (by omega)] at above
      cases above
    omega
  · cases none
  · cases none
  · cases none

end Interval

/-- The search finds a multiple on a grid that is no finer than any that has one. -/
theorem coarsestMultiple_spec {i : Interval} {power hit : Nat} (first : 0 < hit)
    (inside : hit ≤ power) (hits : i.multiple? .even (10 ^ hit * 2 ^ 150) ≠ none) :
    ∃ p ≤ power, (coarsestMultiple i .even power).exponent = (p : Int) - finestExponent ∧
      i.holds ((coarsestMultiple i .even power).digits * (10 ^ p * 2 ^ 150)) = true ∧
      ∀ q ≤ power, 0 < q → i.multiple? .even (10 ^ q * 2 ^ 150) ≠ none → q ≤ p := by
  induction power with
  | zero => omega
  | succ power ih =>
    cases found : i.multiple? .even (10 ^ (power + 1) * 2 ^ 150) with
    | some digits =>
      have result : coarsestMultiple i .even (power + 1) =
          ⟨digits, (power + 1 : Int) - finestExponent⟩ := by
        rw [coarsestMultiple, found]
      rw [result]
      exact ⟨power + 1, Nat.le_refl _, rfl, Interval.holds_of_multiple? found,
        fun q hq _ _ => hq⟩
    | none =>
      have result : coarsestMultiple i .even (power + 1) = coarsestMultiple i .even power := by
        rw [coarsestMultiple, found]
      have missed (q : Nat) (hq : q ≤ power + 1)
          (hits : i.multiple? .even (10 ^ q * 2 ^ 150) ≠ none) : q ≤ power := by
        rcases Nat.lt_or_eq_of_le hq with less | rfl
        · omega
        · exact absurd found hits
      obtain ⟨p, hp, exponent, holds, coarsest⟩ := ih (missed hit inside hits)
      rw [result]
      exact ⟨p, by omega, exponent, holds,
        fun q hq some hits => coarsest q (missed q hq hits) some hits⟩

namespace Double

theorem mul_of_finite {a b : Nat} (ha : a < doubleFormat.infinity)
    (hb : b < doubleFormat.infinity) : ofCode a * ofCode b = ofCode (doubleFormat.round
      (doubleFormat.quanta a * doubleFormat.quanta b) (2 ^ doubleFormat.unitShift)) := by
  change ofCode (doubleFormat.mul _ _) = _
  rw [datum_of_finite ha, datum_of_finite hb, Format.mul, bne_self_eq_false, Format.pack_false]

theorem div_of_finite {a b : Nat} (ha : a < doubleFormat.infinity)
    (hb : b < doubleFormat.infinity) (nonzero : doubleFormat.quanta b ≠ 0) :
    ofCode a / ofCode b = ofCode (doubleFormat.round
      (doubleFormat.quanta a * 2 ^ doubleFormat.unitShift) (doubleFormat.quanta b)) := by
  change ofCode (doubleFormat.div _ _) = _
  rw [datum_of_finite ha, datum_of_finite hb, Format.div, if_neg nonzero, bne_self_eq_false,
    Format.pack_false]

theorem isInfinite_of_finite {c : Nat} (finite : c < doubleFormat.infinity) :
    (ofCode c).isInfinite = false := by
  rw [isInfinite, datum_of_finite finite]

theorem narrow_of_finite {c : Nat} (finite : c < doubleFormat.infinity) :
    (ofCode c).narrow = .ofCode (singleFormat.round
      (doubleFormat.quanta c * 2 ^ singleFormat.unitShift) (2 ^ doubleFormat.unitShift)) := by
  rw [narrow, datum_of_finite finite, Format.convert, Format.pack_false]

end Double

namespace Json

theorem unit_pos : 0 < unit := Nat.two_pow_pos _

theorem le_unit : 2 ^ 250 ≤ unit := Nat.pow_le_pow_right (by decide) (by decide)

/-- The quanta of the double nearest to a natural number. -/
structure NearNatural (n q : Nat) : Prop where
  below : 2 ^ 53 * (n * unit) ≤ (2 ^ 53 + 1) * q
  above : (2 ^ 53 - 1) * q ≤ 2 ^ 53 * (n * unit)

/-- The greatest finite double in quanta. -/
def greatestQuanta : Nat := (2 ^ 53 - 1) * 2 ^ 2045

theorem exists_greatest :
    ∃ c < doubleFormat.infinity, doubleFormat.quanta c = greatestQuanta := by
  obtain ⟨c, inside, value⟩ := doubleFormat.exists_code (m := 2 ^ 53 - 1) (k := 2045)
    (by decide) (by decide)
  exact ⟨c, inside, by rw [value, greatestQuanta]⟩

/-- A natural number up to the greatest double is in range. -/
theorem ofNat_near {n : Nat} (range : n * unit ≤ greatestQuanta) :
    doubleFormat.ofNat n < doubleFormat.infinity ∧
      NearNatural n (doubleFormat.quanta (doubleFormat.ofNat n)) := by
  obtain ⟨c, inside, greatest⟩ := exists_greatest
  have finite : doubleFormat.ofNat n < doubleFormat.infinity :=
    (doubleFormat.round_le_of_le (by decide) Nat.one_pos inside (by
      rw [greatest, Nat.mul_one]
      exact range)).trans_lt inside
  rcases Nat.eq_zero_or_pos n with rfl | some
  · have none : doubleFormat.quanta (doubleFormat.ofNat 0) = 0 := by decide +kernel
    refine ⟨finite, ?_, ?_⟩ <;> simp [none]
  have normal : 2 ^ doubleFormat.fractionBits * 1 ≤ n * 2 ^ doubleFormat.unitShift := by
    rw [Nat.mul_comm]
    exact Nat.mul_le_mul some (Nat.pow_le_pow_right (by decide) (by decide))
  obtain ⟨below, above⟩ := doubleFormat.round_error (by decide) Nat.one_pos normal finite
  rw [Nat.mul_one] at below above
  exact ⟨finite, below, above⟩

/-- The quanta of the double nearest to a power of ten. -/
structure NearPower (k q : Nat) : Prop extends NearNatural (10 ^ k) q where
  same : k ≤ 22 → q = 10 ^ k * unit

theorem powerOfTen_spec {k : Nat} (hk : k ≤ greatestPower) : ∃ b < doubleFormat.infinity,
    powerOfTen k = .ofCode b ∧ NearPower k (doubleFormat.quanta b) := by
  have range : 10 ^ k * unit ≤ greatestQuanta :=
    (Nat.mul_le_mul_right _ (Nat.pow_le_pow_right (by decide) hk)).trans (by decide +kernel)
  obtain ⟨finite, near⟩ := ofNat_near range
  refine ⟨_, finite, rfl, near, fun small => ?_⟩
  have digits : 5 ^ k < 2 ^ 53 :=
    Nat.lt_of_le_of_lt (Nat.pow_le_pow_right (by decide) small) (by decide)
  have parts : 5 ^ k * 2 ^ k = 10 ^ k := (Nat.mul_pow 5 2 k).symm
  have exact_value := (doubleFormat.ofNat_spec (by decide) digits (k := k)
    (by change k + 1074 + 2 < 2 ^ 11; omega)).2
  rwa [parts] at exact_value

/-- A quotient of quanta in range that is close to a number of units divided by `10 ^ 46`. -/
structure Approaches (value num den : Nat) : Prop where
  pos : 0 < den
  normal : 2 ^ 52 * den ≤ num
  bounded : num ≤ 2 ^ 250 * (unit * den)
  above : (2 ^ 53 - 1) * (num * 10 ^ 46) ≤ 2 ^ 53 * (value * den)
  below : (2 ^ 53 - 1) * (value * den) ≤ 2 ^ 53 * (num * 10 ^ 46)

namespace NearPower

variable {k p q digits : Nat} (near : NearPower k q) (some : 0 < digits) (few : digits < 2 ^ 53)
include near

theorem bounds (hk : k ≤ 46) : unit ≤ 2 * q ∧ q ≤ 2 ^ 154 * unit := by
  have large : 10 ^ k * unit ≤ 2 ^ 153 * unit := Nat.mul_le_mul_right _
    ((Nat.pow_le_pow_right (by decide) hk).trans (by decide))
  have some : 1 * unit ≤ 10 ^ k * unit := Nat.mul_le_mul_right _ (Nat.one_le_pow _ _ (by decide))
  have below := near.below
  have above := near.above
  omega

/-- The relative error from below, as a factor of the power. -/
theorem close : (2 ^ 53 - 1) * (10 ^ k * unit) ≤ 2 ^ 53 * q := by
  have below := near.below
  omega

include some few

/-- Digits divided by the double of a power of ten. -/
theorem quotient (hk : k + p = 46) :
    Approaches (digits * 10 ^ p * unit) (digits * unit * unit) q := by
  obtain ⟨least, most⟩ := near.bounds (by omega)
  have one := unit_pos
  have long := le_unit
  have ten : (10 : ℕ) ^ 46 = 10 ^ k * 10 ^ p := by rw [← Nat.pow_add, hk]
  refine ⟨by omega, ?_, ?_, ?_, ?_⟩
  · calc 2 ^ 52 * q ≤ 2 ^ 52 * (2 ^ 154 * unit) := Nat.mul_le_mul_left _ most
      _ ≤ unit * unit := by rw [← Nat.mul_assoc]; exact Nat.mul_le_mul_right _ (by omega)
      _ ≤ digits * unit * unit := by
        rw [Nat.mul_assoc]
        exact Nat.le_mul_of_pos_left _ some
  · calc digits * unit * unit ≤ 2 ^ 53 * unit * (2 * q) :=
          Nat.mul_le_mul (Nat.mul_le_mul_right _ few.le) least
      _ = 2 ^ 54 * (unit * q) := by ring
      _ ≤ 2 ^ 250 * (unit * q) := Nat.mul_le_mul_right _ (by decide)
  · calc (2 ^ 53 - 1) * (digits * unit * unit * 10 ^ 46) =
          digits * 10 ^ p * unit * ((2 ^ 53 - 1) * (10 ^ k * unit)) := by rw [ten]; ring
      _ ≤ digits * 10 ^ p * unit * (2 ^ 53 * q) := Nat.mul_le_mul_left _ near.close
      _ = 2 ^ 53 * (digits * 10 ^ p * unit * q) := by ring
  · calc (2 ^ 53 - 1) * (digits * 10 ^ p * unit * q) =
          digits * 10 ^ p * unit * ((2 ^ 53 - 1) * q) := by ring
      _ ≤ digits * 10 ^ p * unit * (2 ^ 53 * (10 ^ k * unit)) := Nat.mul_le_mul_left _ near.above
      _ = 2 ^ 53 * (digits * unit * unit * 10 ^ 46) := by rw [ten]; ring

/-- Digits times the double of a power of ten. -/
theorem product (hk : k ≤ 46) :
    Approaches (digits * 10 ^ (46 + k) * unit) (digits * unit * q) unit := by
  obtain ⟨least, most⟩ := near.bounds hk
  have one := unit_pos
  have ten : (10 : ℕ) ^ (46 + k) = 10 ^ 46 * 10 ^ k := Nat.pow_add 10 46 k
  refine ⟨one, ?_, ?_, ?_, ?_⟩
  · have long := le_unit
    calc 2 ^ 52 * unit ≤ q * unit := Nat.mul_le_mul_right _ (by omega)
      _ = unit * q := Nat.mul_comm _ _
      _ ≤ digits * (unit * q) := Nat.le_mul_of_pos_left _ some
      _ = digits * unit * q := (Nat.mul_assoc _ _ _).symm
  · calc digits * unit * q ≤ 2 ^ 53 * unit * (2 ^ 154 * unit) :=
          Nat.mul_le_mul (Nat.mul_le_mul_right _ few.le) most
      _ = 2 ^ 207 * (unit * unit) := by ring
      _ ≤ 2 ^ 250 * (unit * unit) := Nat.mul_le_mul_right _ (by decide)
  · calc (2 ^ 53 - 1) * (digits * unit * q * 10 ^ 46) =
          digits * unit * 10 ^ 46 * ((2 ^ 53 - 1) * q) := by ring
      _ ≤ digits * unit * 10 ^ 46 * (2 ^ 53 * (10 ^ k * unit)) := Nat.mul_le_mul_left _ near.above
      _ = 2 ^ 53 * (digits * 10 ^ (46 + k) * unit * unit) := by rw [ten]; ring
  · calc (2 ^ 53 - 1) * (digits * 10 ^ (46 + k) * unit * unit) =
          digits * unit * 10 ^ 46 * ((2 ^ 53 - 1) * (10 ^ k * unit)) := by rw [ten]; ring
      _ ≤ digits * unit * 10 ^ 46 * (2 ^ 53 * q) := Nat.mul_le_mul_left _ near.close
      _ = 2 ^ 53 * (digits * unit * q * 10 ^ 46) := by ring

end NearPower

section Scaling

variable {digits k b : Nat} (few : digits < 2 ^ 53) (hk : k ≤ 46)
  (hb : b < doubleFormat.infinity) (power : powerOfTen k = .ofCode b)
include few hk hb power

theorem scaleToDouble_fraction (below : 0 < k) (nonzero : doubleFormat.quanta b ≠ 0) :
    scaleToDouble digits (-k) =
      .ok (.ofCode (doubleFormat.round (digits * unit * unit) (doubleFormat.quanta b))) := by
  obtain ⟨finite, value⟩ := doubleFormat.ofNat_spec (by decide) few (k := 0) (by decide)
  rw [Nat.pow_zero, Nat.mul_one] at finite value
  have quotient := Double.div_of_finite finite hb nonzero
  rw [value] at quotient
  have size : (-(k : Int)).natAbs = k := by omega
  simp only [scaleToDouble, if_pos (show -(k : Int) < 0 by omega), size, divideByPower,
    if_pos (show k ≤ greatestPower by unfold greatestPower; omega), power]
  exact congrArg Except.ok quotient

theorem scaleToDouble_whole (inside : doubleFormat.round (digits * unit * doubleFormat.quanta b)
    unit < doubleFormat.infinity) : scaleToDouble digits k =
      .ok (.ofCode (doubleFormat.round (digits * unit * doubleFormat.quanta b) unit)) := by
  obtain ⟨finite, value⟩ := doubleFormat.ofNat_spec (by decide) few (k := 0) (by decide)
  rw [Nat.pow_zero, Nat.mul_one] at finite value
  have product := Double.mul_of_finite finite hb
  rw [value] at product
  change Double.ofNat digits * Double.ofCode b = .ofCode (doubleFormat.round
    (digits * unit * doubleFormat.quanta b) unit) at product
  have size : (k : Int).natAbs = k := rfl
  simp only [scaleToDouble, if_neg (show ¬ (k : Int) < 0 by omega), size, power, product,
    if_pos (show (k : Int) ≤ (greatestPower : Int) by unfold greatestPower; omega),
    Double.isInfinite_of_finite inside]
  rfl

end Scaling

/-- Scaling by a power of ten rounds a quotient that approaches the decimal, and that is the
decimal as long as the power of ten is exact. -/
theorem scaleToDouble_cases {digits p : Nat} {e : Int} (some : 0 < digits)
    (few : digits < 2 ^ 53) (he : e = (p : Int) - 46) (hp : p ≤ 86) :
    ∃ num den, Approaches (digits * 10 ^ p * unit) num den ∧
      (doubleFormat.round num den < doubleFormat.infinity →
        scaleToDouble digits e = .ok (.ofCode (doubleFormat.round num den))) ∧
      (24 ≤ p → p ≤ 68 → num * 10 ^ 46 = digits * 10 ^ p * unit * den) := by
  rcases Nat.lt_or_ge p 46 with fraction | whole
  · obtain ⟨k, hk⟩ : ∃ k, k + p = 46 := ⟨46 - p, by omega⟩
    obtain rfl : e = -(k : Int) := by omega
    obtain ⟨b, hb, power, near⟩ := powerOfTen_spec (k := k) (by unfold greatestPower; omega)
    have quotient := near.quotient some few hk
    refine ⟨_, _, quotient, fun _ =>
      scaleToDouble_fraction few (by omega) hb power (by omega) quotient.pos.ne', ?_⟩
    intro least most
    have ten : (10 : ℕ) ^ 46 = 10 ^ k * 10 ^ p := by rw [← Nat.pow_add, hk]
    rw [near.same (by omega), ten]
    ring
  · obtain ⟨k, rfl⟩ := Nat.exists_eq_add_of_le whole
    obtain rfl : e = (k : Int) := by omega
    obtain ⟨b, hb, power, near⟩ := powerOfTen_spec (k := k) (by unfold greatestPower; omega)
    refine ⟨_, _, near.product some few (by omega),
      fun inside => scaleToDouble_whole few (by omega) hb power inside, ?_⟩
    intro least most
    have ten : (10 : ℕ) ^ (46 + k) = 10 ^ 46 * 10 ^ k := Nat.pow_add 10 46 k
    rw [near.same (by omega), ten]
    ring

/-- What a decimal of quanta divided by `10 ^ 46` is read as: the relative error is small,
and while powers of ten are exact, reading does not pass any double. -/
structure ReadsAs (value exponent c : Nat) : Prop where
  above : 2 ^ 54 * (doubleFormat.quanta c * 10 ^ 46) ≤ (2 ^ 54 + readingError) * value
  below : 2 ^ 54 * value ≤ (2 ^ 54 + readingError) * (doubleFormat.quanta c * 10 ^ 46)
  le : 24 ≤ exponent → exponent ≤ 68 → ∀ h < doubleFormat.infinity,
    value ≤ doubleFormat.quanta h * 10 ^ 46 → doubleFormat.quanta c ≤ doubleFormat.quanta h
  ge : 24 ≤ exponent → exponent ≤ 68 → ∀ h < doubleFormat.infinity,
    doubleFormat.quanta h * 10 ^ 46 ≤ value → doubleFormat.quanta h ≤ doubleFormat.quanta c

/-- A quotient that approaches a decimal is read as it. -/
theorem Approaches.reads {value num den exponent : Nat} (quotient : Approaches value num den)
    (exact_quotient : 24 ≤ exponent → exponent ≤ 68 → num * 10 ^ 46 = value * den) :
    doubleFormat.round num den < doubleFormat.infinity ∧
      ReadsAs value exponent (doubleFormat.round num den) := by
  have pos := quotient.pos
  have bounded : num ≤ 2 ^ (250 + doubleFormat.unitShift) * den := by
    rw [Nat.pow_add, Nat.mul_assoc]
    exact quotient.bounded
  have finite := doubleFormat.round_lt_infinity (by decide) pos (by decide) bounded
  have monotone := doubleFormat.quanta_strictMono.monotone
  obtain ⟨under, beyond⟩ := doubleFormat.round_error (by decide) pos quotient.normal finite
  have above := quotient.above
  have below := quotient.below
  rw [show doubleFormat.fractionBits + 1 = 53 from rfl] at under beyond
  refine ⟨finite, ?_, ?_, ?_, ?_⟩
  · generalize doubleFormat.quanta (doubleFormat.round num den) = v at *
    apply Nat.le_of_mul_le_mul_right _ pos
    calc 2 ^ 54 * (v * 10 ^ 46) * den = 2 ^ 54 * (v * den * 10 ^ 46) := by ring
      _ ≤ (2 ^ 54 + readingError) * (value * den) := by unfold readingError; omega
      _ = (2 ^ 54 + readingError) * value * den := (Nat.mul_assoc _ _ _).symm
  · generalize doubleFormat.quanta (doubleFormat.round num den) = v at *
    apply Nat.le_of_mul_le_mul_right _ pos
    calc 2 ^ 54 * value * den = 2 ^ 54 * (value * den) := Nat.mul_assoc _ _ _
      _ ≤ (2 ^ 54 + readingError) * (v * den * 10 ^ 46) := by unfold readingError; omega
      _ = (2 ^ 54 + readingError) * (v * 10 ^ 46) * den := by ring
  · intro least most h hh order
    have scaled := Nat.mul_le_mul_right den order
    rw [← exact_quotient least most] at scaled
    apply monotone
    rw [← doubleFormat.round_quanta (by decide) pos hh]
    apply doubleFormat.round_mono (by decide) pos pos
    apply Nat.mul_le_mul_right
    linarith
  · intro least most h hh order
    have scaled := Nat.mul_le_mul_right den order
    rw [← exact_quotient least most] at scaled
    apply monotone
    rw [← doubleFormat.round_quanta (by decide) pos hh]
    apply doubleFormat.round_mono (by decide) pos pos
    apply Nat.mul_le_mul_right
    linarith

theorem scaleToDouble_spec {digits p : Nat} {e : Int} (some : 0 < digits)
    (few : digits < 2 ^ 53) (he : e = (p : Int) - 46) (hp : p ≤ 86) :
    ∃ c < doubleFormat.infinity, scaleToDouble digits e = .ok (.ofCode c) ∧
      ReadsAs (digits * 10 ^ p * unit) p c := by
  obtain ⟨num, den, quotient, result, exact_quotient⟩ := scaleToDouble_cases some few he hp
  obtain ⟨finite, reads⟩ := quotient.reads exact_quotient
  exact ⟨_, finite, result finite, reads⟩

/-- The double nearest to a decimal is one that it can be read as. -/
theorem nearestCode_spec {d : Decimal} {p : Nat} (hp : p ≤ 85)
    (exponent : d.exponent = (p : Int) - finestExponent) (some : 0 < d.digits)
    (few : d.digits < 2 ^ 53) (q : Nat) : d.nearestCode < doubleFormat.infinity ∧
      ReadsAs (d.digits * 10 ^ p * unit) q d.nearestCode := by
  have power : (d.exponent + finestExponent).toNat = p := by omega
  have least : unit ≤ d.digits * 10 ^ p * unit :=
    Nat.le_mul_of_pos_left _ (Nat.mul_pos some (Nat.pow_pos (by decide)))
  have most : d.digits * 10 ^ p ≤ 2 ^ 250 * 10 ^ 46 :=
    calc d.digits * 10 ^ p ≤ 2 ^ 53 * 10 ^ 85 :=
          Nat.mul_le_mul few.le (Nat.pow_le_pow_right (by decide) hp)
      _ ≤ 2 ^ 250 * 10 ^ 46 := by decide
  have quotient : Approaches (d.digits * 10 ^ p * unit) (d.digits * 10 ^ p * unit) (10 ^ 46) := by
    refine ⟨by decide, ?_, ?_, ?_, ?_⟩
    · exact le_trans (by decide) (le_unit.trans least)
    · have scaled := Nat.mul_le_mul_right unit most
      linarith
    · exact Nat.mul_le_mul_right _ (by decide)
    · exact Nat.mul_le_mul_right _ (by decide)
  rw [Decimal.nearestCode, power]
  exact quotient.reads fun _ _ => rfl

end Json

section Singles

theorem spacing_lt {c : Nat} (hc : c < singleFormat.infinity) : singleFormat.spacing c < 254 := by
  change c < 255 * 2 ^ 23 at hc
  change c / 2 ^ 23 - 1 < 254
  omega

theorem spacing_succ (c : Nat) : singleFormat.spacing c ≤ singleFormat.spacing (c + 1) ∧
    singleFormat.spacing (c + 1) ≤ singleFormat.spacing c + 1 := by
  change c / 2 ^ 23 - 1 ≤ (c + 1) / 2 ^ 23 - 1 ∧ (c + 1) / 2 ^ 23 - 1 ≤ c / 2 ^ 23 - 1 + 1
  omega

/-- A midpoint is an odd number of half gaps. -/
theorem midpoint_parts (c : Nat) : ∃ n < 2 ^ 24, c = singleFormat.spacing c * 2 ^ 23 + n ∧
    (singleFormat.spacing c = 0 ∨ 2 ^ 23 ≤ n) ∧
    singleFormat.midpoint c = (2 * n + 1) * 2 ^ singleFormat.spacing c := by
  have spacing : singleFormat.spacing c = c / 2 ^ 23 - 1 := rfl
  obtain ⟨n, code⟩ : ∃ n, c = singleFormat.spacing c * 2 ^ 23 + n :=
    Nat.exists_eq_add_of_le (by omega)
  have high : n < 2 ^ 24 := by omega
  have low : singleFormat.spacing c = 0 ∨ 2 ^ 23 ≤ n := by omega
  have value : singleFormat.quanta c = n * 2 ^ singleFormat.spacing c := by
    have shifted : singleFormat.quanta (singleFormat.spacing c * 2 ^ 23 + n) =
        n * 2 ^ singleFormat.spacing c :=
      singleFormat.quanta_of_shift (fun some => low.resolve_left some.ne') high.le
    exact (congrArg singleFormat.quanta code).trans shifted
  refine ⟨n, high, code, low, ?_⟩
  rw [Format.midpoint, singleFormat.quanta_succ, value]
  ring

/-- Decimals on the grid of a midpoint are clearly apart from it, are equal to it around
one, or do no harm. -/
theorem midpoint_cases {c steps : Nat} (hc : c < singleFormat.infinity) (some : 0 < steps) :
    (2 ^ 54 * (steps * gridStep (singleFormat.spacing c)) <
        (2 ^ 54 - readingError) * (singleFormat.midpoint c * 10 ^ finestExponent) ∨
      (2 ^ 54 + readingError) * (singleFormat.midpoint c * 10 ^ finestExponent) <
        2 ^ 54 * (steps * gridStep (singleFormat.spacing c))) ∨
    (steps * gridStep (singleFormat.spacing c) = singleFormat.midpoint c * 10 ^ finestExponent ∧
      113 ≤ singleFormat.spacing c ∧ singleFormat.spacing c ≤ 187) ∨
    settledCode c = true ∧ settledCode (c + 1) = true := by
  obtain ⟨n, high, code, low, middle⟩ := midpoint_parts c
  have gaps : singleFormat.midpoint c * 10 ^ finestExponent =
      (2 * n + 1) * halfGap (singleFormat.spacing c) := by
    rw [middle, halfGap, Nat.mul_assoc]
  rw [gaps]
  have same : (2 * n + 1) / 2 = n := by omega
  by_cases close : near (singleFormat.spacing c) steps (2 * n + 1) = true
  · have settled := near_settled (spacing_lt hc) some close
    rw [same, ← code] at settled
    exact Or.inr settled
  · left
    simp only [near, Bool.and_eq_true, decide_eq_true_eq, Bool.or_eq_true, not_and_or] at close
    omega

/-- The interval around a number is wider than the grids of its two midpoints. -/
theorem grid_fits {c s : Nat} (hc : c + 1 < singleFormat.infinity)
    (hs : s = singleFormat.spacing c ∨ s = singleFormat.spacing (c + 1)) :
    (roundingInterval (c + 1)).lower + gridStep s < (roundingInterval (c + 1)).upper := by
  obtain ⟨least, most⟩ := spacing_succ c
  have fine := (gridStep_bounds (s := s) (by
    have := spacing_lt hc
    omega)).1
  have first := singleFormat.quanta_succ c
  have second := singleFormat.quanta_succ (c + 1)
  have wide : 3 * 2 ^ s ≤
      2 * (2 ^ singleFormat.spacing c + 2 ^ singleFormat.spacing (c + 1)) := by
    have grown : 2 ^ singleFormat.spacing c ≤ 2 ^ singleFormat.spacing (c + 1) :=
      Nat.pow_le_pow_right (by decide) least
    have doubled : 2 ^ singleFormat.spacing (c + 1) ≤ 2 ^ (singleFormat.spacing c + 1) :=
      Nat.pow_le_pow_right (by decide) most
    rw [pow_succ] at doubled
    rcases hs with rfl | rfl
    · omega
    · omega
  have scaled := Nat.mul_le_mul_right (10 ^ finestExponent) wide
  unfold halfGap at fine
  simp only [roundingInterval, Nat.add_sub_cancel]
  have upper : singleFormat.quanta (c + 1) + singleFormat.quanta (c + 1 + 1) =
      singleFormat.quanta c + singleFormat.quanta (c + 1) +
        (2 ^ singleFormat.spacing c + 2 ^ singleFormat.spacing (c + 1)) := by omega
  rw [upper, Nat.add_mul]
  linarith

/-- The shortest decimal lies in the interval around its number, on a grid no finer than
those of the two midpoints. -/
theorem shortestDecimal_spec {c : Nat} (hc : c + 1 < singleFormat.infinity) :
    ∃ p : Nat, p ≤ 85 ∧ (shortestDecimal .even (c + 1)).exponent = (p : Int) - finestExponent ∧
      (roundingInterval (c + 1)).holds
        ((shortestDecimal .even (c + 1)).digits * (10 ^ p * 2 ^ 150)) = true ∧
      gridPower (singleFormat.spacing c) ≤ p ∧ gridPower (singleFormat.spacing (c + 1)) ≤ p := by
  have left : (roundingInterval (c + 1)).lower < (roundingInterval (c + 1)).centre := by
    apply Nat.mul_lt_mul_of_pos_right _ (Nat.pow_pos (by decide))
    have := singleFormat.quanta_strictMono (show c < c + 1 by omega)
    simp only [Nat.add_sub_cancel]
    omega
  have right : (roundingInterval (c + 1)).centre < (roundingInterval (c + 1)).upper := by
    apply Nat.mul_lt_mul_of_pos_right _ (Nat.pow_pos (by decide))
    have := singleFormat.quanta_strictMono (show c + 1 < c + 1 + 1 by omega)
    omega
  have hit {s : Nat} (hs : s = singleFormat.spacing c ∨ s = singleFormat.spacing (c + 1)) :
      (roundingInterval (c + 1)).multiple? .even (10 ^ gridPower s * 2 ^ 150) ≠ none :=
    Interval.multiple?_ne_none left right (grid_fits hc hs) (gridStep_pos s)
  have range {s : Nat} (hs : s < 254) : 0 < gridPower s ∧ gridPower s ≤ 85 := by
    unfold gridPower
    omega
  obtain ⟨first, inside⟩ := range (spacing_lt (Nat.lt_of_succ_lt hc))
  obtain ⟨first', inside'⟩ := range (spacing_lt hc)
  obtain ⟨p, hp, exponent, holds, coarsest⟩ :=
    coarsestMultiple_spec first inside (hit (Or.inl rfl))
  exact ⟨p, hp, exponent, holds, coarsest _ inside first (hit (Or.inl rfl)),
    coarsest _ inside' first' (hit (Or.inr rfl))⟩

theorem length_numeral_pos (d : Decimal) : 0 < d.numeral.length := by
  rw [Decimal.numeral, Nat.toList_repr]
  exact Nat.length_toDigits_pos

theorem digits_lt_of_numeral (d : Decimal) : d.digits < 10 ^ d.numeral.length := by
  have some := length_numeral_pos d
  rw [Decimal.numeral, Nat.toList_repr] at some ⊢
  exact (Nat.length_toDigits_le_iff (by decide) some).mp (Nat.le_refl _)

/-- What is written is the decimal itself, with few enough digits. -/
theorem written_spec {d : Decimal} {p : Nat} (hp : p ≤ 85)
    (exponent : d.exponent = (p : Int) - finestExponent) (some : 0 < d.digits)
    (few : d.digits < 2 ^ 53) : ∃ q : Nat, q ≤ 86 ∧ (q = p ∨ q = 45) ∧ 0 < d.written.1 ∧
      d.written.1 < 2 ^ 53 ∧ d.written.2 = (q : Int) - 46 ∧
      d.written.1 * 10 ^ q = d.digits * 10 ^ p := by
  unfold Decimal.written
  split
  · next whole =>
    simp only [Bool.and_eq_true, decide_eq_true_eq] at whole
    obtain ⟨⟨-, small⟩, nonnegative⟩ := whole
    unfold Decimal.leadingExponent at small
    unfold finestExponent at exponent
    obtain ⟨k, rfl⟩ : ∃ k, p = 46 + k := ⟨p - 46, by omega⟩
    have zeros : d.exponent.toNat = k := by omega
    have length : d.numeral.length + (k + 1) ≤ 14 := by omega
    rw [zeros]
    refine ⟨45, by decide, Or.inr rfl, Nat.mul_pos some (Nat.pow_pos (by decide)), ?_, rfl, ?_⟩
    · calc d.digits * 10 ^ (k + 1) < 10 ^ d.numeral.length * 10 ^ (k + 1) :=
            Nat.mul_lt_mul_of_pos_right (digits_lt_of_numeral d) (Nat.pow_pos (by decide))
        _ = 10 ^ (d.numeral.length + (k + 1)) := (Nat.pow_add ..).symm
        _ ≤ 10 ^ 14 := Nat.pow_le_pow_right (by decide) length
        _ ≤ 2 ^ 53 := by decide
    · rw [Nat.mul_assoc, ← Nat.pow_add]
      congr 2
      omega
  · exact ⟨p, by omega, Or.inl rfl, some, few, exponent, rfl⟩

/-- A quantum of doubles times this power of two is half a quantum of singles. -/
def halfShift : Nat := 924

theorem unitShift_eq : doubleFormat.unitShift = 150 + halfShift := by decide +kernel

/-- Half a quantum of singles, in quanta of doubles. -/
def halfQuantum : Nat := 2 ^ halfShift

theorem halfQuantum_pos : 0 < halfQuantum := Nat.two_pow_pos _

theorem unit_eq : Json.unit = 2 ^ 150 * halfQuantum := by
  rw [Json.unit, unitShift_eq, Nat.pow_add, halfQuantum]

/-- A midpoint is the value of a double. -/
theorem midpoint_is_double (c : Nat) (hc : c < singleFormat.infinity) :
    ∃ h < doubleFormat.infinity, doubleFormat.quanta h = singleFormat.midpoint c * halfQuantum := by
  obtain ⟨n, high, -, -, middle⟩ := midpoint_parts c
  have spacing := spacing_lt hc
  obtain ⟨h, hh, value⟩ := doubleFormat.exists_code
    (m := 2 * n + 1) (k := singleFormat.spacing c + halfShift)
    (by change 2 * n + 1 < 2 ^ 53; omega)
    (by change singleFormat.spacing c + 924 + 2 < 2 ^ 11; omega)
  refine ⟨h, hh, ?_⟩
  rw [value, middle, halfQuantum, Nat.pow_add, Nat.mul_assoc]

/-- A decimal and the double `v` read for it are on the same side of a midpoint, where the
double is on the midpoint only if the decimal is. -/
structure Kept (c n v : Nat) : Prop where
  from_below : n ≤ singleFormat.midpoint c * 10 ^ finestExponent →
    v < singleFormat.midpoint c * halfQuantum ∨
      v = singleFormat.midpoint c * halfQuantum ∧ n = singleFormat.midpoint c * 10 ^ finestExponent
  from_above : singleFormat.midpoint c * 10 ^ finestExponent ≤ n →
    singleFormat.midpoint c * halfQuantum < v ∨
      v = singleFormat.midpoint c * halfQuantum ∧ n = singleFormat.midpoint c * 10 ^ finestExponent

section Kept

variable {c k q n : Nat} (reads : Json.ReadsAs (n * halfQuantum) q k)
include reads

/-- The error does not carry a decimal up to a midpoint that is far enough above. -/
theorem kept_of_low (low : 2 ^ 54 * n <
    (2 ^ 54 - readingError) * (singleFormat.midpoint c * 10 ^ finestExponent)) :
    Kept c n (doubleFormat.quanta k) := by
  have read := reads.above
  unfold readingError at low read
  have apart := Nat.mul_lt_mul_of_pos_right low halfQuantum_pos
  rw [Nat.mul_assoc, Nat.mul_assoc, Nat.mul_right_comm _ _ halfQuantum] at apart
  refine ⟨fun _ => Or.inl ?_, fun order => by omega⟩
  by_contra across
  have := Nat.mul_le_mul_right (10 ^ finestExponent) (Nat.le_of_not_lt across)
  rw [finestExponent] at *
  omega

/-- The error does not carry a decimal down to a midpoint that is far enough below. -/
theorem kept_of_high (high : (2 ^ 54 + readingError) *
    (singleFormat.midpoint c * 10 ^ finestExponent) < 2 ^ 54 * n) :
    Kept c n (doubleFormat.quanta k) := by
  have read := reads.below
  unfold readingError at high read
  have apart := Nat.mul_lt_mul_of_pos_right high halfQuantum_pos
  rw [Nat.mul_assoc, Nat.mul_assoc (2 ^ 54), Nat.mul_right_comm _ _ halfQuantum] at apart
  refine ⟨fun order => by omega, fun _ => Or.inl ?_⟩
  by_contra across
  have := Nat.mul_le_mul_right (10 ^ finestExponent) (Nat.le_of_not_lt across)
  rw [finestExponent] at *
  omega

/-- A decimal on a midpoint is read exactly while powers of ten are exact. -/
theorem kept_of_tie (hc : c < singleFormat.infinity)
    (tie : n = singleFormat.midpoint c * 10 ^ finestExponent) (least : 24 ≤ q) (most : q ≤ 68) :
    Kept c n (doubleFormat.quanta k) := by
  obtain ⟨h, hh, value⟩ := midpoint_is_double c hc
  have same : n * halfQuantum = doubleFormat.quanta h * 10 ^ 46 := by
    rw [value, tie]
    exact Nat.mul_right_comm _ _ _
  have equal := Nat.le_antisymm (reads.le least most h hh same.le)
    (reads.ge least most h hh same.ge)
  rw [value] at equal
  exact ⟨fun _ => Or.inr ⟨equal, tie⟩, fun _ => Or.inr ⟨equal, tie⟩⟩

end Kept

/-- Reading a decimal on the grid of a midpoint does not carry it across the midpoint, or
the numbers beside the midpoint are settled. -/
theorem midpoint_kept {c k q steps n : Nat} (hc : c < singleFormat.infinity) (some : 0 < steps)
    (grid : n = steps * gridStep (singleFormat.spacing c))
    (reads : Json.ReadsAs (n * halfQuantum) q k)
    (range : n = singleFormat.midpoint c * 10 ^ finestExponent →
      113 ≤ singleFormat.spacing c → singleFormat.spacing c ≤ 187 → 24 ≤ q ∧ q ≤ 68) :
    Kept c n (doubleFormat.quanta k) ∨ settledCode c = true ∧ settledCode (c + 1) = true := by
  rcases midpoint_cases hc some with (low | high) | ⟨tie, first, last⟩ | settled
  · rw [← grid] at low
    exact Or.inl (kept_of_low reads low)
  · rw [← grid] at high
    exact Or.inl (kept_of_high reads high)
  · rw [← grid] at tie
    obtain ⟨least, most⟩ := range tie first last
    exact Or.inl (kept_of_tie reads hc tie least most)
  · exact Or.inr settled

/-- A multiple on a grid is one on every finer grid. -/
theorem multiple_of_gridStep {p s : Nat} (fine : gridPower s ≤ p) (digits : Nat) :
    digits * (10 ^ p * 2 ^ 150) = digits * 10 ^ (p - gridPower s) * gridStep s := by
  have powers : 10 ^ p = 10 ^ (p - gridPower s) * 10 ^ gridPower s := by
    rw [← Nat.pow_add, Nat.sub_add_cancel fine]
  rw [gridStep, powers]
  ring

/-- The shortest decimal of a single has few digits. -/
theorem digits_few {c p digits : Nat} (hc : c < singleFormat.infinity)
    (fine : gridPower (singleFormat.spacing c) ≤ p)
    (below : digits * (10 ^ p * 2 ^ 150) ≤ singleFormat.midpoint c * 10 ^ finestExponent) :
    digits < 2 ^ 53 := by
  obtain ⟨n, high, -, -, middle⟩ := midpoint_parts c
  rw [middle, Nat.mul_assoc (2 * n + 1)] at below
  have coarse := (gridStep_bounds (spacing_lt hc)).2
  have step := gridStep_pos (singleFormat.spacing c)
  have half := halfGap_pos (singleFormat.spacing c)
  have whole : 1 ≤ 10 ^ (p - gridPower (singleFormat.spacing c)) := Nat.one_le_pow _ _ (by decide)
  have small : digits * gridStep (singleFormat.spacing c) <
      2 ^ 28 * gridStep (singleFormat.spacing c) := by
    calc digits * gridStep (singleFormat.spacing c) ≤
          digits * 10 ^ (p - gridPower (singleFormat.spacing c)) *
            gridStep (singleFormat.spacing c) :=
          Nat.mul_le_mul_right _ (Nat.le_mul_of_pos_right _ whole)
      _ = digits * (10 ^ p * 2 ^ 150) := (multiple_of_gridStep fine digits).symm
      _ ≤ (2 * n + 1) * halfGap (singleFormat.spacing c) := below
      _ ≤ 2 ^ 25 * halfGap (singleFormat.spacing c) := Nat.mul_le_mul_right _ (by omega)
      _ < 2 ^ 28 * gridStep (singleFormat.spacing c) := by omega
  exact Nat.lt_of_lt_of_le (Nat.lt_of_mul_lt_mul_right small) (by decide)

/-- The shortest decimal of a positive single is not zero. -/
theorem digits_pos {c p digits : Nat}
    (above : singleFormat.midpoint c * 10 ^ finestExponent ≤ digits * (10 ^ p * 2 ^ 150)) :
    0 < digits := by
  by_contra none
  rw [Nat.eq_zero_of_not_pos none, Nat.zero_mul] at above
  have positive := Nat.mul_pos (singleFormat.midpoint_pos c)
    (show 0 < 10 ^ finestExponent by decide)
  omega

/-- A decimal that equals a midpoint around one is scaled by an exact power of ten. -/
theorem tie_exponent {c p q digits : Nat} (some : 0 < digits) (which : q = p ∨ q = 45)
    (fine : gridPower (singleFormat.spacing c) ≤ p)
    (tie : digits * (10 ^ p * 2 ^ 150) = singleFormat.midpoint c * 10 ^ finestExponent)
    (first : 113 ≤ singleFormat.spacing c) (last : singleFormat.spacing c ≤ 187) :
    24 ≤ q ∧ q ≤ 68 := by
  obtain ⟨n, high, -, -, middle⟩ := midpoint_parts c
  have least : 24 ≤ p := by
    unfold gridPower at fine
    omega
  have most : p ≤ 68 := by
    by_contra beyond
    have large : 10 ^ 69 * 2 ^ 150 ≤ digits * (10 ^ p * 2 ^ 150) :=
      (Nat.mul_le_mul_right _ (Nat.pow_le_pow_right (by decide) (by omega))).trans
        (Nat.le_mul_of_pos_left _ some)
    have small : singleFormat.midpoint c ≤ 2 ^ 25 * 2 ^ 187 := by
      rw [middle]
      exact Nat.mul_le_mul (by omega) (Nat.pow_le_pow_right (by decide) last)
    rw [tie, finestExponent] at large
    omega
  omega

/-- A double between the midpoints beside a single is rounded to it, and one on a midpoint
if the code is even. -/
theorem round_between {c v : Nat} (hc : c + 1 < singleFormat.infinity)
    (above : singleFormat.midpoint c * halfQuantum < v ∨
      v = singleFormat.midpoint c * halfQuantum ∧ (c + 1) % 2 = 0)
    (below : v < singleFormat.midpoint (c + 1) * halfQuantum ∨
      v = singleFormat.midpoint (c + 1) * halfQuantum ∧ (c + 1) % 2 = 0) :
    singleFormat.round (v * 2 ^ singleFormat.unitShift) (2 ^ doubleFormat.unitShift) = c + 1 := by
  have value : 2 * (v * 2 ^ singleFormat.unitShift) = v * 2 ^ 150 := by
    rw [show 150 = singleFormat.unitShift + 1 by decide, pow_succ]
    ring
  have middle (b : Nat) : singleFormat.midpoint b * 2 ^ doubleFormat.unitShift =
      singleFormat.midpoint b * halfQuantum * 2 ^ 150 := by
    rw [unitShift_eq, Nat.pow_add, halfQuantum]
    ring
  have scale : 0 < 2 ^ 150 := Nat.two_pow_pos _
  apply Nat.le_antisymm
  · rw [singleFormat.round_le_iff (by decide) (Nat.two_pow_pos _) hc, value, middle]
    rcases below with less | ⟨tie, even⟩
    · exact Or.inl (Nat.mul_lt_mul_of_pos_right less scale)
    · exact Or.inr ⟨by rw [tie], even⟩
  · by_contra small
    have within := (singleFormat.round_le_iff (by decide) (Nat.two_pow_pos _)
      (Nat.lt_of_succ_lt hc)).mp (Nat.le_of_lt_succ (Nat.lt_of_not_le small))
    rw [value, middle] at within
    rcases above with greater | ⟨tie, even⟩
    · have := Nat.mul_lt_mul_of_pos_right greater scale
      omega
    · rw [tie] at within
      omega

/-- Where the digits of a shortest decimal stand. A double that it can be read as narrows to its
single, or the single is settled. -/
theorem shortestDecimal_reads {c : Nat} (hc : c + 1 < singleFormat.infinity) :
    ∃ p : Nat, p ≤ 85 ∧ (shortestDecimal .even (c + 1)).exponent = (p : Int) - finestExponent ∧
      0 < (shortestDecimal .even (c + 1)).digits ∧
      (shortestDecimal .even (c + 1)).digits < 2 ^ 53 ∧
      ∀ q k, q = p ∨ q = 45 → k < doubleFormat.infinity →
        Json.ReadsAs ((shortestDecimal .even (c + 1)).digits * 10 ^ p * Json.unit) q k →
        (Double.ofCode k).narrow = .ofCode (c + 1) ∨ settledCode (c + 1) = true := by
  obtain ⟨p, hp, exponent, holds, fine, fine'⟩ := shortestDecimal_spec hc
  obtain ⟨lower, upper, closed⟩ := Interval.bounds_of_holds holds
  change singleFormat.midpoint c * 10 ^ finestExponent ≤ _ at lower
  change _ ≤ singleFormat.midpoint (c + 1) * 10 ^ finestExponent at upper
  have some := digits_pos lower
  have few := digits_few hc fine' upper
  refine ⟨p, hp, exponent, some, few, fun q k which hk reads => ?_⟩
  rw [unit_eq, ← Nat.mul_assoc, Nat.mul_assoc _ (10 ^ p)] at reads
  have steps (s : Nat) : 0 < (shortestDecimal .even (c + 1)).digits * 10 ^ (p - gridPower s) :=
    Nat.mul_pos some (Nat.pow_pos (by decide))
  rcases midpoint_kept (Nat.lt_of_succ_lt hc) (steps _) (multiple_of_gridStep fine _) reads
    (tie_exponent some which fine) with lower_kept | ⟨-, here⟩
  · rcases midpoint_kept hc (steps _) (multiple_of_gridStep fine' _) reads
      (tie_exponent some which fine') with upper_kept | ⟨here, -⟩
    · left
      have rounded : singleFormat.round (doubleFormat.quanta k * 2 ^ singleFormat.unitShift)
          (2 ^ doubleFormat.unitShift) = c + 1 := by
        refine round_between hc ((lower_kept.from_above lower).imp_right ?_)
          ((upper_kept.from_below upper).imp_right ?_)
        · rintro ⟨tie, edge⟩
          exact ⟨tie, of_decide_eq_true (closed (Or.inl edge))⟩
        · rintro ⟨tie, edge⟩
          exact ⟨tie, of_decide_eq_true (closed (Or.inr edge))⟩
      rw [Double.narrow_of_finite hk, rounded]
    · exact Or.inr here
  · exact Or.inr here

theorem settledCode_iff {c : Nat} (hc : c + 1 < singleFormat.infinity) :
    settledCode (c + 1) = true ↔
      readsBack (c + 1) = true ∧ (c + 1 = nearestLost ∨ nearestBack (c + 1) = true) := by
  simp [settledCode, Nat.not_le.mpr hc]

/-- Every positive finite single is read back from its shortest decimal. -/
theorem readsBack_of_finite {c : Nat} (hc : c + 1 < singleFormat.infinity) :
    readsBack (c + 1) = true := by
  obtain ⟨p, hp, exponent, some, few, narrows⟩ := shortestDecimal_reads hc
  obtain ⟨q, hq, which, some', few', exponent', value⟩ := written_spec hp exponent some few
  obtain ⟨k, hk, result, reads⟩ := Json.scaleToDouble_spec some' few' exponent' hq
  rw [value] at reads
  rcases narrows q k which hk reads with narrow | settled
  · exact readsBack_iff.mpr ⟨_, result, narrow⟩
  · exact ((settledCode_iff hc).mp settled).1

/-- The double nearest to the shortest decimal of a positive finite single narrows to the single,
with one exception. -/
theorem nearestBack_of_finite {c : Nat} (hc : c + 1 < singleFormat.infinity)
    (apart : c + 1 ≠ nearestLost) : nearestBack (c + 1) = true := by
  obtain ⟨p, hp, exponent, some, few, narrows⟩ := shortestDecimal_reads hc
  obtain ⟨hk, reads⟩ := Json.nearestCode_spec hp exponent some few 45
  rcases narrows 45 _ (Or.inr rfl) hk reads with narrow | settled
  · exact decide_eq_true narrow
  · exact ((settledCode_iff hc).mp settled).2.resolve_left apart

end Singles

end VisualIndex
