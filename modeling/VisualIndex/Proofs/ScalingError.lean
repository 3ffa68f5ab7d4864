import Mathlib.Algebra.Order.Field.Basic
import Mathlib.Tactic.FieldSimp
import Mathlib.Tactic.GCongr
import Mathlib.Tactic.Positivity
import VisualIndex.Proofs.DecimalReading

/-! The error of scaling by a power of ten.

A significand is scaled by one product, or by up to three quotients of doubles. The error has
two parts: a share of the exact number, and a part of a quantum. Each operation adds its own
rounding to the share. The part of a quantum comes from quotients too small for all their bits;
a further division makes it ten times smaller at least, so it never passes three quarters. -/
namespace VisualIndex

open Json

/-- A number of quanta is off an exact one by at most a share of it and a part of a quantum. -/
def Within (share part : ℚ) (q : Nat) (z : ℚ) : Prop := |(q : ℚ) - z| ≤ share * z + part

theorem Within.mono {share share' part part' z : ℚ} {q : Nat} (within : Within share part q z)
    (nonneg : 0 ≤ z) (shares : share ≤ share') (parts : part ≤ part') :
    Within share' part' q z :=
  within.trans (add_le_add (mul_le_mul_of_nonneg_right shares nonneg) parts)

/-- What is within a part of a quantum may be taken for zero. -/
theorem within_zero {share part z : ℚ} (shares : 0 ≤ share) (nonneg : 0 ≤ z) (small : z ≤ part) :
    Within share part 0 z := by
  rw [Within, Nat.cast_zero, zero_sub, abs_neg, abs_of_nonneg nonneg]
  exact small.trans (le_add_of_nonneg_left (mul_nonneg shares nonneg))

/-- What is much less than a quantum has no quanta. -/
theorem Within.eq_zero {share z : ℚ} {q : Nat} (within : Within share (3 / 4) q z) (nonneg : 0 ≤ z)
    (shares : share ≤ 1 / 2) (small : z ≤ 1 / 8) : q = 0 := by
  have loss := mul_le_mul_of_nonneg_right shares nonneg
  have above := (abs_le.mp within).2
  exact Nat.cast_lt_one.mp (show (q : ℚ) < 1 by linarith)

/-- Rounding to a double is off by a share or by half a quantum. -/
theorem round_within {num den : Nat} (pos : 0 < den)
    (finite : doubleFormat.round num den < doubleFormat.infinity) :
    Within (1 / 2 ^ 52) (1 / 2) (doubleFormat.quanta (doubleFormat.round num den)) (num / den) := by
  have pos' : (0 : ℚ) < den := Nat.cast_pos.mpr pos
  have value : (num : ℚ) = num / den * den := (div_mul_cancel₀ _ pos'.ne').symm
  have nonneg : (0 : ℚ) ≤ num / den := by positivity
  rcases Nat.lt_or_ge num (2 ^ doubleFormat.fractionBits * den) with small | normal
  · obtain ⟨below, above⟩ := doubleFormat.round_error_of_small pos small finite
    generalize doubleFormat.quanta (doubleFormat.round num den) = q at *
    have below : (2 : ℚ) * num ≤ (2 * q + 1) * den := by exact_mod_cast below
    have above : (2 : ℚ) * q * den ≤ 2 * num + den := by exact_mod_cast above
    rw [value] at below above
    generalize (num : ℚ) / den = z at *
    have below : 2 * z ≤ 2 * q + 1 := le_of_mul_le_mul_right (by linarith) pos'
    have above : 2 * (q : ℚ) ≤ 2 * z + 1 := le_of_mul_le_mul_right (by linarith) pos'
    rw [Within, abs_le]
    constructor <;> linarith
  · obtain ⟨below, above⟩ := doubleFormat.round_error (by decide) pos normal finite
    generalize doubleFormat.quanta (doubleFormat.round num den) = q at *
    have below : (2 : ℚ) ^ 53 * num ≤ (2 ^ 53 + 1) * (q * den) := by exact_mod_cast below
    have above : 2 ^ 53 * (q * den) ≤ 2 ^ 53 * num + q * den := by
      change (2 ^ 53 - 1) * (q * den) ≤ 2 ^ 53 * num at above
      omega
    have above : (2 : ℚ) ^ 53 * (q * den) ≤ 2 ^ 53 * num + q * den := by exact_mod_cast above
    rw [value] at below above
    generalize (num : ℚ) / den = z at *
    have below : 2 ^ 53 * z ≤ (2 ^ 53 + 1) * q := le_of_mul_le_mul_right (by linarith) pos'
    have above : 2 ^ 53 * (q : ℚ) ≤ 2 ^ 53 * z + q := le_of_mul_le_mul_right (by linarith) pos'
    rw [Within, abs_le]
    constructor <;> linarith

namespace Json

/-- The share that the double nearest to a natural number is off. -/
theorem NearNatural.bounds {n q : Nat} (near : NearNatural n q) :
    (2 : ℚ) ^ 53 * (n * unit) ≤ (2 ^ 53 + 1) * q ∧
      (2 : ℚ) ^ 53 * q ≤ 2 ^ 53 * (n * unit) + q := by
  obtain ⟨below, above⟩ := near
  have above : 2 ^ 53 * q ≤ 2 ^ 53 * (n * unit) + q := by omega
  exact ⟨by exact_mod_cast below, by exact_mod_cast above⟩

theorem NearNatural.within {n q : Nat} (near : NearNatural n q) :
    Within (1 / 2 ^ 52) 0 q (n * unit) := by
  obtain ⟨below, above⟩ := near.bounds
  have nonneg : (0 : ℚ) ≤ n * unit := mul_nonneg n.cast_nonneg unit.cast_nonneg
  generalize (n : ℚ) * unit = z at *
  rw [Within, abs_le]
  constructor <;> linarith

section Division

variable {k q w y : Nat} {z share : ℚ}

/-- The error of a quotient by a power of ten, before it is rounded. -/
theorem quotient_error (near : NearNatural (10 ^ k) q) (pos : 0 < q) :
    |(w : ℚ) * unit / q - w / 10 ^ k| ≤ w / 10 ^ k / 2 ^ 53 := by
  obtain ⟨below, above⟩ := near.bounds
  push_cast at below above
  have divisor : (0 : ℚ) < q := Nat.cast_pos.mpr pos
  have ten : (0 : ℚ) < 10 ^ k := by positivity
  have quotient (u : ℚ) : (w : ℚ) * u / q = w / 10 ^ k * (10 ^ k * u / q) := by
    field_simp
  have factor : |10 ^ k * (unit : ℚ) / q - 1| ≤ 1 / 2 ^ 53 := by
    have lower : 1 - 1 / 2 ^ 53 ≤ 10 ^ k * (unit : ℚ) / q := by
      rw [le_div_iff₀ divisor]
      linarith
    have upper : 10 ^ k * (unit : ℚ) / q ≤ 1 + 1 / 2 ^ 53 := by
      rw [div_le_iff₀ divisor]
      linarith
    rw [abs_le]
    constructor <;> linarith
  have front : (0 : ℚ) ≤ w / 10 ^ k := by positivity
  calc |(w : ℚ) * unit / q - w / 10 ^ k|
      = w / 10 ^ k * |10 ^ k * (unit : ℚ) / q - 1| := by
        rw [quotient, ← abs_of_nonneg front, ← abs_mul, abs_of_nonneg front, mul_sub, mul_one]
    _ ≤ w / 10 ^ k * (1 / 2 ^ 53) := mul_le_mul_of_nonneg_left factor front
    _ = w / 10 ^ k / 2 ^ 53 := by ring

/-- A quotient by a power of ten keeps the error in bounds. -/
theorem quotient_within (near : NearNatural (10 ^ k) q) (pos : 0 < q) (some : 1 ≤ k)
    (nonneg : 0 ≤ z) (shares : 0 ≤ share ∧ share ≤ 1) (close : Within share (3 / 4) w z)
    (rounded : Within (1 / 2 ^ 52) (1 / 2) y (w * unit / q)) :
    Within (share + 1 / 2 ^ 49) (3 / 4) y (z / 10 ^ k) := by
  have quotient := quotient_error (w := w) near pos
  have ten : (10 : ℚ) ≤ 10 ^ k := le_self_pow₀ (by norm_num) (Nat.one_le_iff_ne_zero.mp some)
  have scaled : |(w : ℚ) / 10 ^ k - z / 10 ^ k| ≤ share * (z / 10 ^ k) + 3 / 40 := by
    rw [← sub_div, abs_div, abs_of_pos (show (0 : ℚ) < 10 ^ k by positivity),
      div_le_iff₀ (by positivity)]
    calc |(w : ℚ) - z| ≤ share * z + 3 / 40 * 10 := by
          have := close
          unfold Within at this
          linarith
      _ ≤ share * z + 3 / 40 * 10 ^ k := by gcongr
      _ = (share * (z / 10 ^ k) + 3 / 40) * 10 ^ k := by field_simp
  have target : 0 ≤ z / 10 ^ k := by positivity
  have front : (0 : ℚ) ≤ w / 10 ^ k := by positivity
  have product : share * (z / 10 ^ k) ≤ z / 10 ^ k := mul_le_of_le_one_left target shares.2
  unfold Within at rounded ⊢
  rw [abs_le] at *
  rw [add_mul]
  generalize share * (z / 10 ^ k) = loss at *
  generalize z / 10 ^ k = z' at *
  generalize (w : ℚ) / 10 ^ k = t at *
  generalize (w : ℚ) * unit / q = v at *
  constructor <;> linarith

/-- One division by a power of ten. -/
theorem div_within {c : Nat} (finite : c < doubleFormat.infinity) (some : 1 ≤ k)
    (hk : k ≤ greatestPower) (nonneg : 0 ≤ z) (shares : 0 ≤ share ∧ share ≤ 1)
    (close : Within share (3 / 4) (doubleFormat.quanta c) z) :
    ∃ d < doubleFormat.infinity, Double.ofCode c / powerOfTen k = .ofCode d ∧
      Within (share + 1 / 2 ^ 49) (3 / 4) (doubleFormat.quanta d) (z / 10 ^ k) := by
  obtain ⟨b, hb, power, near⟩ := powerOfTen_spec hk
  have ten : 10 ^ 1 * unit ≤ 10 ^ k * unit :=
    Nat.mul_le_mul_right _ (Nat.pow_le_pow_right (by decide) some)
  have one := unit_pos
  have least : unit ≤ doubleFormat.quanta b := by
    have below := near.below
    omega
  have pos : 0 < doubleFormat.quanta b := one.trans_le least
  have inside : doubleFormat.round (doubleFormat.quanta c * 2 ^ doubleFormat.unitShift)
      (doubleFormat.quanta b) ≤ c :=
    doubleFormat.round_le_of_le (by decide) pos finite (Nat.mul_le_mul_left _ least)
  have rounded := round_within pos (inside.trans_lt finite)
  refine ⟨_, inside.trans_lt finite, ?_, quotient_within near.toNearNatural pos some nonneg
    shares close ?_⟩
  · rw [power, Double.div_of_finite finite hb pos.ne']
  · rw [Nat.cast_mul] at rounded
    exact rounded

/-- Dividing by powers of ten, one after the other, divides by all of them. -/
theorem divideByPower_within (rounds : Nat) {c power : Nat} (finite : c < doubleFormat.infinity)
    (some : 1 ≤ power) (nonneg : 0 ≤ z) (shares : 0 ≤ share)
    (budget : share + (rounds + 1) / 2 ^ 49 ≤ 1 / 2)
    (bounded : 8 * z ≤ (10 ^ greatestPower) ^ rounds)
    (close : Within share (3 / 4) (doubleFormat.quanta c) z) :
    ∃ d < doubleFormat.infinity, divideByPower (.ofCode c) rounds power = .ofCode d ∧
      Within (share + (rounds + 1) / 2 ^ 49) (3 / 4) (doubleFormat.quanta d) (z / 10 ^ power) := by
  induction rounds generalizing c power z share with
  | zero =>
    obtain ⟨d, hd, quotient, within⟩ := div_within (k := min power greatestPower) finite
      (by unfold greatestPower; omega) (Nat.min_le_right _ _) nonneg ⟨shares, by linarith⟩ close
    refine ⟨d, hd, quotient, ?_⟩
    -- what is left is less than a quantum, so the quotient is zero
    have small (j : Nat) : 0 ≤ z / 10 ^ j ∧ z / 10 ^ j ≤ 1 / 8 := by
      have := div_le_self nonneg (one_le_pow₀ (n := j) (show (1 : ℚ) ≤ 10 by norm_num))
      rw [pow_zero] at bounded
      exact ⟨by positivity, by linarith⟩
    obtain ⟨least, eighth⟩ := small (min power greatestPower)
    obtain ⟨pos, eighth'⟩ := small power
    rw [within.eq_zero least (by simpa using budget) eighth]
    exact within_zero (by positivity) pos (by linarith)
  | succ rounds ih =>
    rw [divideByPower]
    push_cast at budget ⊢
    have spent : (0 : ℚ) ≤ (rounds + 1) / 2 ^ 49 := by positivity
    have total : share + (rounds + 1 + 1) / 2 ^ 49 =
        share + 1 / 2 ^ 49 + (rounds + 1) / 2 ^ 49 := by
      ring
    rw [total] at budget ⊢
    split
    · next fits =>
      obtain ⟨d, hd, quotient, within⟩ := div_within finite some fits nonneg
        ⟨shares, by linarith⟩ close
      exact ⟨d, hd, quotient, within.mono (by positivity) (by linarith) le_rfl⟩
    · next more =>
      obtain ⟨b, hb, quotient, within⟩ := div_within (k := greatestPower) finite (by decide)
        le_rfl nonneg ⟨shares, by linarith⟩ close
      have scale : (0 : ℚ) < 10 ^ greatestPower := by positivity
      obtain ⟨d, hd, rest, within⟩ := ih hb
        (show 1 ≤ power - greatestPower by omega) (by positivity)
        (by positivity) budget (by
          rw [pow_succ] at bounded
          rw [← mul_div_assoc, div_le_iff₀ scale]
          exact bounded) within
      refine ⟨d, hd, ?_, ?_⟩
      · rw [quotient, rest]
      · have split : (10 : ℚ) ^ power = 10 ^ greatestPower * 10 ^ (power - greatestPower) := by
          rw [← pow_add, Nat.add_sub_cancel' (Nat.le_of_not_le more)]
        rw [split, ← div_div]
        exact within

end Division

/-- Three units in the last place below the greatest double. -/
def safeMagnitude : Nat := 2 ^ 1024 - 2 ^ 973

section Product

variable {m n w q y : Nat} (near : NearNatural m w) (near' : NearNatural n q)
include near near'

/-- The error of the product of two rounded numbers, before it is rounded itself. -/
theorem product_error :
    |(w : ℚ) * q / unit - m * n * unit| ≤ m * n * unit / 2 ^ 50 := by
  have one : (0 : ℚ) < unit := Nat.cast_pos.mpr unit_pos
  have first := near.within
  have second := near'.within
  have pos : (0 : ℚ) ≤ m * unit := mul_nonneg m.cast_nonneg one.le
  have pos' : (0 : ℚ) ≤ n * unit := mul_nonneg n.cast_nonneg one.le
  have factors : (m : ℚ) * n * unit = m * unit * (n * unit) / unit := by field_simp
  rw [factors, ← sub_div, abs_div, abs_of_pos one, div_div, mul_comm (unit : ℚ), ← div_div]
  refine div_le_div_of_nonneg_right ?_ one.le
  unfold Within at first second
  generalize (m : ℚ) * unit = x at *
  generalize (n : ℚ) * unit = x' at *
  have split : (w : ℚ) * q - x * x' = (w - x) * q + x * (q - x') := by ring
  have size : (q : ℚ) ≤ 2 * x' := by
    have := (abs_le.mp second).2
    linarith
  calc |(w : ℚ) * q - x * x'| ≤ |(w - x) * q| + |x * (q - x')| := by
        rw [split]
        exact abs_add_le _ _
    _ = |(w : ℚ) - x| * q + x * |q - x'| := by
        rw [abs_mul, abs_mul, abs_of_nonneg pos, Nat.abs_cast]
    _ ≤ (1 / 2 ^ 52 * x + 0) * (2 * x') + x * (1 / 2 ^ 52 * x' + 0) :=
        add_le_add (mul_le_mul first size q.cast_nonneg (by linarith))
          (mul_le_mul_of_nonneg_left second pos)
    _ ≤ x * x' / 2 ^ 50 := by
        have := mul_nonneg pos pos'
        linarith

/-- A product up to the safe magnitude is in range. -/
theorem product_le (range : m * n ≤ safeMagnitude) : w * q ≤ greatestQuanta * unit := by
  have room : 2 ^ 106 * (safeMagnitude * unit) ≤ (2 ^ 53 - 1) ^ 2 * greatestQuanta := by
    decide +kernel
  refine Nat.le_of_mul_le_mul_left (c := (2 ^ 53 - 1) ^ 2) ?_ (by decide)
  calc (2 ^ 53 - 1) ^ 2 * (w * q) = (2 ^ 53 - 1) * w * ((2 ^ 53 - 1) * q) := by ring
    _ ≤ 2 ^ 53 * (m * unit) * (2 ^ 53 * (n * unit)) := Nat.mul_le_mul near.above near'.above
    _ = 2 ^ 106 * (m * n * unit) * unit := by ring
    _ ≤ 2 ^ 106 * (safeMagnitude * unit) * unit :=
        Nat.mul_le_mul_right _ (Nat.mul_le_mul_left _ (Nat.mul_le_mul_right _ range))
    _ ≤ (2 ^ 53 - 1) ^ 2 * greatestQuanta * unit := Nat.mul_le_mul_right _ room
    _ = (2 ^ 53 - 1) ^ 2 * (greatestQuanta * unit) := Nat.mul_assoc _ _ _

end Product

/-- One multiplication of natural numbers as doubles. -/
theorem mul_within {m n a b : Nat} (ha : a < doubleFormat.infinity)
    (hb : b < doubleFormat.infinity) (near : NearNatural m (doubleFormat.quanta a))
    (near' : NearNatural n (doubleFormat.quanta b)) (range : m * n ≤ safeMagnitude) :
    ∃ d < doubleFormat.infinity, Double.ofCode a * Double.ofCode b = .ofCode d ∧
      Within (1 / 2 ^ 49) (1 / 2) (doubleFormat.quanta d) (m * n * unit) := by
  obtain ⟨c, inside, greatest⟩ := exists_greatest
  have finite : doubleFormat.round (doubleFormat.quanta a * doubleFormat.quanta b) unit <
      doubleFormat.infinity :=
    (doubleFormat.round_le_of_le (by decide) unit_pos inside
      (greatest ▸ product_le near near' range)).trans_lt inside
  refine ⟨_, finite, Double.mul_of_finite ha hb, ?_⟩
  have rounded := round_within unit_pos finite
  have product := product_error near near'
  have nonneg : (0 : ℚ) ≤ m * n * unit :=
    mul_nonneg (mul_nonneg m.cast_nonneg n.cast_nonneg) unit.cast_nonneg
  unfold Within at rounded ⊢
  push_cast at rounded
  rw [abs_le] at *
  generalize (m : ℚ) * n * unit = z at *
  generalize ((doubleFormat.quanta a : ℚ) * doubleFormat.quanta b / unit) = v at *
  constructor <;> linarith

/-- A natural number that fits 64 bits, as a double. -/
theorem ofNat_near_of_fits {n : Nat} (few : n < 2 ^ 64) :
    doubleFormat.ofNat n < doubleFormat.infinity ∧
      NearNatural n (doubleFormat.quanta (doubleFormat.ofNat n)) :=
  ofNat_near ((Nat.mul_le_mul_right _ few.le).trans (by decide +kernel))

theorem scaleToDouble_negative {n k : Nat} (few : n < 2 ^ 64) :
    ∃ c < doubleFormat.infinity, scaleToDouble n (.negSucc k) = .ok (.ofCode c) ∧
      Within (1 / 2 ^ 47) (3 / 4) (doubleFormat.quanta c) (n * unit / 10 ^ (k + 1)) := by
  obtain ⟨finite, near⟩ := ofNat_near_of_fits few
  have nonneg : (0 : ℚ) ≤ n * unit := mul_nonneg n.cast_nonneg unit.cast_nonneg
  have bounded : ((8 * (n * unit) : Nat) : ℚ) ≤ ((10 ^ greatestPower) ^ 2 : Nat) :=
    Nat.cast_le.mpr ((Nat.mul_le_mul_left 8 (Nat.mul_le_mul_right unit few.le)).trans
      (by decide +kernel))
  push_cast at bounded
  obtain ⟨c, hc, quotient, within⟩ := divideByPower_within 2 finite
    (Nat.le_add_left 1 k) nonneg (by norm_num) (by norm_num) bounded
    (near.within.mono nonneg le_rfl (by norm_num))
  have target : (0 : ℚ) ≤ n * unit / 10 ^ (k + 1) := div_nonneg nonneg (by positivity)
  refine ⟨c, hc, ?_, within.mono target (by norm_num) le_rfl⟩
  rw [scaleToDouble, if_pos (Int.negSucc_lt_zero k)]
  exact congrArg Except.ok quotient

theorem scaleToDouble_natural {n k : Nat} (few : n < 2 ^ 64) (range : n * 10 ^ k ≤ safeMagnitude) :
    ∃ c < doubleFormat.infinity, scaleToDouble n k = .ok (.ofCode c) ∧
      Within (1 / 2 ^ 47) (3 / 4) (doubleFormat.quanta c) (n * 10 ^ k * unit) := by
  have sign : ¬(k : Int) < 0 := by omega
  rw [scaleToDouble, if_neg sign]
  by_cases small : k ≤ greatestPower
  · obtain ⟨finite, near⟩ := ofNat_near_of_fits few
    obtain ⟨b, hb, power, near'⟩ := powerOfTen_spec small
    obtain ⟨c, hc, product, within⟩ := mul_within finite hb near near'.toNearNatural range
    have target : (0 : ℚ) ≤ n * (10 ^ k : Nat) * unit :=
      mul_nonneg (mul_nonneg n.cast_nonneg (Nat.cast_nonneg _)) unit.cast_nonneg
    have within := within.mono target (show (1 : ℚ) / 2 ^ 49 ≤ 1 / 2 ^ 47 by norm_num)
      (show (1 : ℚ) / 2 ≤ 3 / 4 by norm_num)
    rw [Nat.cast_pow, Nat.cast_ofNat] at within
    refine ⟨c, hc, ?_, within⟩
    simp only [if_pos (Int.ofNat_le.mpr small), Int.natAbs_natCast, power]
    rw [Double.ofNat, product, Double.isInfinite_of_finite hc]
    rfl
  · have none : n = 0 := by
      by_contra some
      have grown : 10 ^ (greatestPower + 1) ≤ 10 ^ k :=
        pow_le_pow_right₀ (by decide) (Nat.lt_of_not_le small)
      have beyond : 10 ^ k ≤ n * 10 ^ k := Nat.le_mul_of_pos_left _ (Nat.pos_of_ne_zero some)
      have limit : safeMagnitude < 10 ^ (greatestPower + 1) := by decide +kernel
      exact absurd (grown.trans (beyond.trans range)) (Nat.not_le.mpr limit)
    refine ⟨0, by decide, ?_, ?_⟩
    · simp only [if_neg (mt Int.ofNat_le.mp small), none]
      rfl
    · have zero : doubleFormat.quanta 0 = 0 := by decide
      rw [zero, none, Nat.cast_zero, zero_mul, zero_mul]
      exact within_zero (by norm_num) le_rfl (by norm_num)

/-- Scaling by a power of ten up to the safe magnitude gives a finite double that is close. -/
theorem scaleToDouble_within {n : Nat} {e : Int} (few : n < 2 ^ 64)
    (range : (n : ℚ) * 10 ^ e ≤ safeMagnitude) :
    ∃ c < doubleFormat.infinity, scaleToDouble n e = .ok (.ofCode c) ∧
      Within (1 / 2 ^ 47) (3 / 4) (doubleFormat.quanta c) (n * 10 ^ e * unit) := by
  cases e with
  | ofNat k =>
    rw [Int.ofNat_eq_natCast, zpow_natCast] at range ⊢
    exact scaleToDouble_natural few (by exact_mod_cast range)
  | negSucc k =>
    have value : (n : ℚ) * 10 ^ Int.negSucc k * unit = n * unit / 10 ^ (k + 1) := by
      rw [zpow_negSucc]
      ring
    rw [value]
    exact scaleToDouble_negative few

end Json

end VisualIndex
