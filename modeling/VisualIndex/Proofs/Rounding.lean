import Mathlib.Order.Monotone.Basic
import Mathlib.Tactic.Linarith
import Mathlib.Tactic.Ring
import VisualIndex.Number.Double

/-! Rounding to the nearest code.

The values of neighbouring codes differ by a power of two, so codes and values are ordered
alike, and between two neighbours lies one midpoint. A quotient rounds to a code or below it
exactly if it lies below the midpoint above that code, the midpoint itself going to the even
neighbour. All else that is said of rounding follows from that: it is monotone, it leaves
the values of codes alone, and its relative error is at most half a unit in the last place
of a normal number. -/
namespace VisualIndex

/-- The nearest integer is off by at most a half, and where it is a half, it is even. -/
theorem nearestEven_spec (num : Nat) {den : Nat} (pos : 0 < den) :
    2 * num ≤ (2 * nearestEven num den + 1) * den ∧
    2 * nearestEven num den * den ≤ 2 * num + den ∧
    (2 * num = (2 * nearestEven num den + 1) * den ∨
      2 * nearestEven num den * den = 2 * num + den → nearestEven num den % 2 = 0) := by
  have parts := Nat.div_add_mod num den
  have rest := Nat.mod_lt num pos
  unfold nearestEven
  generalize num / den = whole at *
  generalize num % den = r at *
  subst parts
  dsimp only
  split
  · refine ⟨by linarith, by linarith, ?_⟩
    rintro (tie | tie) <;> linarith
  · split
    · refine ⟨by linarith, by linarith, ?_⟩
      rintro (tie | tie) <;> linarith
    · have half : 2 * r = den := by omega
      rcases Nat.mod_two_eq_zero_or_one whole with even | odd
      · rw [even]
        exact ⟨by linarith, by linarith, fun _ => by omega⟩
      · rw [odd]
        exact ⟨by linarith, by linarith, fun _ => by omega⟩

namespace Format

variable (f : Format)

/-- The power of two by which the value grows from a code to the next. -/
def spacing (c : Nat) : Nat := c / 2 ^ f.fractionBits - 1

/-- The midpoint between the values of a code and of the next, in halves of a quantum. -/
def midpoint (c : Nat) : Nat := f.quanta c + f.quanta (c + 1)

theorem quanta_of_fraction {e m : Nat} (hm : m < 2 ^ f.fractionBits) :
    f.quanta (e * 2 ^ f.fractionBits + m) =
      if e = 0 then m else (2 ^ f.fractionBits + m) * 2 ^ (e - 1) := by
  have exponent : (e * 2 ^ f.fractionBits + m) / 2 ^ f.fractionBits = e := by
    rw [Nat.add_comm, Nat.add_mul_div_right _ _ (Nat.two_pow_pos _), Nat.div_eq_of_lt hm,
      Nat.zero_add]
  have fraction : (e * 2 ^ f.fractionBits + m) % 2 ^ f.fractionBits = m := by
    rw [Nat.add_comm, Nat.add_mul_mod_self_right, Nat.mod_eq_of_lt hm]
  simp only [quanta, exponent, fraction]

theorem quanta_succ (c : Nat) : f.quanta (c + 1) = f.quanta c + 2 ^ f.spacing c := by
  have parts := Nat.div_add_mod c (2 ^ f.fractionBits)
  have hm := Nat.mod_lt c (Nat.two_pow_pos f.fractionBits)
  have split_code : c = c / 2 ^ f.fractionBits * 2 ^ f.fractionBits + c % 2 ^ f.fractionBits := by
    rw [Nat.mul_comm]
    exact parts.symm
  unfold spacing
  generalize c / 2 ^ f.fractionBits = e at *
  generalize c % 2 ^ f.fractionBits = m at *
  subst split_code
  by_cases inside : m + 1 < 2 ^ f.fractionBits
  · rw [Nat.add_assoc, quanta_of_fraction f inside, quanta_of_fraction f hm]
    cases e with
    | zero => rfl
    | succ e => simp only [Nat.add_one_ne_zero, if_false, Nat.add_one_sub_one]; ring
  · have last : m + 1 = 2 ^ f.fractionBits := by omega
    have next : e * 2 ^ f.fractionBits + m + 1 = (e + 1) * 2 ^ f.fractionBits + 0 := by
      rw [Nat.add_assoc, last]
      ring
    rw [next, quanta_of_fraction f (Nat.two_pow_pos _), quanta_of_fraction f hm]
    cases e with
    | zero =>
      simp only [Nat.zero_add, Nat.add_one_ne_zero, if_false, if_true, Nat.add_zero,
        Nat.add_one_sub_one, Nat.pow_zero, Nat.mul_one, Nat.zero_sub]
      omega
    | succ e =>
      simp only [Nat.add_one_ne_zero, if_false, Nat.add_one_sub_one, Nat.add_zero, pow_succ]
      rw [← last]
      ring

theorem quanta_strictMono : StrictMono f.quanta :=
  strictMono_nat_of_lt_succ fun c => by
    rw [f.quanta_succ]
    exact Nat.lt_add_of_pos_right (Nat.two_pow_pos _)

theorem midpoint_strictMono : StrictMono f.midpoint := fun _ _ below =>
  Nat.add_lt_add (f.quanta_strictMono below) (f.quanta_strictMono (Nat.succ_lt_succ below))

theorem midpoint_pos (c : Nat) : 0 < f.midpoint c := by
  have step := Nat.two_pow_pos (f.spacing c)
  rw [midpoint, quanta_succ]
  omega

/-- The code nearest to a quotient if there were no largest one. -/
def unboundedRound (num den : Nat) : Nat :=
  let shift := (num / den).log2 - f.fractionBits
  shift * 2 ^ f.fractionBits + nearestEven num (den * 2 ^ shift)

theorem round_eq_min (num den : Nat) :
    f.round num den = min (f.unboundedRound num den) f.infinity := rfl

/-- The shift brings a quotient into the range of the fractions. -/
theorem shift_range (num : Nat) {den : Nat} (pos : 0 < den) :
    let shift := (num / den).log2 - f.fractionBits
    num < den * 2 ^ shift * 2 ^ (f.fractionBits + 1) ∧
      (0 < shift → den * 2 ^ shift * 2 ^ f.fractionBits ≤ num) := by
  intro shift
  have above : num / den < 2 ^ (shift + (f.fractionBits + 1)) :=
    Nat.lt_of_lt_of_le Nat.lt_log2_self (Nat.pow_le_pow_right (by decide) (by omega))
  refine ⟨?_, ?_⟩
  · rw [Nat.mul_assoc, ← Nat.pow_add, Nat.mul_comm]
    exact (Nat.div_lt_iff_lt_mul pos).mp above
  · intro shifted
    have log : (num / den).log2 = shift + f.fractionBits := by omega
    have nonzero : num / den ≠ 0 := by
      intro zero
      rw [zero, Nat.log2_zero] at log
      omega
    have below := Nat.log2_self_le nonzero
    rw [log, Nat.le_div_iff_mul_le pos] at below
    rw [Nat.mul_assoc, ← Nat.pow_add, Nat.mul_comm]
    exact below

theorem quanta_of_shift {shift n : Nat} (low : 0 < shift → 2 ^ f.fractionBits ≤ n)
    (high : n ≤ 2 ^ (f.fractionBits + 1)) :
    f.quanta (shift * 2 ^ f.fractionBits + n) = n * 2 ^ shift := by
  by_cases small : n < 2 ^ f.fractionBits
  · have unshifted : shift = 0 := by
      by_contra shifted
      exact absurd (low (Nat.pos_of_ne_zero shifted)) (by omega)
    rw [quanta_of_fraction f small, if_pos unshifted, unshifted]
    ring
  · obtain ⟨m, rfl⟩ := Nat.exists_eq_add_of_le (Nat.le_of_not_lt small)
    rw [pow_succ] at high
    by_cases inside : m < 2 ^ f.fractionBits
    · rw [← Nat.add_assoc, ← Nat.succ_mul, quanta_of_fraction f inside]
      rfl
    · have last : m = 2 ^ f.fractionBits := by omega
      have code : shift * 2 ^ f.fractionBits + (2 ^ f.fractionBits + m) =
          (shift + 2) * 2 ^ f.fractionBits + 0 := by
        rw [last]
        ring
      rw [code, quanta_of_fraction f (Nat.two_pow_pos _), last, if_neg (by omega)]
      simp only [Nat.add_zero, Nat.add_one_sub_one, pow_succ]
      ring

section Shifted
variable {shift n : Nat} (low : 0 < shift → 2 ^ f.fractionBits ≤ n)
  (high : n ≤ 2 ^ (f.fractionBits + 1))
include low high

theorem le_midpoint_of_shift :
    (2 * n + 1) * 2 ^ shift ≤ f.midpoint (shift * 2 ^ f.fractionBits + n) := by
  have wide : shift ≤ f.spacing (shift * 2 ^ f.fractionBits + n) := by
    rcases Nat.eq_zero_or_pos shift with unshifted | shifted
    · rw [unshifted]
      exact Nat.zero_le _
    · have := (Nat.le_div_iff_mul_le (Nat.two_pow_pos f.fractionBits)).mpr
        (show (shift + 1) * 2 ^ f.fractionBits ≤ shift * 2 ^ f.fractionBits + n by
          rw [Nat.succ_mul]
          exact Nat.add_le_add_left (low shifted) _)
      unfold spacing
      omega
  have grown : 2 ^ shift ≤ 2 ^ f.spacing (shift * 2 ^ f.fractionBits + n) :=
    Nat.pow_le_pow_right (by decide) wide
  rw [midpoint, quanta_succ, f.quanta_of_shift low high]
  linarith

/-- Below the first fraction of a shifted range the codes stand closer. -/
theorem midpoint_below_of_shift {c : Nat} (next : c + 1 = shift * 2 ^ f.fractionBits + n) :
    f.midpoint c + 2 ^ shift = 2 * n * 2 ^ shift ∨
      f.midpoint c < 2 * n * 2 ^ shift ∧ 0 < shift ∧ n = 2 ^ f.fractionBits := by
  have value := f.quanta_succ c
  rw [next, f.quanta_of_shift low high] at value
  have middle : f.midpoint c + 2 ^ f.spacing c = 2 * n * 2 ^ shift := by
    rw [midpoint, next, f.quanta_of_shift low high]
    linarith
  by_cases first : 0 < shift ∧ n = 2 ^ f.fractionBits
  · refine Or.inr ⟨?_, first⟩
    rw [← middle]
    exact Nat.lt_add_of_pos_right (Nat.two_pow_pos _)
  · have same : f.spacing c = shift := by
      rw [pow_succ] at high
      unfold spacing
      rcases Nat.eq_zero_or_pos shift with unshifted | shifted
      · have : c / 2 ^ f.fractionBits < 2 := by
          rw [Nat.div_lt_iff_lt_mul (Nat.two_pow_pos _)]
          rw [unshifted] at next
          omega
        omega
      · have inside : 2 ^ f.fractionBits < n := by
          have := low shifted
          omega
        have exponent : c / 2 ^ f.fractionBits = shift + 1 := by
          apply Nat.div_eq_of_lt_le
          · rw [Nat.succ_mul]
            omega
          · rw [Nat.succ_mul, Nat.succ_mul]
            omega
        omega
    rw [same] at middle
    exact Or.inl middle

end Shifted

/-- A quotient lies between the midpoints below and above its code, and on one of them only
if the code is even. -/
theorem unboundedRound_spec (fraction : 0 < f.fractionBits) (num : Nat) {den : Nat}
    (pos : 0 < den) :
    2 * num ≤ f.midpoint (f.unboundedRound num den) * den ∧
    (∀ c, c + 1 = f.unboundedRound num den → f.midpoint c * den ≤ 2 * num) ∧
    ((2 * num = f.midpoint (f.unboundedRound num den) * den ∨
      ∃ c, c + 1 = f.unboundedRound num den ∧ f.midpoint c * den = 2 * num) →
      f.unboundedRound num den % 2 = 0) := by
  obtain ⟨below, above⟩ := f.shift_range num pos
  dsimp only [unboundedRound]
  generalize (num / den).log2 - f.fractionBits = shift at *
  obtain ⟨upper, lower, even⟩ := nearestEven_spec num (Nat.mul_pos pos (Nat.two_pow_pos shift))
  generalize nearestEven num (den * 2 ^ shift) = n at *
  have low : 0 < shift → 2 ^ f.fractionBits ≤ n := by
    intro shifted
    have := above shifted
    by_contra small
    nlinarith [Nat.mul_pos pos (Nat.two_pow_pos shift)]
  have high : n ≤ 2 ^ (f.fractionBits + 1) := by
    by_contra large
    nlinarith [Nat.mul_pos pos (Nat.two_pow_pos shift)]
  have parity : (shift * 2 ^ f.fractionBits + n) % 2 = n % 2 := by
    obtain ⟨k, hk⟩ := Nat.exists_eq_add_of_le fraction
    rw [hk, Nat.add_comm _ k, pow_succ, ← Nat.mul_assoc]
    omega
  have upper_bound := Nat.mul_le_mul_right den (f.le_midpoint_of_shift low high)
  refine ⟨by linarith, ?_, ?_⟩
  · intro c next
    rcases f.midpoint_below_of_shift low high next with middle | ⟨closer, shifted, first⟩
    · nlinarith
    · have := above shifted
      rw [first] at closer
      nlinarith
  · rw [parity]
    rintro (tie | ⟨c, next, tie⟩)
    · exact even (Or.inl (by linarith))
    · rcases f.midpoint_below_of_shift low high next with middle | ⟨closer, shifted, first⟩
      · exact even (Or.inr (by nlinarith))
      · have := above shifted
        rw [first] at closer
        nlinarith

/-- Rounding stays at or below a code exactly if the quotient is below the midpoint above
the code, the midpoint itself going to an even code. -/
theorem round_le_iff (fraction : 0 < f.fractionBits) {num den c : Nat} (pos : 0 < den)
    (finite : c < f.infinity) : f.round num den ≤ c ↔
      2 * num < f.midpoint c * den ∨ 2 * num = f.midpoint c * den ∧ c % 2 = 0 := by
  obtain ⟨upper, lower, even⟩ := f.unboundedRound_spec fraction num pos
  have bounded : f.round num den ≤ c ↔ f.unboundedRound num den ≤ c := by
    rw [round_eq_min]
    omega
  rw [bounded]
  generalize f.unboundedRound num den = r at *
  constructor
  · intro within
    rcases Nat.lt_or_eq_of_le within with less | rfl
    · have := Nat.mul_lt_mul_of_pos_right (f.midpoint_strictMono less) pos
      exact Or.inl (by omega)
    · rcases Nat.lt_or_eq_of_le upper with less | tie
      · exact Or.inl less
      · exact Or.inr ⟨tie, even (Or.inl tie)⟩
  · intro inside
    by_contra beyond
    obtain ⟨k, rfl⟩ := Nat.exists_eq_add_of_lt (Nat.lt_of_not_le beyond)
    have above := lower (c + k) rfl
    have order : f.midpoint c * den ≤ f.midpoint (c + k) * den :=
      Nat.mul_le_mul_right _ (f.midpoint_strictMono.monotone (Nat.le_add_right c k))
    rcases inside with less | ⟨tie, even_code⟩
    · omega
    · have same : f.midpoint (c + k) * den = 2 * num := by omega
      have odd := even (Or.inr ⟨c + k, rfl, same⟩)
      have equal : f.midpoint (c + k) = f.midpoint c :=
        Nat.eq_of_mul_eq_mul_right pos (by omega)
      have := f.midpoint_strictMono.injective equal
      omega

theorem round_le_infinity (num den : Nat) : f.round num den ≤ f.infinity := by
  rw [round_eq_min]
  exact Nat.min_le_right _ _

/-- A greater quotient rounds to a greater code or to the same. -/
theorem round_mono (fraction : 0 < f.fractionBits) {num den num' den' : Nat} (pos : 0 < den)
    (pos' : 0 < den') (order : num * den' ≤ num' * den) :
    f.round num den ≤ f.round num' den' := by
  rcases Nat.lt_or_eq_of_le (f.round_le_infinity num' den') with finite | infinite
  · have inside := (f.round_le_iff fraction pos' finite).mp (Nat.le_refl _)
    rw [f.round_le_iff fraction pos finite]
    generalize f.midpoint (f.round num' den') = m at *
    generalize f.round num' den' = c at *
    have scaled : 2 * num * den' ≤ 2 * num' * den := by linarith
    rcases inside with less | ⟨tie, even⟩
    · left
      have := Nat.mul_lt_mul_of_pos_right less pos
      exact Nat.lt_of_mul_lt_mul_right (a := den') (by linarith)
    · have : 2 * num * den' ≤ m * den * den' := by
        rw [tie] at scaled
        linarith
      rcases Nat.lt_or_eq_of_le (Nat.le_of_mul_le_mul_right this pos') with less | equal
      · exact Or.inl less
      · exact Or.inr ⟨equal, even⟩
  · rw [infinite]
    exact f.round_le_infinity _ _

/-- Equal quotients round alike. -/
theorem round_congr (fraction : 0 < f.fractionBits) {num den num' den' : Nat} (pos : 0 < den)
    (pos' : 0 < den') (same : num * den' = num' * den) : f.round num den = f.round num' den' :=
  Nat.le_antisymm (f.round_mono fraction pos pos' same.le) (f.round_mono fraction pos' pos same.ge)

/-- The value of a code rounds to the code. -/
theorem round_quanta (fraction : 0 < f.fractionBits) {c den : Nat} (pos : 0 < den)
    (finite : c < f.infinity) : f.round (f.quanta c * den) den = c := by
  apply Nat.le_antisymm
  · rw [f.round_le_iff fraction pos finite]
    left
    have := Nat.mul_lt_mul_of_pos_right (f.quanta_strictMono (Nat.lt_succ_self c)) pos
    rw [midpoint]
    linarith
  · by_contra below
    obtain ⟨k, hk⟩ := Nat.exists_eq_add_of_lt (Nat.lt_of_not_le below)
    have within := (f.round_le_iff fraction pos (c := f.round (f.quanta c * den) den + k)
      (by omega)).mp (Nat.le_add_right _ k)
    rw [midpoint, ← hk] at within
    have := Nat.mul_lt_mul_of_pos_right (f.quanta_strictMono
      (show f.round (f.quanta c * den) den + k < c by omega)) pos
    rcases within with less | ⟨tie, -⟩ <;> linarith

theorem ofNat_mono (fraction : 0 < f.fractionBits) {m n : Nat} (order : m ≤ n) :
    f.ofNat m ≤ f.ofNat n :=
  f.round_mono fraction Nat.one_pos Nat.one_pos
    (Nat.mul_le_mul_right _ (Nat.mul_le_mul_right _ order))

/-- A number with few enough significant bits is the value of a code. -/
theorem exists_code {m k : Nat} (digits : m < 2 ^ (f.fractionBits + 1))
    (range : k + 2 < 2 ^ f.exponentBits) : ∃ c < f.infinity, f.quanta c = m * 2 ^ k := by
  induction k generalizing m with
  | zero =>
    have room := Nat.mul_le_mul_right (2 ^ f.fractionBits)
      (show 2 ≤ 2 ^ f.exponentBits - 1 by omega)
    rw [pow_succ, Nat.mul_comm] at digits
    have value : f.quanta (0 * 2 ^ f.fractionBits + m) = m * 2 ^ 0 := by
      refine f.quanta_of_shift (fun shifted => absurd shifted (by decide)) ?_
      rw [pow_succ, Nat.mul_comm]
      exact digits.le
    rw [Nat.zero_mul, Nat.zero_add] at value
    exact ⟨m, Nat.lt_of_lt_of_le digits room, value⟩
  | succ k ih =>
    by_cases long : 2 ^ f.fractionBits ≤ m
    · refine ⟨(k + 1) * 2 ^ f.fractionBits + m, ?_, f.quanta_of_shift (fun _ => long) digits.le⟩
      have room := Nat.mul_le_mul_right (2 ^ f.fractionBits)
        (show k + 3 ≤ 2 ^ f.exponentBits - 1 by omega)
      rw [pow_succ] at digits
      unfold infinity
      linarith
    · rw [pow_succ] at digits ih
      obtain ⟨c, finite, value⟩ := ih (m := 2 * m) (by omega) (by omega)
      refine ⟨c, finite, ?_⟩
      rw [value, pow_succ]
      ring

/-- Rounding keeps a number that has few enough significant bits. -/
theorem ofNat_spec (fraction : 0 < f.fractionBits) {m k : Nat}
    (digits : m < 2 ^ (f.fractionBits + 1)) (range : k + f.unitShift + 2 < 2 ^ f.exponentBits) :
    f.ofNat (m * 2 ^ k) < f.infinity ∧
      f.quanta (f.ofNat (m * 2 ^ k)) = m * 2 ^ k * 2 ^ f.unitShift := by
  obtain ⟨c, finite, value⟩ := f.exists_code digits range
  rw [Nat.pow_add, ← Nat.mul_assoc] at value
  have rounded := f.round_quanta fraction Nat.one_pos finite
  rw [value, Nat.mul_one] at rounded
  rw [ofNat, rounded]
  exact ⟨finite, value⟩

/-- A quotient that is at most the value of a code rounds to this code or below it. -/
theorem round_le_of_le (fraction : 0 < f.fractionBits) {num den c : Nat} (pos : 0 < den)
    (finite : c < f.infinity) (bounded : num ≤ f.quanta c * den) : f.round num den ≤ c := by
  have grown := f.round_mono fraction pos pos (Nat.mul_le_mul_right den bounded)
  rwa [f.round_quanta fraction pos finite] at grown

/-- A quotient below a power of two that is in range rounds to a finite code. -/
theorem round_lt_infinity (fraction : 0 < f.fractionBits) {num den k : Nat} (pos : 0 < den)
    (range : k + 2 < 2 ^ f.exponentBits) (bounded : num ≤ 2 ^ k * den) :
    f.round num den < f.infinity := by
  obtain ⟨c, finite, value⟩ := f.exists_code (m := 1) (Nat.one_lt_two_pow (by omega)) range
  rw [Nat.one_mul] at value
  rw [← value] at bounded
  exact (f.round_le_of_le fraction pos finite bounded).trans_lt finite

/-- Beyond the first fractions, codes stand close in relation to their values. -/
theorem spacing_le_quanta {c : Nat} (normal : 2 ^ f.fractionBits ≤ c) :
    2 ^ f.fractionBits * 2 ^ f.spacing c ≤ f.quanta c := by
  have exponent : c / 2 ^ f.fractionBits ≠ 0 := by
    have := (Nat.le_div_iff_mul_le (Nat.two_pow_pos f.fractionBits)).mpr
      (show 1 * 2 ^ f.fractionBits ≤ c by omega)
    omega
  simp only [quanta, spacing, if_neg exponent]
  exact Nat.mul_le_mul_right _ (Nat.le_add_right _ _)

theorem quanta_of_le {n : Nat} (low : n ≤ 2 ^ (f.fractionBits + 1)) : f.quanta n = n := by
  have value := f.quanta_of_shift (fun shifted => absurd shifted (Nat.lt_irrefl 0)) low
  rw [Nat.zero_mul, Nat.zero_add, Nat.pow_zero, Nat.mul_one] at value
  exact value

theorem le_midpoint_round (fraction : 0 < f.fractionBits) {num den : Nat} (pos : 0 < den)
    (finite : f.round num den < f.infinity) : 2 * num ≤ f.midpoint (f.round num den) * den := by
  rcases (f.round_le_iff fraction pos finite).mp (Nat.le_refl _) with less | ⟨tie, -⟩
  · exact less.le
  · exact tie.le

/-- A quotient lies between the midpoints beside the code that it rounds to. -/
theorem between_midpoints (fraction : 0 < f.fractionBits) {num den k : Nat} (pos : 0 < den)
    (finite : f.round num den < f.infinity) (code : f.round num den = k + 1) :
    f.midpoint k * den ≤ 2 * num ∧ 2 * num ≤ f.midpoint (k + 1) * den := by
  constructor
  · by_contra inside
    have := (f.round_le_iff fraction pos (by omega)).mpr (Or.inl (Nat.lt_of_not_le inside))
    omega
  · rw [← code]
    exact f.le_midpoint_round fraction pos finite

/-- A quotient that is no less than the least normal number rounds to a normal code. -/
theorem le_round_of_normal (fraction : 0 < f.fractionBits) {num den : Nat} (pos : 0 < den)
    (normal : 2 ^ f.fractionBits * den ≤ num) (finite : f.round num den < f.infinity) :
    2 ^ f.fractionBits ≤ f.round num den := by
  by_contra below
  have within := f.le_midpoint_round fraction pos finite
  have low : f.midpoint (f.round num den) < 2 * 2 ^ f.fractionBits := by
    rw [midpoint, f.quanta_of_le (by rw [pow_succ]; omega),
      f.quanta_of_le (by rw [pow_succ]; omega)]
    omega
  have := Nat.mul_lt_mul_of_pos_right low pos
  linarith

theorem spacing_mono {c d : Nat} (order : c ≤ d) : f.spacing c ≤ f.spacing d :=
  Nat.sub_le_sub_right (Nat.div_le_div_right order) 1

/-- The relative error of rounding. -/
theorem round_error (fraction : 0 < f.fractionBits) {num den : Nat} (pos : 0 < den)
    (normal : 2 ^ f.fractionBits * den ≤ num) (finite : f.round num den < f.infinity) :
    2 ^ (f.fractionBits + 1) * num ≤
      (2 ^ (f.fractionBits + 1) + 1) * (f.quanta (f.round num den) * den) ∧
    (2 ^ (f.fractionBits + 1) - 1) * (f.quanta (f.round num den) * den) ≤
      2 ^ (f.fractionBits + 1) * num := by
  have close := f.spacing_le_quanta (f.le_round_of_normal fraction pos normal finite)
  have first := Nat.two_pow_pos f.fractionBits
  obtain ⟨k, code⟩ : ∃ k, f.round num den = k + 1 :=
    Nat.exists_eq_succ_of_ne_zero
      (first.trans_le (f.le_round_of_normal fraction pos normal finite)).ne'
  obtain ⟨beyond, within⟩ := f.between_midpoints fraction pos finite code
  have denser : 2 ^ f.spacing k ≤ 2 ^ f.spacing (k + 1) :=
    Nat.pow_le_pow_right (by decide) (f.spacing_mono k.le_succ)
  have step := f.quanta_succ k
  rw [midpoint, f.quanta_succ (k + 1)] at within
  rw [midpoint] at beyond
  rw [code] at close ⊢
  generalize f.quanta (k + 1) = q at *
  generalize 2 ^ f.spacing (k + 1) = wide at *
  generalize 2 ^ f.spacing k = narrow at *
  rw [pow_succ]
  generalize 2 ^ f.fractionBits = w at *
  have wide_den := Nat.mul_le_mul_right den close
  have narrow_den := Nat.mul_le_mul_right den (Nat.mul_le_mul_left w denser)
  constructor
  · have := Nat.mul_le_mul_left w within
    linarith
  · have := Nat.mul_le_mul_left w beyond
    have := congrArg (w * · * den) step
    have unit : (w * 2 - 1) * (q * den) + q * den = w * 2 * (q * den) := by
      rw [← Nat.succ_mul, Nat.succ_eq_add_one, Nat.sub_add_cancel (by omega)]
    linarith

/-- Below the least normal number rounding is off by at most half a quantum. -/
theorem round_error_of_small {num den : Nat} (pos : 0 < den)
    (small : num < 2 ^ f.fractionBits * den) (finite : f.round num den < f.infinity) :
    2 * num ≤ (2 * f.quanta (f.round num den) + 1) * den ∧
    2 * f.quanta (f.round num den) * den ≤ 2 * num + den := by
  have fraction : num / den < 2 ^ f.fractionBits := (Nat.div_lt_iff_lt_mul pos).mpr small
  have unshifted : (num / den).log2 - f.fractionBits = 0 := by
    rcases Nat.eq_zero_or_pos (num / den) with none | some
    · rw [none, Nat.log2_zero, Nat.zero_sub]
    · exact Nat.sub_eq_zero_of_le ((Nat.log2_lt some.ne').mpr fraction).le
  have nearest : f.round num den = nearestEven num den := by
    have code : f.unboundedRound num den = nearestEven num den := by
      simp only [unboundedRound, unshifted, Nat.zero_mul, Nat.zero_add, Nat.pow_zero, Nat.mul_one]
    rw [round_eq_min, code] at finite ⊢
    omega
  obtain ⟨below, above, -⟩ := nearestEven_spec num pos
  have low : nearestEven num den ≤ 2 ^ (f.fractionBits + 1) := by
    rw [pow_succ]
    by_contra beyond
    have := Nat.mul_lt_mul_of_pos_right (Nat.lt_of_not_le beyond) pos
    have := Nat.mul_le_mul_right den (Nat.one_le_two_pow (n := f.fractionBits))
    linarith
  rw [nearest, f.quanta_of_le low]
  exact ⟨below, above⟩

@[simp] theorem pack_false (c : Nat) : f.pack false c = c := by
  rw [pack, if_neg (by decide)]

theorem infinity_lt_signWeight : f.infinity < f.signWeight := by
  rw [infinity, signWeight, Nat.add_comm, Nat.pow_add]
  exact Nat.mul_lt_mul_of_pos_right (Nat.sub_lt (Nat.two_pow_pos _) Nat.one_pos)
    (Nat.two_pow_pos _)

/-- The sign and the magnitude code of an encoding are found in it again. -/
theorem pack_parts (negative : Bool) {c : Nat} (inside : c < f.signWeight) :
    f.pack negative c % f.signWeight = c ∧
      decide (f.pack negative c / f.signWeight % 2 = 1) = negative := by
  cases negative with
  | false => exact ⟨Nat.mod_eq_of_lt inside, by simp [pack, Nat.div_eq_of_lt inside]⟩
  | true =>
    have weight := Nat.lt_of_le_of_lt (Nat.zero_le c) inside
    exact ⟨(Nat.add_mod_left _ _).trans (Nat.mod_eq_of_lt inside),
      by simp [pack, Nat.add_div_left _ weight, Nat.div_eq_of_lt inside]⟩

/-- What the encoding of a sign and a magnitude code stands for. -/
theorem decode_pack (negative : Bool) {c : Nat} (bounded : c ≤ f.infinity) :
    f.decode (f.pack negative c) =
      if c = f.infinity then .infinite negative else .finite negative (f.quanta c) := by
  have inside := Nat.lt_of_le_of_lt bounded f.infinity_lt_signWeight
  obtain ⟨code, sign⟩ := f.pack_parts negative inside
  simp only [decode, code, sign, if_neg (Nat.not_lt.mpr bounded)]

theorem pack_lt_of_inside (negative : Bool) {c : Nat} (inside : c < f.signWeight) :
    f.pack negative c < 2 * f.signWeight := by
  cases negative <;> simp only [pack, if_true, Bool.false_eq_true, if_false] <;> omega

theorem pack_lt (negative : Bool) {c : Nat} (bounded : c ≤ f.infinity) :
    f.pack negative c < 2 * f.signWeight :=
  f.pack_lt_of_inside negative (Nat.lt_of_le_of_lt bounded f.infinity_lt_signWeight)

end Format

namespace Single

theorem datum_ofCode (negative : Bool) {c : Nat} (bounded : c ≤ singleFormat.infinity) :
    (ofCode (singleFormat.pack negative c)).datum =
      if c = singleFormat.infinity then .infinite negative
      else .finite negative (singleFormat.quanta c) := by
  rw [datum, ofCode, UInt32.toNat_ofNat_of_lt' (singleFormat.pack_lt negative bounded)]
  exact singleFormat.decode_pack negative bounded

section Codes
variable {c d : Nat} (hc : c ≤ singleFormat.infinity) (hd : d ≤ singleFormat.infinity)
include hc

theorem toNat_ofCode : (ofCode c).bits.toNat = c := by
  have bound : singleFormat.infinity < UInt32.size := by decide
  exact UInt32.toNat_ofNat_of_lt' (by omega)

theorem magnitude_ofCode : (ofCode c).magnitude = c := by
  have bound : singleFormat.infinity < 2 ^ 31 := by decide
  rw [magnitude, toNat_ofCode hc, Nat.mod_eq_of_lt (by omega)]

theorem isNaN_ofCode : (ofCode c).isNaN = false := by
  rw [isNaN, magnitude_ofCode hc]
  exact decide_eq_false (Nat.not_lt.mpr hc)

theorem isNegative_ofCode : (ofCode c).isNegative = false := by
  have bound : singleFormat.infinity < 2 ^ 31 := by decide
  rw [isNegative, toNat_ofCode hc]
  exact decide_eq_false (by omega)

theorem key_ofCode : (ofCode c).key = c := by
  rw [key, isNegative_ofCode hc, magnitude_ofCode hc]
  rfl

include hd in
theorem ge_ofCode : (ofCode c).ge (ofCode d) = decide (d ≤ c) := by
  simp [ge, isNaN_ofCode hc, isNaN_ofCode hd, key_ofCode hc, key_ofCode hd]

end Codes

end Single

theorem Double.datum_ofCode (negative : Bool) {c : Nat} (bounded : c ≤ doubleFormat.infinity) :
    (Double.ofCode (doubleFormat.pack negative c)).datum =
      if c = doubleFormat.infinity then .infinite negative
      else .finite negative (doubleFormat.quanta c) := by
  rw [datum, ofCode, UInt64.toNat_ofNat_of_lt' (doubleFormat.pack_lt negative bounded)]
  exact doubleFormat.decode_pack negative bounded

/-- A finite code without its sign bit is a number that is not negative. -/
theorem Double.datum_of_finite {c : Nat} (finite : c < doubleFormat.infinity) :
    (ofCode c).datum = .finite false (doubleFormat.quanta c) := by
  have value := datum_ofCode false finite.le
  rw [if_neg finite.ne, Format.pack_false] at value
  exact value

end VisualIndex
