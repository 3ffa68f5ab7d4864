import VisualIndex.Number.Exponential
import VisualIndex.Proofs.Ranks

/-! What voting weights ask of an exponential.

How near an exponential comes to the true one is left open. Weights need what it is at zero
and at either thing that is not a finite number, that no number goes below zero, and that the
order of numbers is kept. The series meets this, since each of its floors is monotone. -/
namespace VisualIndex

theorem exponentialSeries_mono {u v : Nat} (order : u ≤ v) (k terms : Nat) :
    exponentialSeries u k terms ≤ exponentialSeries v k terms := by
  induction terms generalizing k with
  | zero => exact Nat.le_refl _
  | succ terms ih =>
    exact Nat.add_le_add_left (Nat.div_le_div_right (Nat.mul_le_mul order (ih (k + 1)))) _

theorem squareRepeatedly_mono (times : Nat) {x y : Nat} (order : x ≤ y) :
    squareRepeatedly times x ≤ squareRepeatedly times y := by
  induction times generalizing x y with
  | zero => exact order
  | succ times ih => exact ih (Nat.div_le_div_right (Nat.mul_le_mul order order))

theorem growth_mono {t u : Nat} (order : t ≤ u) : growth t ≤ growth u :=
  squareRepeatedly_mono 8 (exponentialSeries_mono (Nat.div_le_div_right order) 1 40)

theorem exponentialSeries_zero (k terms : Nat) :
    exponentialSeries 0 k terms = 2 ^ workingBits := by
  cases terms with
  | zero => rfl
  | succ terms => rw [exponentialSeries, Nat.zero_mul, Nat.zero_div, Nat.add_zero]

theorem squareRepeatedly_one (times : Nat) :
    squareRepeatedly times (2 ^ workingBits) = 2 ^ workingBits := by
  induction times with
  | zero => rfl
  | succ times ih =>
    rw [squareRepeatedly, Nat.mul_div_cancel _ (Nat.two_pow_pos _)]
    exact ih

theorem growth_zero : growth 0 = 2 ^ workingBits := by
  rw [growth, Nat.zero_div, exponentialSeries_zero, squareRepeatedly_one]

theorem growth_pos (t : Nat) : 0 < growth t := by
  apply Nat.lt_of_lt_of_le (Nat.two_pow_pos workingBits)
  rw [← growth_zero]
  exact growth_mono (Nat.zero_le t)

namespace Single

/-- The laws of an exponential, with no bound on its error. -/
structure IsExponential (exp : Single → Single) : Prop where
  missing : ∀ x, x.isNaN = true → (exp x).isNaN = true
  bottom : exp (ofCode (singleFormat.pack true singleFormat.infinity)) = zero
  one : ∀ x, x.numEq zero = true → exp x = ⟨0x3f800000⟩
  number : ∀ x, x.isNaN = false → (exp x).isNaN = false
  nonnegative : ∀ x, x.isNaN = false → (exp x).ge zero = true
  mono : ∀ x y, x.ge y = true → (exp x).ge (exp y) = true

/-- The quanta of one. -/
def one : Nat := 2 ^ singleFormat.unitShift

/-- The code of the exponential of some quanta with a sign. -/
def exponentialCode (negative : Bool) (quanta : Nat) : Nat :=
  if 128 * one ≤ quanta then if negative then 0 else singleFormat.infinity
  else
    let e := growth (quanta * 2 ^ (workingBits - singleFormat.unitShift))
    if negative then singleFormat.round (2 ^ workingBits * one) e
    else singleFormat.round (e * one) (2 ^ workingBits)

section Codes
variable (negative : Bool) {quanta : Nat}

theorem exponentialCode_of_far (far : 128 * one ≤ quanta) :
    exponentialCode negative quanta = if negative then 0 else singleFormat.infinity := if_pos far

theorem exponentialCode_of_near (near : ¬ 128 * one ≤ quanta) :
    exponentialCode negative quanta =
      if negative then singleFormat.round (2 ^ workingBits * one)
        (growth (quanta * 2 ^ (workingBits - singleFormat.unitShift)))
      else singleFormat.round
        (growth (quanta * 2 ^ (workingBits - singleFormat.unitShift)) * one) (2 ^ workingBits) :=
  if_neg near

theorem exponentialCode_le_infinity :
    exponentialCode negative quanta ≤ singleFormat.infinity := by
  by_cases far : 128 * one ≤ quanta
  · rw [exponentialCode_of_far negative far]
    split
    · exact Nat.zero_le _
    · exact Nat.le_refl _
  · rw [exponentialCode_of_near negative far]
    split <;> exact singleFormat.round_le_infinity _ _

theorem exponentialCode_zero : exponentialCode negative 0 = 0x3f800000 := by
  have value : 2 ^ workingBits * one = singleFormat.quanta 0x3f800000 * 2 ^ workingBits := by
    decide
  rw [exponentialCode_of_near negative (by decide), Nat.zero_mul, growth_zero, value, ite_self]
  exact singleFormat.round_quanta (by decide) (Nat.two_pow_pos _) (by decide)

end Codes

theorem exponentialCode_falls {a b : Nat} (order : a ≤ b) :
    exponentialCode true b ≤ exponentialCode true a := by
  by_cases far : 128 * one ≤ b
  · rw [exponentialCode_of_far true far]
    exact Nat.zero_le _
  · rw [exponentialCode_of_near true far,
      exponentialCode_of_near true fun beyond => far (beyond.trans order), if_pos rfl, if_pos rfl]
    apply singleFormat.round_mono (by decide) (growth_pos _) (growth_pos _)
    exact Nat.mul_le_mul_left _ (growth_mono (Nat.mul_le_mul_right _ order))

theorem exponentialCode_rises {a b : Nat} (order : a ≤ b) :
    exponentialCode false a ≤ exponentialCode false b := by
  by_cases far : 128 * one ≤ b
  · rw [exponentialCode_of_far false far]
    exact exponentialCode_le_infinity false
  · rw [exponentialCode_of_near false far,
      exponentialCode_of_near false fun beyond => far (beyond.trans order),
      if_neg Bool.false_ne_true, if_neg Bool.false_ne_true]
    apply singleFormat.round_mono (by decide) (Nat.two_pow_pos _) (Nat.two_pow_pos _)
    exact Nat.mul_le_mul_right _ (Nat.mul_le_mul_right _
      (growth_mono (Nat.mul_le_mul_right _ order)))

/-- Numbers of one sign are compared by their quanta; between the signs is the one of zero. -/
theorem exponentialCode_mono {s t : Bool} {c d : Nat} (order : signed s c ≤ signed t d) :
    exponentialCode s (singleFormat.quanta c) ≤ exponentialCode t (singleFormat.quanta d) := by
  have grown {m n : Nat} (less : m ≤ n) : singleFormat.quanta m ≤ singleFormat.quanta n :=
    singleFormat.quanta_strictMono.monotone less
  have below (n : Nat) : exponentialCode true n ≤ 0x3f800000 := by
    rw [← exponentialCode_zero true]
    exact exponentialCode_falls (Nat.zero_le n)
  have above (n : Nat) : 0x3f800000 ≤ exponentialCode false n := by
    rw [← exponentialCode_zero false]
    exact exponentialCode_rises (Nat.zero_le n)
  cases s <;> cases t <;> simp only [signed_false, signed_true] at order
  · exact exponentialCode_rises (grown (by omega))
  · obtain rfl : c = 0 := by omega
    obtain rfl : d = 0 := by omega
    have none : singleFormat.quanta 0 = 0 := rfl
    rw [none, exponentialCode_zero, exponentialCode_zero]
  · exact (below _).trans (above _)
  · exact exponentialCode_falls (grown (by omega))

/-- Infinity is beyond the range, so it needs no case of its own. -/
theorem exp_ofCode (negative : Bool) {c : Nat} (bounded : c ≤ singleFormat.infinity) :
    (ofCode (singleFormat.pack negative c)).exp =
      ofCode (exponentialCode negative (singleFormat.quanta c)) := by
  have value := datum_ofCode negative bounded
  by_cases infinite : c = singleFormat.infinity
  · have far : 128 * one ≤ singleFormat.quanta c := by
      rw [infinite]
      decide
    rw [if_pos infinite] at value
    rw [exponentialCode_of_far negative far]
    simp only [exp, value]
    cases negative <;> rfl
  · rw [if_neg infinite] at value
    simp only [exp, value]
    by_cases far : 128 * one ≤ singleFormat.quanta c
    · rw [exponentialCode_of_far negative far]
      refine (if_pos far).trans ?_
      cases negative <;> rfl
    · rw [exponentialCode_of_near negative far]
      exact if_neg far

/-- The correctly rounded exponential is one. -/
theorem exp_isExponential : IsExponential exp where
  missing := by
    intro x missing
    obtain ⟨s, p, decoded⟩ := (isNaN_iff x).mp missing
    simp only [exp, decoded]
    exact isNaN_ofCode_quiet s p
  bottom := by decide
  one := by
    intro x equal
    obtain ⟨number, key⟩ : x.isNaN = false ∧ x.key = 0 := by
      simpa [numEq, show zero.isNaN = false from rfl, show zero.key = 0 from rfl] using equal
    obtain ⟨s, c, bounded, rfl⟩ := exists_ofCode number
    rw [← rank_of_number number, rank_ofCode s bounded] at key
    obtain rfl : c = 0 := by
      cases s <;> simp only [signed_false, signed_true] at key <;> omega
    rw [exp_ofCode s bounded]
    exact congrArg ofCode (exponentialCode_zero s)
  number := by
    intro x number
    obtain ⟨s, c, bounded, rfl⟩ := exists_ofCode number
    rw [exp_ofCode s bounded]
    exact isNaN_ofCode (exponentialCode_le_infinity _)
  nonnegative := by
    intro x number
    obtain ⟨s, c, bounded, rfl⟩ := exists_ofCode number
    rw [exp_ofCode s bounded]
    exact (ge_ofCode (exponentialCode_le_infinity _) (Nat.zero_le _)).trans
      (decide_eq_true (Nat.zero_le _))
  mono := by
    intro x y reaches
    obtain ⟨first, second, order⟩ := (ge_iff x y).mp reaches
    obtain ⟨s, c, hc, rfl⟩ := exists_ofCode first
    obtain ⟨t, d, hd, rfl⟩ := exists_ofCode second
    rw [rank_ofCode s hc, rank_ofCode t hd] at order
    rw [exp_ofCode s hc, exp_ofCode t hd,
      ge_ofCode (exponentialCode_le_infinity _) (exponentialCode_le_infinity _)]
    exact decide_eq_true (exponentialCode_mono order)

end Single

end VisualIndex
