import Mathlib.Data.Int.ConditionallyCompleteOrder
import VisualIndex.Proofs.Ranks

/-! Comparisons of singles.

A number has a value, counted in quanta and with an infinity at either end. One number is
greater than another exactly if its value is, and as NaN has no value, no comparison with it
holds. Two numbers are equal only if they are the same or the two zeros. -/
namespace VisualIndex

/-- The value of a datum in quanta. -/
def Datum.value? : Datum → Option (WithBot (WithTop Int))
  | .nan _ _ => none
  | .infinite true => some ⊥
  | .infinite false => some ⊤
  | .finite negative quanta => some ((signed negative quanta : WithTop Int) : WithBot _)

namespace Single

def value? (x : Single) : Option (WithBot (WithTop Int)) := x.datum.value?

/-- Both are numbers and the first is greater. -/
def Exceeds (x y : Single) : Prop := ∃ u v, x.value? = some u ∧ y.value? = some v ∧ v < u

/-- Both are numbers and the first is no less. -/
def Reaches (x y : Single) : Prop := ∃ u v, x.value? = some u ∧ y.value? = some v ∧ v ≤ u

theorem Reaches.exceeds {x y z : Single} (first : x.Reaches y) (second : y.Exceeds z) :
    x.Exceeds z := by
  obtain ⟨u, v, hu, hv, order⟩ := first
  obtain ⟨v', w, hv', hw, less⟩ := second
  obtain rfl : v = v' := Option.some.inj (hv.symm.trans hv')
  exact ⟨u, w, hu, hw, less.trans_le order⟩

/-- The value at a place on the line of codes with signs. -/
def valueAt (k : Int) : WithBot (WithTop Int) :=
  if k = singleFormat.infinity then ⊤
  else if k = -singleFormat.infinity then ⊥
  else ((signed (decide (k < 0)) (singleFormat.quanta k.natAbs) : WithTop Int) : WithBot _)

theorem signed_quanta_lt {j k : Int} (less : j < k) :
    signed (decide (j < 0)) (singleFormat.quanta j.natAbs) <
      signed (decide (k < 0)) (singleFormat.quanta k.natAbs) := by
  have mono {m n : Nat} (order : m < n) : singleFormat.quanta m < singleFormat.quanta n :=
    singleFormat.quanta_strictMono order
  by_cases first : j < 0 <;> by_cases second : k < 0 <;>
    simp only [first, second, decide_true, decide_false, signed_true, signed_false]
  · have := mono (show k.natAbs < j.natAbs by omega)
    omega
  · have := mono (show 0 < j.natAbs by omega)
    omega
  · omega
  · have := mono (show j.natAbs < k.natAbs by omega)
    omega

theorem valueAt_strictMonoOn :
    StrictMonoOn valueAt (Set.Icc (-singleFormat.infinity) singleFormat.infinity) := by
  rintro j ⟨low, -⟩ k ⟨-, high⟩ less
  have least : j ≠ singleFormat.infinity := by omega
  have greatest : k ≠ -singleFormat.infinity := by omega
  rw [valueAt, valueAt, if_neg least, if_neg greatest]
  by_cases bottom : j = -singleFormat.infinity
  · rw [if_pos bottom]
    split
    · exact bot_lt_top
    · exact WithBot.bot_lt_coe _
  · rw [if_neg bottom]
    split
    · exact WithBot.coe_lt_coe.mpr (WithTop.coe_lt_top _)
    · exact WithBot.coe_lt_coe.mpr (WithTop.coe_lt_coe.mpr (signed_quanta_lt less))

theorem value?_eq (x : Single) : x.value? = if x.isNaN then none else some (valueAt x.key) := by
  have place : x.key = signed x.isNegative x.magnitude := rfl
  have infinity_pos : 0 < singleFormat.infinity := by decide
  rw [value?, datum_eq]
  cases missing : x.isNaN with
  | true =>
    rw [if_pos (of_decide_eq_true missing), if_pos rfl]
    rfl
  | false =>
    rw [if_neg (of_decide_eq_false missing), if_neg Bool.false_ne_true, place]
    by_cases infinite : x.magnitude = singleFormat.infinity
    · rw [if_pos infinite, infinite]
      cases x.isNegative with
      | false => rw [valueAt, if_pos (signed_false _), Datum.value?]
      | true => rw [valueAt, signed_true, if_neg (by omega), if_pos rfl, Datum.value?]
    · have bound := magnitude_le missing
      rw [if_neg infinite, Datum.value?, valueAt]
      cases x.isNegative with
      | false =>
        rw [signed_false, signed_false, if_neg (by omega), if_neg (by omega),
          decide_eq_false (by omega), signed_false, Int.natAbs_natCast]
      | true =>
        rw [signed_true, signed_true, if_neg (by omega), if_neg (by omega)]
        rcases Nat.eq_zero_or_pos x.magnitude with zero | positive
        · rw [zero]
          decide
        · rw [decide_eq_true (by omega), signed_true, Int.natAbs_neg, Int.natAbs_natCast]

theorem gt_iff_exceeds (x y : Single) : x.gt y ↔ x.Exceeds y := by
  rw [Exceeds, value?_eq, value?_eq]
  cases first : x.isNaN with
  | true => simp [gt, first]
  | false =>
    cases second : y.isNaN with
    | true => simp [gt, second]
    | false =>
      have order := valueAt_strictMonoOn.lt_iff_lt (key_bounds second) (key_bounds first)
      simp [gt, first, second, order]

theorem ge_iff_reaches (x y : Single) : x.ge y ↔ x.Reaches y := by
  rw [Reaches, value?_eq, value?_eq]
  cases first : x.isNaN with
  | true => simp [ge, first]
  | false =>
    cases second : y.isNaN with
    | true => simp [ge, second]
    | false =>
      have order := valueAt_strictMonoOn.le_iff_le (key_bounds second) (key_bounds first)
      simp [ge, first, second, order]

instance (x y : Single) : Decidable (x.Exceeds y) := decidable_of_iff _ (gt_iff_exceeds x y)

instance (x y : Single) : Decidable (x.Reaches y) := decidable_of_iff _ (ge_iff_reaches x y)

/-- The zeros of two signs. -/
def OppositeZeros (x y : Single) : Prop := x = zero ∧ y = -zero ∨ x = -zero ∧ y = zero

theorem numEq_iff (x y : Single) :
    x.numEq y ↔ x.isNaN = false ∧ (x = y ∨ x.OppositeZeros y) := by
  constructor
  · intro equal
    obtain ⟨⟨hx, hy⟩, key⟩ : (x.isNaN = false ∧ y.isNaN = false) ∧ x.key = y.key := by
      simpa [numEq] using equal
    have rank : x.rank = y.rank := by rw [rank_of_number hx, rank_of_number hy, key]
    rcases eq_of_rank_eq rank with (same | ⟨missing, -⟩) | zeros
    · exact ⟨hx, .inl same⟩
    · rw [hx] at missing
      cases missing
    · exact ⟨hx, .inr zeros⟩
  · rintro ⟨hx, rfl | ⟨rfl, rfl⟩ | ⟨rfl, rfl⟩⟩
    · simp [numEq, hx]
    · decide
    · decide

end Single

end VisualIndex
