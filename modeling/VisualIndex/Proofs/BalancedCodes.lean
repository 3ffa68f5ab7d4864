import VisualIndex.Proofs.ColumnMedians

/-! Balanced codes.

A value lies above a threshold only if its rank is higher. No value before the pivot ranks above
the median, whether that is the pivot or a mean with the greatest value before it. So the values
above the median are all behind the pivot or the pivot itself, and a learned bit is set for no
more than half of the rows it was learned from. -/
namespace VisualIndex

namespace Single

theorem gt_eq_false {x y : Single} (order : x.rank ≤ y.rank) : x.gt y = false := by
  rw [← Bool.not_eq_true, gt_iff]
  omega

/-- Numbers that are not equal have ranks of their own. -/
theorem rank_ne {x y : Single} (hx : x.isNaN = false) (hy : y.isNaN = false)
    (distinct : x.numEq y = false) : x.rank ≠ y.rank := by
  rw [rank_of_number hx, rank_of_number hy]
  simpa [numEq, hx, hy] using distinct

theorem numEq_comm (x y : Single) : x.numEq y = y.numEq x := by
  rw [numEq, numEq, Bool.and_comm (!x.isNaN), decide_eq_decide.mpr eq_comm]

end Single

namespace Partition.Divides
variable {p : Partition} {values : List Single} {place : Nat}

/-- What is counted among the values is counted before the pivot, behind it and at it. -/
theorem countP_eq (divides : p.Divides values place) (f : Single → Bool) : values.countP f =
    p.below.countP f + (p.above.countP f + if f p.pivot then 1 else 0) := by
  rw [← divides.perm.countP_eq f, toList, List.countP_append, List.countP_cons]

theorem median_of_odd (divides : p.Divides values place) (odd : values.length % 2 = 1) :
    p.median = p.pivot := by
  rw [median, divides.perm.length_eq, if_pos odd]

section Middle
variable (divides : p.Divides values (values.length / 2))
include divides

theorem below_le_median {x : Single} (hx : x ∈ p.below) : x.rank ≤ p.median.rank := by
  by_cases odd : values.length % 2 = 1
  · rw [divides.median_of_odd odd]
    exact divides.below_le x hx
  · obtain ⟨g, hg, found, greatest⟩ := greatestBelow?_eq (List.ne_nil_of_mem hx)
    have mean : p.median = g.mean p.pivot := by
      rw [median, divides.perm.length_eq, if_neg odd, found]
      rfl
    rw [mean]
    exact (greatest x hx).trans (Single.rank_le_mean (divides.below_le g hg))

theorem countP_gt_median : values.countP (·.gt p.median) =
    p.above.countP (·.gt p.median) + if p.pivot.gt p.median then 1 else 0 := by
  have below : p.below.countP (·.gt p.median) = 0 := by
    rw [List.countP_eq_zero]
    intro x hx
    rw [Single.gt_eq_false (divides.below_le_median hx)]
    exact Bool.false_ne_true
  rw [divides.countP_eq, below, Nat.zero_add]

theorem countP_gt_median_of_odd (odd : values.length % 2 = 1) :
    values.countP (·.gt p.median) = p.above.countP (·.gt p.pivot) := by
  rw [divides.countP_gt_median, divides.median_of_odd odd, Single.gt_eq_false le_rfl]
  rfl

theorem countP_gt_median_le : values.countP (·.gt p.median) ≤ values.length / 2 := by
  have length := divides.length_eq
  -- an odd median is the pivot itself; beside an even one the pivot may count as well
  by_cases odd : values.length % 2 = 1
  · have behind := List.countP_le_length (p := (·.gt p.pivot)) (l := p.above)
    rw [divides.countP_gt_median_of_odd odd]
    omega
  · have behind := List.countP_le_length (p := (·.gt p.median)) (l := p.above)
    rw [divides.countP_gt_median]
    split <;> omega

theorem countP_gt_median_of_distinct (odd : values.length % 2 = 1)
    (numbers : ∀ x ∈ values, x.isNaN = false)
    (distinct : values.Pairwise fun x y => x.numEq y = false) :
    values.countP (·.gt p.median) = (values.length - 1) / 2 := by
  have number : ∀ x ∈ p.toList, x.isNaN = false := fun x hx =>
    numbers x (divides.perm.mem_iff.mp hx)
  have apart : p.toList.Pairwise fun x y => x.numEq y = false :=
    (divides.perm.pairwise_iff fun {x y} differ => x.numEq_comm y ▸ differ).mpr distinct
  obtain ⟨-, behind, -⟩ := List.pairwise_append.mp apart
  -- behind the pivot no rank is lower, and none is the same
  have all : p.above.countP (·.gt p.pivot) = p.above.length := by
    rw [List.countP_eq_length]
    intro x hx
    have hx' : x.isNaN = false := number x (by simp [toList, hx])
    have ranks := Single.rank_ne (number p.pivot (by simp [toList])) hx'
      ((List.pairwise_cons.mp behind).1 x hx)
    have order := divides.le_above x hx
    exact (Single.gt_iff x p.pivot).mpr ⟨hx', by omega⟩
  have length := divides.length_eq
  rw [divides.countP_gt_median_of_odd odd, all]
  omega

end Middle

end Partition.Divides

/-- The number of rows with a code that has a bit set. -/
def Embedding.onesAt {b : Nat} (e : Embedding b) (rows : List (Descriptor b))
    (d : Fin (8 * b)) : Nat :=
  rows.countP fun row => (e.quantize row).bit? d == some true

theorem Embedding.onesAt_eq {b : Nat} (e : Embedding b) (rows : List (Descriptor b))
    (d : Fin (8 * b)) : e.onesAt rows d = (column rows d).countP (·.gt (e.thresholds.get d)) := by
  rw [onesAt, column, List.countP_map]
  refine List.countP_congr fun row _ => ?_
  rw [e.bit?_quantize row d]
  simp

/-- Each learned bit is set in the codes of at most half of the rows, rounded down, and in exactly
half of the others if the rows are odd in number and distinct numbers in its dimension. It is so
for any selection that divides by rank; training goes by one of them. -/
theorem balanced_codes {b : Nat} (s : Selection) (p : PostingList b) {rows : List (Descriptor b)}
    (enough : 2 ≤ rows.length) (d : Fin (8 * b)) :
    (p.trainBy s rows).2.embedding.onesAt rows d ≤ rows.length / 2 ∧
    (rows.length % 2 = 1 → (∀ x ∈ Embedding.column rows d, x.isNaN = false) →
      (Embedding.column rows d).Pairwise (fun x y => x.numEq y = false) →
      (p.trainBy s rows).2.embedding.onesAt rows d = (rows.length - 1) / 2) ∧
    p.train rows = p.trainBy .byOrder rows := by
  obtain ⟨q, divides, threshold⟩ := p.embedding.exists_divided s enough d
  have length : (Embedding.column rows d).length = rows.length := List.length_map ..
  have ones : (p.trainBy s rows).2.embedding.onesAt rows d =
      (Embedding.column rows d).countP (·.gt q.median) := by
    rw [p.trainBy_enough s enough, Embedding.onesAt_eq, threshold]
  rw [ones, ← length]
  exact ⟨divides.countP_gt_median_le, divides.countP_gt_median_of_distinct,
    p.train_eq_trainBy rows⟩

theorem balanced_codes_threeRows :
    2 ≤ threeRows.length ∧ threeRows.length % 2 = 1 ∧ 2 ≤ (threeRows.take 2).length ∧
    (∀ x ∈ Embedding.column threeRows 0, x.isNaN = false) ∧
    (Embedding.column threeRows 0).Pairwise (fun x y => x.numEq y = false) ∧
    ∀ p : PostingList 1, (p.train threeRows).2.embedding.onesAt threeRows 0 = 1 ∧
      (p.train (threeRows.take 2)).2.embedding.onesAt (threeRows.take 2) 1 ≤ 1 := by
  have enough : 2 ≤ threeRows.length := by decide
  have enough' : 2 ≤ (threeRows.take 2).length := by decide
  have numbers : ∀ x ∈ Embedding.column threeRows 0, x.isNaN = false := by decide
  have distinct : (Embedding.column threeRows 0).Pairwise fun x y => x.numEq y = false := by
    decide
  refine ⟨enough, by decide, enough', numbers, distinct, ?_⟩
  intro p
  obtain ⟨-, half, train⟩ := balanced_codes .byOrder p enough 0
  obtain ⟨atMost, -, train'⟩ := balanced_codes .byOrder p enough' 1
  rw [train, train']
  exact ⟨half (by decide) numbers distinct, atMost⟩

end VisualIndex
