import VisualIndex.Number.Double

/-! Medians by selection.

Selection leaves a partition: a pivot with the values of lower rank before it and the
values of higher rank after it, in any order. The median needs no more than that. With
an even count it is the mean of the pivot and of the greatest value before it, taken in
double precision. -/
namespace VisualIndex

structure Partition where
  below : List Single
  pivot : Single
  above : List Single

namespace Partition

/-- The values, in the order the selection left them in. -/
def toList (p : Partition) : List Single := p.below ++ p.pivot :: p.above

/-- A partition of `values` around the place `place`: the same values, divided by rank. -/
structure Divides (p : Partition) (values : List Single) (place : Nat) : Prop where
  perm : p.toList.Perm values
  length_below : p.below.length = place
  below_le : ∀ x ∈ p.below, x.rank ≤ p.pivot.rank
  le_above : ∀ x ∈ p.above, p.pivot.rank ≤ x.rank

/-- Divide values around a place of their order, if there is such a place. -/
def select? (values : List Single) (place : Nat) : Option Partition :=
  let ordered := values.mergeSort fun x y => decide (x.rank ≤ y.rank)
  match ordered.drop place with
  | pivot :: above => some ⟨ordered.take place, pivot, above⟩
  | [] => none

/-- The last of the greatest values before the pivot. -/
def greatestBelow? (p : Partition) : Option Single :=
  p.below.foldl (fun best x =>
    match best with
    | none => some x
    | some y => if y.rank ≤ x.rank then some x else some y) none

/-- The median, given a partition around the middle. -/
def median (p : Partition) : Single :=
  if p.toList.length % 2 = 1 then p.pivot
  else
    let lower := (p.greatestBelow?.getD p.pivot).widen
    ((lower + p.pivot.widen) / Double.ofNat 2).narrow

end Partition

/-- The median, and the values as the selection left them. -/
def median (values : List Single) : Option Single × List Single :=
  match Partition.select? values (values.length / 2) with
  | none => (none, values)
  | some p => (some p.median, p.toList)

end VisualIndex
