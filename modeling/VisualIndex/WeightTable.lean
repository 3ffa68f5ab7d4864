import VisualIndex.Error
import VisualIndex.Number.Exponential

/-! Voting weights by Hamming distance.

A table for signatures of `n` bits has one weight for each distance from 0 to `n`. A
Gaussian table falls off with the squared distance and is zero beyond a cut-off. -/
namespace VisualIndex

structure WeightTable where
  weights : Array Single
  deriving DecidableEq

namespace WeightTable

/-- The table of `f 0, …, f bits`. -/
def ofFn (bits : Nat) (f : Nat → Single) : WeightTable :=
  ⟨(Array.range (bits + 1)).map f⟩

/-- `exp (-d² / sigma²)` in single precision. -/
def gaussianWeight (sigma : Single) (distance : Nat) : Single :=
  let d := Single.ofNat distance
  (-d * d / (sigma * sigma)).exp

/-- Gaussian weights up to the cut-off, zero beyond it. -/
def gaussian (bits : Nat) (sigma : Single) (cutoff : Nat) : WeightTable :=
  ofFn bits fun d => if d ≤ cutoff then gaussianWeight sigma d else .zero

/-- The width of the signatures that the table covers. -/
def width (t : WeightTable) : Nat := t.weights.size - 1

/-- The weight of a distance. -/
def lookup (t : WeightTable) (distance : Nat) : Except Violation Single :=
  match t.weights[distance]? with
  | some weight => .ok weight
  | none => .error .outOfBounds

/-- No neighbour to the right is greater. -/
def descends : List Single → Bool
  | x :: y :: rest => x.ge y && descends (y :: rest)
  | _ => true

def isDescending (t : WeightTable) : Bool := descends t.weights.toList

/-- Equality of weights as numbers. -/
def numEq (t u : WeightTable) : Bool :=
  t.weights.size = u.weights.size
    && (List.zipWith Single.numEq t.weights.toList u.weights.toList).all id

end WeightTable

end VisualIndex
