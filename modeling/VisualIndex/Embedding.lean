import VisualIndex.Median
import VisualIndex.Signature

/-! Hamming embedding.

A descriptor of `8 b` numbers becomes a signature of `b` bytes: a bit is set where the
number lies above its dimension's threshold. Learned thresholds are the medians of the
dimensions over the training descriptors, so that a learned bit splits them evenly. -/
namespace VisualIndex

/-- A projected feature, one number for each bit of a signature. -/
abbrev Descriptor (b : Nat) := Vector Single (8 * b)

structure Embedding (b : Nat) where
  thresholds : Vector Single (8 * b)
  deriving DecidableEq

namespace Embedding

variable {b : Nat}

/-- All thresholds zero. -/
def initial : Embedding b := ⟨.replicate (8 * b) .zero⟩

/-- Equality of thresholds as numbers. -/
def numEq (e f : Embedding b) : Bool :=
  (List.finRange (8 * b)).all fun d => e.thresholds[d].numEq f.thresholds[d]

/-- The signature of a descriptor. -/
def quantize (e : Embedding b) (x : Descriptor b) : Signature b :=
  .ofBits fun i => if h : i < 8 * b then x[i].gt e.thresholds[i] else false

/-- Thresholds while they are being learned, with the column that is reused from one
dimension to the next. -/
structure Learning (b : Nat) where
  thresholds : Vector Single (8 * b)
  column : List Single

/-- Refill the column with one dimension of the rows and store its median. -/
def Learning.step (rows : List (Descriptor b)) (l : Learning b) (d : Fin (8 * b)) :
    Learning b :=
  let (middle, column) := median (List.zipWith (fun _ row => row[d]) l.column rows)
  ⟨l.thresholds.set d (middle.getD .zero), column⟩

/-- The fewest rows to learn from. -/
def fewestRows : Nat := 2

/-- Learn the thresholds from training descriptors; with too few nothing changes. The
answer tells whether they were learned. -/
def train (e : Embedding b) (rows : List (Descriptor b)) : Bool × Embedding b :=
  if rows.length < fewestRows then (false, e)
  else
    let start : Learning b := ⟨e.thresholds, .replicate rows.length .zero⟩
    (true, ⟨((List.finRange (8 * b)).foldl (Learning.step rows) start).thresholds⟩)

end Embedding

end VisualIndex
