import VisualIndex.Error
import VisualIndex.Number.Single

/-! Scored images and their ranking.

Scores are ordered by value, NaN above every number and both zeros alike, and then by
image id. Two scores compare equal only if they are of the same image, so a ranking
leaves no choice among images. -/
namespace VisualIndex

structure Score where
  image : ImageId
  value : Single
  deriving DecidableEq

namespace Score

protected def compare (s t : Score) : Ordering :=
  (Ord.compare s.value.rank t.value.rank).then (Ord.compare s.image.toInt t.image.toInt)

instance : Ord Score := ⟨Score.compare⟩

/-- The comparison for callers that allow for incomparable scores, of which there are none. -/
def compare? (s t : Score) : Option Ordering := some (s.compare t)

/-- Equality in the order of scores. -/
def sameAs (s t : Score) : Bool := s.compare t = .eq

/-- The lowest score first; equal ones stay in their order. -/
def ascending (scores : List Score) : List Score :=
  scores.mergeSort fun s t => (s.compare t).isLE

/-- The highest score first; equal ones stay in their order. -/
def ranked (scores : List Score) : List Score :=
  scores.mergeSort fun s t => (t.compare s).isLE

/-- The last of the highest scores. -/
def highest? : List Score → Option Score
  | [] => none
  | s :: rest => some (rest.foldl (fun best t => if (best.compare t).isLE then t else best) s)

/-- The first of the lowest scores. -/
def lowest? : List Score → Option Score
  | [] => none
  | s :: rest => some (rest.foldl (fun best t => if (best.compare t).isLE then best else t) s)

end Score

end VisualIndex
