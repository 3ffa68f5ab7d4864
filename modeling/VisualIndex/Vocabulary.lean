import VisualIndex.PostingList.Statistics

/-! A vocabulary: the posting lists of all visual words, worked on word by word.

Self-similarities are summed over the words in segments. A plan says how the words are
cut into segments, each of which starts from zeros, and how the partial sums are put
together; the plan used here is one segment. -/
namespace VisualIndex

abbrev Vocabulary (b : Nat) := List (PostingList b)

/-- How to sum over a list of words: nothing, one word after the other, or two parts
added slot by slot. -/
inductive SumPlan (α : Type) where
  | nothing
  | segment (words : List α)
  | merge (left right : SumPlan α)

namespace SumPlan

/-- The words of a plan, from left to right. -/
def words {α : Type} : SumPlan α → List α
  | nothing => []
  | segment words => words
  | merge left right => left.words ++ right.words

end SumPlan

namespace Vocabulary

variable {b : Nat}

def sort (v : Vocabulary b) : Vocabulary b := v.map .sort

/-- Train each word with its own rows; the answer counts the words that had enough. -/
def train (v : Vocabulary b) (rows : List (List (Descriptor b))) :
    Except Violation (Nat × Vocabulary b) :=
  if v.length ≠ rows.length then .error (.trainingMismatch rows.length v.length)
  else
    let trained := List.zipWith PostingList.train v rows
    .ok (trained.countP (·.1), trained.map (·.2))

/-- Weigh each word against the number of all images. -/
def weigh (v : Vocabulary b) (total : Nat) : Vocabulary b := v.map (·.weigh total)

/-- Add the self-similarities of some words, one word after the other. -/
def addSelfSimilarities : List (PostingList b) → Array Double →
    Except Violation (Array Double)
  | [], sums => .ok sums
  | p :: rest, sums =>
    match p.addSelfSimilarities sums with
    | (sums, none) => addSelfSimilarities rest sums
    | (_, some violation) => .error violation

/-- Slot-wise sums. -/
def addSums (left right : Array Double) : Array Double := left.zipWith (· + ·) right

/-- Sum the self-similarities of `images` images by a plan. -/
def sumByPlan (images : Nat) : SumPlan (PostingList b) → Except Violation (Array Double)
  | .nothing => .ok (.replicate images .zero)
  | .segment words => addSelfSimilarities words (.replicate images .zero)
  | .merge left right => do
    let l ← sumByPlan images left
    let r ← sumByPlan images right
    return addSums l r

/-- The self-similarities of `images` images over the whole vocabulary. -/
def selfSimilarities (v : Vocabulary b) (images : Nat) : Except Violation (Array Double) :=
  sumByPlan images (.segment v)

end Vocabulary

end VisualIndex
