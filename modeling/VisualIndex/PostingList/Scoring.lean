import VisualIndex.PostingList.Basic
import VisualIndex.Score

/-! Scoring a query feature against a posting list.

The postings of an image vote with the weights of their distances to the query's
signature. Many votes of one image count less: their sum is divided by the square root
of their number. It is then multiplied by the squared idf weight. Sorted postings hold
each image in one run, so one pass over the runs gives one score an image, in ascending
order of ids. -/
namespace VisualIndex.PostingList

variable {b : Nat}

/-- The sum of the weights of the votes, in their order. -/
def sumWeights (table : WeightTable) (query : Signature b) :
    List (Posting b) → Single → Except Violation Single
  | [], sum => .ok sum
  | vote :: rest, sum => do
    let weight ← table.lookup (query.distance vote.code)
    sumWeights table query rest (sum + weight)

/-- The score that the votes of one image add up to. -/
def scoreOfVotes (p : PostingList b) (query : Signature b) (votes : List (Posting b)) :
    Except Violation Single := do
  let sum ← sumWeights p.table query votes .zero
  return sum / (Single.ofNat votes.length).sqrt * (p.idf * p.idf)

/-- The maximal runs of postings of one image. -/
def runs (postings : List (Posting b)) : List (List (Posting b)) :=
  postings.splitBy fun s t => s.image = t.image

/-- Append the score of each run to a buffer. -/
def pushScores (p : PostingList b) (query : Signature b) :
    List (List (Posting b)) → Array Score → Except Violation (Array Score)
  | [], buffer => .ok buffer
  | [] :: rest, buffer => pushScores p query rest buffer
  | (vote :: votes) :: rest, buffer => do
    let value ← p.scoreOfVotes query (vote :: votes)
    pushScores p query rest (buffer.push ⟨vote.image, value⟩)

/-- Replace the content of a buffer by the scores of a descriptor. A list that is not
ready scores nothing. -/
def scoreInto (p : PostingList b) (x : Descriptor b) (buffer : Array Score) :
    Except Violation (Array Score) :=
  let cleared := buffer.take 0
  if !p.isReady || p.postings.isEmpty then .ok cleared
  else p.pushScores (p.embedding.quantize x) (runs p.postings) cleared

/-- The scores of a descriptor, one for each image. -/
def score (p : PostingList b) (x : Descriptor b) : Except Violation (List Score) :=
  (·.toList) <$> p.scoreInto x #[]

end VisualIndex.PostingList
