import VisualIndex.Embedding
import VisualIndex.Posting
import VisualIndex.Status
import VisualIndex.WeightTable

/-! Posting lists.

A posting list holds the features of one visual word: their postings, the thresholds
that turn descriptors into signatures, the word's idf weight, and the table of voting
weights it was built with. The status tells whether the thresholds have been learned and
whether the postings are sorted. Adding or removing postings withdraws the sorted flag;
learning thresholds leaves the stored signatures as they are. -/
namespace VisualIndex

structure PostingList (b : Nat) where
  status : Status
  idf : Single
  postings : List (Posting b)
  embedding : Embedding b
  table : WeightTable
  deriving DecidableEq

namespace PostingList

variable {b : Nat}

/-- An empty list with a table; the table has to cover the signatures' width. -/
def ofTable (b : Nat) (table : WeightTable) : Except Violation (PostingList b) :=
  if table.width = 8 * b then .ok ⟨.blank, .zero, [], .initial, table⟩
  else .error (.tableWidth table.width (8 * b))

/-- Equality of what is stored: the idf weight by its bits, the thresholds as numbers,
the table not at all. -/
def sameContent (p q : PostingList b) : Bool :=
  p.status = q.status && p.idf = q.idf && p.embedding.numEq q.embedding
    && p.postings = q.postings

def isReady (p : PostingList b) : Bool := p.status.isReady

/-- Add a feature of an image. -/
def add (p : PostingList b) (image : ImageId) (x : Descriptor b) :
    Except Violation (PostingList b) :=
  if image < 0 then .error (.negativeImageId image)
  else .ok { p with
    postings := p.postings ++ [⟨image, p.embedding.quantize x⟩]
    status := p.status.remove .sorted }

/-- Put the postings in the order of their images, those of one image staying in the
order they were added in. -/
def sort (p : PostingList b) : PostingList b :=
  { p with
    postings := p.postings.mergeSort fun s t => decide (s.image ≤ t.image)
    status := p.status.insert .sorted }

/-- Drop all postings and keep what has been learned. -/
def clear (p : PostingList b) : PostingList b :=
  { p with postings := [], status := p.status.remove .sorted }

/-- Go back to an empty, untrained list. -/
def reset (p : PostingList b) : PostingList b :=
  { p with status := .blank, idf := .zero, postings := [], embedding := .initial }

/-- A list without the elements that are repeated right after. -/
def withoutRepeats : List ImageId → List ImageId
  | i :: j :: rest =>
    if i = j then withoutRepeats (j :: rest) else i :: withoutRepeats (j :: rest)
  | short => short

/-- The images that occur, each once, in ascending order. -/
def images (p : PostingList b) : List ImageId :=
  withoutRepeats ((p.postings.map (·.image)).mergeSort fun i j => decide (i ≤ j))

end PostingList

end VisualIndex
