import VisualIndex.PostingList.Basic

/-! What a posting list learns and adds up: thresholds, the idf weight and the
self-similarities of images. -/
namespace VisualIndex.PostingList

variable {b : Nat}

/-- Learn the thresholds; the answer tells whether there were rows enough. -/
def train (p : PostingList b) (rows : List (Descriptor b)) : Bool × PostingList b :=
  match p.embedding.train rows with
  | (false, _) => (false, p)
  | (true, embedding) =>
    (true, { p with embedding := embedding, status := p.status.insert .trained })

/-- `ln (1 + total / images)` in double precision, rounded to single. -/
def idfWeight (total images : Nat) : Single :=
  (Double.ofNat 1 + Double.ofNat total / Double.ofNat images).log.narrow

/-- Weigh the word by the share of images it occurs in. An empty list keeps its weight. -/
def weigh (p : PostingList b) (total : Nat) : PostingList b :=
  if p.postings.isEmpty then p
  else { p with idf := idfWeight total p.images.length }

/-- The squared idf weight, rounded to single precision and then widened. -/
def squaredIdf (p : PostingList b) : Double := (p.idf * p.idf).widen

/-- The slot of an image among `length` sums. -/
def slot? (image : ImageId) (length : Nat) : Option (Fin length) :=
  if h : 0 ≤ image.toInt ∧ image.toInt.toNat < length then some ⟨image.toInt.toNat, h.2⟩
  else none

/-- Add `amount` to the slot of each posting's image, up to the first image that has no
slot. What was added before it stays. -/
def addToSlots (amount : Double) : List (Posting b) → Array Double →
    Array Double × Option Violation
  | [], sums => (sums, none)
  | p :: rest, sums =>
    match slot? p.image sums.size with
    | some i => addToSlots amount rest (sums.set i (sums[i] + amount))
    | none => (sums, some (.imageBeyondSums p.image sums.size))

/-- Add each posting's squared idf weight to the sum of its image. -/
def addSelfSimilarities (p : PostingList b) (sums : Array Double) :
    Array Double × Option Violation := addToSlots p.squaredIdf p.postings sums

end VisualIndex.PostingList
