import VisualIndex.PostingList.Basic

/-! The stored record of a posting list.

A record is the status byte, the idf weight, the thresholds, the number of postings in
four bytes, and the postings. Nothing is stored between or after records, so records can
follow one another. Reading keeps every bit it finds but refuses negative image ids, and
changes the list only once the whole record has been read. -/
namespace VisualIndex.PostingList

variable {b : Nat}

/-- The length of the record. -/
def recordLength (p : PostingList b) : Nat :=
  1 + 4 + 4 * (8 * b) + 4 + p.postings.length * Posting.recordLength b

def write {σ : Type} [Writer σ] (p : PostingList b) : WritingTo σ RecordError Unit := do
  if 2 ^ 32 ≤ p.postings.length then throw (.tooManyPostings p.postings.length)
  writeField (Writing.number 1 p.status.bits.toNat)
  writeField (Writing.single p.idf)
  writeField (Writing.singles p.embedding.thresholds)
  writeField (Writing.number 4 p.postings.length)
  p.postings.forM Posting.write

/-- Read some postings, the first of them with the given index. -/
def readPostings (b : Nat) : Nat → Nat → Reading RecordError (List (Posting b))
  | 0, _ => return []
  | remaining + 1, index => do
    let posting ← Posting.read b
    if posting.image < 0 then throw (.invalidImageId index posting.image)
    let rest ← readPostings b remaining (index + 1)
    return posting :: rest

/-- What a record stores. -/
structure Record (b : Nat) where
  status : Status
  idf : Single
  embedding : Embedding b
  postings : List (Posting b)

def Record.read (b : Nat) : Reading RecordError (Record b) := do
  let status ← RecordField.status.read (.number 1)
  let idf ← RecordField.idfWeight.read .single
  let thresholds ← RecordField.thresholds.read (.singles (8 * b))
  let count ← RecordField.count.read (.number 4)
  let postings ← readPostings b count 0
  return ⟨⟨.ofNat status⟩, idf, ⟨thresholds⟩, postings⟩

/-- The list with the content of a record. -/
def withRecord (p : PostingList b) (r : Record b) : PostingList b :=
  { p with status := r.status, idf := r.idf, embedding := r.embedding, postings := r.postings }

/-- Replace the list's content by a record from a source. The list stays as it is when
the record cannot be read. -/
def read (p : PostingList b) (s : Source) : Except RecordError Unit × PostingList b × Source :=
  match Record.read b s with
  | (.ok record, t) => (.ok (), p.withRecord record, t)
  | (.error error, t) => (.error error, p, t)

end VisualIndex.PostingList
