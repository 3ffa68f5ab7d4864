import VisualIndex.PostingList.Statistics
import VisualIndex.Proofs.ImageRuns
import VisualIndex.Proofs.SignatureBits

/-! What an image scores.

By definition the postings of an image vote with the weights of the numbers of dimensions in
which they disagree with the query, wherever they stand in the list. The one pass over the
runs of a sorted list comes to the same scores, one for each image and in ascending order. -/
namespace VisualIndex.PostingList

variable {b : Nat}

/-- The weight that a posting votes with. -/
def voteWeight (p : PostingList b) (x : Descriptor b) (q : Posting b) : Single :=
  p.table.weights.getD (p.embedding.disagreements x q.code) .zero

/-- The score of an image: the sum of its votes in their order, divided by the root of
their number and weighed by the squared idf weight. -/
def imageScore (p : PostingList b) (x : Descriptor b) (i : ImageId) : Single :=
  let votes := p.postings.filter fun q => q.image = i
  let sum := votes.foldl (fun sum q => sum + p.voteWeight x q) .zero
  sum / (Single.ofNat votes.length).sqrt * (p.idf * p.idf)

section Covered
variable {p : PostingList b} (covers : p.table.weights.size = 8 * b + 1)
include covers

theorem lookup_distance (x : Descriptor b) (q : Posting b) :
    p.table.lookup ((p.embedding.quantize x).distance q.code) = .ok (p.voteWeight x q) := by
  have inside : p.embedding.disagreements x q.code < p.table.weights.size := by
    have bound := p.embedding.disagreements_le x q.code
    omega
  rw [p.embedding.distance_quantize, WeightTable.lookup, voteWeight, Array.getD_eq_getD_getElem?,
    Array.getElem?_eq_getElem inside]
  rfl

theorem sumWeights_eq (x : Descriptor b) (votes : List (Posting b)) (sum : Single) :
    sumWeights p.table (p.embedding.quantize x) votes sum =
      .ok (votes.foldl (fun sum q => sum + p.voteWeight x q) sum) := by
  induction votes generalizing sum with
  | nil => rfl
  | cons q votes ih =>
    rw [sumWeights, lookup_distance covers x q]
    exact ih (sum + p.voteWeight x q)

theorem scoreOfVotes_eq (x : Descriptor b) (i : ImageId) :
    p.scoreOfVotes (p.embedding.quantize x) (p.postings.filter fun q => q.image = i) =
      .ok (p.imageScore x i) := by
  rw [scoreOfVotes, sumWeights_eq covers]
  rfl

theorem pushScores_eq (x : Descriptor b) (ids : List ImageId)
    (occur : ∀ i ∈ ids, ∃ q ∈ p.postings, q.image = i) (buffer : Array Score) :
    p.pushScores (p.embedding.quantize x)
        (ids.map fun i => p.postings.filter fun q => q.image = i) buffer =
      .ok (buffer ++ (ids.map fun i => ⟨i, p.imageScore x i⟩).toArray) := by
  induction ids generalizing buffer with
  | nil => simp [pushScores]
  | cons i ids ih =>
    have value := scoreOfVotes_eq covers x i
    rw [List.map_cons]
    cases votes : p.postings.filter fun q => q.image = i with
    | nil =>
      obtain ⟨q, hq, same⟩ := occur i List.mem_cons_self
      exact absurd (decide_eq_true same) (List.filter_eq_nil_iff.mp votes q hq)
    | cons vote others =>
      have mem : vote ∈ p.postings.filter fun q => q.image = i := votes ▸ List.mem_cons_self
      have image : vote.image = i := of_decide_eq_true (List.mem_filter.mp mem).2
      have rest := ih (fun j hj => occur j (List.mem_cons_of_mem i hj))
        (buffer.push ⟨i, p.imageScore x i⟩)
      rw [votes] at value
      rw [pushScores, value, image]
      change p.pushScores _ _ _ = _
      rw [rest]
      simp

theorem scoreInto_of_sorted (x : Descriptor b) (buffer : Array Score) (ready : p.isReady)
    (sorted : p.postings.Pairwise fun q r => q.image ≤ r.image) :
    p.scoreInto x buffer = .ok (p.images.map fun i => ⟨i, p.imageScore x i⟩).toArray := by
  by_cases empty : p.postings = []
  · have none : p.images = [] := by
      refine List.eq_nil_iff_forall_not_mem.mpr fun i hi => ?_
      obtain ⟨q, hq, -⟩ := mem_images.mp hi
      rw [empty] at hq
      cases hq
    simp [scoreInto, empty, none]
  · have pushed := pushScores_eq covers x p.images (fun i => mem_images.mp) #[]
    rw [← p.runs_of_sorted sorted, Array.empty_append] at pushed
    simpa [scoreInto, ready, empty] using pushed

end Covered

theorem scoreInto_of_not_scored (p : PostingList b) (x : Descriptor b) (buffer : Array Score)
    (h : p.isReady = false ∨ p.postings = []) : p.scoreInto x buffer = .ok #[] := by
  rcases h with not_ready | empty
  · simp [scoreInto, not_ready]
  · simp [scoreInto, empty]

/-- Scoring a list whose table has a weight for each distance gives the images in ascending
order with their scores by definition, whatever the buffer held. A list that is not ready or
has no postings scores nothing. The scored images are those that occur, and their number is
what the idf weight is made from. -/
theorem scoreInto_eq (p : PostingList b) (x : Descriptor b) (buffer : Array Score) :
    (p.isReady → (p.postings.Pairwise fun q r => q.image ≤ r.image) →
      p.table.weights.size = 8 * b + 1 →
      p.scoreInto x buffer = .ok (p.images.map fun i => ⟨i, p.imageScore x i⟩).toArray) ∧
    (p.isReady = false ∨ p.postings = [] → p.scoreInto x buffer = .ok #[]) ∧
    p.score x = (·.toList) <$> p.scoreInto x buffer ∧
    p.images.Pairwise (· < ·) ∧
    (∀ i, i ∈ p.images ↔ ∃ q ∈ p.postings, q.image = i) ∧
    (p.postings ≠ [] → ∀ total, (p.weigh total).idf = idfWeight total p.images.length) := by
  refine ⟨?_, p.scoreInto_of_not_scored x buffer, ?_, p.images_ascending, ?_, ?_⟩
  · intro ready sorted covers
    exact scoreInto_of_sorted covers x buffer ready sorted
  · simp [score, scoreInto]
  · intro i
    exact mem_images
  · intro some_left total
    simp [weigh, some_left]

/-- Two postings of image 2 and one of image 5; a vote weighs one less for each
disagreement. -/
def twoImages : PostingList 1 :=
  ⟨.ready, ⟨0x40000000⟩, [⟨2, ⟨#v[0x0f]⟩⟩, ⟨2, ⟨#v[0x0e]⟩⟩, ⟨5, ⟨#v[0xf0]⟩⟩], .initial,
    ⟨#[.ofNat 8, .ofNat 7, .ofNat 6, .ofNat 5, .ofNat 4, .ofNat 3, .ofNat 2, .ofNat 1, .zero]⟩⟩

/-- A descriptor whose first four numbers are one and whose others are zero. -/
def halfAbove : Descriptor 1 := .ofFn fun d => if d < 4 then ⟨0x3f800000⟩ else .zero

theorem scoreInto_eq_twoImages :
    twoImages.isReady ∧ (twoImages.postings.Pairwise fun q r => q.image ≤ r.image) ∧
    twoImages.table.weights.size = 8 * 1 + 1 ∧
    twoImages.scoreInto halfAbove #[⟨9, .zero⟩] = .ok #[
      ⟨2, (Single.zero + .ofNat 8 + .ofNat 7) / (Single.ofNat 2).sqrt *
        (twoImages.idf * twoImages.idf)⟩,
      ⟨5, (Single.zero + .zero) / (Single.ofNat 1).sqrt * (twoImages.idf * twoImages.idf)⟩] := by
  have ready : twoImages.isReady := by decide
  have sorted : twoImages.postings.Pairwise fun q r => q.image ≤ r.image := by decide
  have covers : twoImages.table.weights.size = 8 * 1 + 1 := by decide
  have images : twoImages.images = [2, 5] := by
    rw [images, List.mergeSort_of_pairwise (by decide)]
    rfl
  obtain ⟨scored, -⟩ := twoImages.scoreInto_eq halfAbove #[⟨9, .zero⟩]
  refine ⟨ready, sorted, covers, ?_⟩
  rw [scored ready sorted covers, images]
  rfl

end VisualIndex.PostingList
