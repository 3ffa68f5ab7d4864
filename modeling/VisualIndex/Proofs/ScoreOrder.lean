import VisualIndex.Proofs.Collections
import VisualIndex.Proofs.ImageScores

/-! The order of the scores.

Scoring gives one score for each run, so the scores ascend, one for each image, exactly where
the postings of a ready list are in the order of their images. What the changes of a list do
themselves keeps the sorted flag true to that order. A record is read with the flag that it
carries, and one that is flagged as sorted and is not makes a list in which an image scores
more than once. -/
namespace VisualIndex

theorem Status.sorted_of_isReady {s : Status} (ready : s.isReady) : s.contains .sorted := by
  have both : s.bits &&& 3 = 3 := of_decide_eq_true ready
  apply decide_eq_true
  change s.bits &&& 2 = 2
  calc s.bits &&& 2 = s.bits &&& 3 &&& 2 := by rw [UInt8.and_assoc]; rfl
    _ = 2 := by rw [both]; rfl

namespace PostingList
variable {b : Nat}

section Covered
variable {p : PostingList b} (covers : p.table.weights.size = 8 * b + 1)
include covers

theorem pushScores_images (x : Descriptor b) (parts : List (List (Posting b)))
    (buffer : Array Score) :
    ∃ scores, p.pushScores (p.embedding.quantize x) parts buffer = .ok scores ∧
      scores.toList.map (·.image) = buffer.toList.map (·.image) ++
        parts.filterMap fun run => run.head?.map (·.image) := by
  induction parts generalizing buffer with
  | nil => exact ⟨buffer, rfl, (List.append_nil _).symm⟩
  | cons run parts ih =>
    cases run with
    | nil => exact ih buffer
    | cons vote votes =>
      have value : ∃ value, p.scoreOfVotes (p.embedding.quantize x) (vote :: votes) =
          .ok value := by
        rw [scoreOfVotes, sumWeights_eq covers]
        exact ⟨_, rfl⟩
      obtain ⟨value, scored⟩ := value
      obtain ⟨scores, pushed, images⟩ := ih (buffer.push ⟨vote.image, value⟩)
      refine ⟨scores, ?_, ?_⟩
      · rw [pushScores, scored]
        exact pushed
      · simpa using images

/-- A ready list scores the images that its runs show, in the order of the runs. -/
theorem score_images (x : Descriptor b) : ∃ scores, p.score x = .ok scores ∧
    scores.map (·.image) =
      if p.isReady then withoutRepeats (p.postings.map (·.image)) else [] := by
  by_cases unscored : p.isReady = false ∨ p.postings = []
  · refine ⟨[], ?_, ?_⟩
    · rw [score, p.scoreInto_of_not_scored x #[] unscored]
      rfl
    · rcases unscored with not_ready | empty
      · simp [not_ready]
      · simp [empty, withoutRepeats]
  · obtain ⟨ready, nonempty⟩ := not_or.mp unscored
    obtain ⟨scores, pushed, images⟩ := pushScores_images covers x (runs p.postings) #[]
    refine ⟨scores.toList, ?_, ?_⟩
    · simp [score, scoreInto, ready, nonempty, pushed]
    · rw [images, images_of_runs]
      simp [ready]

theorem score_ascending_iff (x : Descriptor b) : ∃ scores, p.score x = .ok scores ∧
    ((scores.map (·.image)).Pairwise (· < ·) ↔
      (p.isReady → p.postings.Pairwise fun q r => q.image ≤ r.image)) := by
  obtain ⟨scores, scored, images⟩ := score_images covers x
  refine ⟨scores, scored, ?_⟩
  rw [images]
  by_cases ready : p.isReady
  · rw [if_pos ready]
    constructor
    · intro ascending _
      exact List.pairwise_map.mp (ordered_of_withoutRepeats_ascending ascending)
    · intro ordered
      exact withoutRepeats_ascending (List.pairwise_map.mpr (ordered ready))
  · rw [if_neg ready]
    constructor
    · intro _ is_ready
      exact absurd is_ready ready
    · intro _
      exact .nil

theorem OrderAgrees.score_ascending (agrees : p.OrderAgrees) (x : Descriptor b) :
    ∃ scores, p.score x = .ok scores ∧ (scores.map (·.image)).Pairwise (· < ·) := by
  obtain ⟨scores, scored, ascending_iff⟩ := score_ascending_iff covers x
  exact ⟨scores, scored, ascending_iff.mpr fun ready => agrees (Status.sorted_of_isReady ready)⟩

end Covered

end PostingList

namespace Collection
variable {b : Nat}

/-- A record that is read in full is flagged as sorted only if its postings are in order. -/
def ReadsInOrder (_ : Collection b) : Action b → Prop
  | .change _ c => ∀ (p q : PostingList b) (s t : Source), c.source? = some s →
      p.read s = (.ok (), q, t) → q.OrderAgrees
  | _ => True

theorem Reached.order_agrees {w : Collection b} (reached : Reached ReadsInOrder w) :
    ∀ p ∈ w.lists, p.OrderAgrees := by
  apply reached.forall_lists PostingList.OrderAgrees
  · intro table p made
    exact (ofTable_good made).1.sorted
  · intro w i c p reads _ agrees
    cases source : c.source? with
    | none => exact (p.apply_effect source).orderAgrees agrees
    | some s =>
      rcases p.apply_eq_self_or_read source with same | ⟨t, read⟩
      · rwa [same]
      · exact reads p (p.apply c) s t source read

/-- Whatever is read, every list can be scored, and its scores ascend, one for each image,
exactly if it is not ready or its postings are in order. They always do where the records
that are read are in order if they are flagged so, as the collection's own records are. -/
theorem Reached.score_order (wide : 0 < b) (w : Collection b) :
    (Reached (fun _ _ => True) w → ∀ p ∈ w.lists, ∀ x, ∃ scores, p.score x = .ok scores ∧
      ((scores.map (·.image)).Pairwise (· < ·) ↔
        (p.isReady → p.postings.Pairwise fun q r => q.image ≤ r.image))) ∧
    (Reached ReadsInOrder w ∨ Reached OwnRecords w → ∀ p ∈ w.lists, ∀ x,
      ∃ scores, p.score x = .ok scores ∧ (scores.map (·.image)).Pairwise (· < ·)) := by
  constructor
  · intro reached p hp x
    exact PostingList.score_ascending_iff (reached.covers wide p hp) x
  · rintro (reached | reached) p hp x
    · exact (reached.order_agrees p hp).score_ascending (reached.covers wide p hp) x
    · have agree := (reached.invariant.lists p hp).1
      exact PostingList.OrderAgrees.score_ascending (reached.covers wide p hp) agree.sorted x

/-- A record that is flagged as trained and sorted, with a posting of each of the images. -/
def readyRecord (images : List UInt8) : List UInt8 :=
  3 :: [0x00, 0x00, 0x80, 0x3f] ++ List.replicate 32 0 ++
    [.ofNat images.length, 0, 0, 0] ++ images.flatMap fun i => [i, 0, 0, 0, 0]

/-- One list that has read such a record. -/
def oneRead (images : List UInt8) : Collection 1 :=
  (empty.step (.create zeroTable)).step (.change 0 (.read (.ofBytes (readyRecord images))))

theorem oneRead_reached (images : List UInt8) : Reached (fun _ _ => True) (oneRead images) :=
  (Reached.empty.step trivial).step trivial

def zeroList : PostingList 1 := ⟨.blank, .zero, [], .initial, zeroTable⟩

def onlyList (images : List UInt8) : PostingList 1 :=
  zeroList.withRecord (PostingList.recordAt 1 (readyRecord images))

theorem oneRead_lists {images : List UInt8}
    (whole : PostingList.stop? 1 (readyRecord images) = none) :
    (oneRead images).lists = [onlyList images] := by
  obtain ⟨t, ht, -⟩ := zeroList.read_from_supply (.ofBytes (readyRecord images))
  rw [Source.supply_ofBytes, whole] at ht
  exact congrArg (fun found => [found.2.1]) ht

/-- The record with the same postings in order is read in order. -/
theorem oneRead_in_order : Reached ReadsInOrder (oneRead [1, 2, 2]) := by
  refine (Reached.empty.step (a := .create zeroTable) trivial).step ?_
  intro p q s t source read
  cases source
  obtain ⟨-, rfl, -⟩ := PostingList.read_eq_ok read
  rw [Source.supply_ofBytes]
  have ordered : (PostingList.recordAt 1 (readyRecord [1, 2, 2])).postings.Pairwise
      fun q r => q.image ≤ r.image := by decide
  exact fun _ => ordered

theorem Reached.score_order_sorted :
    0 < 1 ∧ Reached (fun _ _ => True) (oneRead [1, 2, 2]) ∧
    Reached ReadsInOrder (oneRead [1, 2, 2]) ∧
    ∃ p ∈ (oneRead [1, 2, 2]).lists, p.isReady ∧ p.postings.length = 3 ∧
      (∃ scores, p.score (.replicate 8 .zero) = .ok scores ∧
        (scores.map (·.image)).Pairwise (· < ·)) ∧
      p.postings.Pairwise fun q r => q.image ≤ r.image := by
  have any := oneRead_reached [1, 2, 2]
  have inside : onlyList [1, 2, 2] ∈ (oneRead [1, 2, 2]).lists := by
    rw [oneRead_lists (by decide)]
    exact List.mem_cons_self
  have ready : (onlyList [1, 2, 2]).isReady := by decide
  obtain ⟨exactly, always⟩ := Reached.score_order (by decide) (oneRead [1, 2, 2])
  obtain ⟨scores, scored, ascending⟩ :=
    always (Or.inl oneRead_in_order) _ inside (.replicate 8 .zero)
  obtain ⟨scores', scored', ascending_iff⟩ := exactly any _ inside (.replicate 8 .zero)
  rw [scored] at scored'
  cases scored'
  exact ⟨by decide, any, oneRead_in_order, _, inside, ready, by decide,
    ⟨scores, scored, ascending⟩, ascending_iff.mp ascending ready⟩

/-- Between the two postings of image 2 stands one of image 1, and image 2 scores twice. -/
theorem Reached.score_order_unsorted : Reached (fun _ _ => True) (oneRead [2, 1, 2]) ∧
    ∃ p ∈ (oneRead [2, 1, 2]).lists, ∃ scores, p.score (.replicate 8 .zero) = .ok scores ∧
      scores.map (·.image) = [2, 1, 2] ∧ ¬ (scores.map (·.image)).Pairwise (· < ·) := by
  refine ⟨oneRead_reached _, onlyList [2, 1, 2], ?_, ?_⟩
  · rw [oneRead_lists (by decide)]
    exact List.mem_cons_self
  · have covers : (onlyList [2, 1, 2]).table.weights.size = 8 * 1 + 1 := by decide
    obtain ⟨scores, scored, images⟩ := PostingList.score_images covers (.replicate 8 .zero)
    have shown : scores.map (·.image) = [2, 1, 2] := images.trans (by decide)
    refine ⟨scores, scored, shown, ?_⟩
    rw [shown]
    decide

end Collection

end VisualIndex
