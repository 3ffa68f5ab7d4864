import Mathlib.Data.List.TakeWhile
import VisualIndex.Proofs.SelfSimilaritySums

/-! The self-similarities of one list.

Adding goes through the postings in their order and stops at the first whose image has no slot.
What it leaves is known from the postings before that one alone: each has added once to the slot
of its image, and a slot that none of them is of is left as it was. -/
namespace VisualIndex.PostingList

variable {b : Nat}

/-- The postings before the first whose image is beyond a number of slots. -/
def slotted (p : PostingList b) (slots : Nat) : List (Posting b) :=
  p.postings.takeWhile fun q => decide (q.image.toInt < (slots : Int))

/-- The first posting whose image is beyond a number of slots. -/
def firstBeyond? (p : PostingList b) (slots : Nat) : Option (Posting b) :=
  p.postings.find? fun q => decide ((slots : Int) ≤ q.image.toInt)

theorem foldl_replicate_add (n : Nat) (x amount : Double) :
    (List.replicate n amount).foldl (· + ·) x = (· + amount)^[n] x := by
  induction n generalizing x with
  | zero => rfl
  | succ n ih => rw [List.replicate_succ, List.foldl_cons, ih, Function.iterate_succ_apply]

theorem slot?_ne_none_of_lt {image : ImageId} (nonnegative : 0 ≤ image) {slots : Nat}
    (inside : image.toInt < (slots : Int)) : slot? image slots ≠ none := fun missing =>
  absurd ((slot?_eq_none_iff nonnegative slots).mp missing) (Int.not_le.mpr inside)

/-- Adding leaves the sums that the postings with slots make, whatever comes after them. -/
theorem addSelfSimilarities_slotted {p : PostingList b} (ids : p.IdsValid) (sums : Array Double) :
    ∃ added : Array Double, added.size = sums.size ∧
      p.addSelfSimilarities sums =
        (added, (p.firstBeyond? sums.size).map fun q => .imageBeyondSums q.image sums.size) ∧
      ∀ j : Nat, added[j]? = sums[j]?.map ((List.replicate ((p.slotted sums.size).countP fun q =>
        decide (q.image.toInt = (j : Int))) p.squaredIdf).foldl (· + ·)) := by
  rw [addSelfSimilarities]
  cases found : p.firstBeyond? sums.size with
  | none =>
    have inside : ∀ q ∈ p.postings, q.image.toInt < (sums.size : Int) := by
      simpa [firstBeyond?] using found
    have all : p.slotted sums.size = p.postings :=
      List.takeWhile_eq_self_iff.mpr fun q there => decide_eq_true (inside q there)
    obtain ⟨added, size, result, entries⟩ := addToSlots_append p.squaredIdf [] fun q there =>
      slot?_ne_none_of_lt (ids q there) (inside q there)
    rw [List.append_nil] at result
    exact ⟨added, size, result, all ▸ entries⟩
  | some q =>
    obtain ⟨beyond, front, back, split, before⟩ := List.find?_eq_some_iff_append.mp found
    rw [decide_eq_true_iff] at beyond
    have inside : ∀ r ∈ front, r.image.toInt < (sums.size : Int) := by simpa using before
    have valid : ∀ r ∈ front ++ q :: back, 0 ≤ r.image := split ▸ ids
    have first : p.slotted sums.size = front := by
      rw [slotted, split, List.takeWhile_append_of_pos (by simpa using inside),
        List.takeWhile_cons_of_neg (by simpa using beyond), List.append_nil]
    have missing := (slot?_eq_none_iff (valid q (by simp)) sums.size).mpr beyond
    obtain ⟨added, size, result, entries⟩ :=
      addToSlots_append p.squaredIdf (q :: back) fun r there =>
        slot?_ne_none_of_lt (valid r (List.mem_append_left _ there)) (inside r there)
    refine ⟨added, size, ?_, first ▸ entries⟩
    rw [split, result, addToSlots_stop p.squaredIdf back (size ▸ missing), size]
    rfl

/-- The list is only read. The first posting in its order whose image has no slot is reported,
and one is reported exactly if there is such a posting. Whether or not one is, each slot has
then grown by the squared idf weight once for each posting of its image before that one, and a
slot without such postings is what it was. -/
theorem addSelfSimilarities_stops {p : PostingList b} (ids : p.IdsValid) (sums : Array Double) :
    (p.addSelfSimilarities sums).2 =
      ((p.firstBeyond? sums.size).map fun q => .imageBeyondSums q.image sums.size) ∧
    ((p.addSelfSimilarities sums).2 ≠ none ↔
      ∃ q ∈ p.postings, (sums.size : Int) ≤ q.image.toInt) ∧
    (p.addSelfSimilarities sums).1.size = sums.size ∧
    ∀ j : Nat, (p.addSelfSimilarities sums).1[j]? = sums[j]?.map
        (· + (p.idf * p.idf).widen)^[(p.slotted sums.size).countP fun q =>
          decide (q.image.toInt = (j : Int))] ∧
      ((∀ q ∈ p.slotted sums.size, q.image.toInt ≠ (j : Int)) →
        (p.addSelfSimilarities sums).1[j]? = sums[j]?) := by
  obtain ⟨added, size, result, entries⟩ := addSelfSimilarities_slotted ids sums
  have grown (j : Nat) : added[j]? = sums[j]?.map
      (· + (p.idf * p.idf).widen)^[(p.slotted sums.size).countP fun q =>
        decide (q.image.toInt = (j : Int))] := by
    rw [entries j]
    exact congrArg (sums[j]?.map ·) (funext fun x => foldl_replicate_add _ x _)
  rw [result]
  refine ⟨rfl, ?_, size, fun j => ⟨grown j, fun absent => ?_⟩⟩
  · simp [firstBeyond?]
  · have never : ((p.slotted sums.size).countP fun q => decide (q.image.toInt = (j : Int))) = 0 :=
      List.countP_eq_zero.mpr fun q there => by simpa using absent q there
    rw [grown j, never, Function.iterate_zero, Option.map_id, id]

/-- A list of weight two with the images 1, 0, 1, 7 and 1. -/
def farImage : PostingList 1 :=
  ⟨.blank, ⟨0x40000000⟩, [⟨1, .allClear⟩, ⟨0, .allSet⟩, ⟨1, .allSet⟩, ⟨7, .allClear⟩,
    ⟨1, .allClear⟩], .initial, ⟨#[]⟩⟩

/-- Zero, one and a NaN. -/
def threeSums : Array Double := #[.zero, .ofNat 1, ⟨0x7ff4000000000001⟩]

theorem addSelfSimilarities_stops_farImage :
    farImage.IdsValid ∧
    (farImage.addSelfSimilarities threeSums).2 = some (.imageBeyondSums 7 3) ∧
    (farImage.addSelfSimilarities threeSums).1[0]? = some (.ofNat 4) ∧
    (farImage.addSelfSimilarities threeSums).1[1]? = some (.ofNat 9) ∧
    (farImage.addSelfSimilarities threeSums).1[2]? = some ⟨0x7ff4000000000001⟩ := by
  have ids : farImage.IdsValid := by decide
  obtain ⟨reported, -, -, slots⟩ := addSelfSimilarities_stops ids threeSums
  exact ⟨ids, reported, (slots 0).1.trans (by decide +kernel),
    (slots 1).1.trans (by decide +kernel), (slots 2).2 (by decide)⟩

end VisualIndex.PostingList
