import Mathlib.Data.Finset.Card
import VisualIndex.Proofs.FinishingOrder
import VisualIndex.Proofs.Rounding

/-! The weight of a word by the images it occurs in.

The list of images has each image once, so its length is the size of the set of images, however
often an image occurs and in whatever order. The idf weight is a function of that number alone,
and there is at least one image where there is a posting. -/
namespace VisualIndex

/-- A positive number does not become zero as a double. -/
theorem Double.ofNat_ne_zero {n : Nat} (positive : 0 < n) : Double.ofNat n ≠ .zero := by
  intro zero
  have least : doubleFormat.ofNat 1 ≤ doubleFormat.ofNat n :=
    doubleFormat.ofNat_mono (by decide) positive
  have one : 0 < doubleFormat.ofNat 1 := by decide +kernel
  have bound : doubleFormat.ofNat n ≤ doubleFormat.infinity := doubleFormat.round_le_infinity _ _
  have range : doubleFormat.infinity < UInt64.size := by decide
  have code : doubleFormat.ofNat n = 0 := by
    have bits := congrArg (fun x : Double => x.bits.toNat) zero
    simp only [Double.ofNat, Double.ofCode] at bits
    rwa [UInt64.toNat_ofNat_of_lt' (by omega)] at bits
  omega

namespace PostingList

variable {b c : Nat}

/-- The images that occur, as a set. -/
def imageSet (p : PostingList b) : Finset ImageId := (p.postings.map (·.image)).toFinset

theorem mem_imageSet {p : PostingList b} {i : ImageId} :
    i ∈ p.imageSet ↔ ∃ q ∈ p.postings, q.image = i := by
  rw [imageSet, List.mem_toFinset, List.mem_map]

theorem length_images (p : PostingList b) : p.images.length = p.imageSet.card := by
  have once : p.images.Nodup := p.images_ascending.imp fun less => Int32.ne_of_lt less
  have same : p.images.toFinset = p.imageSet := by
    ext i
    rw [List.mem_toFinset, mem_images, mem_imageSet]
  rw [← same, List.toFinset_card_of_nodup once]

theorem imageSet_nonempty_iff {p : PostingList b} : p.imageSet.Nonempty ↔ p.postings ≠ [] := by
  rw [imageSet, List.toFinset_nonempty_iff, ne_eq, List.map_eq_nil_iff]

/-- No more images than postings. -/
theorem card_imageSet_le (p : PostingList b) : p.imageSet.card ≤ p.postings.length := by
  have bound := List.toFinset_card_le (p.postings.map (·.image))
  rwa [List.length_map] at bound

theorem idf_weigh {p : PostingList b} (some : p.postings ≠ []) (total : Nat) :
    (p.weigh total).idf = idfWeight total p.imageSet.card := by
  rw [weigh, if_neg (by simpa using some), length_images]

/-- A further posting of an image that occurs adds no image. -/
theorem imageSet_add {p q : PostingList b} {image : ImageId} {x : Descriptor b}
    (occurs : image ∈ p.imageSet) (added : p.add image x = .ok q) : q.imageSet = p.imageSet := by
  obtain ⟨-, rfl⟩ := add_eq_ok added
  simp only [imageSet, List.map_append, List.map_cons, List.map_nil, List.toFinset_append]
  rw [List.toFinset_cons, List.toFinset_nil, insert_empty_eq, Finset.union_eq_left]
  exact Finset.singleton_subset_iff.mpr occurs

/-- Weighing depends on the set of images alone and changes nothing but the weight. -/
theorem weigh_by_images (p : PostingList b) (total : Nat) :
    (p.postings ≠ [] →
      1 ≤ p.imageSet.card ∧ p.imageSet.card ≤ p.postings.length ∧
      Double.ofNat p.imageSet.card ≠ .zero ∧
      (p.weigh total).idf =
        (Double.ofNat 1 + Double.ofNat total / Double.ofNat p.imageSet.card).log.narrow ∧
      (∀ {c : Nat} (q : PostingList c), q.imageSet = p.imageSet →
        (q.weigh total).idf = (p.weigh total).idf) ∧
      ∀ image ∈ p.imageSet, 0 ≤ image → ∀ x, ∃ q, p.add image x = .ok q ∧
        (q.weigh total).idf = (p.weigh total).idf) ∧
    (p.postings = [] → (p.weigh total).idf = p.idf) ∧
    p.weigh total = { p with idf := (p.weigh total).idf } := by
  refine ⟨fun some => ?_, fun none => ?_, ?_⟩
  · have positive : 0 < p.imageSet.card := Finset.card_pos.mpr (imageSet_nonempty_iff.mpr some)
    have weighs : ∀ {c : Nat} (q : PostingList c), q.imageSet = p.imageSet →
        (q.weigh total).idf = (p.weigh total).idf := by
      intro c q same
      have occupied : q.postings ≠ [] := by
        rw [← imageSet_nonempty_iff, same, imageSet_nonempty_iff]
        exact some
      rw [idf_weigh some, idf_weigh occupied, same]
    refine ⟨positive, p.card_imageSet_le, Double.ofNat_ne_zero positive, idf_weigh some total,
      weighs, ?_⟩
    intro image occurs valid x
    have added : p.add image x = .ok _ := if_neg (Int32.not_lt.mpr valid)
    exact ⟨_, added, weighs _ (imageSet_add occurs added)⟩
  · simp [weigh, none]
  · obtain ⟨idf, weighed⟩ := p.weigh_eq total
    rw [weighed]

/-- Two images, one of them twice and with different signatures. -/
def repeatedImage : PostingList 1 :=
  ⟨.blank, .zero, [⟨2, .allClear⟩, ⟨1, .allSet⟩, ⟨1, .allClear⟩], .initial, Collection.zeroTable⟩

/-- The same images in a list of another width. -/
def eachOnce : PostingList 2 :=
  ⟨.trained, ⟨0x7fc00000⟩, [⟨1, .allClear⟩, ⟨2, .allSet⟩], .initial, ⟨.replicate 17 .zero⟩⟩

/-- Three images in all weigh both lists by the logarithm of 5/2. -/
theorem weigh_by_images_repeatedImage :
    repeatedImage.postings ≠ [] ∧ eachOnce.imageSet = repeatedImage.imageSet ∧
      (eachOnce.weigh 3).idf = (repeatedImage.weigh 3).idf ∧
      (repeatedImage.weigh 3).idf = ⟨0x3f6a9208⟩ ∧
      ∃ q, repeatedImage.add 1 (.replicate 8 .zero) = .ok q ∧
        (q.weigh 3).idf = (repeatedImage.weigh 3).idf := by
  have some : repeatedImage.postings ≠ [] := List.cons_ne_nil _ _
  have same : eachOnce.imageSet = repeatedImage.imageSet := by decide
  obtain ⟨-, -, -, weight, alike, further⟩ := (weigh_by_images repeatedImage 3).1 some
  have value : (Double.ofNat 1 + Double.ofNat 3 /
      Double.ofNat repeatedImage.imageSet.card).log.narrow = ⟨0x3f6a9208⟩ := by decide +kernel
  exact ⟨some, same, alike eachOnce same, weight.trans value,
    further 1 (by decide) (by decide) _⟩

end PostingList

end VisualIndex
