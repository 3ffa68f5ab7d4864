import VisualIndex.Proofs.Comparisons
import VisualIndex.Proofs.ScoringBounds

/-! The bits of quantized descriptors.

Writing the bits of a descriptor one after the other and reading them back agree on where each
bit is, so a bit is set exactly if the number of its dimension exceeds the threshold. Counting
the differing bits of two codes then counts the dimensions on whose threshold the descriptors
disagree, and a descriptor that reaches another one in a dimension has its bit there as well. -/
namespace VisualIndex.Embedding

variable {b : Nat}

/-- A descriptor lies above the threshold of a dimension. -/
def LiesAbove (e : Embedding b) (x : Descriptor b) (i : Fin (8 * b)) : Prop :=
  (x.get i).Exceeds (e.thresholds.get i)

instance (e : Embedding b) (x : Descriptor b) (i : Fin (8 * b)) : Decidable (e.LiesAbove x i) :=
  inferInstanceAs (Decidable (Single.Exceeds _ _))

theorem gt_eq_liesAbove (e : Embedding b) (x : Descriptor b) (i : Fin (8 * b)) :
    (x.get i).gt (e.thresholds.get i) = decide (e.LiesAbove x i) := by
  rw [Bool.eq_iff_iff, decide_eq_true_iff]
  exact Single.gt_iff_exceeds _ _

theorem bit?_eq_liesAbove (e : Embedding b) (x : Descriptor b) (i : Fin (8 * b)) :
    (e.quantize x).bit? i = some (decide (e.LiesAbove x i)) := by
  rw [e.bit?_quantize x i, e.gt_eq_liesAbove x i]

theorem distance_eq_disagreements (e : Embedding b) (x y : Descriptor b) :
    (e.quantize x).distance (e.quantize y) = (List.finRange (8 * b)).countP fun i =>
      decide (e.LiesAbove x i) != decide (e.LiesAbove y i) := by
  rw [e.distance_quantize, disagreements]
  refine List.countP_congr fun i _ => ?_
  rw [e.bit?_eq_liesAbove y i, e.gt_eq_liesAbove x i, bne_comm]
  simp

/-- The code of a descriptor is what writing one bit after the other makes. Each of its bits tells
exactly whether the descriptor lies above the threshold there, and the distance of two codes is
the number of dimensions in which only one of the descriptors does. Raising a descriptor sets
more bits and clears none. -/
theorem quantized_bits (e : Embedding b) (x y : Descriptor b) :
    e.markAbove x (List.finRange (8 * b)) .allClear = .ok (e.quantize x) ∧
    (∀ i : Fin (8 * b), (e.quantize x).bit? i = some (decide (e.LiesAbove x i))) ∧
    (e.quantize x).distance (e.quantize y) = ((List.finRange (8 * b)).countP fun i =>
      decide (e.LiesAbove x i) != decide (e.LiesAbove y i)) ∧
    ((∀ i, (y.get i).Reaches (x.get i)) →
      ∀ i : Fin (8 * b), (e.quantize x).bit? i = some true →
        (e.quantize y).bit? i = some true) := by
  refine ⟨e.markAbove_eq_quantize x, e.bit?_eq_liesAbove x, e.distance_eq_disagreements x y, ?_⟩
  rintro raised i set
  rw [bit?_eq_liesAbove, Option.some_inj, decide_eq_true_iff] at set ⊢
  exact (raised i).exceeds set

/-- Thresholds with both zeros, both infinities and two kinds of NaN. -/
def oddThresholds : Embedding 1 := ⟨#v[⟨0⟩, ⟨0x80000000⟩, ⟨0x7fc00000⟩, ⟨0x3f800000⟩,
  ⟨0xff800000⟩, ⟨0x7f800000⟩, ⟨1⟩, ⟨0xffa00001⟩]⟩

/-- A descriptor that lies above the threshold at negative infinity only. -/
def lowDescriptor : Descriptor 1 := #v[⟨0x80000000⟩, ⟨0⟩, ⟨0x7f800000⟩, ⟨0x3f800000⟩,
  ⟨0xbf800000⟩, ⟨0x7f7fffff⟩, ⟨0⟩, ⟨0x3f800000⟩]

/-- The same descriptor, raised in some dimensions and with the other zero in one. -/
def raisedDescriptor : Descriptor 1 := #v[⟨1⟩, ⟨0x80000000⟩, ⟨0x7f800000⟩, ⟨0x3f800001⟩,
  ⟨0xbf800000⟩, ⟨0x7f800000⟩, ⟨0x3f800000⟩, ⟨0x40000000⟩]

theorem quantized_bits_raisedDescriptor :
    (∀ i, (raisedDescriptor.get i).Reaches (lowDescriptor.get i)) ∧
    (oddThresholds.quantize lowDescriptor).bit? 4 = some true ∧
    (oddThresholds.quantize raisedDescriptor).bit? 4 = some true ∧
    (oddThresholds.quantize lowDescriptor).distance
      (oddThresholds.quantize raisedDescriptor) = 3 ∧
    (oddThresholds.quantize lowDescriptor).distance
      (oddThresholds.quantize (.replicate 8 ⟨0x7fc00000⟩)) = 1 := by
  have raised : ∀ i, (raisedDescriptor.get i).Reaches (lowDescriptor.get i) := by decide
  obtain ⟨-, bits, apart, more⟩ := quantized_bits oddThresholds lowDescriptor raisedDescriptor
  obtain ⟨-, -, apart', -⟩ :=
    quantized_bits oddThresholds lowDescriptor (.replicate 8 ⟨0x7fc00000⟩)
  have set : (oddThresholds.quantize lowDescriptor).bit? 4 = some true :=
    (bits 4).trans (by decide)
  exact ⟨raised, set, more raised 4 set, apart.trans (by decide), apart'.trans (by decide)⟩

end VisualIndex.Embedding
