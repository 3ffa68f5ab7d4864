import VisualIndex.Proofs.Comparisons
import VisualIndex.Proofs.VotingTables

/-! Comparing neighbours decides whether the weights of a table fall.

To reach a number is transitive, so a chain of neighbours that reach each other orders all
pairs. NaN is reached by nothing and reaches nothing: wherever it stands in a table of two
weights or more, some pair fails. -/
namespace VisualIndex

namespace Single

theorem Reaches.trans {x y z : Single} (first : x.Reaches y) (second : y.Reaches z) :
    x.Reaches z := by
  obtain ⟨u, v, hu, hv, order⟩ := first
  obtain ⟨v', w, hv', hw, order'⟩ := second
  obtain rfl : v = v' := Option.some.inj (hv.symm.trans hv')
  exact ⟨u, w, hu, hw, order'.trans order⟩

instance : Trans Reaches Reaches Reaches := ⟨Reaches.trans⟩

/-- What takes part in a comparison that holds is a number. -/
theorem Reaches.numbers {x y : Single} (reaches : x.Reaches y) :
    x.isNaN = false ∧ y.isNaN = false := by
  have compared := (ge_iff_reaches x y).mpr reaches
  simp only [ge, Bool.and_eq_true, Bool.not_eq_true'] at compared
  exact compared.1

end Single

namespace WeightTable

theorem descends_iff_pairwise (weights : List Single) :
    descends weights = true ↔ weights.Pairwise Single.Reaches := by
  simp only [descends_iff_isChain, Single.ge_iff_reaches]
  exact List.isChain_iff_pairwise

variable {bits : Nat} {f : Nat → Single}

/-- The weights that are compared are those of the function. -/
theorem isDescending_ofFn_iff :
    (ofFn bits f).isDescending = true ↔ ∀ i j, i < j → j ≤ bits → (f i).Reaches (f j) := by
  rw [isDescending, descends_iff_pairwise, ofFn, Array.toList_map, Array.toList_range,
    List.pairwise_map, List.pairwise_iff_getElem]
  simp only [List.length_range, List.getElem_range]
  constructor
  · intro falls i j less inside
    exact falls i j (by omega) (by omega) less
  · intro falls i j _ inside less
    exact falls i j less (by omega)

theorem size_weights_ofFn (bits : Nat) (f : Nat → Single) :
    (ofFn bits f).weights.size = bits + 1 := by
  simp [ofFn]

/-- The weights of a table are the values of its function. -/
theorem mem_weights_ofFn {weight : Single} :
    weight ∈ (ofFn bits f).weights ↔ ∃ d ≤ bits, f d = weight := by
  rw [ofFn, Array.mem_map]
  simp only [Array.mem_range, Nat.lt_succ_iff]

/-- A NaN fails with the last weight, and the last weight with the first. -/
theorem isDescending_of_isNaN {d : Nat} (several : 0 < bits) (inside : d ≤ bits)
    (missing : (f d).isNaN = true) : (ofFn bits f).isDescending = false := by
  rw [Bool.eq_false_iff]
  intro falls
  have pairs := isDescending_ofFn_iff.mp falls
  rcases Nat.lt_or_eq_of_le inside with before | rfl
  · have number := (pairs d bits before (Nat.le_refl _)).numbers.1
    rw [missing] at number
    cases number
  · have number := (pairs 0 d several (Nat.le_refl _)).numbers.2
    rw [missing] at number
    cases number

/-- The check of neighbours holds exactly if every weight reaches all later ones, and it fails
wherever a NaN stands among two weights or more. -/
theorem isDescending_iff_all_pairs (bits : Nat) (f : Nat → Single) :
    ((ofFn bits f).isDescending = true ↔
      ∀ i j, i < j → j ≤ (ofFn bits f).width → ∃ x y,
        (ofFn bits f).lookup i = .ok x ∧ (ofFn bits f).lookup j = .ok y ∧ x.Reaches y) ∧
    (2 ≤ (ofFn bits f).weights.size →
      (∃ weight ∈ (ofFn bits f).weights, weight.isNaN = true) →
        (ofFn bits f).isDescending = false) := by
  constructor
  · rw [isDescending_ofFn_iff, width_ofFn]
    constructor
    · intro pairs i j less inside
      exact ⟨f i, f j, lookup_ofFn (by omega) f, lookup_ofFn inside f, pairs i j less inside⟩
    · intro pairs i j less inside
      obtain ⟨x, y, first, second, reaches⟩ := pairs i j less inside
      rw [lookup_ofFn (by omega)] at first
      rw [lookup_ofFn inside] at second
      cases first
      cases second
      exact reaches
  · rintro several ⟨weight, present, missing⟩
    obtain ⟨d, inside, rfl⟩ := mem_weights_ofFn.mp present
    rw [size_weights_ofFn] at several
    exact isDescending_of_isNaN (by omega) inside missing

/-- Two, NaN and one: the outer weights fall, and the NaN between them is found. -/
theorem isDescending_iff_all_pairs_innerNaN :
    let f : Nat → Single := fun d => if d = 0 then ⟨0x40000000⟩ else if d = 1 then ⟨0x7fc00000⟩
      else ⟨0x3f800000⟩
    (f 0).Reaches (f 2) ∧ 2 ≤ (ofFn 2 f).weights.size ∧
      (∃ weight ∈ (ofFn 2 f).weights, weight.isNaN = true) ∧ (ofFn 2 f).isDescending = false := by
  intro f
  have several : 2 ≤ (ofFn 2 f).weights.size := by simp [size_weights_ofFn]
  have missing : ∃ weight ∈ (ofFn 2 f).weights, weight.isNaN = true :=
    ⟨⟨0x7fc00000⟩, mem_weights_ofFn.mpr ⟨1, by decide, rfl⟩, by decide⟩
  exact ⟨by decide, several, missing, (isDescending_iff_all_pairs 2 f).2 several missing⟩

end WeightTable

end VisualIndex
