import Mathlib.Data.List.Sort
import Mathlib.Data.Prod.Lex
import VisualIndex.Proofs.Comparisons
import VisualIndex.Score

/-! Rankings of scores.

Scores are compared by their places, which are pairs in lexicographic order: the rank of the
value and then the image. So they are in a total order in which only scores of one image come
to the same place, and whatever order some scores come in, sorting them lines up the same
images. -/
namespace VisualIndex.Score

/-- The place in the order of scores. -/
def place (s : Score) : Int ×ₗ Int := toLex (s.value.rank, s.image.toInt)

theorem compare_eq (s t : Score) : s.compare t = Ord.compare s.place t.place := rfl

theorem compare_self (s : Score) : s.compare s = .eq := by
  rw [compare_eq, compare_eq_iff_eq]

theorem compare_swap (s t : Score) : s.compare t = (t.compare s).swap := by
  rw [compare_eq, compare_eq]
  exact Std.OrientedOrd.eq_swap

theorem isLE_compare_iff (s t : Score) : (s.compare t).isLE ↔ s.place ≤ t.place := by
  rw [compare_eq, ← compare_le_iff_le]
  cases Ord.compare s.place t.place <;> simp

theorem compare_trans {r s t : Score} (first : (r.compare s).isLE) (second : (s.compare t).isLE) :
    (r.compare t).isLE := by
  rw [isLE_compare_iff] at first second ⊢
  exact first.trans second

theorem compare_total (s t : Score) : (s.compare t).isLE ∨ (t.compare s).isLE := by
  simp only [isLE_compare_iff]
  exact le_total s.place t.place

theorem image_of_place (s : Score) : Int32.ofInt (ofLex s.place).2 = s.image :=
  Int32.ofInt_toInt s.image

theorem image_eq_of_place_eq {s t : Score} (same : s.place = t.place) : s.image = t.image := by
  rw [← image_of_place s, same, image_of_place]

theorem compare_of_rank_lt {s t : Score} (less : t.value.rank < s.value.rank) :
    s.compare t = .gt := by
  rw [compare_eq, compare_gt_iff_gt]
  exact Prod.Lex.toLex_lt_toLex.mpr (.inl less)

theorem compare_of_exceeds {s t : Score} (greater : s.value.Exceeds t.value) :
    s.compare t = .gt := by
  rw [← Single.gt_iff_exceeds, Single.gt_iff] at greater
  exact compare_of_rank_lt greater.2

theorem compare_of_isNaN {s t : Score} (missing : s.value.isNaN)
    (number : t.value.isNaN = false) : s.compare t = .gt := by
  have bound := (Single.key_bounds number).2
  apply compare_of_rank_lt
  rw [Single.rank_of_number number, Single.rank_of_isNaN missing]
  omega

/-- Scores from the lowest to the highest. -/
def Ordered (scores : List Score) : Prop := scores.Pairwise fun s t => (s.compare t).isLE

instance (scores : List Score) : Decidable (Ordered scores) :=
  inferInstanceAs (Decidable (scores.Pairwise _))

namespace Ordered
variable {up up' : List Score} {m : Score}

theorem places (ordered : Ordered up) : (up.map place).Pairwise (· ≤ ·) :=
  List.pairwise_map.mpr (ordered.imp (isLE_compare_iff _ _).mp)

/-- However scores are put in order, the images stand in the same order. -/
theorem images_eq (ordered : Ordered up) (ordered' : Ordered up') (same : up.Perm up') :
    up.map (·.image) = up'.map (·.image) := by
  have images (scores : List Score) :
      scores.map (·.image) = (scores.map place).map fun p => Int32.ofInt (ofLex p).2 := by
    rw [List.map_map]
    exact List.map_congr_left fun s _ => s.image_of_place.symm
  have places : up.map place = up'.map place :=
    (same.map place).eq_of_pairwise' ordered.places ordered'.places
  rw [images up, places, ← images up']

theorem last_image (ordered : Ordered up) (there : m ∈ up)
    (greatest : ∀ t ∈ up, t.place ≤ m.place) : (up.map (·.image)).getLast? = some m.image := by
  obtain ⟨front, last, rfl⟩ := up.eq_nil_or_concat'.resolve_left (List.ne_nil_of_mem there)
  have below : m.place ≤ last.place := by
    rcases List.mem_append.mp there with before | here
    · have order := (List.pairwise_append.mp ordered).2.2 m before last List.mem_cons_self
      exact (isLE_compare_iff m last).mp order
    · rw [List.mem_singleton.mp here]
  have same := le_antisymm (greatest last (by simp)) below
  simp [image_eq_of_place_eq same]

theorem first_image (ordered : Ordered up) (there : m ∈ up)
    (least : ∀ t ∈ up, m.place ≤ t.place) : (up.map (·.image)).head? = some m.image := by
  obtain ⟨first, rest, rfl⟩ := List.exists_cons_of_ne_nil (List.ne_nil_of_mem there)
  have above : first.place ≤ m.place := by
    rcases List.mem_cons.mp there with rfl | later
    · exact le_rfl
    · exact (isLE_compare_iff first m).mp ((List.pairwise_cons.mp ordered).1 m later)
  have same := le_antisymm above (least first List.mem_cons_self)
  simp [image_eq_of_place_eq same]

end Ordered

theorem ascending_perm (scores : List Score) : (ascending scores).Perm scores :=
  List.mergeSort_perm scores _

theorem ranked_perm (scores : List Score) : (ranked scores).Perm scores :=
  List.mergeSort_perm scores _

theorem ordered_ascending (scores : List Score) : Ordered (ascending scores) := by
  have sorted := @List.pairwise_mergeSort Score (fun s t => (s.compare t).isLE)
    (fun _ _ _ => compare_trans) (fun s t => (Bool.or_eq_true _ _).mpr (s.compare_total t)) scores
  exact sorted

theorem ordered_reverse_ranked (scores : List Score) : Ordered (ranked scores).reverse := by
  have sorted := @List.pairwise_mergeSort Score (fun s t => (t.compare s).isLE)
    (fun _ _ _ first second => compare_trans second first)
    (fun s t => (Bool.or_eq_true _ _).mpr (t.compare_total s)) scores
  exact List.pairwise_reverse.mpr sorted

/-- Going through scores with the better of two at each step ends with the best of all. -/
theorem foldl_choice (below : Score → Score → Prop) (refl : ∀ s, below s s)
    (trans : ∀ {r s t}, below r s → below s t → below r t) {choice : Score → Score → Score}
    (either : ∀ s t, choice s t = s ∨ choice s t = t)
    (best : ∀ s t, below s (choice s t) ∧ below t (choice s t)) (rest : List Score)
    (first : Score) : rest.foldl choice first ∈ first :: rest ∧
      ∀ t ∈ first :: rest, below t (rest.foldl choice first) := by
  -- on the scores still to come, for every best score so far
  induction rest generalizing first with
  | nil => exact ⟨List.mem_cons_self, by simpa using refl first⟩
  | cons s rest ih =>
    obtain ⟨there, above⟩ := ih (choice first s)
    have chosen := above _ List.mem_cons_self
    refine ⟨?_, List.forall_mem_cons.mpr ⟨?_, List.forall_mem_cons.mpr ⟨?_, ?_⟩⟩⟩
    · rcases List.mem_cons.mp there with same | later
      · rw [List.foldl_cons, same]
        rcases either first s with left | right
        · simp [left]
        · simp [right]
      · exact List.mem_cons_of_mem _ (List.mem_cons_of_mem _ later)
    · exact trans (best first s).1 chosen
    · exact trans (best first s).2 chosen
    · exact fun t later => above t (List.mem_cons_of_mem _ later)

theorem highest?_spec {scores : List Score} (nonempty : scores ≠ []) :
    ∃ m ∈ scores, highest? scores = some m ∧ ∀ t ∈ scores, t.place ≤ m.place := by
  obtain ⟨first, rest, rfl⟩ := List.exists_cons_of_ne_nil nonempty
  have better (s t : Score) : s.place ≤ (if (s.compare t).isLE then t else s).place ∧
      t.place ≤ (if (s.compare t).isLE then t else s).place := by
    by_cases order : s.place ≤ t.place
    · simp [isLE_compare_iff, order]
    · simp [isLE_compare_iff, order, le_of_not_ge order]
  obtain ⟨there, greatest⟩ := foldl_choice (fun s t => s.place ≤ t.place)
    (fun _ => le_rfl) le_trans
    (fun s t => (ite_eq_or_eq _ t s).symm) better rest first
  exact ⟨_, there, rfl, greatest⟩

theorem lowest?_spec {scores : List Score} (nonempty : scores ≠ []) :
    ∃ m ∈ scores, lowest? scores = some m ∧ ∀ t ∈ scores, m.place ≤ t.place := by
  obtain ⟨first, rest, rfl⟩ := List.exists_cons_of_ne_nil nonempty
  have better (s t : Score) : s.place ≥ (if (s.compare t).isLE then s else t).place ∧
      t.place ≥ (if (s.compare t).isLE then s else t).place := by
    by_cases order : s.place ≤ t.place
    · simp [isLE_compare_iff, order]
    · simp [isLE_compare_iff, order, le_of_not_ge order]
  obtain ⟨there, least⟩ := foldl_choice (fun s t => s.place ≥ t.place)
    (fun _ => le_rfl) ge_trans
    (fun s t => ite_eq_or_eq _ s t) better rest first
  exact ⟨_, there, rfl, least⟩

theorem ranked_images {scores scores' : List Score} (same : scores'.Perm scores) :
    (ranked scores').map (·.image) = ((ascending scores).map (·.image)).reverse := by
  have reversed : (ranked scores').reverse.Perm (ascending scores) :=
    (List.reverse_perm _).trans ((ranked_perm scores').trans
      (same.trans (ascending_perm scores).symm))
  rw [← (ordered_reverse_ranked scores').images_eq (ordered_ascending scores) reversed,
    List.map_reverse, List.reverse_reverse]

theorem highest?_image {scores scores' : List Score} (same : scores'.Perm scores) :
    (highest? scores').map (·.image) = ((ascending scores).map (·.image)).getLast? := by
  have sorted := (ascending_perm scores).trans same.symm
  cases scores' with
  | nil =>
    rw [sorted.eq_nil]
    rfl
  | cons first rest =>
    obtain ⟨m, there, highest, greatest⟩ := highest?_spec (List.cons_ne_nil first rest)
    rw [highest, (ordered_ascending scores).last_image (sorted.mem_iff.mpr there)
      fun t ht => greatest t (sorted.mem_iff.mp ht)]
    rfl

theorem lowest?_image {scores scores' : List Score} (same : scores'.Perm scores) :
    (lowest? scores').map (·.image) = ((ascending scores).map (·.image)).head? := by
  have sorted := (ascending_perm scores).trans same.symm
  cases scores' with
  | nil =>
    rw [sorted.eq_nil]
    rfl
  | cons first rest =>
    obtain ⟨m, there, lowest, least⟩ := lowest?_spec (List.cons_ne_nil first rest)
    rw [lowest, (ordered_ascending scores).first_image (sorted.mem_iff.mpr there)
      fun t ht => least t (sorted.mem_iff.mp ht)]
    rfl

/-- Scores are in a total order, with greater values above lesser ones, NaN above every number
and the image to decide between values that are alike. So a ranking leaves nothing open: in
whatever order some scores come, sorting them either way lines up the same images, one way the
reverse of the other, with the images of the lowest and of the highest score at its ends. -/
theorem ranking_unambiguous :
    (∀ r s t : Score, s.compare s = .eq ∧ s.compare t = (t.compare s).swap ∧
      ((r.compare s).isLE → (s.compare t).isLE → (r.compare t).isLE) ∧
      ((s.compare t).isLE ∨ (t.compare s).isLE) ∧
      (s.sameAs t ↔ s.compare t = .eq) ∧ s.compare? t = some (s.compare t) ∧
      (s.value.Exceeds t.value → s.compare t = .gt) ∧
      (s.value.isNaN → t.value.isNaN = false → s.compare t = .gt) ∧
      (s.compare t = .eq → s.image = t.image)) ∧
    ∀ scores scores' : List Score, scores'.Perm scores →
      (ascending scores').Perm scores ∧ Ordered (ascending scores') ∧
      (ranked scores').Perm scores ∧ Ordered (ranked scores').reverse ∧
      (ascending scores').map (·.image) = (ascending scores).map (·.image) ∧
      (ranked scores').map (·.image) = (ranked scores).map (·.image) ∧
      (ranked scores').map (·.image) = ((ascending scores).map (·.image)).reverse ∧
      (lowest? scores').map (·.image) = ((ascending scores).map (·.image)).head? ∧
      (highest? scores').map (·.image) = ((ascending scores).map (·.image)).getLast? := by
  constructor
  · intro r s t
    exact ⟨s.compare_self, s.compare_swap t, compare_trans, s.compare_total t,
      decide_eq_true_iff, rfl, compare_of_exceeds, compare_of_isNaN,
      fun same => image_eq_of_place_eq (compare_eq_iff_eq.mp same)⟩
  · intro scores scores' same
    have sorted := (ascending_perm scores').trans same
    have images := (ordered_ascending scores').images_eq (ordered_ascending scores)
      (sorted.trans (ascending_perm scores).symm)
    have ranking := (ranked_images same).trans (ranked_images (.refl scores)).symm
    exact ⟨sorted, ordered_ascending scores', (ranked_perm scores').trans same,
      ordered_reverse_ranked scores', images, ranking, ranked_images same, lowest?_image same,
      highest?_image same⟩

/-- Scores with a tie at zero, between both its signs, and another one between two kinds of
NaN. -/
def tiedScores : List Score :=
  [⟨4, ⟨0x7fc00000⟩⟩, ⟨9, ⟨0x80000000⟩⟩, ⟨7, ⟨0xff800000⟩⟩, ⟨3, ⟨0xffa00001⟩⟩, ⟨2, ⟨0⟩⟩,
    ⟨2, ⟨0x80000000⟩⟩]

theorem ranking_unambiguous_tiedScores :
    tiedScores.reverse.Perm tiedScores ∧
    (ascending tiedScores.reverse).map (·.image) = [7, 2, 2, 9, 3, 4] ∧
    (ranked tiedScores.reverse).map (·.image) = [4, 3, 9, 2, 2, 7] ∧
    (lowest? tiedScores.reverse).map (·.image) = some 7 ∧
    (highest? tiedScores.reverse).map (·.image) = some 4 ∧
    (⟨3, ⟨0xffa00001⟩⟩ : Score).compare ⟨9, ⟨0x7f800000⟩⟩ = .gt := by
  obtain ⟨order, lists⟩ := ranking_unambiguous
  obtain ⟨-, -, -, -, -, -, -, missing, -⟩ :=
    order ⟨0, ⟨0⟩⟩ ⟨3, ⟨0xffa00001⟩⟩ ⟨9, ⟨0x7f800000⟩⟩
  have same := tiedScores.reverse_perm
  obtain ⟨-, -, -, -, images, -, ranking, lowest, highest⟩ := lists _ _ same
  have inOrder : Ordered [⟨7, ⟨0xff800000⟩⟩, ⟨2, ⟨0⟩⟩, ⟨2, ⟨0x80000000⟩⟩, ⟨9, ⟨0x80000000⟩⟩,
    ⟨3, ⟨0xffa00001⟩⟩, ⟨4, ⟨0x7fc00000⟩⟩] := by decide
  have sorted := (ordered_ascending tiedScores).images_eq inOrder
    ((ascending_perm tiedScores).trans (by decide))
  rw [sorted] at images ranking lowest highest
  exact ⟨same, images, ranking, lowest, highest, missing rfl rfl⟩

end VisualIndex.Score
