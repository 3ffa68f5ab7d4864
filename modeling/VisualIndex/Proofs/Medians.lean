import Mathlib.Data.List.Sort
import VisualIndex.Median
import VisualIndex.Proofs.Means

/-! Medians by rank.

A partition around the middle says where the pivot and the greatest value before it stand in
the order of all values: the two sides can be put in order without moving either of them. So
the median is the middle of the ordered values, whatever partition the selection leaves, and
for every order in which the values come. -/
namespace VisualIndex

/-- Values in the order of their ranks. -/
def Ascending (s : List Single) : Prop := s.Pairwise fun x y => x.rank ≤ y.rank

/-- Whether both zeros are among the values. -/
def MixesZeros (values : List Single) : Prop := .zero ∈ values ∧ -.zero ∈ values

instance (s : List Single) : Decidable (Ascending s) :=
  inferInstanceAs (Decidable (s.Pairwise _))

instance (values : List Single) : Decidable (MixesZeros values) :=
  inferInstanceAs (Decidable (_ ∧ _))

/-- The value in the middle, or the mean of the two values beside it. -/
def middle? (s : List Single) : Option Single :=
  if s.length % 2 = 1 then s[s.length / 2]?
  else do
    let lower ← s[s.length / 2 - 1]?
    let upper ← s[s.length / 2]?
    return lower.mean upper

/-- The values put in the order of their ranks. -/
def ordered (values : List Single) : List Single :=
  values.mergeSort fun x y => decide (x.rank ≤ y.rank)

theorem ordered_perm (values : List Single) : (ordered values).Perm values :=
  List.mergeSort_perm values _

theorem ordered_ascending (values : List Single) : Ascending (ordered values) := by
  have sorted := @List.pairwise_mergeSort Single (fun x y => decide (x.rank ≤ y.rank))
    (fun x y z => by simpa only [decide_eq_true_eq] using Int.le_trans)
    (fun x y => by simpa only [Bool.or_eq_true, decide_eq_true_eq] using Int.le_total _ _) values
  exact sorted.imp of_decide_eq_true

namespace Ascending
variable {s t : List Single}

theorem around {front back : List Single} {x : Single} (hf : Ascending front)
    (hb : Ascending back) (below : ∀ y ∈ front, y.rank ≤ x.rank)
    (above : ∀ y ∈ back, x.rank ≤ y.rank) : Ascending (front ++ x :: back) := by
  refine List.pairwise_append.mpr ⟨hf, List.pairwise_cons.mpr ⟨above, hb⟩, ?_⟩
  intro y hy z hz
  rcases List.mem_cons.mp hz with rfl | hz
  · exact below y hy
  · exact (below y hy).trans (above z hz)

section Same
variable (hs : Ascending s) (ht : Ascending t) (same : s.Perm t)
include hs ht same

theorem ranks_eq : s.map (·.rank) = t.map (·.rank) :=
  (same.map _).eq_of_pairwise (fun _ _ _ _ => Int.le_antisymm) (List.pairwise_map.mpr hs)
    (List.pairwise_map.mpr ht)

variable (zeros : ¬ MixesZeros s)
include zeros

theorem alike {i : Nat} {x y : Single} (hx : s[i]? = some x) (hy : t[i]? = some y) :
    x.Alike y := by
  have rank : x.rank = y.rank := by
    have at_index := congrArg (·[i]?) (ranks_eq hs ht same)
    simpa only [List.getElem?_map, hx, hy, Option.map_some, Option.some_inj] using at_index
  have hx' : x ∈ s := List.mem_of_getElem? hx
  have hy' : y ∈ s := same.mem_iff.mpr (List.mem_of_getElem? hy)
  rcases Single.eq_of_rank_eq rank with alike | ⟨rfl, rfl⟩ | ⟨rfl, rfl⟩
  · exact alike
  · exact absurd ⟨hx', hy'⟩ zeros
  · exact absurd ⟨hy', hx'⟩ zeros

theorem middle?_alike {m : Single} (found : middle? s = some m) :
    ∃ n, middle? t = some n ∧ m.Alike n := by
  have partner {i : Nat} {x : Single} (hx : s[i]? = some x) : ∃ y, t[i]? = some y ∧ x.Alike y := by
    have inside := (List.getElem?_eq_some_iff.mp hx).1
    have hy := List.getElem?_eq_getElem (same.length_eq ▸ inside : i < t.length)
    exact ⟨_, hy, hs.alike ht same zeros hx hy⟩
  rw [middle?, same.length_eq] at found
  rw [middle?]
  split at found
  · rename_i odd
    rw [if_pos odd]
    exact partner found
  · rename_i even
    obtain ⟨x, hx, y, hy, rfl⟩ : ∃ x, s[t.length / 2 - 1]? = some x ∧
        ∃ y, s[t.length / 2]? = some y ∧ x.mean y = m := by
      simpa [Option.bind_eq_some_iff] using found
    obtain ⟨x', hx', lower⟩ := partner hx
    obtain ⟨y', hy', upper⟩ := partner hy
    refine ⟨x'.mean y', ?_, lower.mean upper⟩
    rw [if_neg even, hx', hy']
    rfl

end Same

end Ascending

namespace Partition

/-- Going through values with the greatest so far ends with the greatest of all. -/
theorem foldl_greatest (xs : List Single) (first : Single) :
    ∃ g ∈ first :: xs,
      xs.foldl (fun best x =>
        match best with
        | none => some x
        | some y => if y.rank ≤ x.rank then some x else some y) (some first) = some g ∧
      ∀ x ∈ first :: xs, x.rank ≤ g.rank := by
  -- on the values still to come, for every greatest value so far
  induction xs generalizing first with
  | nil => exact ⟨first, List.mem_cons_self, rfl, by simp⟩
  | cons x xs ih =>
    by_cases passed : first.rank ≤ x.rank
    · obtain ⟨g, hg, result, greatest⟩ := ih x
      refine ⟨g, List.mem_cons_of_mem _ hg, ?_, ?_⟩
      · rw [List.foldl_cons, ← result]
        simp only [passed, if_true]
      · intro y hy
        rcases List.mem_cons.mp hy with rfl | hy
        · exact passed.trans (greatest x List.mem_cons_self)
        · exact greatest y hy
    · obtain ⟨g, hg, result, greatest⟩ := ih first
      refine ⟨g, by grind, ?_, ?_⟩
      · rw [List.foldl_cons, ← result]
        simp only [passed, if_false]
      · have highest := greatest first List.mem_cons_self
        intro y hy
        rcases List.mem_cons.mp hy with rfl | hy
        · exact highest
        · rcases List.mem_cons.mp hy with rfl | hy
          · omega
          · exact greatest y (List.mem_cons_of_mem _ hy)

theorem greatestBelow?_eq {p : Partition} (nonempty : p.below ≠ []) :
    ∃ g ∈ p.below, p.greatestBelow? = some g ∧ ∀ x ∈ p.below, x.rank ≤ g.rank := by
  obtain ⟨first, rest, below⟩ := List.exists_cons_of_ne_nil nonempty
  obtain ⟨g, hg, result, greatest⟩ := foldl_greatest rest first
  rw [greatestBelow?, below]
  exact ⟨g, hg, result, greatest⟩

namespace Divides
variable {p : Partition} {values : List Single} {place : Nat}

theorem length_eq (divides : p.Divides values place) :
    values.length = place + 1 + p.above.length := by
  rw [← divides.perm.length_eq, toList, List.length_append, List.length_cons,
    divides.length_below]
  omega

/-- With both sides put in order, the pivot stands at its place. -/
theorem ordered_around (divides : p.Divides values place) :
    (ordered p.below ++ p.pivot :: ordered p.above).Perm values ∧
      Ascending (ordered p.below ++ p.pivot :: ordered p.above) := by
  constructor
  · exact ((ordered_perm p.below).append ((ordered_perm p.above).cons p.pivot)).trans
      divides.perm
  · refine (ordered_ascending _).around (ordered_ascending _) ?_ ?_
    · intro y hy
      exact divides.below_le y ((ordered_perm _).mem_iff.mp hy)
    · intro y hy
      exact divides.le_above y ((ordered_perm _).mem_iff.mp hy)

/-- The greatest value before the pivot stands right before it. -/
theorem ordered_around_greatest (divides : p.Divides values place) {g : Single}
    (hg : g ∈ p.below) (greatest : ∀ x ∈ p.below, x.rank ≤ g.rank) :
    (ordered (p.below.erase g) ++ g :: p.pivot :: ordered p.above).Perm values ∧
      Ascending (ordered (p.below.erase g) ++ g :: p.pivot :: ordered p.above) := by
  constructor
  · have below : (ordered (p.below.erase g) ++ [g]).Perm p.below :=
      (((ordered_perm _).append_right [g]).trans List.perm_append_comm).trans
        (List.perm_cons_erase hg).symm
    have all := (below.append ((ordered_perm p.above).cons p.pivot)).trans divides.perm
    rwa [List.append_assoc] at all
  · have above : ∀ y ∈ ordered p.above, p.pivot.rank ≤ y.rank := fun y hy =>
      divides.le_above y ((ordered_perm _).mem_iff.mp hy)
    have pivot := divides.below_le g hg
    refine (ordered_ascending _).around (List.pairwise_cons.mpr ⟨above, ordered_ascending _⟩) ?_ ?_
    · intro y hy
      exact greatest y (List.mem_of_mem_erase ((ordered_perm _).mem_iff.mp hy))
    · intro y hy
      rcases List.mem_cons.mp hy with rfl | hy
      · exact pivot
      · exact pivot.trans (above y hy)

/-- The median by a partition around the middle is the middle of the values in some order of
their ranks. -/
theorem exists_middle (divides : p.Divides values (values.length / 2)) :
    ∃ s, s.Perm values ∧ Ascending s ∧ middle? s = some p.median := by
  have length := divides.length_eq
  have total : p.toList.length = values.length := divides.perm.length_eq
  by_cases odd : values.length % 2 = 1
  · obtain ⟨same, ascending⟩ := divides.ordered_around
    have middle : (ordered p.below ++ p.pivot :: ordered p.above)[values.length / 2]? =
        some p.pivot := by
      rw [← divides.length_below, ← (ordered_perm p.below).length_eq]
      simp
    refine ⟨_, same, ascending, ?_⟩
    rw [middle?, same.length_eq, if_pos odd, middle, median, if_pos (total ▸ odd)]
  · -- an even number of values that is not 0 leaves one before the pivot
    have nonempty : p.below ≠ [] := by
      intro none_below
      have := divides.length_below
      rw [none_below, List.length_nil] at this
      omega
    obtain ⟨g, hg, result, greatest⟩ := greatestBelow?_eq nonempty
    obtain ⟨same, ascending⟩ := divides.ordered_around_greatest hg greatest
    have before : (ordered (p.below.erase g)).length + 1 = values.length / 2 := by
      rw [(ordered_perm _).length_eq, List.length_erase_add_one hg, divides.length_below]
    have lower : (ordered (p.below.erase g) ++
        g :: p.pivot :: ordered p.above)[values.length / 2 - 1]? = some g := by
      rw [← before]
      simp
    have upper : (ordered (p.below.erase g) ++
        g :: p.pivot :: ordered p.above)[values.length / 2]? = some p.pivot := by
      rw [← before]
      simp
    refine ⟨_, same, ascending, ?_⟩
    rw [middle?, same.length_eq, if_neg odd, lower, upper, median, if_neg (total ▸ odd), result]
    rfl

/-- The median is the middle of the values in every order of their ranks. -/
theorem median_alike (divides : p.Divides values (values.length / 2))
    (zeros : ¬ MixesZeros values) {s : List Single} (same : s.Perm values)
    (ascending : Ascending s) : ∃ m, middle? s = some m ∧ p.median.Alike m := by
  obtain ⟨t, ht, ascending', middle⟩ := divides.exists_middle
  have zeros' : ¬ MixesZeros t := fun mixes =>
    zeros ⟨ht.mem_iff.mp mixes.1, ht.mem_iff.mp mixes.2⟩
  exact ascending'.middle?_alike ascending (ht.trans same.symm) zeros' middle

end Divides

theorem select?_eq (values : List Single) (place : Nat) : select? values place =
    match (ordered values).drop place with
    | pivot :: above => some ⟨(ordered values).take place, pivot, above⟩
    | [] => none := rfl

/-- Selection finds a partition around any place that the values have. -/
theorem select?_divides {values : List Single} {place : Nat} (inside : place < values.length) :
    ∃ p, select? values place = some p ∧ p.Divides values place := by
  have ascending := ordered_ascending values
  have same := ordered_perm values
  have parts := List.take_append_drop place (ordered values)
  have length := List.length_drop (i := place) (l := ordered values)
  rw [same.length_eq] at length
  rw [select?_eq]
  cases rest : (ordered values).drop place with
  | nil =>
    rw [rest, List.length_nil] at length
    omega
  | cons pivot above =>
    rw [rest] at parts
    rw [← parts] at ascending
    obtain ⟨-, upper, across⟩ := List.pairwise_append.mp ascending
    exact ⟨_, rfl, {
      perm := (List.Perm.of_eq parts).trans same
      length_below := by rw [List.length_take, same.length_eq]; omega
      below_le := fun x hx => across x hx pivot List.mem_cons_self
      le_above := (List.pairwise_cons.mp upper).1 }⟩

theorem select?_middle {values : List Single} (nonempty : values ≠ []) :
    ∃ p, select? values (values.length / 2) = some p ∧ p.Divides values (values.length / 2) := by
  have length := List.length_pos_of_ne_nil nonempty
  exact select?_divides (by omega)

end Partition

theorem exists_median {values : List Single} (nonempty : values ≠ []) :
    ∃ p : Partition, p.Divides values (values.length / 2) ∧
      median values = (some p.median, p.toList) := by
  obtain ⟨p, found, divides⟩ := Partition.select?_middle nonempty
  refine ⟨p, divides, ?_⟩
  rw [median, found]

/-- The median of values that do not mix the two zeros is the middle of the values in the order
of their ranks, all NaN counted as one. It is so for every partition around the middle that the
selection may leave and in whatever order the values come. The median that is taken in place
goes by such a partition and leaves the same values. -/
theorem median_by_rank {values : List Single} (nonempty : values ≠ [])
    (zeros : ¬ MixesZeros values) {rearranged : List Single} (same : rearranged.Perm values) :
    (∀ q : Partition, q.Divides rearranged (rearranged.length / 2) →
      (∀ s, s.Perm values → Ascending s → ∃ m, middle? s = some m ∧ q.median.Alike m) ∧
      ∀ p : Partition, p.Divides values (values.length / 2) → q.median.Alike p.median) ∧
    ∃ q : Partition, q.Divides rearranged (rearranged.length / 2) ∧
      median rearranged = (some q.median, q.toList) ∧ q.toList.Perm values := by
  have zeros' : ¬ MixesZeros rearranged := fun mixes =>
    zeros ⟨same.mem_iff.mp mixes.1, same.mem_iff.mp mixes.2⟩
  have by_rank : ∀ q : Partition, q.Divides rearranged (rearranged.length / 2) →
      ∀ s, s.Perm values → Ascending s → ∃ m, middle? s = some m ∧ q.median.Alike m :=
    fun q divides s hs => divides.median_alike zeros' (hs.trans same.symm)
  constructor
  · intro q divides
    refine ⟨by_rank q divides, ?_⟩
    intro p divides'
    obtain ⟨s, hs, ascending, middle⟩ := divides'.exists_middle
    obtain ⟨m, middle', alike⟩ := by_rank q divides s hs ascending
    rw [middle, Option.some_inj] at middle'
    exact middle' ▸ alike
  · obtain ⟨q, divides, taken⟩ := exists_median (fun empty => nonempty (by
      rw [empty] at same
      exact same.symm.eq_nil) : rearranged ≠ [])
    exact ⟨q, divides, taken, divides.perm.trans same⟩

/-- 4, NaN, 1, 3, 1, and a NaN with another payload and sign. -/
def twoNaN : List Single :=
  [⟨0x40800000⟩, ⟨0x7fc00000⟩, ⟨0x3f800000⟩, ⟨0x40400000⟩, ⟨0x3f800000⟩, ⟨0xffc00001⟩]

/-- A partition of the same values with neither of its sides in order. -/
def unorderedSides : Partition where
  below := [⟨0x3f800000⟩, ⟨0x40400000⟩, ⟨0x3f800000⟩]
  pivot := ⟨0x40800000⟩
  above := [⟨0xffc00001⟩, ⟨0x7fc00000⟩]

theorem median_by_rank_twoNaN :
    twoNaN ≠ [] ∧ ¬ MixesZeros twoNaN ∧ twoNaN.reverse.Perm twoNaN ∧
    unorderedSides.Divides twoNaN.reverse 3 ∧ (ordered twoNaN).Perm twoNaN ∧
    Ascending (ordered twoNaN) ∧
    (∃ m, middle? (ordered twoNaN) = some m ∧ unorderedSides.median.Alike m) ∧
    unorderedSides.median = ⟨0x40600000⟩ ∧
    ∃ q : Partition, median twoNaN.reverse = (some q.median, q.toList) := by
  have divides : unorderedSides.Divides twoNaN.reverse 3 :=
    ⟨by decide, by decide, by decide, by decide⟩
  obtain ⟨by_rank, q, -, taken, -⟩ := median_by_rank (show twoNaN ≠ [] by decide) (by decide)
    (List.reverse_perm twoNaN)
  exact ⟨by decide, by decide, List.reverse_perm _, divides, ordered_perm _, ordered_ascending _,
    (by_rank _ divides).1 _ (ordered_perm _) (ordered_ascending _), by decide +kernel, q, taken⟩

end VisualIndex
