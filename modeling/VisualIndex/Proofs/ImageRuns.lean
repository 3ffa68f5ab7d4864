import Mathlib.Data.List.SplitBy
import VisualIndex.PostingList.Scoring

/-! Images and their runs.

The images of a list are the ids that occur, strictly ascending. Where the postings are in
the order of their ids, those of one image stand together, so the runs are the images'
postings, one run for each image. The runs of a list in any order show the images as the list
does, and an image anew where another one stood between its postings.

Lists that hold the same postings of each image in the same order may differ in how the images
are mixed. Sorting makes them equal. -/
namespace VisualIndex.PostingList

section Order
variable {α : Type} (image : α → ImageId)

theorem image_le_trans (x y z : α) (hxy : decide (image x ≤ image y) = true)
    (hyz : decide (image y ≤ image z) = true) : decide (image x ≤ image z) = true := by
  simp only [decide_eq_true_eq] at hxy hyz ⊢
  exact Int32.le_trans hxy hyz

theorem image_le_total (x y : α) :
    (decide (image x ≤ image y) || decide (image y ≤ image x)) = true := by
  simpa using Int32.le_total (image x) (image y)

theorem pairwise_mergeSort_image (xs : List α) :
    (xs.mergeSort fun x y => decide (image x ≤ image y)).Pairwise
      fun x y => image x ≤ image y := by
  have ordered := List.pairwise_mergeSort (image_le_trans image) (image_le_total image) xs
  exact ordered.imp fun h => of_decide_eq_true h

/-- Sorting keeps what is of one image, in its order. -/
theorem filter_mergeSort_image (xs : List α) (i : ImageId) :
    ((xs.mergeSort fun x y => decide (image x ≤ image y)).filter fun x => image x = i) =
      xs.filter fun x => image x = i := by
  have alike : (xs.filter fun x => image x = i).Pairwise
      fun x y => decide (image x ≤ image y) = true := by
    apply List.pairwise_of_forall_mem_list
    intro x hx y hy
    have image_x : image x = i := of_decide_eq_true (List.mem_filter.mp hx).2
    have image_y : image y = i := of_decide_eq_true (List.mem_filter.mp hy).2
    rw [image_x, image_y]
    exact decide_eq_true (Int32.le_refl i)
  have kept := List.sublist_mergeSort (image_le_trans image) (image_le_total image) alike
    List.filter_sublist
  have inside := kept.filter fun x => image x = i
  simp only [List.filter_filter, Bool.and_self] at inside
  have sorted := List.mergeSort_perm xs fun x y => decide (image x ≤ image y)
  exact (inside.eq_of_length (sorted.filter _).length_eq.symm).symm

end Order

theorem mem_withoutRepeats {i : ImageId} {ids : List ImageId} :
    i ∈ withoutRepeats ids ↔ i ∈ ids := by
  fun_induction withoutRepeats ids with
  | case1 j rest ih => rw [ih, List.mem_cons, List.mem_cons, List.mem_cons, or_self_left]
  | case2 j k rest _ ih => rw [List.mem_cons, List.mem_cons, ih]
  | case3 short => rfl

theorem withoutRepeats_ascending {ids : List ImageId} (sorted : ids.Pairwise (· ≤ ·)) :
    (withoutRepeats ids).Pairwise (· < ·) := by
  fun_induction withoutRepeats ids with
  | case1 j rest ih => exact ih sorted.tail
  | case2 j k rest apart ih =>
    obtain ⟨first, others⟩ := List.pairwise_cons.mp sorted
    refine List.pairwise_cons.mpr ⟨?_, ih others⟩
    intro i hi
    have next : j < k := Int32.lt_of_le_of_ne (first k List.mem_cons_self) apart
    rcases List.mem_cons.mp (mem_withoutRepeats.mp hi) with rfl | later
    · exact next
    · exact Int32.lt_of_lt_of_le next ((List.pairwise_cons.mp others).1 i later)
  | case3 short few =>
    match short with
    | [] => exact .nil
    | [i] => exact List.pairwise_singleton _ i
    | i :: j :: rest => exact absurd rfl (few i j rest)

theorem ordered_of_withoutRepeats_ascending {ids : List ImageId}
    (ascending : (withoutRepeats ids).Pairwise (· < ·)) : ids.Pairwise (· ≤ ·) := by
  fun_induction withoutRepeats ids with
  | case1 i rest ih =>
    refine List.pairwise_cons.mpr ⟨?_, ih ascending⟩
    intro j hj
    rcases List.mem_cons.mp hj with rfl | later
    · exact Int32.le_refl j
    · exact (List.pairwise_cons.mp (ih ascending)).1 j later
  | case2 i j rest _ ih =>
    obtain ⟨first, others⟩ := List.pairwise_cons.mp ascending
    refine List.pairwise_cons.mpr ⟨?_, ih others⟩
    intro k hk
    exact Int32.le_of_lt (first k (mem_withoutRepeats.mpr hk))
  | case3 short few =>
    match short with
    | [] => exact .nil
    | [i] => exact List.pairwise_singleton _ i
    | i :: j :: rest => exact absurd rfl (few i j rest)

theorem withoutRepeats_of_alike {i : ImageId} {ids : List ImageId} (alike : ∀ j ∈ ids, j = i) :
    withoutRepeats (i :: ids) = [i] := by
  induction ids with
  | nil => rfl
  | cons j ids ih =>
    obtain rfl := alike j List.mem_cons_self
    rw [withoutRepeats, if_pos rfl]
    exact ih fun k hk => alike k (List.mem_cons_of_mem j hk)

theorem withoutRepeats_append {ids rest : List ImageId}
    (apart : ∀ i ∈ ids.getLast?, ∀ j ∈ rest.head?, i ≠ j) :
    withoutRepeats (ids ++ rest) = withoutRepeats ids ++ withoutRepeats rest := by
  fun_induction withoutRepeats ids with
  | case1 i more ih =>
    rw [List.cons_append, List.cons_append, withoutRepeats, if_pos rfl]
    exact ih apart
  | case2 i j more unlike ih =>
    rw [List.cons_append, List.cons_append, withoutRepeats, if_neg unlike, List.cons_append]
    exact congrArg (i :: ·) (ih apart)
  | case3 short few =>
    match short, rest with
    | [], _ => rfl
    | [i], [] => rfl
    | [i], j :: rest =>
      rw [List.cons_append, List.nil_append, withoutRepeats, if_neg (apart i rfl j rfl)]
      rfl
    | i :: j :: more, _ => exact absurd rfl (few i j more)

variable {b : Nat}

theorem images_ascending (p : PostingList b) : p.images.Pairwise (· < ·) :=
  withoutRepeats_ascending (pairwise_mergeSort_image id _)

theorem mem_images {p : PostingList b} {i : ImageId} :
    i ∈ p.images ↔ ∃ q ∈ p.postings, q.image = i := by
  rw [images, mem_withoutRepeats, List.mem_mergeSort, List.mem_map]

section Runs
variable {i : ImageId} {postings : List (Posting b)}

/-- The postings of the least image come first. -/
theorem filter_append_filter_of_least
    (sorted : postings.Pairwise fun q r => q.image ≤ r.image)
    (least : ∀ q ∈ postings, i ≤ q.image) :
    (postings.filter fun q => q.image = i) ++ (postings.filter fun q => q.image ≠ i) =
      postings := by
  induction postings with
  | nil => rfl
  | cons q rest ih =>
    obtain ⟨first, others⟩ := List.pairwise_cons.mp sorted
    by_cases same : q.image = i
    · have rest_split := ih others fun r hr => least r (List.mem_cons_of_mem q hr)
      rw [List.filter_cons_of_pos (by simpa using same),
        List.filter_cons_of_neg (by simpa using same), List.cons_append, rest_split]
    · have above : ∀ r ∈ q :: rest, r.image ≠ i := by
        have first_above := Int32.lt_of_le_of_ne (least q List.mem_cons_self) (Ne.symm same)
        intro r hr
        rcases List.mem_cons.mp hr with rfl | later
        · exact same
        · exact (Int32.ne_of_lt (Int32.lt_of_lt_of_le first_above (first r later))).symm
      rw [List.filter_eq_nil_iff.mpr fun r hr => by simpa using above r hr, List.nil_append,
        List.filter_eq_self.mpr fun r hr => by simpa using above r hr]

/-- Postings in the order of their images are the postings of one image after the other. -/
theorem flatMap_filter_of_sorted {ids : List ImageId} (ascending : ids.Pairwise (· < ·))
    (sorted : postings.Pairwise fun q r => q.image ≤ r.image)
    (covered : ∀ q ∈ postings, q.image ∈ ids) :
    (ids.flatMap fun i => postings.filter fun q => q.image = i) = postings := by
  induction ids generalizing postings with
  | nil => exact (List.eq_nil_iff_forall_not_mem.mpr fun q hq => nomatch covered q hq).symm
  | cons i ids ih =>
    obtain ⟨first, others⟩ := List.pairwise_cons.mp ascending
    have least : ∀ q ∈ postings, i ≤ q.image := by
      intro q hq
      rcases List.mem_cons.mp (covered q hq) with same | later
      · rw [same]
        exact Int32.le_refl i
      · exact Int32.le_of_lt (first q.image later)
    have rest := ih others (sorted.filter fun q => q.image ≠ i) (by
      intro q hq
      obtain ⟨inside, other⟩ := List.mem_filter.mp hq
      exact (List.mem_cons.mp (covered q inside)).resolve_left (of_decide_eq_true other))
    have same_filter : (ids.flatMap fun j => postings.filter fun q => q.image = j) =
        ids.flatMap fun j =>
          (postings.filter fun q => q.image ≠ i).filter fun q => q.image = j := by
      refine List.flatMap_congr fun j hj => ?_
      have apart : i ≠ j := Int32.ne_of_lt (first j hj)
      rw [List.filter_filter]
      refine List.filter_congr fun q _ => ?_
      by_cases here : q.image = j
      · simp [here, apart.symm]
      · simp [here]
    rw [List.flatMap_cons, same_filter, rest]
    exact filter_append_filter_of_least sorted least

/-- The runs of sorted postings are the postings of the images, each image in one run. -/
theorem runs_of_sorted (p : PostingList b)
    (sorted : p.postings.Pairwise fun q r => q.image ≤ r.image) :
    runs p.postings = p.images.map fun i => p.postings.filter fun q => q.image = i := by
  rw [runs, List.splitBy_eq_iff]
  have occurs : ∀ i ∈ p.images, (p.postings.filter fun q => q.image = i) ≠ [] := by
    intro i hi none
    obtain ⟨q, hq, rfl⟩ := mem_images.mp hi
    exact List.filter_eq_nil_iff.mp none q hq (decide_eq_true rfl)
  have image_eq : ∀ {i q}, q ∈ p.postings.filter (fun q => q.image = i) → q.image = i :=
    fun hq => of_decide_eq_true (List.mem_filter.mp hq).2
  refine ⟨?_, ?_, ?_, ?_⟩
  · exact (flatMap_filter_of_sorted p.images_ascending sorted
      fun q hq => mem_images.mpr ⟨q, hq, rfl⟩).symm
  · intro empty
    obtain ⟨i, hi, none⟩ := List.mem_map.mp empty
    exact occurs i hi none
  · intro run hrun
    obtain ⟨i, -, rfl⟩ := List.mem_map.mp hrun
    apply List.Pairwise.isChain
    apply List.pairwise_of_forall_mem_list
    intro q hq r hr
    exact decide_eq_true ((image_eq hq).trans (image_eq hr).symm)
  · rw [List.isChain_map]
    apply List.Pairwise.isChain
    refine p.images_ascending.imp_of_mem ?_
    intro i j hi hj before
    refine ⟨occurs i hi, occurs j hj, decide_eq_false ?_⟩
    rw [image_eq (List.getLast_mem (occurs i hi)), image_eq (List.head_mem (occurs j hj))]
    exact Int32.ne_of_lt before

theorem image_eq_of_alike {q : Posting b} {votes : List (Posting b)}
    (alike : (q :: votes).IsChain fun r s => decide (r.image = s.image) = true) :
    ∀ r ∈ votes, r.image = q.image := by
  induction votes generalizing q with
  | nil =>
    intro r hr
    cases hr
  | cons next votes ih =>
    obtain ⟨same, rest⟩ := List.isChain_cons_cons.mp alike
    have image : q.image = next.image := of_decide_eq_true same
    intro r hr
    rcases List.mem_cons.mp hr with rfl | later
    · exact image.symm
    · exact (ih rest r later).trans image.symm

/-- Parts of one image each, no two neighbours of the same, show the images of the whole
without repeats. -/
theorem images_of_parts {parts : List (List (Posting b))} (nonempty : [] ∉ parts)
    (alike : ∀ run ∈ parts, run.IsChain fun q r => decide (q.image = r.image) = true)
    (apart : parts.IsChain fun run next => ∃ some_votes some_next,
      decide ((run.getLast some_votes).image = (next.head some_next).image) = false) :
    (parts.filterMap fun run => run.head?.map (·.image)) =
      withoutRepeats (parts.flatten.map (·.image)) := by
  induction parts with
  | nil => rfl
  | cons run parts ih =>
    obtain ⟨seam, apart⟩ := List.isChain_cons.mp apart
    have rest := ih (fun none => nonempty (List.mem_cons_of_mem run none))
      (fun next hnext => alike next (List.mem_cons_of_mem run hnext)) apart
    cases run with
    | nil => exact absurd List.mem_cons_self nonempty
    | cons q votes =>
      have same := image_eq_of_alike (alike (q :: votes) List.mem_cons_self)
      have unlike : ∀ i ∈ ((q :: votes).map (·.image)).getLast?,
          ∀ j ∈ (parts.flatten.map (·.image)).head?, i ≠ j := by
        cases parts with
        | nil =>
          intro i _ j none
          cases none
        | cons next others =>
          obtain ⟨some_votes, some_next, differ⟩ := seam next rfl
          obtain ⟨r, more, rfl⟩ := List.exists_cons_of_ne_nil some_next
          intro i last j first
          rw [List.getLast?_map, List.getLast?_eq_some_getLast some_votes] at last
          cases last
          cases first
          exact of_decide_eq_false differ
      rw [List.flatten_cons, List.map_append, withoutRepeats_append unlike, ← rest,
        List.map_cons, withoutRepeats_of_alike (by simpa using same)]
      rfl

/-- The runs of any postings show the images in the order of the list. -/
theorem images_of_runs (postings : List (Posting b)) :
    ((runs postings).filterMap fun run => run.head?.map (·.image)) =
      withoutRepeats (postings.map (·.image)) := by
  obtain ⟨joined, nonempty, alike, apart⟩ := List.splitBy_eq_iff.mp (Eq.refl (runs postings))
  have shown := images_of_parts nonempty alike apart
  rwa [← joined] at shown

end Runs

/-- The postings of each image are the same and in the same order. -/
def SameByImage (xs ys : List (Posting b)) : Prop :=
  ∀ i, (xs.filter fun q => q.image = i) = ys.filter fun q => q.image = i

namespace SameByImage
variable {xs ys : List (Posting b)}

theorem refl (xs : List (Posting b)) : SameByImage xs xs := fun _ => rfl

theorem trans {zs : List (Posting b)} (first : SameByImage xs ys) (second : SameByImage ys zs) :
    SameByImage xs zs := fun i => (first i).trans (second i)

theorem append (same : SameByImage xs ys) (zs : List (Posting b)) :
    SameByImage (xs ++ zs) (ys ++ zs) := by
  intro i
  rw [List.filter_append, List.filter_append, same i]

theorem sort (p : PostingList b) : SameByImage p.sort.postings p.postings :=
  filter_mergeSort_image (fun q : Posting b => q.image) p.postings

theorem mem (same : SameByImage xs ys) {q : Posting b} (hq : q ∈ ys) : q ∈ xs := by
  have found : q ∈ ys.filter fun r => r.image = q.image :=
    List.mem_filter.mpr ⟨hq, decide_eq_true rfl⟩
  rw [← same q.image] at found
  exact (List.mem_filter.mp found).1

/-- Among lists in the order of their images there is one way to arrange the postings. -/
theorem eq_of_sorted (same : SameByImage xs ys)
    (sorted : xs.Pairwise fun q r => q.image ≤ r.image)
    (sorted' : ys.Pairwise fun q r => q.image ≤ r.image) : xs = ys := by
  have ascending : (withoutRepeats (xs.map (·.image))).Pairwise (· < ·) :=
    withoutRepeats_ascending (List.pairwise_map.mpr sorted)
  have covered : ∀ q ∈ xs, q.image ∈ withoutRepeats (xs.map (·.image)) := fun q hq =>
    mem_withoutRepeats.mpr (List.mem_map_of_mem hq)
  rw [← flatMap_filter_of_sorted ascending sorted covered,
    ← flatMap_filter_of_sorted ascending sorted' fun q hq => covered q (same.mem hq)]
  exact List.flatMap_congr fun i _ => same i

theorem mergeSort_eq (same : SameByImage xs ys) :
    (xs.mergeSort fun q r => decide (q.image ≤ r.image)) =
      ys.mergeSort fun q r => decide (q.image ≤ r.image) := by
  apply eq_of_sorted _ (pairwise_mergeSort_image _ _) (pairwise_mergeSort_image _ _)
  intro i
  rw [filter_mergeSort_image, filter_mergeSort_image, same i]

theorem perm (same : SameByImage xs ys) : xs.Perm ys := by
  have sorted := List.mergeSort_perm xs fun q r => decide (q.image ≤ r.image)
  rw [same.mergeSort_eq] at sorted
  exact sorted.symm.trans (List.mergeSort_perm ys _)

end SameByImage

end VisualIndex.PostingList
