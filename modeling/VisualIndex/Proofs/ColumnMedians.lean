import VisualIndex.PostingList.Statistics
import VisualIndex.Proofs.Medians
import VisualIndex.Proofs.SignatureBits

/-! Thresholds column by column.

Training reuses one column for all dimensions, and each selection leaves it in an order of its
own. But every value of the column is written again before the next selection, so a threshold
is the median of its own dimension, and neither what was learned before nor the order of the
rows has a part in it. All this holds for any way to select that divides by rank. -/
namespace VisualIndex

/-- A way to divide values around the middle of their order. -/
structure Selection where
  divide : List Single → Partition
  divides : ∀ values, values ≠ [] → (divide values).Divides values (values.length / 2)

namespace Selection

/-- The median, and the values as this selection leaves them. -/
def median (s : Selection) (values : List Single) : Option Single × List Single :=
  if values = [] then (none, values) else (some (s.divide values).median, (s.divide values).toList)

theorem length_median (s : Selection) (values : List Single) :
    (s.median values).2.length = values.length := by
  rw [median]
  split
  · rfl
  · rename_i nonempty
    exact (s.divides values nonempty).perm.length_eq

/-- The selection that puts all values in order. -/
def byOrder : Selection where
  divide values := (Partition.select? values (values.length / 2)).getD ⟨[], .zero, []⟩
  divides values nonempty := by
    obtain ⟨p, found, divides⟩ := Partition.select?_middle nonempty
    rw [found]
    exact divides

theorem median_byOrder : byOrder.median = VisualIndex.median := by
  funext values
  by_cases nonempty : values = []
  · rw [median, if_pos nonempty, nonempty, VisualIndex.median, Partition.select?_eq]
    simp [ordered]
  · obtain ⟨p, found, -⟩ := Partition.select?_middle nonempty
    have divided : byOrder.divide values = p := by
      change (Partition.select? values (values.length / 2)).getD _ = p
      rw [found, Option.getD_some]
    rw [median, if_neg nonempty, VisualIndex.median, found, divided]

end Selection

namespace Embedding
variable {b : Nat}

/-- One dimension of the rows. -/
def column (rows : List (Descriptor b)) (d : Fin (8 * b)) : List Single := rows.map (·.get d)

/-- Refill the column with one dimension of the rows and store its median. -/
def Learning.stepBy (s : Selection) (rows : List (Descriptor b)) (l : Learning b)
    (d : Fin (8 * b)) : Learning b :=
  let selected := s.median (List.zipWith (fun _ row => row.get d) l.column rows)
  ⟨l.thresholds.setIfInBounds d (selected.1.getD .zero), selected.2⟩

/-- Learn the thresholds with the medians of any selection. -/
def trainBy (s : Selection) (e : Embedding b) (rows : List (Descriptor b)) :
    Bool × Embedding b :=
  if rows.length < fewestRows then (false, e)
  else
    let start : Learning b := ⟨e.thresholds, .replicate rows.length .zero⟩
    (true, ⟨((List.finRange (8 * b)).foldl (Learning.stepBy s rows) start).thresholds⟩)

theorem train_eq_trainBy (e : Embedding b) (rows : List (Descriptor b)) :
    e.train rows = e.trainBy .byOrder rows := by
  have step : Learning.step rows = Learning.stepBy .byOrder rows := by
    funext l d
    rw [Learning.step, Learning.stepBy, Selection.median_byOrder]
    refine congrArg₂ Learning.mk (Vector.ext fun i inside => ?_) rfl
    rw [Vector.getElem_set, Vector.getElem_setIfInBounds]
    rfl
  rw [train, trainBy, step]

theorem refilled (rows : List (Descriptor b)) (d : Fin (8 * b)) {used : List Single}
    (full : used.length = rows.length) :
    List.zipWith (fun _ row => row.get d) used rows = column rows d := by
  induction used generalizing rows with
  | nil =>
    obtain rfl : rows = [] := List.eq_nil_of_length_eq_zero full.symm
    rfl
  | cons x used ih =>
    obtain ⟨row, rows, rfl⟩ := List.exists_cons_of_length_eq_add_one full.symm
    rw [List.zipWith_cons_cons, ih rows (Nat.succ_inj.mp full)]
    rfl

section Run
variable (s : Selection) (rows : List (Descriptor b)) {l : Learning b}
  (full : l.column.length = rows.length)
include full

theorem step_learns (d : Fin (8 * b)) :
    (l.stepBy s rows d).column.length = rows.length ∧
    ∀ i, (l.stepBy s rows d).thresholds.get i =
      if i = d then (s.median (column rows d)).1.getD .zero else l.thresholds.get i := by
  -- whatever order the column was left in, it is written over
  rw [Learning.stepBy, refilled rows d full]
  refine ⟨(s.length_median _).trans (List.length_map ..), ?_⟩
  intro i
  change (l.thresholds.setIfInBounds d.1 ((s.median (column rows d)).1.getD .zero))[i.1] = _
  rw [Vector.getElem_setIfInBounds]
  simp only [Fin.ext_iff, eq_comm (a := d.1)]
  rfl

/-- Each dimension that was gone through has the median of its column as its threshold. -/
theorem run_learns (dims : List (Fin (8 * b))) (i : Fin (8 * b)) :
    (dims.foldl (Learning.stepBy s rows) l).thresholds.get i =
      if i ∈ dims then (s.median (column rows i)).1.getD .zero else l.thresholds.get i := by
  -- of the column only its length is carried from one dimension to the next
  induction dims generalizing l with
  | nil => exact (if_neg List.not_mem_nil).symm
  | cons d dims ih =>
    obtain ⟨full', learned⟩ := step_learns s rows full d
    rw [List.foldl_cons, ih full', learned]
    grind

end Run

/-- Every threshold is the median of its dimension over the rows, all NaN counted as one. -/
def HasMedians (e : Embedding b) (rows : List (Descriptor b)) : Prop :=
  ∀ d, ∀ s, s.Perm (column rows d) → Ascending s →
    ∃ m, middle? s = some m ∧ (e.thresholds.get d).Alike m

namespace HasMedians
variable {e f : Embedding b} {rows rows' : List (Descriptor b)}

theorem of_perm (learned : e.HasMedians rows) (same : rows'.Perm rows) : e.HasMedians rows' :=
  fun d s hs => learned d s (hs.trans (same.map _))

theorem alike (he : e.HasMedians rows) (hf : f.HasMedians rows) (d : Fin (8 * b)) :
    (e.thresholds.get d).Alike (f.thresholds.get d) := by
  obtain ⟨m, middle, first⟩ := he d _ (ordered_perm _) (ordered_ascending _)
  obtain ⟨n, middle', second⟩ := hf d _ (ordered_perm _) (ordered_ascending _)
  obtain rfl : m = n := Option.some_inj.mp (middle.symm.trans middle')
  exact first.trans second.symm

end HasMedians

/-- Which NaN a threshold is makes no difference to the signatures. -/
theorem quantize_congr {e f : Embedding b}
    (alike : ∀ d, (e.thresholds.get d).Alike (f.thresholds.get d)) (x : Descriptor b) :
    e.quantize x = f.quantize x := by
  apply Signature.ext_bit?
  intro i inside
  rw [e.bit?_quantize x ⟨i, inside⟩, f.bit?_quantize x ⟨i, inside⟩, Option.some_inj,
    Bool.eq_iff_iff, Single.gt_iff, Single.gt_iff, (alike ⟨i, inside⟩).rank_eq]

section Learned
variable (s : Selection) (e : Embedding b) {rows : List (Descriptor b)}

theorem trainBy_few (few : rows.length < fewestRows) : e.trainBy s rows = (false, e) :=
  if_pos few

theorem trainBy_enough (enough : fewestRows ≤ rows.length) :
    (e.trainBy s rows).1 = true ∧
    ∀ d, (s.median (column rows d)).1 = some ((e.trainBy s rows).2.thresholds.get d) := by
  rw [trainBy, if_neg (Nat.not_lt.mpr enough)]
  refine ⟨rfl, fun d => ?_⟩
  have nonempty : column rows d ≠ [] := by
    intro empty
    rw [List.map_eq_nil_iff.mp empty, List.length_nil] at enough
    exact absurd enough (by decide)
  have learned := run_learns s rows (l := ⟨e.thresholds, .replicate rows.length .zero⟩)
    List.length_replicate (List.finRange (8 * b)) d
  rw [if_pos (List.mem_finRange d)] at learned
  rw [learned, Selection.median, if_neg nonempty]
  rfl

/-- A learned threshold is the median by some partition around the middle of its column. -/
theorem exists_divided (enough : fewestRows ≤ rows.length) (d : Fin (8 * b)) :
    ∃ p : Partition, p.Divides (column rows d) ((column rows d).length / 2) ∧
      (e.trainBy s rows).2.thresholds.get d = p.median := by
  have threshold := (e.trainBy_enough s enough).2 d
  rw [Selection.median] at threshold
  split at threshold
  · cases threshold
  · rename_i nonempty
    exact ⟨_, s.divides _ nonempty, (Option.some_inj.mp threshold).symm⟩

theorem trainBy_hasMedians (enough : fewestRows ≤ rows.length)
    (zeros : ∀ d, ¬ MixesZeros (column rows d)) : (e.trainBy s rows).2.HasMedians rows := by
  intro d c same ascending
  obtain ⟨p, divides, threshold⟩ := e.exists_divided s enough d
  rw [threshold]
  exact divides.median_alike (zeros d) same ascending

end Learned

end Embedding

namespace PostingList
variable {b : Nat}

/-- Learn the thresholds with the medians of any selection. -/
def trainBy (s : Selection) (p : PostingList b) (rows : List (Descriptor b)) :
    Bool × PostingList b :=
  match p.embedding.trainBy s rows with
  | (false, _) => (false, p)
  | (true, embedding) =>
    (true, { p with embedding := embedding, status := p.status.insert .trained })

theorem train_eq_trainBy (p : PostingList b) (rows : List (Descriptor b)) :
    p.train rows = p.trainBy .byOrder rows := by
  rw [train, Embedding.train_eq_trainBy]
  rfl

theorem trainBy_few (s : Selection) (p : PostingList b) {rows : List (Descriptor b)}
    (few : rows.length < Embedding.fewestRows) : p.trainBy s rows = (false, p) := by
  rw [trainBy, p.embedding.trainBy_few s few]

theorem trainBy_enough (s : Selection) (p : PostingList b) {rows : List (Descriptor b)}
    (enough : Embedding.fewestRows ≤ rows.length) : p.trainBy s rows =
      (true, { p with
        embedding := (p.embedding.trainBy s rows).2
        status := p.status.insert .trained }) := by
  have learned : p.embedding.trainBy s rows = (true, (p.embedding.trainBy s rows).2) :=
    Prod.ext (p.embedding.trainBy_enough s enough).1 rfl
  rw [trainBy, learned]

end PostingList

/-- With two rows or more, each threshold becomes the median of its own column and of nothing
else. If no column mixes the two zeros, it is the middle of the column in the order of the ranks,
so that neither the order of the rows, nor the selection, nor what was learned before changes a
threshold other than in which NaN it is, and no signature changes at all. With fewer rows nothing
is learned. Training is the case of one selection. -/
theorem trainBy_columns {b : Nat} (s : Selection) (rows : List (Descriptor b)) :
    (2 ≤ rows.length →
      (∀ e : Embedding b, (e.trainBy s rows).1 = true ∧
        ∀ d, (s.median (Embedding.column rows d)).1 =
          some ((e.trainBy s rows).2.thresholds.get d)) ∧
      ((∀ d, ¬ MixesZeros (Embedding.column rows d)) → ∀ e : Embedding b,
        (e.trainBy s rows).2.HasMedians rows ∧
        ∀ (t : Selection) (rows' : List (Descriptor b)), rows'.Perm rows → ∀ f : Embedding b,
          (∀ d, ((e.trainBy s rows).2.thresholds.get d).Alike
            ((f.trainBy t rows').2.thresholds.get d)) ∧
          ∀ x, (e.trainBy s rows).2.quantize x = (f.trainBy t rows').2.quantize x) ∧
      ∀ p : PostingList b, p.trainBy s rows = (true, { p with
        embedding := (p.embedding.trainBy s rows).2
        status := p.status.insert .trained })) ∧
    (rows.length < 2 → (∀ e : Embedding b, e.trainBy s rows = (false, e)) ∧
      ∀ p : PostingList b, p.trainBy s rows = (false, p)) ∧
    (∀ e : Embedding b, e.train rows = e.trainBy .byOrder rows) ∧
    ∀ p : PostingList b, p.train rows = p.trainBy .byOrder rows := by
  refine ⟨?_, ?_, fun e => e.train_eq_trainBy rows, fun p => p.train_eq_trainBy rows⟩
  · intro enough
    refine ⟨fun e => e.trainBy_enough s enough, ?_, fun p => p.trainBy_enough s enough⟩
    intro zeros e
    have learned := e.trainBy_hasMedians s enough zeros
    refine ⟨learned, ?_⟩
    intro t rows' same f
    have zeros' : ∀ d, ¬ MixesZeros (Embedding.column rows' d) := fun d mixes =>
      zeros d ⟨(same.map _).mem_iff.mp mixes.1, (same.map _).mem_iff.mp mixes.2⟩
    have learned' := (f.trainBy_hasMedians t (same.length_eq ▸ enough) zeros').of_perm same.symm
    have alike := learned.alike learned'
    exact ⟨alike, Embedding.quantize_congr alike⟩
  · intro few
    exact ⟨fun e => e.trainBy_few s few, fun p => p.trainBy_few s few⟩

/-- The columns are 4, 1, 3, but for one of NaN, 3, NaN. -/
def threeRows : List (Descriptor 1) :=
  [(Vector.replicate 8 ⟨0x40800000⟩).set 1 ⟨0x7fc00000⟩,
    (Vector.replicate 8 ⟨0x3f800000⟩).set 1 ⟨0x40400000⟩,
    (Vector.replicate 8 ⟨0x40400000⟩).set 1 ⟨0xffc00001⟩]

theorem trainBy_columns_threeRows :
    2 ≤ threeRows.length ∧ (∀ d, ¬ MixesZeros (Embedding.column threeRows d)) ∧
    threeRows.reverse.Perm threeRows ∧
    ((Embedding.initial.train threeRows).2.thresholds.get 0).Alike ⟨0x40400000⟩ ∧
    ((Embedding.initial.train threeRows).2.thresholds.get 1).Alike ⟨0x7fc00000⟩ ∧
    (∀ x, (Embedding.initial.train threeRows).2.quantize x =
      ((Embedding.initial.train threeRows).2.train threeRows.reverse).2.quantize x) ∧
    (threeRows.take 1).length < 2 ∧
    ∀ p : PostingList 1, p.train (threeRows.take 1) = (false, p) := by
  obtain ⟨enough, -, train, -⟩ := trainBy_columns .byOrder threeRows
  obtain ⟨-, few, -, trainList⟩ := trainBy_columns .byOrder (threeRows.take 1)
  have zeros : ∀ d, ¬ MixesZeros (Embedding.column threeRows d) := by decide
  have same : threeRows.reverse.Perm threeRows := List.reverse_perm _
  obtain ⟨learned, again⟩ := (enough (by decide)).2.1 zeros .initial
  obtain ⟨three, middle, first⟩ := learned 0
    [⟨0x3f800000⟩, ⟨0x40400000⟩, ⟨0x40800000⟩] (by decide) (by decide)
  obtain ⟨missing, middle', second⟩ := learned 1
    [⟨0x40400000⟩, ⟨0x7fc00000⟩, ⟨0xffc00001⟩] (by decide) (by decide)
  obtain rfl := Option.some_inj.mp middle
  obtain rfl := Option.some_inj.mp middle'
  rw [(trainBy_columns .byOrder threeRows.reverse).2.2.1, train]
  refine ⟨by decide, zeros, same, first, second, (again .byOrder _ same _).2, by decide, ?_⟩
  intro p
  rw [trainList]
  exact (few (by decide)).2 p

end VisualIndex
