import VisualIndex.PostingList.Statistics
import VisualIndex.Storage
import VisualIndex.Proofs.ImageRuns
import VisualIndex.Proofs.RecordOutcome
import VisualIndex.Proofs.RecordRoundTrip

/-! What the changes of a list keep.

A `Change` is anything that can be done to a list. The flags agree with the content when
the sorted flag stands for the order of the postings and an untrained list has the initial
thresholds. Every change that reads nothing keeps that, and so does the reading of a record
whose own flags agree. No change at all lets a negative image id in. -/
namespace VisualIndex

namespace Status

/-- A status contains a single flag if it has the flag's bit. -/
theorem contains_flag (s : Status) {t : Status} {i : Nat} (hi : i < 8)
    (ht : t.bits.toBitVec = BitVec.twoPow 8 i) : s.contains t = s.bits.toBitVec.getLsbD i := by
  have nonzero : BitVec.twoPow 8 i ≠ 0 := by
    intro h
    have bit := congrArg (fun v : BitVec 8 => v.getLsbD i) h
    simp [hi] at bit
  simp only [contains, ← UInt8.toBitVec_inj, UInt8.toBitVec_and, ht, BitVec.and_twoPow]
  cases s.bits.toBitVec.getLsbD i with
  | true => simp
  | false => simpa using nonzero.symm

theorem contains_sorted (s : Status) : s.contains sorted = s.bits.toBitVec.getLsbD 1 :=
  s.contains_flag (by decide) rfl

theorem contains_trained (s : Status) : s.contains trained = s.bits.toBitVec.getLsbD 0 :=
  s.contains_flag (by decide) rfl

theorem sorted_remove_sorted (s : Status) : (s.remove sorted).contains sorted = false := by
  rw [contains_sorted]
  simp [remove, sorted]

theorem trained_remove_sorted (s : Status) :
    (s.remove sorted).contains trained = s.contains trained := by
  simp [contains_trained, remove, sorted]

theorem trained_insert_sorted (s : Status) :
    (s.insert sorted).contains trained = s.contains trained := by
  simp [contains_trained, insert, sorted]

theorem trained_insert_trained (s : Status) : (s.insert trained).contains trained = true := by
  rw [contains_trained]
  simp [insert, trained]

theorem sorted_insert_trained (s : Status) :
    (s.insert trained).contains sorted = s.contains sorted := by
  simp [contains_sorted, insert, trained]

end Status

/-- Something that is done to a list. -/
inductive Change (b : Nat) where
  | add (image : ImageId) (x : Descriptor b)
  | sort
  | clear
  | reset
  | train (rows : List (Descriptor b))
  | weigh (total : Nat)
  | read (source : Source)
  | load (directory : Directory) (path : Path)

/-- The source that a change reads a record from, if it comes to that. -/
def Change.source? {b : Nat} : Change b → Option Source
  | .read source => some source
  | .load directory path =>
    match directory.openItem path with
    | .ok item => some (PostingList.sourceOf item)
    | .error _ => none
  | _ => none

namespace PostingList

variable {b : Nat}

/-- A list after a change. A call outside the contract and a failed read change nothing. -/
def apply (p : PostingList b) : Change b → PostingList b
  | .add image x =>
    match p.add image x with
    | .ok q => q
    | .error _ => p
  | .sort => p.sort
  | .clear => p.clear
  | .reset => p.reset
  | .train rows => (p.train rows).2
  | .weigh total => p.weigh total
  | .read source => (p.read source).2.1
  | .load directory path => (p.load directory path).2

/-- A change that reads is a read from its source, and nothing where there is none. -/
theorem apply_of_source {p : PostingList b} {c : Change b} {s : Source}
    (h : c.source? = some s) : p.apply c = (p.read s).2.1 := by
  cases c with
  | read source =>
    cases h
    rfl
  | load directory path =>
    simp only [Change.source?] at h
    simp only [apply, load]
    split at h
    · next item opened =>
      cases h
      rw [opened]
    · cases h
  | _ => cases h

theorem apply_load_of_no_source {p : PostingList b} {directory : Directory} {path : Path}
    (h : (Change.load (b := b) directory path).source? = none) :
    p.apply (.load directory path) = p := by
  simp only [Change.source?] at h
  simp only [apply, load]
  split at h
  · cases h
  · next error failed => rw [failed]

/-- The sorted flag stands for the order of the postings. -/
def OrderAgrees (p : PostingList b) : Prop :=
  p.status.contains .sorted → p.postings.Pairwise fun q r => q.image ≤ r.image

/-- Without the trained flag the thresholds are the initial ones. -/
def ThresholdsAgree (p : PostingList b) : Prop :=
  p.status.contains .trained = false → p.embedding = .initial

/-- The sorted flag stands for the order of the postings, and without the trained flag the
thresholds are the initial ones. -/
structure FlagsAgree (p : PostingList b) : Prop where
  sorted : p.OrderAgrees
  untrained : p.ThresholdsAgree

/-- No image id is negative. -/
def IdsValid (p : PostingList b) : Prop := ∀ q ∈ p.postings, 0 ≤ q.image

instance (p : PostingList b) : Decidable p.IdsValid :=
  inferInstanceAs (Decidable (∀ q ∈ p.postings, 0 ≤ q.image))

theorem ofTable_eq_ok {table : WeightTable} {p : PostingList b} (h : ofTable b table = .ok p) :
    p = ⟨.blank, .zero, [], .initial, table⟩ ∧ table.width = 8 * b := by
  rw [ofTable] at h
  split at h
  · next width =>
    cases h
    exact ⟨rfl, width⟩
  · cases h

theorem add_eq_ok {p q : PostingList b} {image : ImageId} {x : Descriptor b}
    (h : p.add image x = .ok q) :
    0 ≤ image ∧ q = { p with
      postings := p.postings ++ [⟨image, p.embedding.quantize x⟩]
      status := p.status.remove .sorted } := by
  rw [add] at h
  split at h
  · cases h
  · next valid =>
    cases h
    exact ⟨Int32.not_lt.mp valid, rfl⟩

theorem sort_perm (p : PostingList b) : p.sort.postings.Perm p.postings :=
  List.mergeSort_perm _ _

theorem sort_pairwise (p : PostingList b) :
    p.sort.postings.Pairwise fun q r => q.image ≤ r.image :=
  pairwise_mergeSort_image (·.image) p.postings

theorem train_eq (p : PostingList b) (rows : List (Descriptor b)) :
    (p.train rows).2 = p ∨ ∃ embedding, (p.train rows).2 =
      { p with embedding := embedding, status := p.status.insert .trained } := by
  rw [train]
  split
  · exact Or.inl rfl
  · next embedding _ => exact Or.inr ⟨embedding, rfl⟩

theorem weigh_eq (p : PostingList b) (total : Nat) :
    ∃ idf, p.weigh total = { p with idf := idf } := by
  rw [weigh]
  split
  · exact ⟨p.idf, rfl⟩
  · exact ⟨_, rfl⟩

/-- What a change that reads nothing can make of a list. -/
inductive Effect (p : PostingList b) : PostingList b → Prop where
  | nothing : Effect p p
  | added (image : ImageId) (x : Descriptor b) (valid : 0 ≤ image) : Effect p { p with
      postings := p.postings ++ [⟨image, p.embedding.quantize x⟩]
      status := p.status.remove .sorted }
  | sorted : Effect p p.sort
  | cleared : Effect p p.clear
  | reset : Effect p p.reset
  | trained (embedding : Embedding b) : Effect p { p with
      embedding := embedding
      status := p.status.insert .trained }
  | weighed (idf : Single) : Effect p { p with idf := idf }

theorem apply_effect (p : PostingList b) {c : Change b} (unread : c.source? = none) :
    p.Effect (p.apply c) := by
  cases c with
  | add image x =>
    simp only [apply]
    split
    · next q added =>
      obtain ⟨valid, rfl⟩ := add_eq_ok added
      exact .added image x valid
    · exact .nothing
  | sort => exact .sorted
  | clear => exact .cleared
  | reset => exact .reset
  | train rows =>
    rcases p.train_eq rows with same | ⟨embedding, learned⟩
    · rw [apply, same]
      exact .nothing
    · rw [apply, learned]
      exact .trained embedding
  | weigh total =>
    obtain ⟨idf, weighed⟩ := p.weigh_eq total
    rw [apply, weighed]
    exact .weighed idf
  | read source => cases unread
  | load directory path =>
    rw [apply_load_of_no_source unread]
    exact .nothing

namespace Effect
variable {p q : PostingList b}

theorem orderAgrees (effect : p.Effect q) (agrees : p.OrderAgrees) : q.OrderAgrees := by
  cases effect with
  | nothing => exact agrees
  | added image x valid =>
    intro flag
    rw [Status.sorted_remove_sorted] at flag
    cases flag
  | sorted => exact fun _ => p.sort_pairwise
  | cleared => exact fun _ => .nil
  | reset => exact fun _ => .nil
  | trained embedding => exact fun flag => agrees (p.status.sorted_insert_trained ▸ flag)
  | weighed idf => exact agrees

theorem thresholdsAgree (effect : p.Effect q) (agrees : p.ThresholdsAgree) :
    q.ThresholdsAgree := by
  cases effect with
  | nothing => exact agrees
  | added image x valid => exact fun flag => agrees (p.status.trained_remove_sorted ▸ flag)
  | sorted => exact fun flag => agrees (p.status.trained_insert_sorted ▸ flag)
  | cleared => exact fun flag => agrees (p.status.trained_remove_sorted ▸ flag)
  | reset => exact fun _ => rfl
  | trained embedding =>
    intro flag
    rw [Status.trained_insert_trained] at flag
    cases flag
  | weighed idf => exact agrees

theorem idsValid (effect : p.Effect q) (ids : p.IdsValid) : q.IdsValid := by
  cases effect with
  | nothing => exact ids
  | added image x valid =>
    intro r hr
    rcases List.mem_append.mp hr with old | new
    · exact ids r old
    · rw [List.mem_singleton.mp new]
      exact valid
  | sorted => exact fun q hq => ids q (p.sort_perm.mem_iff.mp hq)
  | cleared => exact fun q hq => by cases hq
  | reset => exact fun q hq => by cases hq
  | trained embedding => exact ids
  | weighed idf => exact ids

theorem table_eq (effect : p.Effect q) : q.table = p.table := by
  cases effect <;> rfl

end Effect

/-- A change that reads either leaves the list as it is or succeeds in its reading. -/
theorem apply_eq_self_or_read (p : PostingList b) {c : Change b} {s : Source}
    (source : c.source? = some s) : p.apply c = p ∨ ∃ t, p.read s = (.ok (), p.apply c, t) := by
  rw [apply_of_source source]
  obtain ⟨t, ht, -⟩ := p.read_from_supply s
  cases stops : stop? b s.supply with
  | some stop =>
    rw [stops] at ht
    exact Or.inl (by rw [ht])
  | none =>
    rw [stops] at ht
    exact Or.inr ⟨t, by rw [ht]⟩

namespace FlagsAgree

theorem withRecord {q : PostingList b} (agree : q.FlagsAgree) (p : PostingList b) :
    (p.withRecord q.record).FlagsAgree := ⟨agree.sorted, agree.untrained⟩

/-- A change that reads nothing keeps the flags in agreement with the content. -/
theorem apply {p : PostingList b} (agree : p.FlagsAgree) {c : Change b}
    (unread : c.source? = none) : (p.apply c).FlagsAgree where
  sorted := (p.apply_effect unread).orderAgrees agree.sorted
  untrained := (p.apply_effect unread).thresholdsAgree agree.untrained

end FlagsAgree

theorem recordAt_ids {bytes : List UInt8} (whole : stop? b bytes = none) :
    ∀ q ∈ (recordAt b bytes).postings, 0 ≤ q.image := by
  intro q hq
  obtain ⟨k, hk, rfl⟩ := List.mem_map.mp hq
  exact ((stop?_eq_none_iff.mp whole).2 k (List.mem_range.mp hk)).2

/-- No change lets a negative image id in, whatever bytes it reads. -/
theorem IdsValid.apply {p : PostingList b} (ids : p.IdsValid) (c : Change b) :
    (p.apply c).IdsValid := by
  cases source : c.source? with
  | none => exact (p.apply_effect source).idsValid ids
  | some s =>
    rcases p.apply_eq_self_or_read source with same | ⟨t, read⟩
    · rwa [same]
    · obtain ⟨whole, found, -⟩ := read_eq_ok read
      rw [found]
      exact recordAt_ids whole

/-- The table of voting weights is not touched by any change. -/
theorem apply_table (p : PostingList b) (c : Change b) : (p.apply c).table = p.table := by
  cases source : c.source? with
  | none => exact (p.apply_effect source).table_eq
  | some s =>
    rcases p.apply_eq_self_or_read source with same | ⟨t, read⟩
    · rw [same]
    · rw [(read_eq_ok read).2.1]
      rfl

end PostingList

end VisualIndex
