import VisualIndex.Proofs.ListChanges

/-! Lists that exchange records.

A collection holds lists and the complete records that have been written from them. Its
actions make lists, copy and change them, and write them; a list may read from any source.
Where every record that is read in full was written from a list of the collection, the
flags of all lists agree with their content in every state that is reached. -/
namespace VisualIndex

structure Collection (b : Nat) where
  lists : List (PostingList b)
  records : List (List UInt8)

/-- Something that is done to a collection. An index beyond the lists does nothing. -/
inductive Action (b : Nat) where
  | create (table : WeightTable)
  | copy (i : Nat)
  | change (i : Nat) (c : Change b)
  | write (i : Nat) (sink : Sink)
  | save (i : Nat) (files : AtomicFiles) (directory : Directory) (path : Path)

namespace PostingList
variable {b : Nat}

/-- What a list puts into a sink, if that succeeds. -/
def written? (p : PostingList b) (sink : Sink) : Option (List UInt8) :=
  match p.write sink with
  | (.ok (), filled) => some (filled.written.toList.drop sink.written.size)
  | (.error _, _) => none

/-- What a list puts into the file that is saved, if that succeeds. -/
def saved? (p : PostingList b) (files : AtomicFiles) (directory : Directory) (path : Path) :
    Option (List UInt8) :=
  match p.save files directory path with
  | (.ok (), _) => p.written? Sink.empty
  | (.error _, _) => none

end PostingList

namespace Collection

variable {b : Nat}

def empty : Collection b := ⟨[], []⟩

def step (w : Collection b) : Action b → Collection b
  | .create table =>
    match PostingList.ofTable b table with
    | .ok p => { w with lists := w.lists ++ [p] }
    | .error _ => w
  | .copy i => { w with lists := w.lists ++ w.lists[i]?.toList }
  | .change i c => { w with lists := w.lists.modify i (·.apply c) }
  | .write i sink =>
    { w with records := w.records ++ (w.lists[i]?.bind (·.written? sink)).toList }
  | .save i files directory path =>
    { w with records := w.records ++ (w.lists[i]?.bind (·.saved? files directory path)).toList }

/-- A read that succeeds finds a record of the collection at the front of its source. -/
def OwnRecords (w : Collection b) : Action b → Prop
  | .change i c => ∀ p s, w.lists[i]? = some p → c.source? = some s → (p.read s).1 = .ok () →
      ∃ r ∈ w.records, r <+: s.supply
  | _ => True

/-- The states that allowed actions lead to. -/
inductive Reached (allowed : Collection b → Action b → Prop) : Collection b → Prop where
  | empty : Reached allowed empty
  | step {w : Collection b} {a : Action b} (before : Reached allowed w) (ok : allowed w a) :
      Reached allowed (w.step a)

/-- All lists have agreeing flags and valid ids, and all records are of such lists. -/
structure Invariant (w : Collection b) : Prop where
  lists : ∀ p ∈ w.lists, p.FlagsAgree ∧ p.IdsValid
  records : ∀ r ∈ w.records, ∃ p : PostingList b, p.FlagsAgree ∧ p.IdsValid ∧
    p.postings.length < 2 ^ 32 ∧ r = p.record.encoding

end Collection

namespace PostingList
variable {b : Nat}

theorem write_of_many (p : PostingList b) (many : 2 ^ 32 ≤ p.postings.length) (s : Sink) :
    p.write s = (.error (.tooManyPostings p.postings.length), s) := by
  rw [write, if_pos many]
  rfl

/-- Only complete records count as written. -/
theorem written?_eq_some {p : PostingList b} {sink : Sink} {r : List UInt8}
    (h : p.written? sink = some r) : p.postings.length < 2 ^ 32 ∧ r = p.record.encoding := by
  rw [written?] at h
  by_cases many : 2 ^ 32 ≤ p.postings.length
  · rw [p.write_of_many many] at h
    cases h
  · have few : p.postings.length < 2 ^ 32 := by omega
    obtain ⟨t, ht, after⟩ := p.write_emits few sink
    rw [ht] at h
    split at h
    · next filled result =>
      rw [Prod.mk.injEq] at result
      obtain ⟨ok, rfl⟩ := result
      split at ok
      · next whole =>
        cases h
        refine ⟨few, ?_⟩
        rw [after.written, whole, ← Array.length_toList, List.drop_left]
      · cases ok
    · cases h

theorem written?_empty (p : PostingList b) (few : p.postings.length < 2 ^ 32) :
    p.written? Sink.empty = some p.record.encoding := by
  obtain ⟨t, ht, after⟩ := (p.write_emits few).ok (s := Sink.empty) (by simp [Sink.empty])
  have content : t.written.toList = p.record.encoding := after.written
  rw [written?, ht]
  exact congrArg some content

theorem saved?_eq_some {p : PostingList b} {files : AtomicFiles} {directory : Directory}
    {path : Path} {r : List UInt8} (h : p.saved? files directory path = some r) :
    p.postings.length < 2 ^ 32 ∧ r = p.record.encoding := by
  rw [saved?] at h
  split at h
  · exact written?_eq_some h
  · cases h

end PostingList

namespace Collection

variable {b : Nat}

theorem ownRecords_of_unread (w : Collection b) (i : Nat) {c : Change b}
    (unread : c.source? = none) : w.OwnRecords (.change i c) := by
  intro p s _ source
  rw [unread] at source
  cases source

/-- Where the lists of the next state come from. -/
theorem mem_lists_step {w : Collection b} {a : Action b} {p : PostingList b}
    (h : p ∈ (w.step a).lists) : p ∈ w.lists ∨ (∃ table, PostingList.ofTable b table = .ok p) ∨
      ∃ i c q, a = .change i c ∧ w.lists[i]? = some q ∧ p = q.apply c := by
  cases a with
  | create table =>
    simp only [step] at h
    split at h
    · next q made =>
      rcases List.mem_append.mp h with old | new
      · exact Or.inl old
      · exact Or.inr (Or.inl ⟨table, List.mem_singleton.mp new ▸ made⟩)
    · exact Or.inl h
  | copy i =>
    rcases List.mem_append.mp h with old | new
    · exact Or.inl old
    · exact Or.inl (List.mem_of_getElem? (Option.mem_toList.mp new))
  | change i c =>
    obtain ⟨j, hj⟩ := List.mem_iff_getElem?.mp h
    rw [step, List.getElem?_modify] at hj
    obtain ⟨q, hq, rfl⟩ := Option.map_eq_some_iff.mp hj
    by_cases here : i = j
    · exact Or.inr (Or.inr ⟨i, c, q, rfl, here ▸ hq, if_pos here⟩)
    · rw [if_neg here]
      exact Or.inl (List.mem_of_getElem? hq)
  | write i sink => exact Or.inl h
  | save i files directory path => exact Or.inl h

theorem mem_records_step {w : Collection b} {a : Action b} {r : List UInt8}
    (h : r ∈ (w.step a).records) : r ∈ w.records ∨
      ∃ p ∈ w.lists, p.postings.length < 2 ^ 32 ∧ r = p.record.encoding := by
  cases a with
  | create table =>
    simp only [step] at h
    split at h <;> exact Or.inl h
  | copy i => exact Or.inl h
  | change i c => exact Or.inl h
  | write i sink =>
    rcases List.mem_append.mp h with old | new
    · exact Or.inl old
    · obtain ⟨p, hp, written⟩ := Option.bind_eq_some_iff.mp (Option.mem_toList.mp new)
      exact Or.inr ⟨p, List.mem_of_getElem? hp, PostingList.written?_eq_some written⟩
  | save i files directory path =>
    rcases List.mem_append.mp h with old | new
    · exact Or.inl old
    · obtain ⟨p, hp, saved⟩ := Option.bind_eq_some_iff.mp (Option.mem_toList.mp new)
      exact Or.inr ⟨p, List.mem_of_getElem? hp, PostingList.saved?_eq_some saved⟩

/-- Where only records of the collection are read, a changed list is as good as before. -/
theorem Invariant.apply {w : Collection b} (inv : w.Invariant) {i : Nat} {c : Change b}
    (own : w.OwnRecords (.change i c)) {p : PostingList b} (hp : w.lists[i]? = some p) :
    (p.apply c).FlagsAgree ∧ (p.apply c).IdsValid := by
  obtain ⟨agree, ids⟩ := inv.lists p (List.mem_of_getElem? hp)
  refine ⟨?_, ids.apply c⟩
  cases source : c.source? with
  | none => exact agree.apply source
  | some s =>
    rcases p.apply_eq_self_or_read source with same | ⟨t, read⟩
    · rwa [same]
    · obtain ⟨r, hr, front⟩ := own p s hp source (by rw [read])
      obtain ⟨q, q_agree, q_ids, few, rfl⟩ := inv.records r hr
      obtain ⟨u, hu, -⟩ := q.withRecord_record_read p q_ids few s front
      rw [read, Prod.mk.injEq, Prod.mk.injEq] at hu
      rw [hu.2.1]
      exact q_agree.withRecord p

theorem ofTable_good {table : WeightTable} {p : PostingList b}
    (h : PostingList.ofTable b table = .ok p) : p.FlagsAgree ∧ p.IdsValid := by
  obtain ⟨rfl, -⟩ := PostingList.ofTable_eq_ok h
  exact ⟨⟨fun _ => .nil, fun _ => rfl⟩, fun q hq => by cases hq⟩

theorem Invariant.step {w : Collection b} (inv : w.Invariant) {a : Action b}
    (own : w.OwnRecords a) : (w.step a).Invariant := by
  constructor
  · intro p hp
    rcases mem_lists_step hp with old | ⟨table, made⟩ | ⟨i, c, q, rfl, hq, rfl⟩
    · exact inv.lists p old
    · exact ofTable_good made
    · exact inv.apply own hq
  · intro r hr
    rcases mem_records_step hr with old | ⟨p, hp, few, rfl⟩
    · exact inv.records r old
    · obtain ⟨agree, ids⟩ := inv.lists p hp
      exact ⟨p, agree, ids, few, rfl⟩

theorem Reached.weaken {allowed allowed' : Collection b → Action b → Prop}
    (weaker : ∀ w a, allowed w a → allowed' w a) {w : Collection b} (reached : Reached allowed w) :
    Reached allowed' w := by
  induction reached with
  | empty => exact .empty
  | step _ ok ih => exact .step ih (weaker _ _ ok)

theorem Reached.invariant {w : Collection b} (reached : Reached OwnRecords w) : w.Invariant := by
  induction reached with
  | empty =>
    constructor
    · intro p hp
      cases hp
    · intro r hr
      cases hr
  | step _ own inv => exact inv.step own

/-- What new lists have and allowed changes keep is had by every list. -/
theorem Reached.forall_lists {allowed : Collection b → Action b → Prop}
    (good : PostingList b → Prop)
    (made : ∀ table p, PostingList.ofTable b table = .ok p → good p)
    (changed : ∀ (w : Collection b) i c p, allowed w (.change i c) → w.lists[i]? = some p →
      good p → good (p.apply c))
    {w : Collection b} (reached : Reached allowed w) : ∀ p ∈ w.lists, good p := by
  induction reached with
  | empty =>
    intro p hp
    cases hp
  | step _ ok ih =>
    intro p hp
    rcases mem_lists_step hp with old | ⟨table, new⟩ | ⟨i, c, q, rfl, hq, rfl⟩
    · exact ih p old
    · exact made table p new
    · exact changed _ i c q ok hq (ih q (List.mem_of_getElem? hq))

theorem Reached.ids {allowed : Collection b → Action b → Prop} {w : Collection b}
    (reached : Reached allowed w) : ∀ p ∈ w.lists, p.IdsValid :=
  reached.forall_lists PostingList.IdsValid (fun _ _ made => (ofTable_good made).2)
    fun _ _ c _ _ _ ids => ids.apply c

/-- Every list keeps the table that it was made with, which has a weight for each distance. -/
theorem Reached.covers {allowed : Collection b → Action b → Prop} {w : Collection b}
    (reached : Reached allowed w) (wide : 0 < b) :
    ∀ p ∈ w.lists, p.table.weights.size = 8 * b + 1 := by
  apply reached.forall_lists fun p => p.table.weights.size = 8 * b + 1
  · intro table p made
    obtain ⟨rfl, width⟩ := PostingList.ofTable_eq_ok made
    rw [WeightTable.width] at width
    change table.weights.size = 8 * b + 1
    omega
  · intro w i c p _ _ covers
    rwa [p.apply_table c]

/-- In every state that is reached by reading own records only, the sorted flag stands for
ascending image ids, an untrained list has no threshold but zero, and no image id is
negative. The ids are valid whatever is read. -/
theorem Reached.flags_and_ids (w : Collection b) :
    (Reached OwnRecords w → ∀ p ∈ w.lists,
      (p.status.contains .sorted → p.postings.Pairwise fun q r => q.image ≤ r.image) ∧
      (p.status.contains .trained = false →
        ∀ d : Fin (8 * b), p.embedding.thresholds.get d = Single.zero) ∧
      ∀ q ∈ p.postings, 0 ≤ q.image) ∧
    (Reached (fun _ _ => True) w → ∀ p ∈ w.lists, ∀ q ∈ p.postings, 0 ≤ q.image) := by
  constructor
  · intro reached p hp
    obtain ⟨agree, ids⟩ := reached.invariant.lists p hp
    refine ⟨agree.sorted, ?_, ids⟩
    intro untrained d
    rw [agree.untrained untrained]
    exact Vector.getElem_replicate d.isLt
  · intro reached
    exact reached.ids

def zeroTable : WeightTable := ⟨.replicate 9 .zero⟩

def twoFeatures : PostingList 1 :=
  let blank : PostingList 1 := ⟨.blank, .zero, [], .initial, zeroTable⟩
  (blank.apply (.add 5 (.replicate 8 .zero))).apply (.add 3 (.replicate 8 .zero))

/-- Two lists, of which one has been filled, sorted and written. -/
def oneWritten : Collection 1 :=
  let made := (empty.step (.create zeroTable)).step (.create zeroTable)
  let added := (made.step (.change 0 (.add 5 (.replicate 8 .zero)))).step
    (.change 0 (.add 3 (.replicate 8 .zero)))
  (added.step (.change 0 .sort)).step (.write 0 .empty)

/-- The other list has met bytes that are no record and has then read what was written. -/
def bothSorted : Collection 1 :=
  (oneWritten.step (.change 1 (.read (.ofBytes [7, 7, 7])))).step
    (.change 1 (.read (.ofBytes (twoFeatures.sort.record.encoding ++ [9]))))

theorem twoFeatures_few : twoFeatures.sort.postings.length < 2 ^ 32 := by
  rw [twoFeatures.sort_perm.length_eq]
  decide

theorem oneWritten_eq : oneWritten =
    ⟨[twoFeatures.sort, ⟨.blank, .zero, [], .initial, zeroTable⟩],
      [twoFeatures.sort.record.encoding]⟩ := by
  have written := twoFeatures.sort.written?_empty twoFeatures_few
  change (⟨_, [] ++ (twoFeatures.sort.written? Sink.empty).toList⟩ : Collection 1) = _
  rw [written]
  rfl

theorem bothSorted_reached : Reached OwnRecords bothSorted := by
  have made : Reached OwnRecords ((empty.step (.create zeroTable)).step (.create zeroTable)) :=
    (Reached.empty (b := 1)).step trivial |>.step trivial
  have added := (made.step (a := .change 0 (.add 5 (.replicate 8 .zero)))
    (ownRecords_of_unread _ 0 rfl)).step (a := .change 0 (.add 3 (.replicate 8 .zero)))
    (ownRecords_of_unread _ 0 rfl)
  have written : Reached OwnRecords oneWritten :=
    (added.step (a := .change 0 .sort) (ownRecords_of_unread _ 0 rfl)).step
      (a := .write 0 .empty) trivial
  have failed : OwnRecords oneWritten (.change 1 (.read (.ofBytes [7, 7, 7]))) := by
    intro p s _ source ok
    cases source
    obtain ⟨t, ht, -⟩ := p.read_from_supply (.ofBytes [7, 7, 7])
    rw [ht] at ok
    cases ok
  refine (written.step failed).step ?_
  intro p s _ source _
  cases source
  refine ⟨twoFeatures.sort.record.encoding, ?_, List.prefix_append _ [9]⟩
  rw [oneWritten_eq]
  exact List.mem_singleton_self _

theorem bothSorted_lists : bothSorted.lists = [twoFeatures.sort, twoFeatures.sort] := by
  let blank : PostingList 1 := ⟨.blank, .zero, [], .initial, zeroTable⟩
  obtain ⟨t, ht, -⟩ := blank.read_from_supply (.ofBytes [7, 7, 7])
  have ids : ∀ q ∈ twoFeatures.sort.postings, 0 ≤ q.image := by
    intro q hq
    have valid : ∀ q ∈ twoFeatures.postings, 0 ≤ q.image := by decide
    exact valid q (twoFeatures.sort_perm.mem_iff.mp hq)
  obtain ⟨u, hu, -⟩ := twoFeatures.sort.withRecord_record_read blank ids
    twoFeatures_few (.ofBytes (twoFeatures.sort.record.encoding ++ [9])) (List.prefix_append _ [9])
  have failed : blank.apply (.read (.ofBytes [7, 7, 7])) = blank := congrArg (·.2.1) ht
  have filled : blank.apply (.read (.ofBytes (twoFeatures.sort.record.encoding ++ [9]))) =
      twoFeatures.sort := congrArg (·.2.1) hu
  rw [bothSorted, oneWritten_eq]
  change [twoFeatures.sort, (blank.apply _).apply _] = _
  rw [failed, filled]

theorem Reached.flags_and_ids_bothSorted :
    Reached OwnRecords bothSorted ∧ Reached (fun _ _ => True) bothSorted ∧
    ∃ p ∈ bothSorted.lists, p.postings.length = 2 ∧ p.status.contains .sorted ∧
      p.status.contains .trained = false ∧
      (p.postings.Pairwise fun q r => q.image ≤ r.image) ∧
      (∀ d : Fin (8 * 1), p.embedding.thresholds.get d = Single.zero) ∧
      ∀ q ∈ p.postings, 0 ≤ q.image := by
  have own := bothSorted_reached
  have any : Reached (fun _ _ => True) bothSorted := own.weaken fun _ _ _ => trivial
  have inside : twoFeatures.sort ∈ bothSorted.lists := by
    rw [bothSorted_lists]
    exact List.mem_cons_self
  have sorted : twoFeatures.sort.status.contains .sorted := by decide
  have untrained : twoFeatures.sort.status.contains .trained = false := by decide
  obtain ⟨kept, valid⟩ := Reached.flags_and_ids bothSorted
  obtain ⟨order, initial, -⟩ := kept own _ inside
  exact ⟨own, any, _, inside, twoFeatures.sort_perm.length_eq, sorted, untrained, order sorted,
    initial untrained, valid any _ inside⟩

end Collection

end VisualIndex
