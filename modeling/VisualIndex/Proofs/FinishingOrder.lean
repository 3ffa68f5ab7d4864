import Mathlib.Data.List.Sort
import VisualIndex.Proofs.Collections
import VisualIndex.Proofs.IndexingOrder
import VisualIndex.Vocabulary

/-! Finishing a vocabulary.

A vocabulary is finished in three steps: its lists are trained, sorted and weighed. A step
may go through the lists in any order, since it changes each of them by itself. The steps
touch the status and the postings of the same list, yet none of them sees what the others
change there: a weight depends on the images that occur, sorting on the postings, training on
the rows, and the two flags are bits of their own. So their order does not matter either. -/
namespace VisualIndex

theorem Status.insert_comm (s t u : Status) : (s.insert t).insert u = (s.insert u).insert t := by
  simp only [insert, UInt8.or_assoc, UInt8.or_comm t.bits]

namespace PostingList
variable {b : Nat}

/-- Whether a list is trained is settled by the number of rows. -/
theorem train_fst (p : PostingList b) (rows : List (Descriptor b)) :
    (p.train rows).1 = decide (2 ≤ rows.length) := by
  by_cases few : rows.length < 2
  · simp [train, Embedding.train, Embedding.fewestRows, few]
  · simp [train, Embedding.train, Embedding.fewestRows, few, Nat.not_lt.mp few]

theorem images_eq_of_perm {p q : PostingList b} (same : p.postings.Perm q.postings) :
    p.images = q.images := by
  refine p.images_ascending.eq_of_mem_iff q.images_ascending fun i => ?_
  simp only [mem_images, same.mem_iff]

theorem sort_train (p : PostingList b) (rows : List (Descriptor b)) :
    (p.sort.train rows).2 = (p.train rows).2.sort := by
  simp only [train, sort]
  split
  · rfl
  · simp only [p.status.insert_comm]

theorem weigh_train (p : PostingList b) (rows : List (Descriptor b)) (total : Nat) :
    ((p.weigh total).train rows).2 = (p.train rows).2.weigh total := by
  rcases learned : p.embedding.train rows with ⟨enough, embedding⟩
  by_cases empty : p.postings.isEmpty
  · cases enough <;> simp [train, weigh, learned, empty]
  · cases enough <;> simp [train, weigh, learned, empty, images]

theorem sort_weigh (p : PostingList b) (total : Nat) :
    p.sort.weigh total = (p.weigh total).sort := by
  have images : p.sort.images = p.images := images_eq_of_perm p.sort_perm
  by_cases empty : p.postings.isEmpty
  · have sorted_empty : p.sort.postings.isEmpty := by
      rwa [p.sort_perm.isEmpty_eq]
    rw [weigh, weigh, if_pos empty, if_pos sorted_empty]
  · have sorted_nonempty : ¬ p.sort.postings.isEmpty := by
      rwa [p.sort_perm.isEmpty_eq]
    rw [weigh, weigh, if_neg empty, if_neg sorted_nonempty, images]
    rfl

end PostingList

/-- A step in finishing a vocabulary. -/
inductive FinishingStep (b : Nat) where
  | train (rows : List (List (Descriptor b)))
  | sort
  | weigh (total : Nat)

namespace FinishingStep
variable {b : Nat}

/-- What a step does to the list at an index. The answer tells whether it was trained. -/
def work (s : FinishingStep b) (i : Nat) (p : PostingList b) : Bool × PostingList b :=
  match s with
  | train rows => p.train (rows.getD i [])
  | sort => (false, p.sort)
  | weigh total => (false, p.weigh total)

/-- Go through the lists in an order and count those that are trained. -/
def visit (s : FinishingStep b) : List Nat → Vocabulary b → Nat × Vocabulary b
  | [], v => (0, v)
  | i :: order, v =>
    match v[i]? with
    | none => s.visit order v
    | some p =>
      let (learned, q) := s.work i p
      let (count, w) := s.visit order (v.set i q)
      (learned.toNat + count, w)

/-- Why a step is refused, if it is: there are rows for another number of lists. -/
def refusal? (s : FinishingStep b) (v : Vocabulary b) : Option Violation :=
  match s with
  | train rows =>
    if rows.length ≠ v.length then some (.trainingMismatch rows.length v.length) else none
  | sort | weigh _ => none

/-- A whole step. It is refused before any list changes. -/
def perform (s : FinishingStep b) (order : List Nat) (v : Vocabulary b) :
    Except Violation Nat × Vocabulary b :=
  match s.refusal? v with
  | some violation => (.error violation, v)
  | none =>
    let (count, w) := s.visit order v
    (.ok count, w)

/-- The step as a function of the vocabulary, with no order to go by. -/
def run (s : FinishingStep b) (v : Vocabulary b) : Except Violation Nat × Vocabulary b :=
  match s with
  | train rows =>
    match v.train rows with
    | .ok (count, w) => (.ok count, w)
    | .error violation => (.error violation, v)
  | sort => (.ok 0, v.sort)
  | weigh total => (.ok 0, v.weigh total)

/-- Each list is worked on by itself, so visiting it changes it and no other. -/
theorem visit_eq (s : FinishingStep b) {order : List Nat} (once : order.Nodup)
    (v : Vocabulary b) : s.visit order v =
      (order.countP fun i => v[i]?.any fun p => (s.work i p).1,
        v.mapIdx fun i p => if i ∈ order then (s.work i p).2 else p) := by
  induction order generalizing v with
  | nil =>
    refine Prod.ext rfl (List.ext_getElem? fun j => ?_)
    simp [visit]
  | cons i order ih =>
    obtain ⟨first, others⟩ := List.nodup_cons.mp once
    cases here : v[i]? with
    | none =>
      simp only [visit, here, ih others, List.countP_cons, Option.any_none, Bool.false_eq_true,
        if_false, Nat.add_zero]
      refine Prod.ext rfl (List.ext_getElem? fun j => ?_)
      by_cases same : j = i
      · subst same
        simp [here]
      · simp [same]
    | some p =>
      have place : i < v.length := (List.getElem?_eq_some_iff.mp here).1
      have unmoved : ∀ j ∈ order, (v.set i (s.work i p).2)[j]? = v[j]? := fun j hj =>
        List.getElem?_set_ne fun same : i = j => first (same ▸ hj)
      simp only [visit, here, ih others, List.countP_cons, Option.any_some]
      refine Prod.ext ?_ (List.ext_getElem? fun j => ?_)
      · have rest : (order.countP fun j => (v.set i (s.work i p).2)[j]?.any fun q =>
            (s.work j q).1) = order.countP fun j => v[j]?.any fun q => (s.work j q).1 :=
          List.countP_congr fun j hj => by rw [unmoved j hj]
        rw [rest, Nat.add_comm]
        cases (s.work i p).1 <;> rfl
      · by_cases same : j = i
        · subst same
          rw [List.getElem?_mapIdx, List.getElem?_mapIdx, List.getElem?_set_self place, here]
          simp [first]
        · simp [same, List.getElem?_set_ne (Ne.symm same)]

/-- What a step makes of a vocabulary whose lists all are worked on. -/
def result (s : FinishingStep b) (v : Vocabulary b) : Vocabulary b :=
  v.mapIdx fun i p => (s.work i p).2

theorem length_result (s : FinishingStep b) (v : Vocabulary b) :
    (s.result v).length = v.length := List.length_mapIdx

theorem visit_all (s : FinishingStep b) (v : Vocabulary b) {order : List Nat}
    (all : order.Perm (List.range v.length)) : s.visit order v =
      ((List.range v.length).countP fun i => v[i]?.any fun p => (s.work i p).1, s.result v) := by
  rw [s.visit_eq (all.nodup_iff.mpr List.nodup_range), all.countP_eq]
  refine Prod.ext rfl (List.mapIdx_eq_mapIdx_iff.mpr fun i hi => if_pos ?_)
  rw [all.mem_iff]
  exact List.mem_range.mpr hi

theorem refusal?_congr (s : FinishingStep b) {v w : Vocabulary b} (length : w.length = v.length) :
    s.refusal? w = s.refusal? v := by
  cases s <;> simp only [refusal?, length]

/-- A step that is not refused works on each list by itself. -/
theorem perform_all {s : FinishingStep b} {v : Vocabulary b} (fits : s.refusal? v = none)
    {order : List Nat} (all : order.Perm (List.range v.length)) : s.perform order v =
      (.ok ((List.range v.length).countP fun i => v[i]?.any fun p => (s.work i p).1),
        s.result v) := by
  simp only [perform, fits, s.visit_all v all]

section Train
variable {v : Vocabulary b} {rows : List (List (Descriptor b))}
  (number : rows.length = v.length)
include number

theorem result_train :
    (train rows).result v = (List.zipWith PostingList.train v rows).map (·.2) := by
  refine List.ext_getElem (by simp [result, number]) fun i hi hi' => ?_
  have own : i < rows.length := by rwa [length_result, ← number] at hi
  simp [result, work, List.getElem?_eq_getElem own]

theorem count_train : ((List.range v.length).countP fun i =>
      v[i]?.any fun p => ((train rows).work i p).1) = rows.countP fun own => 2 ≤ own.length := by
  have listed : rows = (List.range v.length).map fun i => rows.getD i [] := by
    refine List.ext_getElem (by simp [number]) fun i hi hi' => ?_
    simp [List.getElem?_eq_getElem hi]
  conv => rhs; rw [listed, List.countP_map]
  refine List.countP_congr fun i hi => ?_
  have inside := List.mem_range.mp hi
  simp only [List.getElem?_eq_getElem inside, Option.any_some, work, PostingList.train_fst]
  rfl

theorem train_eq : v.train rows =
    .ok (rows.countP fun own => 2 ≤ own.length, (train rows).result v) := by
  have enough : ((List.zipWith PostingList.train v rows).map (·.1)) =
      rows.map fun own => decide (2 ≤ own.length) := by
    refine List.ext_getElem (by simp [number]) fun i hi hi' => ?_
    simp [PostingList.train_fst]
  have count := congrArg (List.countP id) enough
  rw [List.countP_map, List.countP_map] at count
  rw [Vocabulary.train, if_neg (not_not.mpr number.symm), result_train number]
  exact congrArg (fun n => Except.ok (n, _)) count

theorem perform_train {order : List Nat} (all : order.Perm (List.range v.length)) :
    (train rows).perform order v =
      (.ok (rows.countP fun own => 2 ≤ own.length), (train rows).result v) := by
  have fits : (train rows).refusal? v = none := if_neg (not_not.mpr number)
  rw [perform_all fits all, count_train number]

end Train

theorem perform_train_of_mismatch {v : Vocabulary b} {rows : List (List (Descriptor b))}
    (number : rows.length ≠ v.length) (order : List Nat) :
    (train rows).perform order v = (.error (.trainingMismatch rows.length v.length), v) := by
  have refused : (train rows).refusal? v = some (.trainingMismatch rows.length v.length) :=
    if_pos number
  simp only [perform, refused]

/-- A step that trains nothing and does the same to all lists maps them. -/
theorem perform_untrained {s : FinishingStep b} {f : PostingList b → PostingList b}
    (alike : ∀ i p, s.work i p = (false, f p)) {v : Vocabulary b} (fits : s.refusal? v = none)
    {order : List Nat} (all : order.Perm (List.range v.length)) :
    s.perform order v = (.ok 0, v.map f) := by
  have none_trained : ((List.range v.length).countP fun i =>
      v[i]?.any fun p => (s.work i p).1) = 0 := by
    simp [alike]
  have mapped : s.result v = v.map f := by
    refine List.ext_getElem? fun i => ?_
    simp [result, alike]
  rw [perform_all fits all, none_trained, mapped]

/-- The order in which a step goes through the lists does not matter. -/
theorem perform_eq_run (s : FinishingStep b) (v : Vocabulary b) {order : List Nat}
    (all : order.Perm (List.range v.length)) : s.perform order v = s.run v := by
  cases s with
  | train rows =>
    by_cases number : rows.length = v.length
    · simp only [perform_train number all, run, train_eq number]
    · simp only [perform_train_of_mismatch number, run, Vocabulary.train, if_pos (Ne.symm number)]
  | sort => exact perform_untrained (fun _ _ => rfl) rfl all
  | weigh total => exact perform_untrained (fun _ _ => rfl) rfl all

/-- The three steps that finish a vocabulary. -/
def finishing (rows : List (List (Descriptor b))) (total : Nat) : List (FinishingStep b) :=
  [train rows, sort, weigh total]

theorem mem_finishing {rows : List (List (Descriptor b))} {total : Nat} {s : FinishingStep b} :
    s ∈ finishing rows total ↔ s = train rows ∨ s = sort ∨ s = weigh total := by
  simp only [finishing, List.mem_cons, List.not_mem_nil, or_false]

theorem refusal?_finishing {v : Vocabulary b} {rows : List (List (Descriptor b))} {total : Nat}
    (number : rows.length = v.length) {s : FinishingStep b} (hs : s ∈ finishing rows total) :
    s.refusal? v = none := by
  rcases mem_finishing.mp hs with rfl | rfl | rfl
  · exact if_neg (not_not.mpr number)
  · rfl
  · rfl

/-- None of the three steps sees what another one changes in a list. -/
theorem result_comm {rows : List (List (Descriptor b))} {total : Nat} {s t : FinishingStep b}
    (hs : s ∈ finishing rows total) (ht : t ∈ finishing rows total) (v : Vocabulary b) :
    t.result (s.result v) = s.result (t.result v) := by
  have each (i : Nat) (p : PostingList b) :
      (t.work i (s.work i p).2).2 = (s.work i (t.work i p).2).2 := by
    rcases mem_finishing.mp hs with rfl | rfl | rfl
    · rcases mem_finishing.mp ht with rfl | rfl | rfl
      · rfl
      · exact (p.sort_train _).symm
      · exact (p.weigh_train _ total).symm
    · rcases mem_finishing.mp ht with rfl | rfl | rfl
      · exact p.sort_train _
      · rfl
      · exact p.sort_weigh total
    · rcases mem_finishing.mp ht with rfl | rfl | rfl
      · exact p.weigh_train _ total
      · exact (p.sort_weigh total).symm
      · rfl
  simp only [result, List.mapIdx_mapIdx]
  exact List.mapIdx_eq_mapIdx_iff.mpr fun i hi => each i _

end FinishingStep

namespace Vocabulary
variable {b : Nat}

/-- Some steps one after the other, each with the order in which it goes through the lists. -/
def performAll (v : Vocabulary b) (steps : List (FinishingStep b × List Nat)) : Vocabulary b :=
  steps.foldl (fun v s => (s.1.perform s.2 v).2) v

theorem performAll_eq (steps : List (FinishingStep b × List Nat)) (v : Vocabulary b)
    (fits : ∀ s ∈ steps, s.1.refusal? v = none)
    (all : ∀ s ∈ steps, s.2.Perm (List.range v.length)) :
    v.performAll steps = (steps.map (·.1)).foldl (fun v s => s.result v) v := by
  induction steps generalizing v with
  | nil => rfl
  | cons s steps ih =>
    have length := s.1.length_result v
    have first := FinishingStep.perform_all (fits s List.mem_cons_self) (all s List.mem_cons_self)
    rw [performAll, List.foldl_cons, first]
    refine ih (s.1.result v) ?_ ?_
    · intro t ht
      rw [t.1.refusal?_congr length]
      exact fits t (List.mem_cons_of_mem s ht)
    · intro t ht
      rw [length]
      exact all t (List.mem_cons_of_mem s ht)

/-- Each list finished by itself: trained with its own rows, sorted and weighed. -/
def finished (v : Vocabulary b) (rows : List (List (Descriptor b))) (total : Nat) :
    Vocabulary b :=
  List.zipWith (fun p own => ((p.train own).2.sort).weigh total) v rows

theorem foldl_finishing (v : Vocabulary b) {rows : List (List (Descriptor b))} (total : Nat)
    (number : rows.length = v.length) :
    (FinishingStep.finishing rows total).foldl (fun v s => s.result v) v =
      v.finished rows total := by
  simp only [FinishingStep.finishing, List.foldl_cons, List.foldl_nil]
  refine List.ext_getElem (by simp [FinishingStep.result, finished, number]) fun i hi hi' => ?_
  have own : i < rows.length := by
    simpa [FinishingStep.result, number] using hi
  simp [FinishingStep.result, FinishingStep.work, finished, List.getElem?_eq_getElem own]

/-- A step comes to the same in whatever order it goes through the lists. The three steps
come to the same in whatever order they are taken: each list is trained with its own rows,
sorted and weighed by itself. Training counts the lists with two rows or more. Rows for
another number of lists change nothing. -/
theorem performAll_finishing (v : Vocabulary b) (rows : List (List (Descriptor b)))
    (total : Nat) :
    (∀ (s : FinishingStep b) order, order.Perm (List.range v.length) →
      s.perform order v = s.run v) ∧
    (rows.length = v.length →
      (∀ steps : List (FinishingStep b × List Nat),
        (steps.map (·.1)).Perm [.train rows, .sort, .weigh total] →
        (∀ s ∈ steps, s.2.Perm (List.range v.length)) →
        v.performAll steps = v.finished rows total) ∧
      ∀ order, order.Perm (List.range v.length) →
        ((FinishingStep.train rows).perform order v).1 =
          .ok (rows.countP fun own => 2 ≤ own.length)) ∧
    (rows.length ≠ v.length → ∀ order, (FinishingStep.train rows).perform order v =
      (.error (.trainingMismatch rows.length v.length), v)) := by
  refine ⟨fun s order all => s.perform_eq_run v all, ?_,
    FinishingStep.perform_train_of_mismatch⟩
  intro number
  constructor
  · intro steps each_once all
    have known : ∀ s ∈ steps, s.1 ∈ FinishingStep.finishing rows total := fun s hs =>
      each_once.mem_iff.mp (List.mem_map_of_mem hs)
    have fits : ∀ s ∈ steps, s.1.refusal? v = none := fun s hs =>
      FinishingStep.refusal?_finishing number (known s hs)
    have commute : ∀ s ∈ steps.map (·.1), ∀ t ∈ steps.map (·.1), ∀ w : Vocabulary b,
        t.result (s.result w) = s.result (t.result w) := fun s hs t ht =>
      FinishingStep.result_comm (each_once.mem_iff.mp hs) (each_once.mem_iff.mp ht)
    calc v.performAll steps
        = (steps.map (·.1)).foldl (fun v s => s.result v) v := performAll_eq steps v fits all
      _ = (FinishingStep.finishing rows total).foldl (fun v s => s.result v) v :=
        each_once.foldl_eq' commute v
      _ = v.finished rows total := v.foldl_finishing total number
  · intro order all
    rw [FinishingStep.perform_train number all]

/-- A list with unsorted postings and one with every bit of its status set. -/
def unfinishedWords : Vocabulary 1 := [Collection.twoFeatures, PostingList.oddList]

/-- Rows for the second of two words only. -/
def secondRows : List (List (Descriptor 1)) :=
  [[], [.replicate 8 .zero, .replicate 8 ⟨0x3f800000⟩]]

theorem performAll_finishing_unfinishedWords :
    secondRows.length = unfinishedWords.length ∧
    unfinishedWords.performAll [(.weigh 5, [1, 0]), (.train secondRows, [0, 1]), (.sort, [1, 0])] =
      unfinishedWords.finished secondRows 5 ∧
    ((FinishingStep.train secondRows).perform [1, 0] unfinishedWords).1 = .ok 1 ∧
    FinishingStep.sort.perform [1, 0] unfinishedWords = (.ok 0, unfinishedWords.sort) ∧
    (FinishingStep.train [[]]).perform [0] unfinishedWords =
      (.error (.trainingMismatch 1 2), unfinishedWords) := by
  have backwards : [1, 0].Perm (List.range unfinishedWords.length) := by decide
  have forwards : [0, 1].Perm (List.range unfinishedWords.length) := by decide
  have rotated (s t u : FinishingStep 1) : [u, s, t].Perm [s, t, u] :=
    @List.perm_append_comm _ [u] [s, t]
  obtain ⟨any_order, finish, -⟩ := unfinishedWords.performAll_finishing secondRows 5
  obtain ⟨all_steps, count⟩ := finish rfl
  obtain ⟨-, -, refused⟩ := unfinishedWords.performAll_finishing [[]] 5
  refine ⟨rfl, all_steps _ (rotated _ _ _) ?_, ?_, any_order .sort _ backwards, ?_⟩
  · intro s hs
    simp only [List.mem_cons, List.not_mem_nil, or_false] at hs
    rcases hs with rfl | rfl | rfl
    · exact backwards
    · exact forwards
    · exact backwards
  · rw [count _ backwards]
    rfl
  · exact refused (by decide) [0]

end Vocabulary

end VisualIndex
