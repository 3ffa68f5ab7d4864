import VisualIndex.Proofs.ScoreOrder
import VisualIndex.Proofs.SharedTables
import VisualIndex.Settings.Basic

/-! Scoring stays within its bounds.

A signature has one bit for each dimension of a descriptor, so all the bits that a descriptor
sets are there and two signatures differ in no more bits than that. A list is only made with
a table that has a weight for each of these distances, and nothing that is done to a
collection replaces the table of a list. So scoring finds every weight that it looks up. -/
namespace VisualIndex

namespace Embedding
variable {b : Nat}

/-- Set the bit of each of some dimensions in which a descriptor lies above the threshold. -/
def markAbove (e : Embedding b) (x : Descriptor b) :
    List (Fin (8 * b)) → Signature b → Except Violation (Signature b)
  | [], s => .ok s
  | i :: rest, s =>
    if (x.get i).gt (e.thresholds.get i) then
      match s.setBit i true with
      | .ok t => e.markAbove x rest t
      | .error violation => .error violation
    else e.markAbove x rest s

theorem markAbove_spec (e : Embedding b) (x : Descriptor b) (dims : List (Fin (8 * b)))
    (s : Signature b) : ∃ t, e.markAbove x dims s = .ok t ∧ ∀ i : Fin (8 * b),
      t.bit? i =
        if i ∈ dims ∧ (x.get i).gt (e.thresholds.get i) then some true else s.bit? i := by
  induction dims generalizing s with
  | nil => exact ⟨s, rfl, by simp⟩
  | cons d rest ih =>
    by_cases above : (x.get d).gt (e.thresholds.get d)
    · obtain ⟨t, set⟩ := (s.setBit_eq_ok_iff d true).mpr d.isLt
      obtain ⟨u, marked, bits⟩ := ih t
      refine ⟨u, by rw [markAbove, if_pos above, set]; exact marked, ?_⟩
      intro i
      rw [bits, Signature.bit?_setBit set i.isLt]
      grind
    · obtain ⟨u, marked, bits⟩ := ih s
      refine ⟨u, by rw [markAbove, if_neg above]; exact marked, ?_⟩
      intro i
      rw [bits]
      grind

/-- A signature can be made by writing bits one after the other, each of them in its place. -/
theorem markAbove_eq_quantize (e : Embedding b) (x : Descriptor b) :
    e.markAbove x (List.finRange (8 * b)) .allClear = .ok (e.quantize x) := by
  obtain ⟨t, marked, bits⟩ := e.markAbove_spec x (List.finRange (8 * b)) .allClear
  have same : t = e.quantize x := by
    apply Signature.ext_bit?
    intro i inside
    have marked_bit := bits ⟨i, inside⟩
    have quantized_bit := e.bit?_quantize x ⟨i, inside⟩
    rw [Signature.bit?_allClear inside] at marked_bit
    rw [marked_bit, quantized_bit]
    cases (x.get ⟨i, inside⟩).gt (e.thresholds.get ⟨i, inside⟩) <;> simp
  rw [marked, same]

end Embedding

namespace PostingList
variable {b : Nat}

/-- An empty list with the table of the default settings. -/
def ofDefault (b : Nat) (cache : WeightCache) :
    Except Violation (PostingList b) × WeightCache :=
  let (shared, cache) := cache.request (Settings.default.tableKey (8 * b))
  (ofTable b shared.table, cache)

theorem ofTable_eq_ok_iff (table : WeightTable) :
    (∃ p, ofTable b table = .ok p) ↔ table.width = 8 * b := by
  constructor
  · rintro ⟨p, made⟩
    exact (ofTable_eq_ok made).2
  · intro width
    exact ⟨_, if_pos width⟩

theorem ofDefault_eq {cache : WeightCache} (coherent : cache.Coherent) :
    (ofDefault b cache).1 = ofTable b (Settings.default.tableKey (8 * b)).table ∧
    ∃ p, (ofDefault b cache).1 = .ok p := by
  have table := (coherent.request (Settings.default.tableKey (8 * b))).1
  have made : (ofDefault b cache).1 = ofTable b (Settings.default.tableKey (8 * b)).table := by
    rw [← table]
    rfl
  refine ⟨made, ?_⟩
  rw [made, ofTable_eq_ok_iff, WeightTable.width, WeightKey.size_table]
  exact Nat.add_sub_cancel (8 * b) 1

section Local
variable {p : PostingList b} {t : WeightTable}
  (same : ∀ d ≤ 8 * b, t.lookup d = p.table.lookup d)
include same

theorem sumWeights_congr (query : Signature b) (votes : List (Posting b)) (sum : Single) :
    sumWeights t query votes sum = sumWeights p.table query votes sum := by
  induction votes generalizing sum with
  | nil => rfl
  | cons q votes ih =>
    have found := same (query.distance q.code) (query.distance_le q.code)
    simp only [sumWeights, found, ih]

theorem pushScores_congr (query : Signature b) (parts : List (List (Posting b)))
    (buffer : Array Score) :
    ({ p with table := t } : PostingList b).pushScores query parts buffer =
      p.pushScores query parts buffer := by
  induction parts generalizing buffer with
  | nil => rfl
  | cons run parts ih =>
    cases run with
    | nil => exact ih buffer
    | cons vote votes => simp only [pushScores, scoreOfVotes, sumWeights_congr same, ih]

theorem scoreInto_congr (x : Descriptor b) (buffer : Array Score) :
    ({ p with table := t } : PostingList b).scoreInto x buffer = p.scoreInto x buffer := by
  rw [scoreInto, pushScores_congr same]
  rfl

end Local

/-- Scoring a list looks up no weight but those of the distances from 0 to `8 b`, which its
table has, and sets no bit but those that a signature has. -/
structure ScoresInBounds (p : PostingList b) : Prop where
  lookups : ∀ d, (∃ weight, p.table.lookup d = .ok weight) ↔ d ≤ 8 * b
  reads_no_other : ∀ t : WeightTable, (∀ d ≤ 8 * b, t.lookup d = p.table.lookup d) →
    ∀ x buffer, ({ p with table := t } : PostingList b).scoreInto x buffer = p.scoreInto x buffer
  bits : ∀ x, p.embedding.markAbove x (List.finRange (8 * b)) .allClear =
    .ok (p.embedding.quantize x)
  scores : ∀ x buffer, ∃ scores,
    p.scoreInto x buffer = .ok scores ∧ p.score x = .ok scores.toList

theorem scoresInBounds {p : PostingList b} (covers : p.table.weights.size = 8 * b + 1) :
    p.ScoresInBounds where
  lookups d := by
    constructor
    · rintro ⟨weight, found⟩
      by_contra beyond
      rw [WeightTable.lookup, Array.getElem?_eq_none (by omega)] at found
      cases found
    · intro inside
      rw [WeightTable.lookup, Array.getElem?_eq_getElem (by omega)]
      exact ⟨_, rfl⟩
  reads_no_other t same := scoreInto_congr same
  bits := p.embedding.markAbove_eq_quantize
  scores x buffer := by
    obtain ⟨found, scored, -⟩ := score_images covers x
    have cleared : p.score x = (·.toList) <$> p.scoreInto x buffer := by simp [score, scoreInto]
    cases outcome : p.scoreInto x buffer with
    | ok scores => exact ⟨scores, rfl, by rw [cleared, outcome]; rfl⟩
    | error violation =>
      rw [cleared, outcome] at scored
      cases scored

end PostingList

namespace Collection
variable {b : Nat}

/-- A collection after some actions, from the first to the last. -/
def run (actions : List (Action b)) : Collection b := actions.foldl step empty

/-- The tables that lists were made with, going by the actions alone: a table of the right
width makes a list and a copy has the table of its original. -/
def tablesAfter (tables : List WeightTable) : Action b → List WeightTable
  | .create table => if table.width = 8 * b then tables ++ [table] else tables
  | .copy i => tables ++ tables[i]?.toList
  | _ => tables

def builtTables (actions : List (Action b)) : List WeightTable := actions.foldl tablesAfter []

theorem step_tables (w : Collection b) (a : Action b) :
    (w.step a).lists.map (·.table) = tablesAfter (w.lists.map (·.table)) a := by
  cases a with
  | create table =>
    by_cases width : table.width = 8 * b
    · simp [step, PostingList.ofTable, tablesAfter, width]
    · simp [step, PostingList.ofTable, tablesAfter, width]
  | copy i =>
    cases there : w.lists[i]? <;> simp [step, tablesAfter, there]
  | change i c =>
    apply List.ext_getElem?
    intro j
    simp only [step, tablesAfter, List.getElem?_map, List.getElem?_modify]
    cases w.lists[j]? with
    | none => rfl
    | some p =>
      by_cases here : i = j
      · simp [here, p.apply_table c]
      · simp [here]
  | write i sink => rfl
  | save i files directory path => rfl

theorem run_concat (actions : List (Action b)) (a : Action b) :
    run (actions ++ [a]) = (run actions).step a := by
  simp [run]

theorem run_reached (actions : List (Action b)) : Reached (fun _ _ => True) (run actions) := by
  induction actions using List.reverseRecOn with
  | nil => exact .empty
  | append_singleton actions a ih =>
    rw [run_concat]
    exact ih.step trivial

theorem run_tables (actions : List (Action b)) :
    (run actions).lists.map (·.table) = builtTables actions := by
  induction actions using List.reverseRecOn with
  | nil => rfl
  | append_singleton actions a ih =>
    rw [run_concat, step_tables, ih]
    simp [builtTables]

/-- Whatever is done to a collection, each list still has the table that it was made with,
and scoring it stays within the bounds of that table and of the signatures. Lists are made
with tables of the signatures' width only, of which the default one always is. -/
theorem run_scores_in_bounds (wide : 0 < b) (actions : List (Action b)) :
    (run actions).lists.map (·.table) = builtTables actions ∧
    (∀ p ∈ (run actions).lists, p.ScoresInBounds) ∧
    (∀ s t : Signature b, s.distance t ≤ 8 * b) ∧
    (∀ (s : Signature b) i value, (∃ t, s.setBit i value = .ok t) ↔ i < 8 * b) ∧
    (∀ table, (∃ p, PostingList.ofTable b table = .ok p) ↔ table.width = 8 * b) ∧
    ∀ cache : WeightCache, cache.Coherent →
      (PostingList.ofDefault b cache).1 =
        PostingList.ofTable b (Settings.default.tableKey (8 * b)).table ∧
      ∃ p, (PostingList.ofDefault b cache).1 = .ok p := by
  refine ⟨run_tables actions, ?_, Signature.distance_le, Signature.setBit_eq_ok_iff,
    PostingList.ofTable_eq_ok_iff, fun cache => PostingList.ofDefault_eq⟩
  intro p hp
  exact PostingList.scoresInBounds ((run_reached actions).covers wide p hp)

/-- A table that is too narrow makes no list. The list that is made reads a record with an
image in two places and is then copied. -/
def copiedRead : List (Action 1) :=
  [.create ⟨#[.zero]⟩, .create zeroTable,
    .change 0 (.read (.ofBytes (readyRecord [2, 1, 2]))), .copy 0]

theorem run_scores_in_bounds_copiedRead :
    0 < 1 ∧ WeightCache.empty.Coherent ∧
    (run copiedRead).lists.map (·.table) = [zeroTable, zeroTable] ∧
    (∃ p ∈ (run copiedRead).lists, p.isReady ∧ p.postings.length = 3 ∧
      ∃ scores, p.score (.replicate 8 ⟨0x7fc00000⟩) = .ok scores) ∧
    ∃ p, (PostingList.ofDefault 1 .empty).1 = .ok p := by
  obtain ⟨tables, bounded, -, -, -, default⟩ := run_scores_in_bounds (by decide) copiedRead
  have lists : (run copiedRead).lists = [onlyList [2, 1, 2], onlyList [2, 1, 2]] := by
    change (oneRead [2, 1, 2]).lists ++ (oneRead [2, 1, 2]).lists[0]?.toList = _
    rw [oneRead_lists (by decide)]
    rfl
  have inside : onlyList [2, 1, 2] ∈ (run copiedRead).lists := by
    rw [lists]
    exact List.mem_cons_self
  obtain ⟨scores, -, scored⟩ := (bounded _ inside).scores (.replicate 8 ⟨0x7fc00000⟩) #[]
  exact ⟨by decide, .empty, tables.trans rfl, ⟨_, inside, by decide, by decide, _, scored⟩,
    (default .empty .empty).2⟩

end Collection

end VisualIndex
