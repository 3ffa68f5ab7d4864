import Mathlib.Data.List.Induction
import Mathlib.Data.List.Nodup
import Mathlib.Logic.Function.Basic
import VisualIndex.WeightTable.Cache

/-! Tables shared by callers that take turns.

A caller asks for the table of a key in two steps, with steps of other callers in between:
it looks the key up, and after a miss it looks again and inserts. A cache is coherent if
each slot has a key of its own and holds that key's table under the number of the slot. Every
step keeps the cache coherent and all that has been handed out in it, so callers are given
the same table exactly if they ask for the same key. -/
namespace VisualIndex

namespace WeightCache

/-- Each slot has a key of its own, and it holds the key's table under its own number. -/
structure Coherent (c : WeightCache) : Prop where
  keys : (c.slots.map (·.1)).Nodup
  slot : ∀ {n : Nat} {k : WeightKey} {shared : SharedTable},
    c.slots[n]? = some (k, shared) → shared = ⟨n, k.table⟩

theorem mem_of_find? {c : WeightCache} {k : WeightKey} {shared : SharedTable}
    (h : c.find? k = some shared) : (k, shared) ∈ c.slots := by
  obtain ⟨slot, found, rfl⟩ := Option.map_eq_some_iff.mp h
  have same := List.find?_some found
  rw [← of_decide_eq_true same]
  exact List.mem_of_find?_eq_some found

theorem not_mem_of_find? {c : WeightCache} {k : WeightKey} (h : c.find? k = none) :
    k ∉ c.slots.map (·.1) := by
  intro inside
  obtain ⟨slot, there, rfl⟩ := List.mem_map.mp inside
  have missed := List.find?_eq_none.mp (Option.map_eq_none_iff.mp h) slot there
  exact missed (decide_eq_true rfl)

/-- Asking once more either finds the key or puts it into a new slot at the end. -/
theorem findOrInsert_cases (c : WeightCache) (k : WeightKey) :
    (∃ shared, c.find? k = some shared ∧ c.findOrInsert k = (shared, c)) ∨
    c.find? k = none ∧ c.findOrInsert k =
      (⟨c.slots.length, k.table⟩, ⟨c.slots ++ [(k, ⟨c.slots.length, k.table⟩)]⟩) := by
  unfold findOrInsert
  cases found : c.find? k with
  | some shared => exact Or.inl ⟨shared, rfl, rfl⟩
  | none => exact Or.inr ⟨rfl, rfl⟩

theorem isPrefix_findOrInsert (c : WeightCache) (k : WeightKey) :
    c.slots <+: (c.findOrInsert k).2.slots := by
  rcases c.findOrInsert_cases k with ⟨shared, -, same⟩ | ⟨-, inserted⟩
  · exact same ▸ List.prefix_refl _
  · rw [inserted]
    exact List.prefix_append _ _

theorem mem_findOrInsert (c : WeightCache) (k : WeightKey) :
    (k, (c.findOrInsert k).1) ∈ (c.findOrInsert k).2.slots := by
  rcases c.findOrInsert_cases k with ⟨shared, found, same⟩ | ⟨-, inserted⟩
  · rw [same]
    exact mem_of_find? found
  · rw [inserted]
    exact List.mem_append_right _ List.mem_cons_self

/-- A second look changes nothing, so a request is one attempt to find or insert. -/
theorem request_eq_findOrInsert (c : WeightCache) (k : WeightKey) :
    c.request k = c.findOrInsert k := by
  unfold request
  cases found : c.find? k with
  | some shared => rw [findOrInsert, found]
  | none => rfl

namespace Coherent
variable {c : WeightCache}

theorem empty : Coherent .empty where
  keys := List.nodup_nil
  slot := fun h => by cases h

theorem findOrInsert (coherent : c.Coherent) (k : WeightKey) :
    (c.findOrInsert k).2.Coherent := by
  rcases c.findOrInsert_cases k with ⟨shared, -, same⟩ | ⟨missed, inserted⟩
  · rw [same]
    exact coherent
  · rw [inserted]
    constructor
    · rw [List.map_append, List.map_singleton]
      refine List.nodup_append.mpr ⟨coherent.keys, List.nodup_singleton k, ?_⟩
      rintro _ old _ new rfl
      rw [List.mem_singleton] at new
      subst new
      exact not_mem_of_find? missed old
    · intro n k' shared h
      rcases Nat.lt_or_ge n c.slots.length with old | new
      · rw [List.getElem?_append_left old] at h
        exact coherent.slot h
      · rw [List.getElem?_append_right new, List.getElem?_singleton] at h
        split at h
        · next first =>
          cases h
          rw [show n = c.slots.length by omega]
        · cases h

theorem shared_eq (coherent : c.Coherent) {k : WeightKey} {shared : SharedTable}
    (inside : (k, shared) ∈ c.slots) :
    ∃ n, c.slots[n]? = some (k, shared) ∧ shared = ⟨n, k.table⟩ := by
  obtain ⟨n, there⟩ := List.mem_iff_getElem?.mp inside
  exact ⟨n, there, coherent.slot there⟩

theorem eq_of_key_eq (coherent : c.Coherent) {k : WeightKey} {a b : SharedTable}
    (ha : (k, a) ∈ c.slots) (hb : (k, b) ∈ c.slots) : a = b :=
  congrArg (·.2) (List.inj_on_of_nodup_map coherent.keys ha hb rfl)

/-- Two tables of the cache are the same one exactly if their keys are equal. -/
theorem serial_eq_iff (coherent : c.Coherent) {k l : WeightKey} {a b : SharedTable}
    (ha : (k, a) ∈ c.slots) (hb : (l, b) ∈ c.slots) : a.serial = b.serial ↔ k = l := by
  constructor
  · intro same
    obtain ⟨n, at_n, rfl⟩ := coherent.shared_eq ha
    obtain ⟨m, at_m, rfl⟩ := coherent.shared_eq hb
    rw [show n = m from same, at_m] at at_n
    exact (congrArg (·.1) (Option.some.inj at_n)).symm
  · rintro rfl
    rw [coherent.eq_of_key_eq ha hb]

/-- A request is answered with the table of its key. -/
theorem request (coherent : c.Coherent) (k : WeightKey) :
    (c.request k).1.table = k.table ∧ (c.request k).2.Coherent := by
  rw [c.request_eq_findOrInsert]
  have kept := coherent.findOrInsert k
  obtain ⟨n, -, shared⟩ := kept.shared_eq (c.mem_findOrInsert k)
  refine ⟨?_, kept⟩
  rw [shared]

end Coherent

end WeightCache

theorem WeightKey.size_table (k : WeightKey) : k.table.weights.size = k.bits + 1 := by
  simp [table, WeightTable.gaussian, WeightTable.ofFn]

/-- How far a caller has come: before its first look, after a miss, or answered. -/
inductive Progress where
  | asking
  | missed
  | answered (shared : SharedTable)

/-- How many steps a caller still takes. -/
def Progress.stepsLeft : Progress → Nat
  | asking => 2
  | missed => 1
  | answered _ => 0

/-- A cache and the callers that use it. -/
structure Callers (ι : Type) where
  cache : WeightCache
  progress : ι → Progress

namespace Callers
variable {ι : Type} [DecidableEq ι] (key : ι → WeightKey)

/-- Nothing is cached, and every caller is about to ask. -/
def start : Callers ι := ⟨.empty, fun _ => .asking⟩

/-- The next step of one caller: a look, or after a miss an attempt to find or insert. No
other caller moves meanwhile. -/
def step (s : Callers ι) (i : ι) : Callers ι :=
  match s.progress i with
  | .asking =>
    match s.cache.find? (key i) with
    | some shared => ⟨s.cache, Function.update s.progress i (.answered shared)⟩
    | none => ⟨s.cache, Function.update s.progress i .missed⟩
  | .missed =>
    let (shared, cache) := s.cache.findOrInsert (key i)
    ⟨cache, Function.update s.progress i (.answered shared)⟩
  | .answered _ => s

/-- The callers after they have taken steps in some order. -/
def run (schedule : List ι) : Callers ι := schedule.foldl (step key) start

/-- The cache is coherent, and what has been handed out is in it. -/
structure Invariant (s : Callers ι) : Prop where
  coherent : s.cache.Coherent
  kept : ∀ {i shared}, s.progress i = .answered shared → (key i, shared) ∈ s.cache.slots

variable {key}

variable (key) in
/-- What a step can come to. -/
theorem step_cases (s : Callers ι) (i : ι) :
    (∃ shared, s.progress i = .asking ∧ (key i, shared) ∈ s.cache.slots ∧
      step key s i = ⟨s.cache, Function.update s.progress i (.answered shared)⟩) ∨
    (s.progress i = .asking ∧
      step key s i = ⟨s.cache, Function.update s.progress i .missed⟩) ∨
    (s.progress i = .missed ∧ step key s i = ⟨(s.cache.findOrInsert (key i)).2,
      Function.update s.progress i (.answered (s.cache.findOrInsert (key i)).1)⟩) ∨
    ∃ shared, s.progress i = .answered shared ∧ step key s i = s := by
  unfold step
  cases here : s.progress i with
  | asking =>
    cases found : s.cache.find? (key i) with
    | some shared => exact Or.inl ⟨shared, rfl, WeightCache.mem_of_find? found, rfl⟩
    | none => exact Or.inr (Or.inl ⟨rfl, rfl⟩)
  | missed => exact Or.inr (Or.inr (Or.inl ⟨rfl, rfl⟩))
  | answered shared => exact Or.inr (Or.inr (Or.inr ⟨shared, rfl, rfl⟩))

theorem isPrefix_step (s : Callers ι) (i : ι) :
    s.cache.slots <+: (step key s i).cache.slots := by
  rcases s.step_cases key i with ⟨_, _, _, h⟩ | ⟨_, h⟩ | ⟨_, h⟩ | ⟨_, _, h⟩
  · simp only [h, List.prefix_refl]
  · simp only [h, List.prefix_refl]
  · rw [h]
    exact s.cache.isPrefix_findOrInsert (key i)
  · simp only [h, List.prefix_refl]

omit [DecidableEq ι] in
theorem Invariant.start : (start : Callers ι).Invariant key where
  coherent := .empty
  kept := fun h => by cases h

/-- A caller moves on while the cache grows at most. -/
theorem Invariant.move {s : Callers ι} (invariant : s.Invariant key) {i : ι} {p : Progress}
    {cache : WeightCache} (coherent : cache.Coherent) (grown : s.cache.slots <+: cache.slots)
    (handed : ∀ {shared}, p = .answered shared → (key i, shared) ∈ cache.slots) :
    Invariant key ⟨cache, Function.update s.progress i p⟩ where
  coherent := coherent
  kept := by
    intro j shared h
    change Function.update s.progress i p j = .answered shared at h
    by_cases same : j = i
    · subst same
      rw [Function.update_self] at h
      exact handed h
    · rw [Function.update_of_ne same] at h
      exact grown.subset (invariant.kept h)

theorem Invariant.step {s : Callers ι} (invariant : s.Invariant key) (i : ι) :
    (s.step key i).Invariant key := by
  rcases s.step_cases key i with ⟨_, _, inside, h⟩ | ⟨_, h⟩ | ⟨_, h⟩ | ⟨_, _, h⟩
  · rw [h]
    refine invariant.move invariant.coherent (List.prefix_refl _) ?_
    rintro _ ⟨⟩
    exact inside
  · rw [h]
    refine invariant.move invariant.coherent (List.prefix_refl _) ?_
    rintro _ ⟨⟩
  · rw [h]
    refine invariant.move (invariant.coherent.findOrInsert _)
      (s.cache.isPrefix_findOrInsert _) ?_
    rintro _ ⟨⟩
    exact s.cache.mem_findOrInsert _
  · rw [h]
    exact invariant

theorem progress_step_of_ne (s : Callers ι) {i j : ι} (other : j ≠ i) :
    (step key s i).progress j = s.progress j := by
  rcases s.step_cases key i with ⟨_, _, _, h⟩ | ⟨_, h⟩ | ⟨_, h⟩ | ⟨_, _, h⟩
  · simp [h, other]
  · simp [h, other]
  · simp [h, other]
  · rw [h]

variable (key) in
theorem stepsLeft_step_le (s : Callers ι) (i : ι) :
    ((step key s i).progress i).stepsLeft ≤ (s.progress i).stepsLeft - 1 := by
  rcases s.step_cases key i with
    ⟨_, before, _, h⟩ | ⟨before, h⟩ | ⟨before, h⟩ | ⟨_, before, h⟩
  · simp [h, before, Progress.stepsLeft]
  · simp [h, before, Progress.stepsLeft]
  · simp [h, before, Progress.stepsLeft]
  · simp [h, before, Progress.stepsLeft]

variable (key)

theorem run_append (schedule more : List ι) :
    run key (schedule ++ more) = more.foldl (step key) (run key schedule) :=
  List.foldl_append

theorem run_concat (schedule : List ι) (i : ι) :
    run key (schedule ++ [i]) = (run key schedule).step key i := run_append key schedule [i]

theorem run_invariant (schedule : List ι) : (run key schedule).Invariant key := by
  induction schedule using List.reverseRecOn with
  | nil => exact .start
  | append_singleton schedule i ih =>
    rw [run_concat]
    exact ih.step i

/-- Slots are added at the end and nowhere else, and none is taken back. -/
theorem isPrefix_run (schedule more : List ι) :
    (run key schedule).cache.slots <+: (run key (schedule ++ more)).cache.slots := by
  induction more using List.reverseRecOn with
  | nil =>
    exact (List.append_nil schedule).symm ▸ List.prefix_refl _
  | append_singleton more i ih =>
    rw [← List.append_assoc, run_concat]
    exact ih.trans (isPrefix_step _ i)

theorem stepsLeft_run_le (schedule : List ι) (i : ι) :
    ((run key schedule).progress i).stepsLeft ≤ 2 - schedule.count i := by
  induction schedule using List.reverseRecOn with
  | nil => exact Nat.le_refl 2
  | append_singleton schedule j ih =>
    rw [run_concat, List.count_append]
    by_cases same : i = j
    · subst same
      have := stepsLeft_step_le key (run key schedule) i
      rw [List.count_singleton_self]
      omega
    · rw [progress_step_of_ne _ same, List.count_singleton, beq_false_of_ne (Ne.symm same)]
      exact ih

/-- A caller that has taken two steps has its answer, however the others moved. -/
theorem answered_of_two_steps (schedule : List ι) {i : ι} (twice : 2 ≤ schedule.count i) :
    ∃ shared, (run key schedule).progress i = .answered shared := by
  have done := stepsLeft_run_le key schedule i
  cases h : (run key schedule).progress i with
  | asking => simp [h, Progress.stepsLeft] at done; omega
  | missed => simp [h, Progress.stepsLeft] at done; omega
  | answered shared => exact ⟨shared, rfl⟩

/-- However the callers take turns, a key is inserted once at most and stays as it is; who
has taken two steps is answered, with the table of the key asked for; and two answers are
the same table exactly if the keys are equal, bit by bit. -/
theorem run_shares (schedule : List ι) :
    ((run key schedule).cache.slots.map (·.1)).Nodup ∧
    (∀ more, (run key schedule).cache.slots <+: (run key (schedule ++ more)).cache.slots) ∧
    (∀ i, 2 ≤ schedule.count i → ∃ shared, (run key schedule).progress i = .answered shared) ∧
    (∀ i shared, (run key schedule).progress i = .answered shared →
      shared.table = .gaussian (key i).bits (key i).sigma (key i).cutoff ∧
      shared.table.weights.size = (key i).bits + 1) ∧
    ∀ i j a b, (run key schedule).progress i = .answered a →
      (run key schedule).progress j = .answered b →
      (a.serial = b.serial ↔ key i = key j) ∧ (a = b ↔ key i = key j) := by
  have invariant := run_invariant key schedule
  refine ⟨invariant.coherent.keys, isPrefix_run key schedule,
    fun i => answered_of_two_steps key schedule, ?_, ?_⟩
  · intro i shared answered
    obtain ⟨n, -, rfl⟩ := invariant.coherent.shared_eq (invariant.kept answered)
    exact ⟨rfl, (key i).size_table⟩
  · intro i j a b answered_i answered_j
    have same := invariant.coherent.serial_eq_iff (invariant.kept answered_i)
      (invariant.kept answered_j)
    refine ⟨same, fun equal => same.mp (congrArg (·.serial) equal), ?_⟩
    intro equal
    have inside := invariant.kept answered_j
    rw [← equal] at inside
    exact invariant.coherent.eq_of_key_eq (invariant.kept answered_i) inside

/-- Two callers of one key and one whose width is minus zero instead of zero. -/
def threeKeys : Fin 3 → WeightKey
  | 0 => ⟨8, .zero, 3⟩
  | 1 => ⟨8, .zero, 3⟩
  | 2 => ⟨8, ⟨0x80000000⟩, 3⟩

/-- The first two miss before either inserts. -/
def crossed : List (Fin 3) := [0, 1, 1, 2, 0, 2]

theorem run_shares_crossed : ∃ a b c,
    (run threeKeys crossed).progress 0 = .answered a ∧
    (run threeKeys crossed).progress 1 = .answered b ∧
    (run threeKeys crossed).progress 2 = .answered c ∧
    a = b ∧ a.serial ≠ c.serial ∧ a.table = c.table := by
  obtain ⟨-, -, done, tables, same⟩ := run_shares threeKeys crossed
  obtain ⟨a, ha⟩ := done 0 (by decide)
  obtain ⟨b, hb⟩ := done 1 (by decide)
  obtain ⟨c, hc⟩ := done 2 (by decide)
  refine ⟨a, b, c, ha, hb, hc, (same 0 1 a b ha hb).2.mpr rfl, ?_, ?_⟩
  · intro equal
    exact absurd ((same 0 2 a c ha hc).1.mp equal) (by decide)
  · rw [(tables 0 a ha).1, (tables 2 c hc).1]
    decide +kernel

end Callers

end VisualIndex
