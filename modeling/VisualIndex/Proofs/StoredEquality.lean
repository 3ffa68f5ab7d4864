import VisualIndex.Proofs.Comparisons
import VisualIndex.Proofs.ListChanges

/-! Equality of lists and of their records.

Lists are compared by what is stored of them, the thresholds as numbers and all else by its
bits. A record has every bit of what it stores and can be read back, so lists with the same
record differ at most in their tables. They are still not equal where a threshold is NaN, and
equal lists can have different records only where thresholds are zeros of different signs. -/
namespace VisualIndex

theorem Single.numEq_self (x : Single) : x.numEq x ↔ x.isNaN = false := by
  simp [numEq_iff]

/-- Lists that are the same before and behind a stretch differ only inside of it. -/
theorem stretch_apart {α : Type} (front back : List α) {xs ys : List α}
    (length : ys.length = xs.length) {k : Nat}
    (apart : (front ++ (xs ++ back))[k]? ≠ (front ++ (ys ++ back))[k]?) :
    ∃ i, k = front.length + i ∧ xs[i]? ≠ ys[i]? := by
  by_cases before : k < front.length
  · rw [List.getElem?_append_left before, List.getElem?_append_left before] at apart
    exact absurd rfl apart
  have reached := Nat.not_lt.mp before
  rw [List.getElem?_append_right reached, List.getElem?_append_right reached] at apart
  refine ⟨k - front.length, by omega, ?_⟩
  by_cases inside : k - front.length < xs.length
  · rwa [List.getElem?_append_left inside, List.getElem?_append_left (length ▸ inside)] at apart
  · rw [List.getElem?_append_right (Nat.not_lt.mp inside),
      List.getElem?_append_right (length ▸ Nat.not_lt.mp inside), length] at apart
    exact absurd rfl apart

/-- Encodings of singles differ in a byte only if the singles there differ. -/
theorem singles_apart {xs ys : List Single} (length : ys.length = xs.length) {k : Nat}
    (apart : (xs.flatMap Single.toBytes)[k]? ≠ (ys.flatMap Single.toBytes)[k]?) :
    ∃ d, 4 * d ≤ k ∧ k < 4 * d + 4 ∧ d < xs.length ∧ xs[d]? ≠ ys[d]? := by
  induction xs generalizing ys k with
  | nil =>
    obtain rfl := List.length_eq_zero_iff.mp length
    exact absurd rfl apart
  | cons x xs ih =>
    obtain ⟨y, ys, rfl⟩ := List.exists_cons_of_length_eq_add_one length
    rw [List.flatMap_cons, List.flatMap_cons] at apart
    by_cases first : k < 4
    · refine ⟨0, by omega, by omega, by simp, ?_⟩
      rintro same
      obtain rfl : x = y := Option.some.inj same
      rw [List.getElem?_append_left (by rwa [x.length_toBytes]),
        List.getElem?_append_left (by rwa [x.length_toBytes])] at apart
      exact apart rfl
    · rw [List.getElem?_append_right (by rw [x.length_toBytes]; omega),
        List.getElem?_append_right (by rw [y.length_toBytes]; omega), x.length_toBytes,
        y.length_toBytes] at apart
      obtain ⟨d, low, high, inside, differ⟩ := ih (Nat.succ_inj.mp length) apart
      exact ⟨d + 1, by omega, by omega, by simpa using inside, by simpa using differ⟩

namespace PostingList
variable {b : Nat}

/-- Equality of lists by their parts. -/
theorem sameContent_iff (p q : PostingList b) : p.sameContent q ↔
    p.status = q.status ∧ p.idf = q.idf ∧ p.postings = q.postings ∧
      ∀ d, (p.embedding.thresholds.get d).numEq (q.embedding.thresholds.get d) := by
  have thresholds : p.embedding.numEq q.embedding ↔
      ∀ d, (p.embedding.thresholds.get d).numEq (q.embedding.thresholds.get d) := by
    simp only [Embedding.numEq, List.all_eq_true, List.mem_finRange, true_implies]
    rfl
  rw [sameContent, Bool.and_eq_true, Bool.and_eq_true, Bool.and_eq_true, decide_eq_true_iff,
    decide_eq_true_iff, decide_eq_true_iff, thresholds]
  grind

theorem Record.eq_of_encoding_eq {r s : Record b} (ids : ∀ q ∈ r.postings, 0 ≤ q.image)
    (few : r.postings.length < 2 ^ 32) (ids' : ∀ q ∈ s.postings, 0 ≤ q.image)
    (few' : s.postings.length < 2 ^ 32) (same : r.encoding = s.encoding) : r = s := by
  obtain ⟨t, first, -⟩ := r.read_finds ids few (.ofBytes r.encoding)
    (by simp [Source.supply_ofBytes])
  obtain ⟨u, second, -⟩ := s.read_finds ids' few' (.ofBytes r.encoding)
    (by simp [Source.supply_ofBytes, same])
  rw [first, Prod.mk.injEq, Except.ok.injEq] at second
  exact second.1

/-- Records of equal lists differ only inside thresholds that are zeros of different signs. -/
theorem encoding_apart {p q : PostingList b} (same : p.sameContent q) {k : Nat}
    (apart : p.record.encoding[k]? ≠ q.record.encoding[k]?) :
    ∃ d : Fin (8 * b), 5 + 4 * d ≤ k ∧ k < 5 + 4 * d + 4 ∧
      (p.embedding.thresholds.get d).OppositeZeros (q.embedding.thresholds.get d) := by
  obtain ⟨status, idf, postings, thresholds⟩ := (sameContent_iff p q).mp same
  have lengths : (q.embedding.thresholds.toList.flatMap Single.toBytes).length =
      (p.embedding.thresholds.toList.flatMap Single.toBytes).length := by
    simp only [length_flatMap_toBytes, Vector.length_toList]
  have encoding (r : PostingList b) : r.record.encoding =
      (littleEndian 1 r.status.bits.toNat ++ r.idf.toBytes) ++
        (r.embedding.thresholds.toList.flatMap Single.toBytes ++
          (littleEndian 4 r.postings.length ++ r.postings.flatMap Posting.encoding)) := by
    rw [Record.encoding, List.append_assoc]
    rfl
  rw [encoding p, encoding q, ← status, ← idf, ← postings] at apart
  obtain ⟨i, place, differ⟩ := stretch_apart _ _ lengths apart
  rw [List.length_append, length_littleEndian, p.idf.length_toBytes] at place
  obtain ⟨d, low, high, inside, other⟩ :=
    singles_apart (by simp only [Vector.length_toList]) differ
  rw [Vector.length_toList] at inside
  refine ⟨⟨d, inside⟩, by simp only; omega, by simp only; omega, ?_⟩
  have equal := ((Single.numEq_iff _ _).mp (thresholds ⟨d, inside⟩)).2
  refine equal.resolve_left fun identical => other ?_
  have listed (r : PostingList b) : r.embedding.thresholds.toList[d]? =
      some (r.embedding.thresholds.get ⟨d, inside⟩) := by
    simp [inside, Vector.get]
  rw [listed p, listed q, identical]

/-- Equal lists without a negative zero among the thresholds store the same. -/
theorem record_eq_of_sameContent {p q : PostingList b} (same : p.sameContent q)
    (positive : ∀ d, p.embedding.thresholds.get d ≠ -.zero)
    (positive' : ∀ d, q.embedding.thresholds.get d ≠ -.zero) : p.record = q.record := by
  obtain ⟨status, idf, postings, thresholds⟩ := (sameContent_iff p q).mp same
  have vectors : p.embedding.thresholds = q.embedding.thresholds := by
    apply Vector.ext
    intro d inside
    rcases ((Single.numEq_iff _ _).mp (thresholds ⟨d, inside⟩)).2 with same | ⟨-, zero⟩ | ⟨zero, -⟩
    · exact same
    · exact absurd zero (positive' _)
    · exact absurd zero (positive _)
  have embedding : p.embedding = q.embedding := congrArg Embedding.mk vectors
  rw [record, record, status, idf, postings, embedding]

/-- A list is equal to another one that stores the same exactly if no threshold is NaN. -/
theorem sameContent_of_record_eq {p q : PostingList b} (same : p.record = q.record) :
    p.sameContent q ↔ ∀ d, (p.embedding.thresholds.get d).isNaN = false := by
  simp only [record, Record.mk.injEq] at same
  obtain ⟨status, idf, embedding, postings⟩ := same
  simp only [sameContent_iff, status, idf, embedding, postings, Single.numEq_self, true_and]

/-- Whatever tables they have, lists that write the same bytes are equal if no threshold is NaN,
and equal lists write the same bytes but for the zeros of different signs among the thresholds,
so the same ones where no zero is negative. A list that is written and read back, into any other
list and over any calls, is equal to the original exactly if no threshold is NaN. -/
theorem sameContent_written {p q : PostingList b} (ids : p.IdsValid) (ids' : q.IdsValid)
    (few : p.postings.length < 2 ^ 32) (few' : q.postings.length < 2 ^ 32) :
    ∃ s t : Sink, p.write .empty = (.ok (), s) ∧ q.write .empty = (.ok (), t) ∧
      (s.written = t.written → (∀ d, (p.embedding.thresholds.get d).isNaN = false) →
        p.sameContent q) ∧
      (p.sameContent q → s.written.size = t.written.size ∧
        ∀ k : Nat, s.written[k]? ≠ t.written[k]? →
          ∃ d : Fin (8 * b), 5 + 4 * d ≤ k ∧ k < 5 + 4 * d + 4 ∧
            (p.embedding.thresholds.get d).OppositeZeros (q.embedding.thresholds.get d)) ∧
      ((∀ d, (p.embedding.thresholds.get d).isNaN = false) →
        (∀ d, p.embedding.thresholds.get d ≠ -.zero) →
        (∀ d, q.embedding.thresholds.get d ≠ -.zero) →
        (p.sameContent q ↔ s.written = t.written)) ∧
      ∀ (target : PostingList b) (tail : List UInt8) (chunk : Chunking)
        (fault : Option StreamFault), (∀ f ∈ fault, f.isInterruption) → ∃ r source,
          target.read ⟨s.written.toList ++ tail, 0, chunk, fault⟩ = (.ok (), r, source) ∧
          (r.sameContent p ↔ ∀ d, (p.embedding.thresholds.get d).isNaN = false) := by
  obtain ⟨s, first, written⟩ := (p.write_emits few).fills
  obtain ⟨t, second, written'⟩ := (q.write_emits few').fills
  have stored : s.written = t.written → p.record = q.record := by
    intro same
    refine Record.eq_of_encoding_eq ids few ids' few' ?_
    rw [← written, ← written', same]
  have back : p.record = q.record → s.written = t.written := by
    intro same
    rw [← Array.toList_inj, written, written', same]
  refine ⟨s, t, first, second, fun same => (sameContent_of_record_eq (stored same)).mpr,
    ?_, ?_, ?_⟩
  · intro same
    have postings := ((sameContent_iff p q).mp same).2.2.1
    constructor
    · rw [← Array.length_toList, ← Array.length_toList, written, written', p.length_encoding,
        q.length_encoding, recordLength, recordLength, postings]
    · intro k apart
      rw [← Array.getElem?_toList, ← Array.getElem?_toList, written, written'] at apart
      exact encoding_apart same apart
  · intro numbers positive positive'
    constructor
    · intro same
      exact back (record_eq_of_sameContent same positive positive')
    · intro same
      exact (sameContent_of_record_eq (stored same)).mpr numbers
  · intro target tail chunk fault transient
    have supply := Source.supply_of_transient
      (s := ⟨s.written.toList ++ tail, 0, chunk, fault⟩) transient
    obtain ⟨source, outcome, -⟩ := p.withRecord_record_read target ids few
      ⟨s.written.toList ++ tail, 0, chunk, fault⟩
      (by rw [supply, written]; exact List.prefix_append _ _)
    exact ⟨_, source, outcome, sameContent_of_record_eq rfl⟩

/-- The odd list with positive zeros, and with another table. -/
def positiveList : PostingList 1 := { oddList with embedding := .initial, table := ⟨#[.zero]⟩ }

/-- The odd list with a NaN among the thresholds. -/
def missingList : PostingList 1 :=
  { oddList with embedding := ⟨#v[⟨0⟩, ⟨0⟩, ⟨0⟩, ⟨0x7fc00000⟩, ⟨0⟩, ⟨0⟩, ⟨0⟩, ⟨0⟩]⟩ }

theorem sameContent_written_oddList :
    oddList.IdsValid ∧ oddList.postings.length < 2 ^ 32 ∧
    oddList.sameContent positiveList ∧
    (∃ s t : Sink, oddList.write .empty = (.ok (), s) ∧ positiveList.write .empty = (.ok (), t) ∧
      s.written.size = t.written.size ∧
      ∀ k : Nat, k < 5 ∨ 37 ≤ k → s.written[k]? = t.written[k]?) ∧
    (∃ s t : Sink, positiveList.write .empty = (.ok (), s) ∧
      ({ positiveList with table := ⟨#[]⟩ } : PostingList 1).write .empty = (.ok (), t) ∧
      s.written = t.written) ∧
    ∃ s t : Sink, ∃ r source, missingList.write .empty = (.ok (), s) ∧
      missingList.write .empty = (.ok (), t) ∧
      oddList.read ⟨s.written.toList ++ [7], 0, some 3, some ⟨9, .fail ⟨.interrupted, none⟩⟩⟩ =
        (.ok (), r, source) ∧ ¬ r.sameContent missingList := by
  have ids : oddList.IdsValid := by decide
  have few : oddList.postings.length < 2 ^ 32 := by decide
  have equal : oddList.sameContent positiveList := by decide
  refine ⟨ids, few, equal, ?_, ?_, ?_⟩
  · obtain ⟨s, t, first, second, -, apart, -, -⟩ :=
      sameContent_written (q := positiveList) ids ids few few
    obtain ⟨size, inside⟩ := apart equal
    refine ⟨s, t, first, second, size, fun k outside => ?_⟩
    by_contra differ
    obtain ⟨d, low, high, -⟩ := inside k differ
    omega
  · obtain ⟨s, t, first, second, -, -, bytes, -⟩ := sameContent_written (p := positiveList)
      (q := { positiveList with table := ⟨#[]⟩ }) ids ids few few
    exact ⟨s, t, first, second,
      (bytes (by decide) (by decide) (by decide)).mp (by decide)⟩
  · obtain ⟨s, t, first, second, -, -, -, back⟩ :=
      sameContent_written (p := missingList) (q := missingList) ids ids few few
    obtain ⟨r, source, outcome, same⟩ := back oddList [7] (some 3 : Option Nat)
      (some ⟨9, .fail ⟨.interrupted, none⟩⟩) (by simp; decide)
    exact ⟨s, t, r, source, first, second, outcome,
      fun identical => absurd (same.mp identical) (by decide)⟩

end PostingList

end VisualIndex
