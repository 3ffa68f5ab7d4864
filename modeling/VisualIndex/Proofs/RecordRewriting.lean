import Mathlib.Data.List.FinRange
import VisualIndex.Proofs.ListChanges

/-! Records read and written again.

Reading keeps every bit of a record, so the record that a reading makes is encoded as the
bytes that it was made of, whatever they were. What a reading accepts as a whole is thus an
encoding, and no encoding continues another one: the bytes of a record say where it ends. -/
namespace VisualIndex.PostingList

variable {b : Nat}

theorem numberAt_lt (bytes : List UInt8) (offset width : Nat) :
    numberAt bytes offset width < 256 ^ width :=
  Nat.lt_of_lt_of_le (ofLittleEndian_lt _)
    (Nat.pow_le_pow_right (by decide) (List.length_take_le width _))

theorem littleEndian_numberAt {bytes : List UInt8} {offset width : Nat}
    (inside : offset + width ≤ bytes.length) :
    littleEndian width (numberAt bytes offset width) = (bytes.drop offset).take width := by
  have length : ((bytes.drop offset).take width).length = width := by
    rw [List.length_take, List.length_drop]
    omega
  have spelled := littleEndian_ofLittleEndian ((bytes.drop offset).take width)
  rwa [length] at spelled

theorem toBytes_numberAt {bytes : List UInt8} {offset : Nat}
    (inside : offset + 4 ≤ bytes.length) :
    (Single.ofCode (numberAt bytes offset 4)).toBytes = (bytes.drop offset).take 4 := by
  have bound := numberAt_lt bytes offset 4
  rw [Single.toBytes, Single.ofCode, UInt32.toNat_ofNat', Nat.mod_eq_of_lt bound,
    littleEndian_numberAt inside]

/-- Slices of one width that follow one another make up the bytes that they span. -/
theorem flatMap_slices (bytes : List UInt8) (start width count : Nat) :
    ((List.range count).flatMap fun k => (bytes.drop (start + width * k)).take width) =
      (bytes.drop start).take (width * count) := by
  induction count with
  | zero => rfl
  | succ count ih =>
    rw [List.range_succ, List.flatMap_append, ih, List.flatMap_singleton, Nat.mul_succ,
      List.take_add, List.drop_drop]

theorem toList_vectorOf {α : Type} {n : Nat} {filler : α} {xs : List α} (length : xs.length = n) :
    (vectorOf n filler xs).toList = xs := by
  apply List.ext_getElem
  · rw [Vector.length_toList, length]
  · intro i _ inside
    simp [vectorOf, inside]

theorem flatMap_thresholds {bytes : List UInt8} {start n : Nat}
    (inside : start + 4 * n ≤ bytes.length) :
    ((Vector.ofFn fun d : Fin n =>
        Single.ofCode (numberAt bytes (start + 4 * d) 4)).toList.flatMap Single.toBytes) =
      (bytes.drop start).take (4 * n) := by
  rw [← flatMap_slices, ← List.map_coe_finRange_eq_range, Vector.toList_ofFn,
    List.ofFn_eq_map, List.flatMap_map, List.flatMap_map]
  refine List.flatMap_congr fun d _ => ?_
  exact toBytes_numberAt (by omega)

theorem postingAt_encoding {bytes : List UInt8} {k : Nat}
    (inside : postingOffset b (k + 1) ≤ bytes.length) :
    (postingAt b bytes k).encoding =
      (bytes.drop (postingOffset b k)).take (Posting.recordLength b) := by
  have next := postingOffset_succ b k
  have bound := numberAt_lt bytes (postingOffset b k) 4
  have code : (Vector.ofFn fun i : Fin b => bytes.getD (postingOffset b k + 4 + i) 0).toList =
      (bytes.drop (postingOffset b k + 4)).take b := by
    rw [← code_slice, toList_vectorOf]
    rw [List.length_take, List.length_drop]
    omega
  rw [Posting.encoding, postingAt, UInt32.toUInt32_toInt32, UInt32.toNat_ofNat',
    Nat.mod_eq_of_lt bound, littleEndian_numberAt (by omega), code, Posting.recordLength,
    List.take_add, List.drop_drop]

theorem postingOffset_count_le {bytes : List UInt8} (whole : stop? b bytes = none) :
    postingOffset b (countAt b bytes) ≤ bytes.length := by
  obtain ⟨header, postings⟩ := stop?_eq_none_iff.mp whole
  cases count : countAt b bytes with
  | zero => rwa [postingOffset, Nat.zero_mul]
  | succ n => exact (postings n (by omega)).1

/-- The record that some bytes begin with is encoded as these bytes. -/
theorem recordAt_encoding {bytes : List UInt8} (whole : stop? b bytes = none) :
    (recordAt b bytes).encoding = bytes.take (postingOffset b (countAt b bytes)) := by
  obtain ⟨header, complete⟩ := stop?_eq_none_iff.mp whole
  rw [headerLength] at header
  have status_bound : numberAt bytes 0 1 < 256 := numberAt_lt bytes 0 1
  have status : littleEndian 1 (recordAt b bytes).status.bits.toNat = bytes.take 1 := by
    rw [recordAt, UInt8.toNat_ofNat', Nat.mod_eq_of_lt status_bound,
      littleEndian_numberAt (by omega), List.drop_zero]
  have idf : (recordAt b bytes).idf.toBytes = (bytes.drop 1).take 4 :=
    toBytes_numberAt (by omega)
  have thresholds : (recordAt b bytes).embedding.thresholds.toList.flatMap Single.toBytes =
      (bytes.drop 5).take (4 * (8 * b)) := flatMap_thresholds (by omega)
  have count : littleEndian 4 (recordAt b bytes).postings.length =
      (bytes.drop (5 + 4 * (8 * b))).take 4 := by
    rw [recordAt, List.length_map, List.length_range]
    exact littleEndian_numberAt (by omega)
  have postings : (recordAt b bytes).postings.flatMap Posting.encoding =
      (bytes.drop (headerLength b)).take (countAt b bytes * Posting.recordLength b) := by
    rw [recordAt, List.flatMap_map, Nat.mul_comm, ← flatMap_slices]
    refine List.flatMap_congr fun k hk => ?_
    rw [postingAt_encoding (complete k (List.mem_range.mp hk)).1, postingOffset, Nat.mul_comm]
  rw [Record.encoding, status, idf, thresholds, count, postings, postingOffset, headerLength,
    show 9 + 4 * (8 * b) = 1 + (4 + (4 * (8 * b) + 4)) by omega,
    show 5 + 4 * (8 * b) = 1 + (4 + 4 * (8 * b)) by omega]
  simp only [List.take_add, List.drop_drop, Nat.add_assoc]

/-- What a successful reading has taken is the encoding of what the list now stores. -/
theorem encoding_of_read {p q : PostingList b} {s t : Source} (h : p.read s = (.ok (), q, t)) :
    s.rest = q.record.encoding ++ t.rest ∧ t.taken = s.taken + q.recordLength ∧
      q.postings.length < 2 ^ 32 ∧ ∀ r ∈ q.postings, 0 ≤ r.image := by
  obtain ⟨whole, rfl, after⟩ := read_eq_ok h
  have inside := postingOffset_count_le whole
  have encoding : (p.withRecord (recordAt b s.supply)).record.encoding =
      s.rest.take (postingOffset b (countAt b s.supply)) := by
    obtain ⟨tail, joined⟩ : s.supply <+: s.rest := passing_isPrefix s.fault s.taken s.rest
    rw [← joined, List.take_append_of_le_length inside]
    exact recordAt_encoding whole
  have length := congrArg List.length encoding
  rw [length_encoding, List.length_take,
    Nat.min_eq_left (Nat.le_trans inside s.length_supply_le)] at length
  refine ⟨?_, ?_, ?_, recordAt_ids whole⟩
  · rw [encoding, after.rest, List.take_append_drop]
  · rw [after.taken, length]
  · have bound : countAt b s.supply < 2 ^ 32 := numberAt_lt s.supply _ 4
    have number : (recordAt b s.supply).postings.length = countAt b s.supply := by
      rw [recordAt, List.length_map, List.length_range]
    exact number ▸ bound

/-- A successful reading takes all of some bytes. -/
def ReadWhole (b : Nat) (bytes : List UInt8) : Prop :=
  ∃ (p q : PostingList b) (t : Source), p.read (.ofBytes bytes) = (.ok (), q, t) ∧ t.rest = []

/-- Where a record ends shows in it, so a record is not continued by another one. -/
theorem ReadWhole.eq_of_prefix {xs ys : List UInt8} (hx : ReadWhole b xs) (hy : ReadWhole b ys)
    (front : xs <+: ys) : xs = ys := by
  obtain ⟨p, q, t, read_xs, nothing⟩ := hx
  obtain ⟨p', q', t', read_ys, nothing'⟩ := hy
  obtain ⟨encoded, -, few, ids⟩ := encoding_of_read read_xs
  rw [nothing, List.append_nil] at encoded
  change xs = q.record.encoding at encoded
  obtain ⟨u, found, after⟩ := q.withRecord_record_read p' ids few (.ofBytes ys)
    (by rwa [Source.supply_ofBytes, ← encoded])
  rw [read_ys, Prod.mk.injEq, Prod.mk.injEq] at found
  have rest := after.rest
  rw [← found.2.2, nothing', ← q.length_encoding, ← encoded] at rest
  exact front.eq_of_length_le (List.drop_eq_nil_iff.mp rest.symm)

/-- Whatever a list has read is written as the same bytes, and their number is the length
of the record. The byte strings that are read as a whole are a prefix-free code. -/
theorem write_of_read :
    (∀ (p q : PostingList b) (s t : Source), p.read s = (.ok (), q, t) →
      ∃ sink, q.write Sink.empty = (.ok (), sink) ∧
        s.rest = sink.written.toList ++ t.rest ∧
        sink.written.size = q.recordLength ∧ t.taken = s.taken + q.recordLength) ∧
    ∀ xs ys, ReadWhole b xs → ReadWhole b ys → xs <+: ys → xs = ys := by
  constructor
  · intro p q s t h
    obtain ⟨encoded, taken, few, -⟩ := encoding_of_read h
    obtain ⟨sink, written, filled⟩ :=
      (q.write_emits few).ok (s := Sink.empty) (by simp [Sink.empty])
    have content : sink.written.toList = q.record.encoding := filled.written
    refine ⟨sink, written, by rw [content, encoded], ?_, taken⟩
    rw [← Array.length_toList, content, q.length_encoding]
  · intro xs ys hx hy
    exact hx.eq_of_prefix hy

/-- A record with every status bit set, a signalling NaN for its idf weight, negative zeros
for its thresholds and the later image first. -/
def wildRecord : List UInt8 :=
  0xff :: [0x01, 0x00, 0xa0, 0x7f] ++ (List.replicate 8 [0, 0, 0, 0x80]).flatten ++
    [2, 0, 0, 0] ++ [5, 0, 0, 0, 0xa5] ++ [3, 0, 0, 0, 0x0f]

theorem readWhole_wildRecord : ReadWhole 1 wildRecord := by
  obtain ⟨t, ht, after⟩ := listOfOne.read_from_supply (.ofBytes wildRecord)
  exact ⟨listOfOne, _, t, ht, after.rest⟩

theorem write_of_read_wildRecord :
    (∃ q t, listOfOne.read (.ofBytes (wildRecord ++ [9])) = (.ok (), q, t) ∧
      ∃ sink, q.write Sink.empty = (.ok (), sink) ∧ sink.written.toList = wildRecord ∧
        t.rest = [9]) ∧
    ReadWhole 1 wildRecord ∧ ¬ ReadWhole 1 (wildRecord ++ [9]) := by
  obtain ⟨rewritten, prefix_free⟩ := write_of_read (b := 1)
  refine ⟨?_, readWhole_wildRecord, ?_⟩
  · obtain ⟨t, ht, after⟩ := listOfOne.read_from_supply (.ofBytes (wildRecord ++ [9]))
    have rest : t.rest = [9] := after.rest
    obtain ⟨sink, written, joined, -⟩ := rewritten _ _ _ _ ht
    rw [rest] at joined
    exact ⟨_, t, ht, sink, written, (List.append_cancel_right joined).symm, rest⟩
  · intro whole
    have same := prefix_free _ _ readWhole_wildRecord whole (List.prefix_append _ [9])
    exact absurd (congrArg List.length same) (by decide)

end VisualIndex.PostingList
