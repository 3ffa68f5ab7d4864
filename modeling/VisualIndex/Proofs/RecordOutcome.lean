import VisualIndex.PostingList.Record
import VisualIndex.Proofs.Coding

/-! What reading a record comes to.

The fields of a record stand at fixed offsets, so the outcome is settled by the bytes that
a source supplies: the header field or the first posting that is cut off, the first
posting with a negative image id, or the record that the offsets describe. A failure that
ends the supply shows only in the error of a field that it cuts off. -/
namespace VisualIndex.PostingList

variable {b : Nat}

/-- The number in some bytes from an offset on. -/
def numberAt (bytes : List UInt8) (offset width : Nat) : Nat :=
  ofLittleEndian ((bytes.drop offset).take width)

/-- The length of the fields before the postings. -/
def headerLength (b : Nat) : Nat := 9 + 4 * (8 * b)

/-- The field whose bytes hold an offset in the header. -/
def headerField (b offset : Nat) : RecordField :=
  if offset < 1 then .status
  else if offset < 5 then .idfWeight
  else if offset < 5 + 4 * (8 * b) then .thresholds
  else .count

def countAt (b : Nat) (bytes : List UInt8) : Nat := numberAt bytes (5 + 4 * (8 * b)) 4

def postingOffset (b k : Nat) : Nat := headerLength b + k * Posting.recordLength b

def postingAt (b : Nat) (bytes : List UInt8) (k : Nat) : Posting b where
  image := (UInt32.ofNat (numberAt bytes (postingOffset b k) 4)).toInt32
  code := ⟨.ofFn fun i => bytes.getD (postingOffset b k + 4 + i) 0⟩

/-- The record that some bytes begin with. -/
def recordAt (b : Nat) (bytes : List UInt8) : Record b where
  status := ⟨.ofNat (numberAt bytes 0 1)⟩
  idf := .ofCode (numberAt bytes 1 4)
  embedding := ⟨.ofFn fun d => .ofCode (numberAt bytes (5 + 4 * d) 4)⟩
  postings := (List.range (countAt b bytes)).map (postingAt b bytes)

/-- Why the reading of a record stops before its end. -/
inductive Stop where
  | truncated (field : RecordField)
  | invalidImageId (index : Nat) (image : ImageId)
  deriving DecidableEq

/-- What is wrong with the posting at an index, if anything is. -/
def postingStop? (b : Nat) (bytes : List UInt8) (k : Nat) : Option Stop :=
  if bytes.length < postingOffset b (k + 1) then
    some (.truncated (if bytes.length < postingOffset b k + 4 then .imageId else .code))
  else if (postingAt b bytes k).image < 0 then
    some (.invalidImageId k (postingAt b bytes k).image)
  else none

/-- The first thing that is wrong with a record. -/
def stop? (b : Nat) (bytes : List UInt8) : Option Stop :=
  if bytes.length < headerLength b then some (.truncated (headerField b bytes.length))
  else (List.range (countAt b bytes)).findSome? (postingStop? b bytes)

/-- The number of bytes that are gone when the reading of `count` postings ends. -/
def extent (b : Nat) (bytes : List UInt8) (count : Nat) : Option Stop → Nat
  | none => postingOffset b count
  | some (.truncated _) => bytes.length
  | some (.invalidImageId k _) => postingOffset b (k + 1)

namespace Stop

def error : Stop → RecordError
  | truncated field => .truncated field
  | invalidImageId k image => .invalidImageId k image

/-- The error where a failure ends the data. -/
def errorUnder (failure : IoError) : Stop → RecordError
  | truncated field => if failure.cause = .unexpectedEnd then .truncated field else .io failure
  | invalidImageId k image => .invalidImageId k image

theorem errorUnder_unexpectedEnd (stop : Stop) :
    stop.errorUnder ⟨.unexpectedEnd, none⟩ = stop.error := by
  cases stop <;> rfl

end Stop

end VisualIndex.PostingList

namespace VisualIndex.Takes
variable {ε α : Type} {wrap : IoError → ε} {r : Reading ε α} {n offset : Nat}
  {f : List UInt8 → α} {start s : Source}

theorem ok_at (hr : Takes wrap r n f) (here : start.After offset s)
    (enough : offset + n ≤ start.supply.length) :
    ∃ t, r s = (.ok (f ((start.supply.drop offset).take n)), t) ∧
      start.After (offset + n) t := by
  obtain ⟨t, ht, after⟩ := hr s
  have left := here.length_supply
  rw [if_pos (by omega), here.supply] at ht
  exact ⟨t, ht, (here.trans after).of_eq (by omega)⟩

theorem error_at (hr : Takes wrap r n f) (here : start.After offset s)
    (inside : offset ≤ start.supply.length) (short : start.supply.length < offset + n) :
    ∃ t, r s = (.error (wrap start.ending), t) ∧ start.After start.supply.length t := by
  obtain ⟨t, ht, after⟩ := hr s
  have left := here.length_supply
  rw [if_neg (by omega), here.ending] at ht
  exact ⟨t, ht, (here.trans after).of_eq (by omega)⟩

end VisualIndex.Takes

namespace VisualIndex.PostingList

variable {b : Nat}

theorem Record.read_short (s : Source) (short : s.supply.length < headerLength b) :
    ∃ t, Record.read b s =
        (.error (.ofReading (headerField b s.supply.length) s.ending), t) ∧
      s.After s.supply.length t := by
  have status := (Takes.number 1).field .status
  have idf := Takes.single.field .idfWeight
  have thresholds := (Takes.singles (8 * b)).field .thresholds
  have count := (Takes.number 4).field .count
  rw [headerLength] at short
  by_cases no_status : s.supply.length < 1
  · obtain ⟨t, ht, after⟩ := status.error_at (.refl s) (Nat.zero_le _) (by omega)
    rw [headerField, if_pos no_status]
    exact ⟨t, bind_of_error ht, after⟩
  obtain ⟨t, ht, at_idf⟩ := status.ok_at (.refl s) (by omega)
  by_cases no_idf : s.supply.length < 5
  · obtain ⟨u, hu, after⟩ := idf.error_at at_idf (by omega) (by omega)
    rw [headerField, if_neg no_status, if_pos no_idf]
    exact ⟨u, by rw [Record.read, bind_of_ok ht, bind_of_error hu], after⟩
  obtain ⟨u, hu, at_thresholds⟩ := idf.ok_at at_idf (by omega)
  by_cases no_thresholds : s.supply.length < 5 + 4 * (8 * b)
  · obtain ⟨v, hv, after⟩ := thresholds.error_at at_thresholds (by omega) (by omega)
    rw [headerField, if_neg no_status, if_neg no_idf, if_pos no_thresholds]
    exact ⟨v, by rw [Record.read, bind_of_ok ht, bind_of_ok hu, bind_of_error hv], after⟩
  obtain ⟨v, hv, at_count⟩ := thresholds.ok_at at_thresholds (by omega)
  obtain ⟨w, hw, after⟩ := count.error_at at_count (by omega) (by omega)
  rw [headerField, if_neg no_status, if_neg no_idf, if_neg no_thresholds]
  exact ⟨w, by rw [Record.read, bind_of_ok ht, bind_of_ok hu, bind_of_ok hv, bind_of_error hw],
    after⟩

theorem singlesOfBytes_getD (bytes : List UInt8) (i : Nat) (inside : 4 * i + 4 ≤ bytes.length)
    (filler : Single) :
    (singlesOfBytes bytes).getD i filler = .ofCode (numberAt bytes (4 * i) 4) := by
  induction i generalizing bytes with
  | zero =>
    rw [← List.take_append_drop 4 bytes, singlesOfBytes_append (by rw [List.length_take]; omega)]
    simp [numberAt]
  | succ i ih =>
    have shorter := ih (bytes.drop 4) (by rw [List.length_drop]; omega)
    rw [numberAt, List.drop_drop] at shorter
    rw [numberAt, show 4 * (i + 1) = 4 + 4 * i by omega, ← shorter]
    nth_rewrite 1 [← List.take_append_drop 4 bytes]
    rw [singlesOfBytes_append (by rw [List.length_take]; omega), List.getD_cons_succ]

theorem numberAt_slice (bytes : List UInt8) {start length offset width : Nat}
    (inside : offset + width ≤ length) :
    numberAt ((bytes.drop start).take length) offset width =
      numberAt bytes (start + offset) width := by
  rw [numberAt, numberAt, List.drop_take, List.take_take, List.drop_drop,
    Nat.min_eq_left (by omega)]

theorem thresholds_slice (bytes : List UInt8) (start n : Nat)
    (inside : start + 4 * n ≤ bytes.length) :
    vectorOf n Single.zero (singlesOfBytes ((bytes.drop start).take (4 * n))) =
      .ofFn fun d => .ofCode (numberAt bytes (start + 4 * d) 4) := by
  ext i hi
  rw [vectorOf, Vector.getElem_ofFn, Vector.getElem_ofFn,
    singlesOfBytes_getD _ _ (by rw [List.length_take, List.length_drop]; omega),
    numberAt_slice _ (by omega)]

theorem code_slice (bytes : List UInt8) (start n : Nat) :
    vectorOf n 0 ((bytes.drop start).take n) = .ofFn fun i => bytes.getD (start + i) 0 := by
  ext i hi
  simp [vectorOf]

theorem Record.read_header (s : Source) (enough : headerLength b ≤ s.supply.length) :
    ∃ t, s.After (headerLength b) t ∧ Record.read b s =
      (readPostings b (countAt b s.supply) 0 >>= fun postings =>
        pure { recordAt b s.supply with postings := postings }) t := by
  have status := (Takes.number 1).field .status
  have idf := Takes.single.field .idfWeight
  have thresholds := (Takes.singles (8 * b)).field .thresholds
  have count := (Takes.number 4).field .count
  rw [headerLength] at enough
  obtain ⟨t, ht, at_idf⟩ := status.ok_at (.refl s) (by omega)
  obtain ⟨u, hu, at_thresholds⟩ := idf.ok_at at_idf (by omega)
  obtain ⟨v, hv, at_count⟩ := thresholds.ok_at at_thresholds (by omega)
  obtain ⟨w, hw, after⟩ := count.ok_at at_count (by omega)
  refine ⟨w, after.of_eq (by rw [headerLength]; omega), ?_⟩
  rw [thresholds_slice s.supply _ (8 * b) (by omega)] at hv
  rw [Record.read, bind_of_ok ht, bind_of_ok hu, bind_of_ok hv, bind_of_ok hw]
  simp only [Nat.zero_add]
  rfl

theorem postingOffset_succ (b k : Nat) : postingOffset b (k + 1) = postingOffset b k + 4 + b := by
  rw [postingOffset, postingOffset, Nat.succ_mul, Posting.recordLength]
  omega

theorem readPosting_at {start s : Source} {k : Nat} (here : start.After (postingOffset b k) s)
    (enough : postingOffset b (k + 1) ≤ start.supply.length) :
    ∃ t, Posting.read b s = (.ok (postingAt b start.supply k), t) ∧
      start.After (postingOffset b (k + 1)) t := by
  have image := (Takes.number 4).field .imageId
  have code := (Takes.byteVector b).field .code
  have next := postingOffset_succ b k
  obtain ⟨t, ht, at_code⟩ := image.ok_at here (by omega)
  obtain ⟨u, hu, after⟩ := code.ok_at at_code (by omega)
  refine ⟨u, ?_, after.of_eq next.symm⟩
  rw [code_slice] at hu
  rw [Posting.read, bind_of_ok ht, bind_of_ok hu]
  rfl

theorem readPosting_cut {start s : Source} {k : Nat} (here : start.After (postingOffset b k) s)
    (inside : postingOffset b k ≤ start.supply.length)
    (cut : start.supply.length < postingOffset b (k + 1)) :
    ∃ t, Posting.read b s =
        (.error (.ofReading
          (if start.supply.length < postingOffset b k + 4 then .imageId else .code)
          start.ending), t) ∧
      start.After start.supply.length t := by
  have image := (Takes.number 4).field .imageId
  have code := (Takes.byteVector b).field .code
  have next := postingOffset_succ b k
  by_cases no_image : start.supply.length < postingOffset b k + 4
  · obtain ⟨t, ht, after⟩ := image.error_at here inside no_image
    rw [if_pos no_image]
    exact ⟨t, bind_of_error ht, after⟩
  · obtain ⟨t, ht, at_code⟩ := image.ok_at here (by omega)
    obtain ⟨u, hu, after⟩ := code.error_at at_code (by omega) (by omega)
    rw [if_neg no_image]
    exact ⟨u, by rw [Posting.read, bind_of_ok ht, bind_of_error hu], after⟩

/-- The first posting that is wrong ends the reading of postings. -/
theorem readPostings_outcome {start : Source} (remaining k : Nat) (s : Source)
    (here : start.After (postingOffset b k) s) (inside : postingOffset b k ≤ start.supply.length) :
    ∃ t, readPostings b remaining k s =
        (match (List.range' k remaining).findSome? (postingStop? b start.supply) with
          | none => .ok ((List.range' k remaining).map (postingAt b start.supply))
          | some stop => .error (stop.errorUnder start.ending), t) ∧
      start.After (extent b start.supply (k + remaining)
        ((List.range' k remaining).findSome? (postingStop? b start.supply))) t := by
  induction remaining generalizing k s with
  | zero => exact ⟨s, rfl, here⟩
  | succ remaining ih =>
    rw [List.range'_succ, List.findSome?_cons, List.map_cons]
    by_cases cut : start.supply.length < postingOffset b (k + 1)
    · obtain ⟨t, ht, after⟩ := readPosting_cut here inside cut
      have stops : postingStop? b start.supply k = some (.truncated
          (if start.supply.length < postingOffset b k + 4 then .imageId else .code)) := if_pos cut
      rw [stops]
      refine ⟨t, ?_, after⟩
      rw [readPostings, bind_of_error ht]
      rfl
    · obtain ⟨t, ht, next⟩ := readPosting_at here (by omega)
      by_cases negative : (postingAt b start.supply k).image < 0
      · have stops : postingStop? b start.supply k =
            some (.invalidImageId k (postingAt b start.supply k).image) := by
          rw [postingStop?, if_neg cut, if_pos negative]
        rw [stops]
        refine ⟨t, ?_, next⟩
        rw [readPostings, bind_of_ok ht, if_pos negative]
        rfl
      · have passes : postingStop? b start.supply k = none := by
          rw [postingStop?, if_neg cut, if_neg negative]
        obtain ⟨u, hu, after⟩ := ih (k + 1) t next (by omega)
        rw [passes]
        refine ⟨u, ?_, after.of_eq (by rw [Nat.add_assoc, Nat.add_comm 1 remaining])⟩
        rw [readPostings, bind_of_ok ht, if_neg negative]
        cases first : (List.range' (k + 1) remaining).findSome? (postingStop? b start.supply) with
        | none =>
          rw [first] at hu
          exact bind_of_ok hu
        | some stop =>
          rw [first] at hu
          exact bind_of_error hu

theorem Record.read_result (s : Source) :
    ∃ t, Record.read b s =
        (match stop? b s.supply with
          | none => .ok (recordAt b s.supply)
          | some stop => .error (stop.errorUnder s.ending), t) ∧
      s.After (extent b s.supply (countAt b s.supply) (stop? b s.supply)) t := by
  by_cases short : s.supply.length < headerLength b
  · rw [stop?, if_pos short]
    exact Record.read_short s short
  · rw [stop?, if_neg short, List.range_eq_range']
    obtain ⟨t, header, ht⟩ := Record.read_header s (Nat.not_lt.mp short)
    have start : postingOffset b 0 = headerLength b := by
      rw [postingOffset, Nat.zero_mul, Nat.add_zero]
    obtain ⟨u, hu, after⟩ := readPostings_outcome (countAt b s.supply) 0 t
      (header.of_eq start.symm) (by omega)
    rw [Nat.zero_add] at after
    refine ⟨u, ?_, after⟩
    rw [ht]
    cases first : (List.range' 0 (countAt b s.supply)).findSome? (postingStop? b s.supply) with
    | none =>
      rw [first] at hu
      rw [bind_of_ok hu, recordAt, List.range_eq_range']
      rfl
    | some stop =>
      rw [first] at hu
      exact bind_of_error hu

/-- Nothing is wrong with a record whose postings are complete and of valid images. -/
theorem stop?_eq_none_iff {bytes : List UInt8} : stop? b bytes = none ↔
    headerLength b ≤ bytes.length ∧ ∀ k < countAt b bytes,
      postingOffset b (k + 1) ≤ bytes.length ∧ 0 ≤ (postingAt b bytes k).image := by
  have passes : ∀ k, postingStop? b bytes k = none ↔
      postingOffset b (k + 1) ≤ bytes.length ∧ 0 ≤ (postingAt b bytes k).image := by
    intro k
    rw [postingStop?, ← Nat.not_lt, ← Int32.not_lt]
    split
    · next cut => simp [cut]
    · next enough =>
      split
      · next negative => simp [negative]
      · next valid => simp [enough, valid]
  rw [stop?]
  split
  · next short => simp [Nat.not_le.mpr short]
  · next enough => simp [List.findSome?_eq_none_iff, passes, Nat.not_lt.mp enough]

theorem read_from_supply (p : PostingList b) (s : Source) :
    ∃ t, p.read s =
        (match stop? b s.supply with
          | none => (.ok (), p.withRecord (recordAt b s.supply), t)
          | some stop => (.error (stop.errorUnder s.ending), p, t)) ∧
      s.After (extent b s.supply (countAt b s.supply) (stop? b s.supply)) t := by
  obtain ⟨t, ht, after⟩ := Record.read_result (b := b) s
  refine ⟨t, ?_, after⟩
  rw [PostingList.read, ht]
  cases stop? b s.supply <;> rfl

/-- A reading that succeeds has found nothing wrong and takes the record that it found. -/
theorem read_eq_ok {p q : PostingList b} {s t : Source} (h : p.read s = (.ok (), q, t)) :
    stop? b s.supply = none ∧ q = p.withRecord (recordAt b s.supply) ∧
      s.After (postingOffset b (countAt b s.supply)) t := by
  obtain ⟨u, hu, after⟩ := p.read_from_supply s
  rw [h] at hu
  cases stops : stop? b s.supply with
  | some stop =>
    rw [stops] at hu
    cases hu
  | none =>
    rw [stops] at hu after
    cases hu
    exact ⟨rfl, rfl, after⟩

/-- The outcome, the list and the bytes taken, for any bytes in any calls: without a fault
or with an interruption, and with a failure that stays after `n` bytes. -/
theorem read_outcome (p : PostingList b) (bytes : List UInt8) (chunk : Chunking) :
    (∀ fault : Option StreamFault, (∀ f ∈ fault, f.isInterruption) →
      ∃ t, p.read ⟨bytes, 0, chunk, fault⟩ =
          (match stop? b bytes with
            | none => (.ok (), p.withRecord (recordAt b bytes), t)
            | some stop => (.error stop.error, p, t)) ∧
        t.taken = extent b bytes (countAt b bytes) (stop? b bytes) ∧
        t.rest = bytes.drop t.taken) ∧
    ∀ n error, n ≤ bytes.length → error.cause ≠ .interrupted →
      ∃ t, p.read ⟨bytes, 0, chunk, some ⟨n, .fail error⟩⟩ =
          (match stop? b (bytes.take n) with
            | none => (.ok (), p.withRecord (recordAt b (bytes.take n)), t)
            | some stop => (.error (stop.errorUnder error), p, t)) ∧
        t.taken = extent b (bytes.take n) (countAt b (bytes.take n)) (stop? b (bytes.take n)) ∧
        t.rest = bytes.drop t.taken := by
  constructor
  · intro fault transient
    have supply : Source.supply ⟨bytes, 0, chunk, fault⟩ = bytes :=
      Source.supply_of_transient transient
    have ending : Source.ending ⟨bytes, 0, chunk, fault⟩ = ⟨.unexpectedEnd, none⟩ :=
      Source.ending_of_transient transient
    obtain ⟨t, ht, after⟩ := p.read_from_supply ⟨bytes, 0, chunk, fault⟩
    have taken := after.taken
    rw [supply, Nat.zero_add] at taken
    simp only [supply, ending, Stop.errorUnder_unexpectedEnd] at ht
    refine ⟨t, ht, taken, ?_⟩
    rw [after.rest, supply, taken]
  · intro n error inside lasting
    have supply : Source.supply ⟨bytes, 0, chunk, some ⟨n, .fail error⟩⟩ = bytes.take n := by
      simp [Source.supply, passing, lastingRoom?, StreamFault.isInterruption, lasting]
    have ending : Source.ending ⟨bytes, 0, chunk, some ⟨n, .fail error⟩⟩ = error := by
      simp [Source.ending, lasting, inside]
    obtain ⟨t, ht, after⟩ := p.read_from_supply ⟨bytes, 0, chunk, some ⟨n, .fail error⟩⟩
    have taken := after.taken
    rw [supply, Nat.zero_add] at taken
    simp only [supply, ending] at ht
    refine ⟨t, ht, taken, ?_⟩
    rw [after.rest, supply, taken]

/-- A record of two postings, the second of them with a negative image id. -/
def recordOfNegativeId : List UInt8 :=
  3 :: List.replicate 36 0 ++ [2, 0, 0, 0] ++ [7, 0, 0, 0, 0xa5] ++ [0xff, 0xff, 0xff, 0xff, 0]

/-- A list that is ready, with one posting. -/
def listOfOne : PostingList 1 := ⟨.ready, ⟨0x3f800000⟩, [⟨5, .allSet⟩], .initial, ⟨#[]⟩⟩

theorem read_outcome_recordOfNegativeId :
    48 ≤ recordOfNegativeId.length ∧ IoCause.brokenPipe ≠ .interrupted ∧
    (∃ t, listOfOne.read ⟨recordOfNegativeId ++ [9], 0, .uniform (some 3), none⟩ =
        (.error (.invalidImageId 1 (-1)), listOfOne, t) ∧ t.taken = 51 ∧ t.rest = [9]) ∧
    (∃ t, listOfOne.read
          ⟨recordOfNegativeId, 0, .uniform none, some ⟨48, .fail ⟨.brokenPipe, none⟩⟩⟩ =
        (.error (.io ⟨.brokenPipe, none⟩), listOfOne, t) ∧ t.taken = 48 ∧
      t.rest = [0xff, 0xff, 0]) := by
  obtain ⟨plain, -⟩ := listOfOne.read_outcome (recordOfNegativeId ++ [9]) (.uniform (some 3))
  obtain ⟨-, failing⟩ := listOfOne.read_outcome recordOfNegativeId (.uniform none)
  obtain ⟨t, ht, taken, rest⟩ := plain none (by simp)
  obtain ⟨u, hu, gone, left⟩ := failing 48 ⟨.brokenPipe, none⟩ (by decide) (by decide)
  refine ⟨by decide, by decide, ⟨t, ht, taken, ?_⟩, u, hu, gone, ?_⟩
  · rw [rest, taken]
    rfl
  · rw [left, gone]
    rfl

end VisualIndex.PostingList
