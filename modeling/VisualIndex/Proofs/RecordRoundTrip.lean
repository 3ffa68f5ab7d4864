import VisualIndex.PostingList.Record
import VisualIndex.Proofs.Coding

/-! Records written and read back.

The encoding of a record is the concatenation of the encodings of its fields. Writing puts
it out, and reading finds the record in it, whatever follows. So records that follow one
another are read back one by one, and what stands after the last of them is left. -/
namespace VisualIndex

theorem Single.ofCode_toBytes (x : Single) : Single.ofCode (ofLittleEndian x.toBytes) = x := by
  have bound : x.bits.toNat < 256 ^ 4 := x.bits.toNat_lt
  rw [toBytes, ofLittleEndian_littleEndian, Nat.mod_eq_of_lt bound, ofCode, UInt32.ofNat_toNat]

theorem Single.length_toBytes (x : Single) : x.toBytes.length = 4 :=
  length_littleEndian 4 x.bits.toNat

theorem length_flatMap_toBytes (xs : List Single) :
    (xs.flatMap Single.toBytes).length = 4 * xs.length := by
  induction xs with
  | nil => rfl
  | cons x xs ih =>
    rw [List.flatMap_cons, List.length_append, x.length_toBytes, ih, List.length_cons]
    omega

theorem singlesOfBytes_flatMap (xs : List Single) :
    singlesOfBytes (xs.flatMap Single.toBytes) = xs := by
  induction xs with
  | nil => rfl
  | cons x xs ih =>
    rw [List.flatMap_cons, singlesOfBytes_append x.length_toBytes, x.ofCode_toBytes, ih]

theorem vectorOf_toList {α : Type} {n : Nat} (filler : α) (xs : Vector α n) :
    vectorOf n filler xs.toList = xs := by
  ext i hi
  simp [vectorOf]

namespace Finds

theorem number (width : Nat) {n : Nat} (h : n < 256 ^ width) :
    Finds (Reading.number width) (littleEndian width n) n := by
  have found := (Takes.number width).finds _ (length_littleEndian width n)
  rwa [ofLittleEndian_littleEndian, Nat.mod_eq_of_lt h] at found

theorem single (x : Single) : Finds Reading.single x.toBytes x := by
  have found := Takes.single.finds _ x.length_toBytes
  rwa [x.ofCode_toBytes] at found

theorem singles {n : Nat} (xs : Vector Single n) :
    Finds (Reading.singles n) (xs.toList.flatMap Single.toBytes) xs := by
  have found := (Takes.singles n).finds (xs.toList.flatMap Single.toBytes)
    (by rw [length_flatMap_toBytes, Vector.length_toList])
  rwa [singlesOfBytes_flatMap, vectorOf_toList] at found

theorem byteVector {n : Nat} (xs : Vector UInt8 n) :
    Finds (Reading.byteVector n) xs.toList xs := by
  have found := (Takes.byteVector n).finds _ xs.length_toList
  rwa [vectorOf_toList] at found

theorem field {α : Type} {r : Reading IoError α} {bytes : List UInt8} {a : α}
    (hr : Finds r bytes a) (field : RecordField) : Finds (field.read r) bytes a := by
  intro s front
  obtain ⟨t, ht, after⟩ := hr s front
  exact ⟨t, adapt_of_ok ht, after⟩

end Finds

theorem flatten_flatMap {α β : Type} {f : α → List (List β)} {g : α → List β}
    (each : ∀ x, (f x).flatten = g x) (xs : List α) : (xs.flatMap f).flatten = xs.flatMap g := by
  induction xs with
  | nil => rfl
  | cons x xs ih => simp only [List.flatMap_cons, List.flatten_append, each, ih]

namespace Posting
variable {b : Nat}

def encoding (q : Posting b) : List UInt8 :=
  littleEndian 4 q.image.toUInt32.toNat ++ q.code.bytes.toList

theorem length_encoding (q : Posting b) : q.encoding.length = recordLength b := by
  rw [encoding, List.length_append, length_littleEndian, Vector.length_toList, recordLength]

/-- What is written of a posting, one part after the other. -/
def parts (q : Posting b) : List (List UInt8) :=
  [littleEndian 4 q.image.toUInt32.toNat, q.code.bytes.toList]

theorem flatten_parts (q : Posting b) : q.parts.flatten = q.encoding := by
  simp [parts, encoding]

theorem write_puts {σ : Type} [Writer σ] (q : Posting b) :
    Puts .io (q.write : WritingTo σ RecordError Unit) q.parts :=
  (Puts.field _).bind (Puts.field _)

theorem read_finds (q : Posting b) : Finds (Posting.read b) q.encoding q := by
  have image := (Finds.number 4 q.image.toUInt32.toNat_lt).field .imageId
  have code := (Finds.byteVector q.code.bytes).field .code
  have found := code.returning fun bytes =>
    (⟨(UInt32.ofNat q.image.toUInt32.toNat).toInt32, ⟨bytes⟩⟩ : Posting b)
  rw [UInt32.ofNat_toNat, Int32.toInt32_toUInt32] at found
  refine image.bind ?_
  rwa [UInt32.ofNat_toNat, Int32.toInt32_toUInt32]

end Posting

namespace PostingList
variable {b : Nat}

def Record.encoding (r : Record b) : List UInt8 :=
  littleEndian 1 r.status.bits.toNat ++ (r.idf.toBytes ++
    (r.embedding.thresholds.toList.flatMap Single.toBytes ++
      (littleEndian 4 r.postings.length ++ r.postings.flatMap Posting.encoding)))

/-- What is stored of a list. -/
def record (p : PostingList b) : Record b := ⟨p.status, p.idf, p.embedding, p.postings⟩

theorem length_flatMap_encoding (postings : List (Posting b)) :
    (postings.flatMap Posting.encoding).length = postings.length * Posting.recordLength b := by
  induction postings with
  | nil => simp
  | cons q rest ih =>
    rw [List.flatMap_cons, List.length_append, q.length_encoding, ih, List.length_cons,
      Nat.succ_mul, Nat.add_comm]

theorem length_encoding (p : PostingList b) : p.record.encoding.length = p.recordLength := by
  simp only [Record.encoding, record, List.length_append, length_littleEndian,
    Single.length_toBytes, length_flatMap_toBytes, Vector.length_toList, length_flatMap_encoding,
    recordLength]
  omega

/-- What is written of a record, one part after the other. -/
def Record.parts (r : Record b) : List (List UInt8) :=
  [littleEndian 1 r.status.bits.toNat] ++ ([r.idf.toBytes] ++
    (r.embedding.thresholds.toList.flatMap (fun x => [x.toBytes]) ++
      ([littleEndian 4 r.postings.length] ++ r.postings.flatMap Posting.parts)))

theorem Record.flatten_parts (r : Record b) : r.parts.flatten = r.encoding := by
  simp only [Record.parts, Record.encoding, List.flatten_append, List.flatten_singleton,
    flatten_flatMap Posting.flatten_parts, flatten_flatMap fun x => List.flatten_singleton]

/-- A list with few enough postings is written as the parts of its record. -/
theorem write_puts {σ : Type} [Writer σ] (p : PostingList b) (few : p.postings.length < 2 ^ 32) :
    Puts .io (p.write : WritingTo σ RecordError Unit) p.record.parts := by
  have postings := Puts.forM fun q (_ : q ∈ p.postings) => q.write_puts (σ := σ)
  have thresholds := (Puts.forM fun x (_ : x ∈ p.embedding.thresholds.toList) =>
    Puts.bytes (σ := σ) x.toBytes).adapt RecordError.io
  rw [write, if_neg (by omega)]
  exact (Puts.field _).bind ((Puts.field _).bind
    (thresholds.bind ((Puts.field _).bind postings)))

theorem write_emits (p : PostingList b) (few : p.postings.length < 2 ^ 32) :
    Emits .io p.write p.record.encoding :=
  p.record.flatten_parts ▸ (p.write_puts few).emits

theorem readPostings_finds (postings : List (Posting b))
    (ids : ∀ q ∈ postings, 0 ≤ q.image) (index : Nat) :
    Finds (readPostings b postings.length index) (postings.flatMap Posting.encoding) postings := by
  induction postings generalizing index with
  | nil => exact .nothing []
  | cons q rest ih =>
    have accepted : ¬ q.image < 0 := Int32.not_lt.mpr (ids q List.mem_cons_self)
    have others := ih (fun r hr => ids r (List.mem_cons_of_mem q hr)) (index + 1)
    rw [List.flatMap_cons, List.length_cons, readPostings]
    refine q.read_finds.bind ?_
    simp only [accepted, if_false]
    exact others.returning (q :: ·)

theorem Record.read_finds (r : Record b) (ids : ∀ q ∈ r.postings, 0 ≤ q.image)
    (few : r.postings.length < 2 ^ 32) : Finds (Record.read b) r.encoding r := by
  have status := (Finds.number 1 r.status.bits.toNat_lt).field .status
  have idf := (Finds.single r.idf).field .idfWeight
  have thresholds := (Finds.singles r.embedding.thresholds).field .thresholds
  have count := (Finds.number 4 few).field .count
  have postings := readPostings_finds r.postings ids 0
  refine status.bind (idf.bind (thresholds.bind (count.bind ?_)))
  rw [UInt8.ofNat_toNat]
  exact postings.returning (Record.mk r.status r.idf r.embedding)

theorem withRecord_record_read (p target : PostingList b)
    (ids : ∀ q ∈ p.postings, 0 ≤ q.image) (few : p.postings.length < 2 ^ 32) (s : Source)
    (front : p.record.encoding <+: s.supply) :
    ∃ t, target.read s = (.ok (), target.withRecord p.record, t) ∧
      s.After p.recordLength t := by
  obtain ⟨t, ht, after⟩ := p.record.read_finds ids few s front
  rw [p.length_encoding] at after
  refine ⟨t, ?_, after⟩
  simp only [PostingList.read, ht]

/-- Read a record into each of some lists, one after the other. The answer has for each
its outcome, the list then and the number of bytes taken. -/
def readEach : List (PostingList b) → Source →
    List (Except RecordError Unit × PostingList b × Nat) × Source
  | [], s => ([], s)
  | p :: rest, s =>
    let (outcome, q, t) := p.read s
    let (others, u) := readEach rest t
    ((outcome, q, t.taken - s.taken) :: others, u)

theorem readEach_encodings (lists targets : List (PostingList b))
    (number : targets.length = lists.length) (ids : ∀ p ∈ lists, ∀ q ∈ p.postings, 0 ≤ q.image)
    (few : ∀ p ∈ lists, p.postings.length < 2 ^ 32) (s : Source)
    (front : (lists.flatMap fun p => p.record.encoding) <+: s.supply) :
    ∃ t, readEach targets s = (List.zipWith (fun p target =>
        (.ok (), target.withRecord p.record, p.recordLength)) lists targets, t) ∧
      s.After (lists.flatMap fun p => p.record.encoding).length t := by
  induction lists generalizing targets s with
  | nil =>
    obtain rfl := List.length_eq_zero_iff.mp number
    exact ⟨s, rfl, .refl s⟩
  | cons p lists ih =>
    obtain ⟨target, targets, rfl⟩ := List.exists_cons_of_length_eq_add_one number
    rw [List.flatMap_cons] at front
    obtain ⟨tail, joined⟩ := front
    obtain ⟨t, ht, first⟩ := p.withRecord_record_read target (ids p List.mem_cons_self)
      (few p List.mem_cons_self) s ⟨_, by rw [← joined, List.append_assoc]⟩
    have rest : (lists.flatMap fun p => p.record.encoding) <+: t.supply := by
      rw [first.supply, ← joined, List.append_assoc, ← p.length_encoding, List.drop_left]
      exact List.prefix_append _ _
    obtain ⟨u, hu, second⟩ := ih targets (Nat.succ_inj.mp number)
      (fun q hq => ids q (List.mem_cons_of_mem p hq))
      (fun q hq => few q (List.mem_cons_of_mem p hq)) t rest
    refine ⟨u, ?_, ?_⟩
    · simp only [readEach, ht, hu, first.taken, Nat.add_sub_cancel_left, List.zipWith_cons_cons]
    · rw [List.flatMap_cons, List.length_append, p.length_encoding]
      exact first.trans second

/-- Lists written one after the other are read back one by one, each with every bit of
what it stores and in exactly as many bytes as its record has. -/
theorem readEach_written (lists targets : List (PostingList b)) (tail : List UInt8)
    (chunk : Chunking) (fault : Option StreamFault) (number : targets.length = lists.length)
    (ids : ∀ p ∈ lists, ∀ q ∈ p.postings, 0 ≤ q.image)
    (few : ∀ p ∈ lists, p.postings.length < 2 ^ 32)
    (transient : ∀ f ∈ fault, f.isInterruption) :
    ∃ sink source, lists.forM write Sink.empty = (.ok (), sink) ∧
      readEach targets ⟨sink.written.toList ++ tail, 0, chunk, fault⟩ =
        (List.zipWith (fun p target =>
          let stored : PostingList b :=
            ⟨p.status, p.idf, p.postings, p.embedding, target.table⟩
          (.ok (), stored, p.recordLength)) lists targets, source) ∧
      source.rest = tail := by
  have emits : Emits .io (lists.forM write) (lists.flatMap fun p => p.record.encoding) :=
    Emits.forM fun p hp => p.write_emits (few p hp)
  obtain ⟨sink, written, filled⟩ := emits.ok (s := Sink.empty) (by simp [Sink.empty])
  have content : sink.written.toList = lists.flatMap fun p => p.record.encoding := filled.written
  have supply := Source.supply_of_transient
    (s := ⟨sink.written.toList ++ tail, 0, chunk, fault⟩) transient
  obtain ⟨source, outcome, after⟩ := readEach_encodings lists targets number ids few
    ⟨sink.written.toList ++ tail, 0, chunk, fault⟩
    (by rw [supply, content]; exact List.prefix_append _ _)
  refine ⟨sink, source, written, outcome, ?_⟩
  rw [after.rest, ← content, List.drop_left]

/-- A list whose numbers are a signalling NaN and negative zeros and whose status has every
bit set. -/
def oddList : PostingList 1 :=
  ⟨⟨0xff⟩, ⟨0x7fa00001⟩, [⟨0x7fffffff, ⟨#v[0xa5]⟩⟩, ⟨0, ⟨#v[0]⟩⟩],
    ⟨.replicate 8 ⟨0x80000000⟩⟩, ⟨#[]⟩⟩

theorem readEach_written_oddList :
    (∀ p ∈ [oddList, oddList.reset], ∀ q ∈ p.postings, 0 ≤ q.image) ∧
    (∀ p ∈ [oddList, oddList.reset], p.postings.length < 2 ^ 32) ∧
    ∃ sink source, [oddList, oddList.reset].forM write Sink.empty = (.ok (), sink) ∧
      readEach [oddList.reset, oddList] ⟨sink.written.toList ++ [1, 2, 3], 0,
          ⟨fun n => some (n % 3)⟩, some ⟨7, .fail ⟨.interrupted, none⟩⟩⟩ =
        ([(.ok (), oddList, 51), (.ok (), oddList.reset, 41)], source) ∧
      source.rest = [1, 2, 3] :=
  have ids : ∀ p ∈ [oddList, oddList.reset], ∀ q ∈ p.postings, 0 ≤ q.image := by decide
  have few : ∀ p ∈ [oddList, oddList.reset], p.postings.length < 2 ^ 32 := by decide
  ⟨ids, few, readEach_written [oddList, oddList.reset] [oddList.reset, oddList] [1, 2, 3]
    ⟨fun n => some (n % 3)⟩ (some ⟨7, .fail ⟨.interrupted, none⟩⟩) rfl ids few (by simp; decide)⟩

end PostingList

end VisualIndex
