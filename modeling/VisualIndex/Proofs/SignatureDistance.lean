import Mathlib.InformationTheory.Hamming
import VisualIndex.Proofs.SignatureBits

/-! The distance of signatures.

Counted a word at a time, the distance is still the Hamming distance of the sequences of bits,
and so a metric. It is the number of set bits of the signature of the differing bits, and the
number of set bits of a signature is its distance from the one that has none. -/
namespace VisualIndex

theorem ofLittleEndian_zeros (n : Nat) : ofLittleEndian (.replicate n 0) = 0 := by
  induction n with
  | zero => rfl
  | succ n ih => rw [List.replicate_succ, ofLittleEndian, ih, UInt8.toNat_zero]

theorem wholeWords_zeros (bytes : List UInt8) :
    wholeWords (.replicate bytes.length 0) = (wholeWords bytes).map fun _ => 0 := by
  induction bytes using word_induction with
  | short bytes few =>
    rw [wholeWords_of_short few, wholeWords_of_short (by rwa [List.length_replicate]),
      List.map_nil]
  | word front rest length ih =>
    rw [List.length_append, length, List.replicate_add,
      wholeWords_append (List.length_replicate ..), wholeWords_append length, ih,
      ofLittleEndian_zeros]
    rfl

theorem wordTail_zeros (bytes : List UInt8) :
    wordTail (.replicate bytes.length 0) = (wordTail bytes).map fun _ => 0 := by
  induction bytes using word_induction with
  | short bytes few =>
    rw [wordTail_of_short few, wordTail_of_short (by rwa [List.length_replicate]),
      List.map_const']
  | word front rest length ih =>
    rw [List.length_append, length, List.replicate_add,
      wordTail_append (List.length_replicate ..), wordTail_append length, ih]

namespace Signature
variable {b : Nat}

theorem bit?_eq_some_iff (s : Signature b) (i : Nat) :
    (∃ bit, s.bit? i = some bit) ↔ i < 8 * b := by
  constructor
  · rintro ⟨bit, found⟩
    by_contra beyond
    rw [bit?, Vector.getElem?_eq_none (by omega)] at found
    cases found
  · intro inside
    exact ⟨_, s.bit?_eq_testBit inside⟩

theorem bitCount_eq_distance (s : Signature b) : s.bitCount = s.distance allClear := by
  have clear : (allClear : Signature b).bytes.toList = .replicate s.bytes.toList.length 0 := by
    rw [allClear, Vector.toList_replicate, Vector.length_toList]
  -- a word or byte of the tail is left as it is by the exclusive or with zeros
  rw [bitCount, distance, clear, wholeWords_zeros, wordTail_zeros]
  simp only [List.zipWith_map_right, List.zipWith_self, UInt64.xor_zero, UInt8.xor_zero]

theorem bitCount_eq_countP (s : Signature b) :
    s.bitCount = (List.range (8 * b)).countP fun i => s.bit? i == some true := by
  rw [bitCount_eq_distance, distance_eq_countP]
  refine List.countP_congr fun i hi => ?_
  have inside := List.mem_range.mp hi
  obtain ⟨bit, found⟩ := (s.bit?_eq_some_iff i).mpr inside
  rw [bit?_allClear inside, found]
  cases bit <;> simp

theorem bit?_xor (s t : Signature b) {i : Nat} {x y : Bool} (hx : s.bit? i = some x)
    (hy : t.bit? i = some y) : (s ^^^ t).bit? i = some (x ^^ y) := by
  have inside : i < 8 * b := (s.bit?_eq_some_iff i).mp ⟨x, hx⟩
  have place : i / 8 < b := by omega
  rw [bit?, Vector.getElem?_eq_getElem place, Option.map_some, Option.some_inj] at hx hy
  change (s.xor t).bit? i = _
  rw [xor, bit?, Vector.getElem?_eq_getElem place, Vector.getElem_zipWith, Option.map_some,
    UInt8.toNat_xor, Nat.testBit_xor, hx, hy]

theorem distance_eq_bitCount (s t : Signature b) : s.distance t = (s ^^^ t).bitCount := by
  rw [distance_eq_countP, bitCount_eq_countP]
  refine List.countP_congr fun i hi => ?_
  obtain ⟨x, hx⟩ := (s.bit?_eq_some_iff i).mpr (List.mem_range.mp hi)
  obtain ⟨y, hy⟩ := (t.bit?_eq_some_iff i).mpr (List.mem_range.mp hi)
  rw [s.bit?_xor t hx hy, hx, hy]
  cases x <;> cases y <;> simp

/-- The bits of a signature, in their order. -/
def bits (s : Signature b) (i : Fin (8 * b)) : Option Bool := s.bit? i

theorem distance_eq_hammingDist (s t : Signature b) :
    s.distance t = hammingDist s.bits t.bits := by
  -- both count the differing positions, one in a list and the other in a finite set
  rw [distance_eq_countP, ← List.map_coe_finRange_eq_range, List.countP_map, hammingDist,
    Fin.univ_def, Finset.card, Finset.filter_val, Multiset.filter_coe, Multiset.coe_card,
    ← List.countP_eq_length_filter]
  refine List.countP_congr fun i _ => ?_
  rw [Function.comp_apply, bne_iff_ne, decide_eq_true_iff]
  rfl

theorem bits_inj {s t : Signature b} : s.bits = t.bits ↔ s = t := by
  constructor
  · intro same
    exact ext_bit? fun i inside => congrFun same ⟨i, inside⟩
  · exact congrArg bits

/-- The distance counts the positions at which the bits differ. It is the number of set bits
of the signatures' exclusive or, where set bits are counted position by position as well, and
it is a metric that is bounded by the number of bits. -/
theorem distance_metric (r s t : Signature b) :
    (∀ i, (∃ bit, s.bit? i = some bit) ↔ i < 8 * b) ∧
    s.distance t = ((List.range (8 * b)).countP fun i => s.bit? i != t.bit? i) ∧
    s.distance t = (s ^^^ t).bitCount ∧
    s.bitCount = ((List.range (8 * b)).countP fun i => s.bit? i == some true) ∧
    s.distance t = t.distance s ∧
    (s.distance t = 0 ↔ s = t) ∧
    r.distance t ≤ r.distance s + s.distance t ∧
    s.distance t ≤ 8 * b := by
  refine ⟨s.bit?_eq_some_iff, s.distance_eq_countP t, s.distance_eq_bitCount t,
    s.bitCount_eq_countP, ?_, ?_, ?_, s.distance_le t⟩
  · rw [distance_eq_hammingDist, distance_eq_hammingDist, hammingDist_comm]
  · rw [distance_eq_hammingDist, hammingDist_eq_zero, bits_inj]
  · simp only [distance_eq_hammingDist]
    exact hammingDist_triangle r.bits s.bits t.bits

end Signature

end VisualIndex
