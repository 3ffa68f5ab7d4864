import Mathlib.Data.List.FinRange
import VisualIndex.Embedding

/-! The bits of signatures.

The bytes of a signature spell one number, and bit `i` of the signature is bit `i` of that
number. Words and single bytes are slices of it, so counting word by word and then byte by
byte counts each bit once. -/
namespace VisualIndex

/-- Set bits are counted by their positions. -/
theorem setBits_eq_countP (width n : Nat) :
    setBits width n = (List.range width).countP n.testBit := by
  induction width generalizing n with
  | zero => rfl
  | succ width ih =>
    rw [setBits, ih, List.range_succ_eq_map, List.countP_cons, List.countP_map, Nat.add_comm]
    congr 1
    · refine List.countP_congr fun i _ => ?_
      rw [Function.comp_apply, Nat.testBit_succ]
    · rw [Nat.testBit_zero]
      rcases Nat.mod_two_eq_zero_or_one n with even | odd
      · simp [even]
      · simp [odd]

theorem setBits_add_mul {low m : Nat} (bound : low < 2 ^ m) (n high : Nat) :
    setBits (m + n) (low + 2 ^ m * high) = setBits m low + setBits n high := by
  induction m generalizing low with
  | zero =>
    obtain rfl : low = 0 := by simpa using bound
    simp [setBits]
  | succ m ih =>
    rw [Nat.pow_succ] at bound ⊢
    have shorter : setBits (m + n) (low / 2 + 2 ^ m * high) =
        setBits m (low / 2) + setBits n high := ih (by omega)
    have parity : (low + 2 ^ m * 2 * high) % 2 = low % 2 := by
      rw [Nat.mul_right_comm]
      omega
    have half : (low + 2 ^ m * 2 * high) / 2 = low / 2 + 2 ^ m * high := by
      rw [Nat.mul_right_comm]
      omega
    rw [Nat.succ_add, setBits, setBits, parity, half, shorter, Nat.add_assoc]

theorem xor_add_mul {low low' m : Nat} (bound : low < 2 ^ m) (bound' : low' < 2 ^ m)
    (high high' : Nat) :
    (low + 2 ^ m * high) ^^^ (low' + 2 ^ m * high') =
      (low ^^^ low') + 2 ^ m * (high ^^^ high') := by
  apply Nat.eq_of_testBit_eq
  intro i
  rw [Nat.testBit_xor, Nat.add_comm low, Nat.add_comm low', Nat.add_comm (low ^^^ low'),
    Nat.testBit_two_pow_mul_add _ bound, Nat.testBit_two_pow_mul_add _ bound',
    Nat.testBit_two_pow_mul_add _ (Nat.xor_lt_two_pow bound bound')]
  split <;> rw [Nat.testBit_xor]

theorem ofLittleEndian_append (front bytes : List UInt8) : ofLittleEndian (front ++ bytes) =
    ofLittleEndian front + 2 ^ (8 * front.length) * ofLittleEndian bytes := by
  induction front with
  | nil => simp [ofLittleEndian]
  | cons byte front ih =>
    rw [List.cons_append, ofLittleEndian, ih, ofLittleEndian, List.length_cons, Nat.mul_succ,
      Nat.pow_add, Nat.mul_add, ← Nat.add_assoc, Nat.mul_comm (2 ^ (8 * front.length)) (2 ^ 8),
      Nat.mul_assoc]

theorem ofLittleEndian_lt_two_pow (bytes : List UInt8) :
    ofLittleEndian bytes < 2 ^ (8 * bytes.length) := by
  rw [Nat.pow_mul]
  exact ofLittleEndian_lt bytes

theorem eq_of_ofLittleEndian_eq {xs ys : List UInt8} (length : xs.length = ys.length)
    (same : ofLittleEndian xs = ofLittleEndian ys) : xs = ys := by
  rw [← littleEndian_ofLittleEndian xs, length, same, littleEndian_ofLittleEndian ys]

/-- Bit `i` of the number that some bytes spell is in byte `i / 8`. -/
theorem testBit_ofLittleEndian {bytes : List UInt8} {i : Nat} (inside : i / 8 < bytes.length) :
    (ofLittleEndian bytes).testBit i = bytes[i / 8].toNat.testBit (i % 8) := by
  induction bytes generalizing i with
  | nil => cases inside
  | cons byte bytes ih =>
    rw [ofLittleEndian, Nat.add_comm, Nat.testBit_two_pow_mul_add (i := 8) _ byte.toNat_lt]
    by_cases first : i < 8
    · simp only [first, if_true, Nat.div_eq_of_lt first, Nat.mod_eq_of_lt first,
        List.getElem_cons_zero]
    · have place : i / 8 = (i - 8) / 8 + 1 := by omega
      have offset : i % 8 = (i - 8) % 8 := by omega
      rw [if_neg first, ih (by rw [List.length_cons] at inside; omega)]
      simp only [place, offset, List.getElem_cons_succ]

/-- The number of bits in which the numbers spelled by two lists of bytes differ. -/
def bitsApart (xs ys : List UInt8) : Nat :=
  setBits (8 * xs.length) (ofLittleEndian xs ^^^ ofLittleEndian ys)

theorem bitsApart_append {front front' : List UInt8} (length : front'.length = front.length)
    (xs ys : List UInt8) :
    bitsApart (front ++ xs) (front' ++ ys) = bitsApart front front' + bitsApart xs ys := by
  have bound := ofLittleEndian_lt_two_pow front
  have bound' := length ▸ ofLittleEndian_lt_two_pow front'
  rw [bitsApart, ofLittleEndian_append, ofLittleEndian_append, length, xor_add_mul bound bound',
    List.length_append, Nat.mul_add, setBits_add_mul (Nat.xor_lt_two_pow bound bound')]
  rfl

theorem wholeWords_append {front : List UInt8} (length : front.length = 8) (bytes : List UInt8) :
    wholeWords (front ++ bytes) = .ofNat (ofLittleEndian front) :: wholeWords bytes := by
  match front, length with
  | [_, _, _, _, _, _, _, _], _ => rfl

theorem wordTail_append {front : List UInt8} (length : front.length = 8) (bytes : List UInt8) :
    wordTail (front ++ bytes) = wordTail bytes := by
  match front, length with
  | [_, _, _, _, _, _, _, _], _ => rfl

theorem wholeWords_of_short {bytes : List UInt8} (short : bytes.length < 8) :
    wholeWords bytes = [] := by
  unfold wholeWords
  split
  · simp only [List.length_cons] at short
    omega
  · rfl

theorem wordTail_of_short {bytes : List UInt8} (short : bytes.length < 8) :
    wordTail bytes = bytes := by
  unfold wordTail
  split
  · simp only [List.length_cons] at short
    omega
  · rfl

/-- Bytes are fewer than a word's, or a word's and then others. -/
theorem word_induction {motive : List UInt8 → Prop}
    (short : ∀ bytes, bytes.length < 8 → motive bytes)
    (word : ∀ front rest, front.length = 8 → motive rest → motive (front ++ rest))
    (bytes : List UInt8) : motive bytes := by
  induction n : bytes.length using Nat.strongRecOn generalizing bytes with
  | ind n ih =>
    by_cases few : bytes.length < 8
    · exact short bytes few
    · have front : (bytes.take 8).length = 8 := by
        rw [List.length_take]
        omega
      have rest := ih (bytes.drop 8).length (by rw [List.length_drop]; omega) _ rfl
      rw [← List.take_append_drop 8 bytes]
      exact word _ _ front rest

theorem sum_bytes_apart (xs ys : List UInt8) (length : ys.length = xs.length) :
    (List.zipWith (fun x y => setBits 8 (x ^^^ y).toNat) xs ys).foldr (· + ·) 0 =
      bitsApart xs ys := by
  induction xs generalizing ys with
  | nil => rfl
  | cons x xs ih =>
    obtain ⟨y, ys, rfl⟩ := List.exists_cons_of_length_eq_add_one length
    have rest := ih ys (Nat.succ_inj.mp length)
    have single : [y].length = [x].length := rfl
    have joined : bitsApart (x :: xs) (y :: ys) = bitsApart [x] [y] + bitsApart xs ys :=
      bitsApart_append single xs ys
    rw [List.zipWith_cons_cons, List.foldr_cons, rest, joined]
    simp [bitsApart, ofLittleEndian]

theorem word_apart {front front' : List UInt8} (length : front.length = 8)
    (length' : front'.length = 8) :
    setBits 64 (UInt64.ofNat (ofLittleEndian front) ^^^ .ofNat (ofLittleEndian front')).toNat =
      bitsApart front front' := by
  have bound := ofLittleEndian_lt_two_pow front
  have bound' := ofLittleEndian_lt_two_pow front'
  rw [length] at bound
  rw [length'] at bound'
  rw [UInt64.toNat_xor, UInt64.toNat_ofNat', UInt64.toNat_ofNat', Nat.mod_eq_of_lt bound,
    Nat.mod_eq_of_lt bound', bitsApart, length]

/-- Counting by words and then by the bytes left over counts every differing bit. -/
theorem sum_words_apart (xs ys : List UInt8) (length : ys.length = xs.length) :
    (List.zipWith (fun x y : UInt64 => setBits 64 (x ^^^ y).toNat)
        (wholeWords xs) (wholeWords ys)).foldr (· + ·) 0 +
      (List.zipWith (fun x y : UInt8 => setBits 8 (x ^^^ y).toNat)
        (wordTail xs) (wordTail ys)).foldr (· + ·) 0 = bitsApart xs ys := by
  induction xs using word_induction generalizing ys with
  | short xs few =>
    rw [wholeWords_of_short few, wordTail_of_short few, wordTail_of_short (by omega),
      sum_bytes_apart xs ys length]
    exact Nat.zero_add _
  | word front rest full ih =>
    rw [List.length_append] at length
    have full' : (ys.take 8).length = 8 := by
      rw [List.length_take]
      omega
    have others := ih (ys.drop 8) (by rw [List.length_drop]; omega)
    rw [← List.take_append_drop 8 ys, wholeWords_append full, wholeWords_append full',
      wordTail_append full, wordTail_append full', bitsApart_append (full'.trans full.symm),
      ← others, List.zipWith_cons_cons, List.foldr_cons, word_apart full full', Nat.add_assoc]

namespace Signature

variable {b : Nat}

theorem bit?_eq_testBit (s : Signature b) {i : Nat} (inside : i < 8 * b) :
    s.bit? i = some ((ofLittleEndian s.bytes.toList).testBit i) := by
  have place : i / 8 < b := by omega
  have listed : i / 8 < s.bytes.toList.length := by rwa [Vector.length_toList]
  rw [bit?, Vector.getElem?_eq_getElem place, testBit_ofLittleEndian listed, Option.map_some,
    Vector.getElem_toList]

/-- The number that the bytes of a signature spell. -/
def number (s : Signature b) : Nat := ofLittleEndian s.bytes.toList

theorem length_bytes (s : Signature b) : s.bytes.toList.length = b := Vector.length_toList

theorem number_lt (s : Signature b) : s.number < 2 ^ (8 * b) := by
  have bound := ofLittleEndian_lt_two_pow s.bytes.toList
  rwa [s.length_bytes] at bound

theorem number_inj {s t : Signature b} : s.number = t.number ↔ s = t := by
  constructor
  · intro same
    have bytes : s.bytes = t.bytes := Vector.toList_inj.mp
      (eq_of_ofLittleEndian_eq (s.length_bytes.trans t.length_bytes.symm) same)
    cases s
    cases t
    exact congrArg mk bytes
  · exact congrArg number

/-- A signature is known from its bits. -/
theorem ext_bit? {s t : Signature b} (same : ∀ i < 8 * b, s.bit? i = t.bit? i) : s = t := by
  apply number_inj.mp
  apply Nat.eq_of_testBit_eq
  intro i
  by_cases inside : i < 8 * b
  · have bits := same i inside
    rw [s.bit?_eq_testBit inside, t.bit?_eq_testBit inside] at bits
    exact Option.some.inj bits
  · have beyond : ∀ u : Signature b, u.number.testBit i = false := fun u =>
      Nat.testBit_lt_two_pow
        (Nat.lt_of_lt_of_le u.number_lt (Nat.pow_le_pow_right Nat.two_pos (Nat.not_lt.mp inside)))
    rw [beyond s, beyond t]

/-- The distance is the number of positions at which the bits differ. -/
theorem distance_eq_countP (s t : Signature b) :
    s.distance t = (List.range (8 * b)).countP fun i => s.bit? i != t.bit? i := by
  have length : t.bytes.toList.length = s.bytes.toList.length := by
    rw [Vector.length_toList, Vector.length_toList]
  rw [distance, sum_words_apart _ _ length, bitsApart, setBits_eq_countP, Vector.length_toList]
  refine List.countP_congr fun i hi => ?_
  rw [s.bit?_eq_testBit (List.mem_range.mp hi), t.bit?_eq_testBit (List.mem_range.mp hi),
    Nat.testBit_xor]
  simp

theorem distance_le (s t : Signature b) : s.distance t ≤ 8 * b := by
  have bound := List.countP_le_length (p := fun i => s.bit? i != t.bit? i)
    (l := List.range (8 * b))
  rwa [← distance_eq_countP, List.length_range] at bound

theorem setBit_eq_ok_iff (s : Signature b) (i : Nat) (value : Bool) :
    (∃ t, s.setBit i value = .ok t) ↔ i < 8 * b := by
  constructor
  · rintro ⟨t, done⟩
    by_cases place : i / 8 < b
    · omega
    · rw [setBit, dif_neg place] at done
      cases done
  · intro inside
    have place : i / 8 < b := by omega
    exact ⟨_, dif_pos place⟩

theorem testBit_masked (byte : UInt8) (value : Bool) {i j : Nat} (hi : i < 8) (hj : j < 8) :
    (if value then byte ||| .ofNat (2 ^ i) else byte &&& ~~~.ofNat (2 ^ i)).toNat.testBit j =
      if j = i then value else byte.toNat.testBit j := by
  have mask : (UInt8.ofNat (2 ^ i)).toBitVec = BitVec.twoPow 8 i := by
    apply BitVec.eq_of_toNat_eq
    simp [BitVec.toNat_twoPow]
  have bits (x : UInt8) : x.toNat.testBit j = x.toBitVec.getLsbD j := rfl
  rw [bits, bits]
  cases value with
  | true =>
    simp only [if_true, UInt8.toBitVec_or, BitVec.getLsbD_or, mask, BitVec.getLsbD_twoPow]
    grind
  | false =>
    simp only [Bool.false_eq_true, if_false, UInt8.toBitVec_and, UInt8.toBitVec_not,
      BitVec.getLsbD_and, BitVec.getLsbD_not, mask, BitVec.getLsbD_twoPow]
    grind

/-- Writing a bit changes that bit and no other. -/
theorem bit?_setBit {s t : Signature b} {i j : Nat} {value : Bool}
    (done : s.setBit i value = .ok t) (inside : j < 8 * b) :
    t.bit? j = if j = i then some value else s.bit? j := by
  have place : i / 8 < b := by
    have := (s.setBit_eq_ok_iff i value).mp ⟨t, done⟩
    omega
  have place' : j / 8 < b := by omega
  rw [setBit, dif_pos place] at done
  cases done
  by_cases same : j / 8 = i / 8
  · have masked := testBit_masked s.bytes[i / 8] value (Nat.mod_lt i (by decide))
      (Nat.mod_lt j (by decide))
    have place_eq : j % 8 = i % 8 ↔ j = i := by omega
    rw [bit?, bit?, same, Vector.getElem?_set_self, Vector.getElem?_eq_getElem place,
      Option.map_some, Option.map_some, masked]
    simp only [place_eq]
    exact apply_ite some _ _ _
  · have other : j ≠ i := by
      rintro rfl
      exact same rfl
    rw [if_neg other, bit?, bit?, Vector.getElem?_set_ne]
    exact Ne.symm same

theorem bit?_allClear {i : Nat} (inside : i < 8 * b) :
    (allClear : Signature b).bit? i = some false := by
  have place : i / 8 < b := by omega
  simp [bit?, allClear, place]

end Signature

theorem testBit_foldr_bits (f : Nat → Bool) (n i : Nat) :
    ((List.range n).foldr (fun j m => (f j).toNat + 2 * m) 0).testBit i =
      (decide (i < n) && f i) := by
  induction n generalizing f i with
  | zero => simp
  | succ n ih =>
    rw [List.range_succ_eq_map, List.foldr_cons, List.foldr_map]
    cases i with
    | zero =>
      rw [Nat.testBit_zero]
      cases f 0 <;> simp
    | succ i =>
      have rest : ∀ m, ((f 0).toNat + 2 * m) / 2 = m := by
        intro m
        have bound := (f 0).toNat_lt
        omega
      rw [Nat.testBit_succ, rest, ih fun j => f (j + 1)]
      simp

theorem testBit_packByte (f : Nat → Bool) {j : Nat} (inside : j < 8) :
    (packByte f).toNat.testBit j = f j := by
  rw [packByte, UInt8.toNat_ofNat', Nat.testBit_mod_two_pow, testBit_foldr_bits]
  simp [inside]

theorem Signature.bit?_ofBits {b : Nat} (f : Nat → Bool) {i : Nat} (inside : i < 8 * b) :
    (Signature.ofBits f : Signature b).bit? i = some (f i) := by
  have place : i / 8 < b := by omega
  rw [bit?, ofBits, Vector.getElem?_eq_getElem place, Vector.getElem_ofFn, Option.map_some,
    testBit_packByte _ (Nat.mod_lt i (by decide)), Nat.div_add_mod]

namespace Embedding

variable {b : Nat}

theorem bit?_quantize (e : Embedding b) (x : Descriptor b) (i : Fin (8 * b)) :
    (e.quantize x).bit? i = some ((x.get i).gt (e.thresholds.get i)) := by
  rw [quantize, Signature.bit?_ofBits _ i.isLt, dif_pos i.isLt]
  rfl

/-- The number of dimensions in which the bit of a signature is not the answer to whether
the descriptor lies above the threshold. -/
def disagreements (e : Embedding b) (x : Descriptor b) (code : Signature b) : Nat :=
  (List.finRange (8 * b)).countP fun i : Fin (8 * b) =>
    code.bit? i != some ((x.get i).gt (e.thresholds.get i))

theorem distance_quantize (e : Embedding b) (x : Descriptor b) (code : Signature b) :
    (e.quantize x).distance code = e.disagreements x code := by
  rw [Signature.distance_eq_countP, ← List.map_coe_finRange_eq_range, List.countP_map,
    disagreements]
  refine List.countP_congr fun i _ => ?_
  rw [Function.comp_apply, e.bit?_quantize x i, bne_comm]

theorem disagreements_le (e : Embedding b) (x : Descriptor b) (code : Signature b) :
    e.disagreements x code ≤ 8 * b :=
  e.distance_quantize x code ▸ (e.quantize x).distance_le code

end Embedding

end VisualIndex
