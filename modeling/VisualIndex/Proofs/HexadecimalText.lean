import Mathlib.Algebra.BigOperators.Group.Finset.Basic
import Mathlib.Data.Nat.Digits.Lemmas
import VisualIndex.Proofs.SignatureBits

/-! The text of a signature is its number in base sixteen.

A byte is two digits of the number that the bytes spell, the low one first, so the bytes in their
order give all digits from the least on. The text has them from the greatest on. A number of a
given width has one list of digits, hence the text is the usual one after zeros that fill it up
to the width. -/
namespace VisualIndex

/-- A lower-case hexadecimal digit. -/
def isLowerHex (c : Char) : Bool := c.isDigit || 'a' ≤ c && c ≤ 'f'

/-- The value of a lower-case hexadecimal digit. -/
def lowerHexValue (c : Char) : Nat :=
  if c.isDigit then c.toNat - '0'.toNat else c.toNat - 'a'.toNat + 10

/-- The number that some digits spell, the greatest first. -/
def hexValue (cs : List Char) : Nat := cs.foldl (fun n c => 16 * n + lowerHexValue c) 0

/-- A number in hexadecimal, with zeros before it up to a width. -/
def paddedHex (width n : Nat) : List Char :=
  ((Nat.digits 16 n).reverse.map Nat.digitChar).leftpad width '0'

/-- The two digits of a byte, the low one first. -/
def nibbles (byte : UInt8) : List Nat := [byte.toNat % 16, byte.toNat / 16]

theorem digitChar_spec {d : Nat} (small : d < 16) :
    isLowerHex (Nat.digitChar d) = true ∧ lowerHexValue (Nat.digitChar d) = d := by
  interval_cases d <;> decide

theorem nibbles_lt {bytes : List UInt8} : ∀ d ∈ bytes.flatMap nibbles, d < 16 := by
  intro d hd
  obtain ⟨byte, -, hd⟩ := List.mem_flatMap.mp hd
  have bound := byte.toNat_lt
  simp only [nibbles, List.mem_cons, List.not_mem_nil, or_false] at hd
  omega

theorem length_nibbles (bytes : List UInt8) :
    (bytes.flatMap nibbles).length = 2 * bytes.length := by
  induction bytes with
  | nil => rfl
  | cons byte bytes ih =>
    rw [List.flatMap_cons, List.length_append, ih, List.length_cons]
    simp only [nibbles, List.length_cons, List.length_nil]
    omega

/-- The digits of the bytes are those of the number that the bytes spell. -/
theorem ofDigits_nibbles (bytes : List UInt8) :
    Nat.ofDigits 16 (bytes.flatMap nibbles) = ofLittleEndian bytes := by
  induction bytes with
  | nil => rfl
  | cons byte bytes ih =>
    have split := Nat.mod_add_div byte.toNat 16
    simp only [List.flatMap_cons, nibbles, List.cons_append, List.nil_append, Nat.ofDigits_cons,
      ih, ofLittleEndian]
    omega

theorem flatMap_hexByte (bytes : List UInt8) : bytes.reverse.flatMap hexByte =
    (bytes.flatMap nibbles).reverse.map Nat.digitChar := by
  induction bytes with
  | nil => rfl
  | cons byte bytes ih =>
    simp only [List.reverse_cons, List.flatMap_append, ih, List.flatMap_cons, List.reverse_append,
      List.map_append]
    rfl

/-- Digits that are written from the greatest on are read as their number. -/
theorem hexValue_digitChars {ds : List Nat} (small : ∀ d ∈ ds, d < 16) :
    hexValue (ds.reverse.map Nat.digitChar) = Nat.ofDigits 16 ds := by
  rw [hexValue, List.foldl_map, List.foldl_reverse, Nat.ofDigits_eq_foldr]
  induction ds with
  | nil => rfl
  | cons d ds ih =>
    have value := (digitChar_spec (small d List.mem_cons_self)).2
    rw [List.foldr_cons, List.foldr_cons, ih fun e he => small e (List.mem_cons_of_mem d he),
      value, Nat.cast_id, Nat.add_comm]

/-- Digits of a width are those of their number and zeros beyond them. -/
theorem digitChars_eq_paddedHex {ds : List Nat} (small : ∀ d ∈ ds, d < 16) :
    ds.reverse.map Nat.digitChar = paddedHex ds.length (Nat.ofDigits 16 ds) := by
  have fits : (Nat.digits 16 (Nat.ofDigits 16 ds)).length ≤ ds.length :=
    (Nat.digits_length_le_iff (by decide) _).mpr
      (Nat.ofDigits_lt_base_pow_length (by decide) small)
  have filled : ds = Nat.digits 16 (Nat.ofDigits 16 ds) ++
      List.replicate (ds.length - (Nat.digits 16 (Nat.ofDigits 16 ds)).length) 0 := by
    apply Nat.ofDigits_inj_of_len_eq (by decide : 1 < 16) _ small
    · intro d hd
      rcases List.mem_append.mp hd with digit | zero
      · exact Nat.digits_lt_base (by decide) digit
      · rw [List.eq_of_mem_replicate zero]
        decide
    · rw [Nat.ofDigits_append_replicate_zero, Nat.ofDigits_digits]
    · rw [List.length_append, List.length_replicate]
      omega
  conv_lhs => rw [filled]
  rw [paddedHex, List.leftpad, List.reverse_append, List.map_append, List.reverse_replicate,
    List.map_replicate, List.length_map, List.length_reverse]
  rfl

/-- The number of some bits is the sum of their weights. -/
theorem sum_testBit (n width : Nat) :
    ∑ i ∈ Finset.range width, (if n.testBit i then 2 ^ i else 0) = n % 2 ^ width := by
  induction width with
  | zero => simp [Nat.mod_one]
  | succ width ih =>
    rw [Finset.sum_range_succ, ih, Nat.mod_pow_succ, Nat.testBit_eq_decide_div_mod_eq]
    rcases Nat.mod_two_eq_zero_or_one (n / 2 ^ width) with clear | set
    · simp [clear]
    · simp [set]

/-- Bytes are combined bit by bit. -/
theorem ofLittleEndian_xor {xs ys : List UInt8} (length : ys.length = xs.length) :
    ofLittleEndian (List.zipWith (· ^^^ ·) xs ys) = ofLittleEndian xs ^^^ ofLittleEndian ys := by
  induction xs generalizing ys with
  | nil => rw [List.length_eq_zero_iff.mp length]; rfl
  | cons x xs ih =>
    obtain ⟨y, ys, rfl⟩ := List.exists_cons_of_length_eq_add_one length
    have bytes := xor_add_mul (m := 8) x.toNat_lt y.toNat_lt (ofLittleEndian xs)
      (ofLittleEndian ys)
    rw [List.zipWith_cons_cons, ofLittleEndian, ih (Nat.succ.inj length), UInt8.toNat_xor]
    exact bytes.symm

namespace Signature

variable {b : Nat}

theorem number_xor (s t : Signature b) : (s ^^^ t).number = s.number ^^^ t.number := by
  change ofLittleEndian (s.bytes.zipWith (· ^^^ ·) t.bytes).toList = _
  rw [Vector.toList_zipWith, ofLittleEndian_xor (t.length_bytes.trans s.length_bytes.symm)]
  rfl

/-- The number is the sum of the weights of the set bits. -/
theorem number_eq_sum (s : Signature b) : s.number =
    ∑ i ∈ Finset.range (8 * b), (if s.bit? i = some true then 2 ^ i else 0) := by
  rw [← Nat.mod_eq_of_lt s.number_lt, ← sum_testBit]
  refine Finset.sum_congr rfl fun i hi => ?_
  refine if_congr ?_ rfl rfl
  rw [s.bit?_eq_testBit (Finset.mem_range.mp hi), Option.some_inj, number]

theorem digits_eq (s : Signature b) :
    s.digits = (s.bytes.toList.flatMap nibbles).reverse.map Nat.digitChar :=
  flatMap_hexByte s.bytes.toList

theorem hexValue_digits (s : Signature b) : hexValue s.digits = s.number := by
  rw [digits_eq, hexValue_digitChars nibbles_lt, ofDigits_nibbles, number]

theorem digits_eq_paddedHex (s : Signature b) : s.digits = paddedHex (2 * b) s.number := by
  rw [digits_eq, digitChars_eq_paddedHex nibbles_lt, ofDigits_nibbles, length_nibbles,
    s.length_bytes, number]

theorem length_digits (s : Signature b) : s.digits.length = 2 * b := by
  rw [digits_eq, List.length_map, List.length_reverse, length_nibbles, s.length_bytes]

theorem isLowerHex_digits (s : Signature b) : ∀ c ∈ s.digits, isLowerHex c = true := by
  intro c hc
  rw [digits_eq] at hc
  obtain ⟨d, hd, rfl⟩ := List.mem_map.mp hc
  exact (digitChar_spec (nibbles_lt d (List.mem_reverse.mp hd))).1

theorem text_inj {s t : Signature b} : s.text = t.text ↔ s = t := by
  constructor
  · intro same
    have digits : s.digits = t.digits := String.ofList_injective same
    rw [← number_inj, ← hexValue_digits, ← hexValue_digits, digits]
  · exact congrArg text

/-- The text of a signature has two lower-case hexadecimal digits for each byte. As one number
they are the sum of the weights of the set bits, which is the number that the bytes spell, so
the text tells signatures apart; and the text of an exclusive or is that of the exclusive or of
the numbers, filled up with zeros. -/
theorem text_hexadecimal (s t : Signature b) :
    (s.text.length = 2 * b ∧ ∀ c ∈ s.text.toList, isLowerHex c = true) ∧
    hexValue s.text.toList =
      ∑ i ∈ Finset.range (8 * b), (if s.bit? i = some true then 2 ^ i else 0) ∧
    hexValue s.text.toList = ofLittleEndian s.bytes.toList ∧
    (s.text = t.text ↔ s = t) ∧
    (s ^^^ t).text =
      .ofList (paddedHex (2 * b) (hexValue s.text.toList ^^^ hexValue t.text.toList)) := by
  have written (u : Signature b) : u.text.toList = u.digits := String.toList_ofList
  have length : s.text.length = 2 * b := by
    rw [← String.length_toList, written, length_digits]
  simp only [written, hexValue_digits]
  refine ⟨⟨length, s.isLowerHex_digits⟩, s.number_eq_sum, rfl, text_inj, ?_⟩
  rw [text, digits_eq_paddedHex, number_xor]

/-- Two bytes and their exclusive or with others, whose text begins with zeros. -/
theorem text_hexadecimal_leadingZeros :
    let s : Signature 2 := ⟨#v[0x01, 0xab]⟩
    let t : Signature 2 := ⟨#v[0x0f, 0xab]⟩
    s.text = "ab01" ∧ 'b' ∈ s.text.toList ∧ isLowerHex 'b' = true ∧
      hexValue s.text.toList = 0xab01 ∧ s.text ≠ t.text ∧
      (s ^^^ t).text = .ofList (paddedHex 4 (0xab01 ^^^ 0xab0f)) ∧ (s ^^^ t).text = "000e" := by
  intro s t
  have text : s.text = "ab01" := by decide
  have present : 'b' ∈ s.text.toList := by decide
  obtain ⟨⟨-, lower⟩, -, value, differ, padded⟩ := text_hexadecimal s t
  have other : hexValue t.text.toList = 0xab0f := (text_hexadecimal t s).2.2.1.trans (by decide)
  have number : hexValue s.text.toList = 0xab01 := value.trans (by decide)
  rw [number, other] at padded
  exact ⟨text, present, lower 'b' present, number, fun same => absurd (differ.mp same) (by decide),
    padded, by decide +kernel⟩

end Signature

end VisualIndex
