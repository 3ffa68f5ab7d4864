import Mathlib.Tactic.FieldSimp
import VisualIndex.Proofs.DecimalReading
import VisualIndex.Proofs.NumberReading

/-! Numbers as the writer of documents spells them.

The document text of a number is a written number of the same significand and exponent as its
shortest decimal: in positional figures, with a zero after the point of a whole number, or with
a small letter and a sign before its exponent. Its figures fit 64 bits, so none is lost, and
what is read is the decimal, scaled as a double. A library that spells the shortest decimal in
another way is read back as well if it converts numerals to the nearest doubles, with the
exception of one single. -/
namespace VisualIndex

open Json

namespace WrittenNumber

variable {n : WrittenNumber}

/-- Whether a number is written with a fraction or an exponent. -/
def IsMarked (n : WrittenNumber) : Prop := n.fraction.isSome = true ∨ n.exponent.isSome = true

theorem IsMarked.isPlain (marked : n.IsMarked) : n.numeral.isPlain = false := by
  rcases marked with h | h <;> simp [Numeral.isPlain, numeral, Option.isNone_eq_false_iff.mpr, h]

/-- A number that is marked as a real one is its significand, scaled as a double. -/
theorem value_of_marked (positive : n.negative = false) (fits : n.significand < 2 ^ 64)
    (marked : n.IsMarked) (small : n.shift.natAbs ≤ greatestExponent) {y : Double}
    (scaled : scaleToDouble n.significand (n.shift - n.places.length) = .ok y) :
    n.numeral.value Numeral.toDouble = .ok (.real y) := by
  have gathered := Significand.isExact_of_fits n.significand_numeral fits
  have order : -(n.places.length : Int) + n.shift = n.shift - n.places.length := by ring
  have toDouble : n.numeral.toDouble = .ok y := by
    rw [n.toDouble_of_near small, gathered.value, gathered.exponent, order, scaled]
  have value := n.value_of_double marked.isPlain toDouble
  rwa [positive, if_neg (by decide)] at value

/-- The exponent in place of what is there, with a sign. -/
def withExponent (n : WrittenNumber) (e : Int) : WrittenNumber :=
  { n with exponent := some ⟨false, some (e < 0), .ofNat e.natAbs⟩ }

theorem shift_withExponent (n : WrittenNumber) (e : Int) : (n.withExponent e).shift = e := by
  simp only [shift, withExponent, Option.map_some, Option.getD_some, WrittenExponent.value,
    Figures.value_ofNat, decide_eq_true_eq]
  split <;> omega

/-- The text of a number without a sign in front and without an exponent. -/
theorem text_of_plain (positive : n.negative = false) (without : n.exponent = none) :
    n.text = n.whole.chars ++ fractionText n.fraction := by
  simp [text, unsigned, positive, without]

theorem text_withExponent (positive : n.negative = false) (e : Int) :
    (n.withExponent e).text = n.whole.chars ++ fractionText n.fraction ++
      'e' :: (if e < 0 then '-' else '+') :: (Nat.repr e.natAbs).toList := by
  simp [text, unsigned, withExponent, WrittenExponent.text, positive, Figures.ofNat]

/-- A text that is read as a significand and an exponent, not as a plain number. -/
structure Spells (n : WrittenNumber) (text : List Char) (written : Nat × Int) : Prop where
  positive : n.negative = false
  text : n.text = text
  marked : n.IsMarked
  significand : n.significand = written.1
  power : n.shift - n.places.length = written.2
  shift : n.shift.natAbs ≤ greatestExponent

end WrittenNumber

namespace Figures

/-- The figure zero. -/
def zero : Figures := ⟨['0'], List.forall_mem_singleton.mpr rfl, List.cons_ne_nil _ _⟩

theorem isLeading_zero : zero.IsLeading := fun _ => rfl

variable (f : Figures)

/-- The first figures. -/
def take (n : Nat) (some : 0 < n) : Figures where
  chars := f.chars.take n
  isDigit c hc := f.isDigit c (List.mem_of_mem_take hc)
  nonempty := by simp [f.nonempty, Nat.ne_of_gt some]

/-- The figures after the first ones. -/
def drop (n : Nat) (more : n < f.chars.length) : Figures where
  chars := f.chars.drop n
  isDigit c hc := f.isDigit c (List.mem_of_mem_drop hc)
  nonempty := by simpa using more

/-- The figures after some zeros. -/
def padded (zeros : Nat) : Figures where
  chars := .replicate zeros '0' ++ f.chars
  isDigit := by
    intro c hc
    rcases List.mem_append.mp hc with h | h
    · rw [List.eq_of_mem_replicate h]
      rfl
    · exact f.isDigit c h
  nonempty := by simp [f.nonempty]

@[simp] theorem chars_take (n : Nat) (some : 0 < n) : (f.take n some).chars = f.chars.take n := rfl

@[simp] theorem chars_drop (n : Nat) (more : n < f.chars.length) :
    (f.drop n more).chars = f.chars.drop n := rfl

@[simp] theorem chars_padded (zeros : Nat) :
    (f.padded zeros).chars = .replicate zeros '0' ++ f.chars := rfl

@[simp] theorem chars_zero : zero.chars = ['0'] := rfl

variable {f}

theorem IsLeading.take {n : Nat} (leading : f.IsLeading) (some : 0 < n) :
    (f.take n some).IsLeading := by
  intro first
  obtain ⟨n, rfl⟩ := Nat.exists_eq_succ_of_ne_zero (Nat.ne_of_gt some)
  obtain ⟨c, cs, hcs⟩ := List.exists_cons_of_ne_nil f.nonempty
  have whole : f.chars = ['0'] := leading (by simpa [hcs] using first)
  simp [whole]

/-- A factor of ten is one more zero at the end. -/
theorem chars_mul_pow {n : Nat} (some : 0 < n) (zeros : Nat) :
    (ofNat (n * 10 ^ zeros)).chars = (ofNat n).chars ++ .replicate zeros '0' := by
  induction zeros with
  | zero => simp
  | succ zeros ih =>
    have split := Nat.toDigits_append_toDigits (b := 10) (d := 0) (by decide)
      (Nat.mul_pos some (Nat.pow_pos (n := zeros) (show 0 < 10 by decide))) (by decide)
    have next : n * 10 ^ (zeros + 1) = 10 * (n * 10 ^ zeros) + 0 := by ring
    simp only [ofNat, Nat.toList_repr] at ih ⊢
    rw [next, ← split, ih, List.replicate_succ', List.append_assoc]
    rfl

end Figures

namespace Decimal

open WrittenNumber (Spells)

variable {d : Decimal}

/-- A whole number gets one zero after the point. -/
theorem spells_whole (some : 0 < d.digits) {zeros : Nat} (whole : d.exponent = zeros) :
    ∃ n, Spells n (d.positional ++ ".0".toList) (d.digits * 10 ^ (zeros + 1), -1) := by
  have positional : d.positional = (Figures.ofNat (d.digits * 10 ^ zeros)).chars := by
    rw [positional, whole, Figures.chars_mul_pow some]
    rfl
  refine ⟨⟨false, .ofNat (d.digits * 10 ^ zeros), Figures.isLeading_ofNat _, .some .zero, none⟩,
    ⟨rfl, ?_, .inl rfl, ?_, rfl, Nat.zero_le _⟩⟩
  · rw [positional]
    rfl
  · simp [WrittenNumber.significand, Nat.ofDigitChars_append, Figures.ofDigitChars_ofNat,
      Nat.ofDigitChars_cons]
    ring

theorem positional_of_neg {k : Nat} (part : d.exponent = -(k + 1 : Nat)) :
    d.positional = if k + 1 < d.numeral.length then
      d.numeral.take (d.numeral.length - (k + 1)) ++
        '.' :: d.numeral.drop (d.numeral.length - (k + 1))
      else '0' :: '.' :: List.replicate (k + 1 - d.numeral.length) '0' ++ d.numeral := by
  have negative : d.exponent = .negSucc k := part
  have places : d.exponent.natAbs = k + 1 := by omega
  simp only [positional, negative, Int.natAbs_negSucc]

theorem numeral_eq : d.numeral = (Figures.ofNat d.digits).chars := rfl

/-- Digits around a point, after zeros if there are too few. -/
theorem spells_point {k : Nat} (part : d.exponent = -(k + 1 : Nat)) :
    ∃ n, Spells n d.positional (d.digits, d.exponent) := by
  have leading := Figures.isLeading_ofNat d.digits
  have value := Figures.ofDigitChars_ofNat d.digits
  by_cases short : k + 1 < d.numeral.length
  · have split : d.numeral.length - (k + 1) < d.numeral.length := by omega
    refine ⟨⟨false, _, leading.take (Nat.sub_pos_of_lt short),
      .some (.drop (.ofNat d.digits) _ split), none⟩, ⟨rfl, ?_, .inl rfl, ?_, ?_, Nat.zero_le _⟩⟩
    · rw [positional_of_neg part, if_pos short, WrittenNumber.text_of_plain rfl rfl]
      simp [numeral_eq]
    · simpa [WrittenNumber.significand, numeral_eq] using value
    · have bound : k + 1 < (Figures.ofNat d.digits).chars.length := short
      simp [WrittenNumber.shift, numeral_eq]
      omega
  · refine ⟨⟨false, .zero, Figures.isLeading_zero,
      .some (.padded (.ofNat d.digits) (k + 1 - d.numeral.length)), none⟩,
      ⟨rfl, ?_, .inl rfl, ?_, ?_, Nat.zero_le _⟩⟩
    · rw [positional_of_neg part, if_neg short, WrittenNumber.text_of_plain rfl rfl]
      simp [numeral_eq]
    · simpa [WrittenNumber.significand, Nat.ofDigitChars_append, Nat.ofDigitChars_cons] using value
    · have bound : ¬k + 1 < (Figures.ofNat d.digits).chars.length := short
      simp [WrittenNumber.shift, numeral_eq]
      omega

/-- One digit before the point, and an exponent. -/
theorem spells_scientific (small : d.leadingExponent.natAbs ≤ greatestExponent) :
    ∃ n, Spells n d.scientific (d.digits, d.exponent) := by
  have leading := Figures.isLeading_ofNat d.digits
  have value := Figures.ofDigitChars_ofNat d.digits
  obtain ⟨first, others, hcs⟩ := List.exists_cons_of_ne_nil (Figures.ofNat d.digits).nonempty
  have length : d.leadingExponent = d.exponent + others.length := by
    rw [leadingExponent, numeral_eq, hcs]
    rfl
  cases others with
  | nil =>
    refine ⟨WrittenNumber.withExponent ⟨false, _, leading, none, none⟩ d.leadingExponent,
      ⟨rfl, ?_, .inr rfl, ?_, ?_, ?_⟩⟩
    · rw [WrittenNumber.text_withExponent rfl, scientific, numeral_eq, hcs]
      simp
    · simpa [WrittenNumber.significand, WrittenNumber.withExponent] using value
    · rw [WrittenNumber.shift_withExponent, length]
      simp [WrittenNumber.withExponent]
    · rw [WrittenNumber.shift_withExponent]
      exact small
  | cons second others =>
    have more : 1 < (Figures.ofNat d.digits).chars.length := by simp [hcs]
    refine ⟨WrittenNumber.withExponent
      ⟨false, _, leading.take Nat.one_pos, some (.drop _ 1 more), none⟩ d.leadingExponent,
      ⟨rfl, ?_, .inl rfl, ?_, ?_, ?_⟩⟩
    · rw [WrittenNumber.text_withExponent rfl, scientific, numeral_eq, hcs]
      simp [hcs]
    · simpa [WrittenNumber.significand, WrittenNumber.withExponent, hcs] using value
    · rw [WrittenNumber.shift_withExponent, length]
      simp [WrittenNumber.withExponent, hcs]
    · rw [WrittenNumber.shift_withExponent]
      exact small

/-- The document text of a decimal. -/
def compact (d : Decimal) : List Char :=
  if -6 ≤ d.leadingExponent && d.leadingExponent < 13 then
    if 0 ≤ d.exponent then d.positional ++ ".0".toList else d.positional
  else d.scientific

theorem spells_compact (some : 0 < d.digits)
    (small : d.leadingExponent.natAbs ≤ greatestExponent) :
    ∃ n, Spells n d.compact d.written := by
  unfold compact written
  by_cases near : (-6 ≤ d.leadingExponent && d.leadingExponent < 13) = true
  · by_cases whole : 0 ≤ d.exponent
    · obtain ⟨zeros, exponent⟩ := Int.eq_ofNat_of_zero_le whole
      have toNat : d.exponent.toNat = zeros := by omega
      simpa [near, whole, toNat] using spells_whole some exponent
    · obtain ⟨k, exponent⟩ : ∃ k : Nat, d.exponent = -(k + 1 : Nat) :=
        ⟨d.exponent.natAbs - 1, by omega⟩
      simpa [near, whole] using spells_point exponent
  · simpa [near] using spells_scientific small

end Decimal

/-- The length of a number's figures is bounded by its size. -/
theorem length_numeral_le {d : Decimal} (few : d.digits < 2 ^ 53) : d.numeral.length ≤ 16 := by
  rw [Decimal.numeral, Nat.toList_repr]
  exact (Nat.length_toDigits_le_iff (by decide) (by decide)).mpr (few.trans (by decide))

theorem compactText_ofCode {c : Nat} (hc : c + 1 < singleFormat.infinity) :
    (Single.ofCode (c + 1)).compactText = (shortestDecimal .even (c + 1)).compact := by
  simp only [Single.compactText, Single.signText, Single.magnitude_ofCode hc.le,
    Single.isNegative_ofCode hc.le, Nat.succ_ne_zero, if_false, Bool.false_eq_true, List.nil_append]
  rfl

/-- What is written has the value of the decimal. -/
theorem Decimal.written_value (d : Decimal) :
    (d.written.1 : ℚ) * 10 ^ d.written.2 = d.digits * 10 ^ d.exponent := by
  unfold written
  split
  · next whole =>
    simp only [Bool.and_eq_true, decide_eq_true_eq] at whole
    obtain ⟨zeros, exponent⟩ := Int.eq_ofNat_of_zero_le whole.2
    have toNat : d.exponent.toNat = zeros := by omega
    rw [toNat, exponent, zpow_natCast, Nat.cast_mul, Nat.cast_pow, Nat.cast_ofNat, pow_succ,
      zpow_neg_one]
    field_simp
  · rfl

/-- A number that is written for a single: its shortest decimal, marked as a real number. -/
structure WrittenNumber.IsShortest (n : WrittenNumber) (x : Single) : Prop where
  positive : n.negative = false
  marked : n.IsMarked
  value : n.magnitude = (shortestDecimal .even x.magnitude).digits *
    10 ^ (shortestDecimal .even x.magnitude).exponent

/-- The document text of a positive single is the shortest decimal, and scaling it gives the
single. -/
theorem exists_spelling {c : Nat} (hc : c + 1 < singleFormat.infinity) :
    ∃ n : WrittenNumber, n.text = (Single.ofCode (c + 1)).compactText ∧
      n.IsShortest (.ofCode (c + 1)) ∧
      ∃ y, n.numeral.value Numeral.toDouble = .ok (.real y) ∧ y.narrow = .ofCode (c + 1) := by
  obtain ⟨p, hp, exponent, some, few, -⟩ := shortestDecimal_reads hc
  obtain ⟨-, -, -, -, fits, -⟩ := written_spec hp exponent some few
  have length := length_numeral_le few
  have small : (shortestDecimal .even (c + 1)).leadingExponent.natAbs ≤ greatestExponent := by
    rw [Decimal.leadingExponent, exponent, finestExponent, greatestExponent]
    omega
  obtain ⟨n, spells⟩ := Decimal.spells_compact some small
  obtain ⟨y, scaled, value⟩ := readsBack_iff.mp (readsBack_of_finite hc)
  rw [← spells.significand] at fits
  rw [← spells.significand, ← spells.power] at scaled
  refine ⟨n, spells.text.trans (compactText_ofCode hc).symm, ⟨spells.positive, spells.marked, ?_⟩,
    y, ?_, value⟩
  · rw [WrittenNumber.magnitude, spells.significand, spells.power, Decimal.written_value,
      Single.magnitude_ofCode hc.le]
  · exact WrittenNumber.value_of_marked spells.positive (fits.trans (by decide)) spells.marked
      spells.shift scaled

/-- The shortest decimal as a quotient of quanta of doubles. -/
theorem WrittenNumber.IsShortest.quotient {n : WrittenNumber} {c p : Nat}
    (shortest : n.IsShortest (.ofCode (c + 1))) (hc : c + 1 < singleFormat.infinity)
    (exponent : (shortestDecimal .even (c + 1)).exponent = (p : Int) - finestExponent) :
    n.magnitude * unit = ((shortestDecimal .even (c + 1)).digits * 10 ^ p * unit : Nat) /
      (10 ^ finestExponent : Nat) := by
  have ten : (10 : ℚ) ≠ 0 := by norm_num
  rw [shortest.value, Single.magnitude_ofCode hc.le, exponent, zpow_sub₀ ten, zpow_natCast,
    zpow_natCast]
  push_cast
  ring

end VisualIndex
