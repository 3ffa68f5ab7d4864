import Mathlib.Tactic.Ring
import VisualIndex.Settings.Document

/-! Numbers as JSON writes them.

A written number carries its grammar: figures without a zero before others, perhaps
figures after a point, perhaps an exponent with a letter of either case and with or without
a sign. Its text is scanned as these parts whatever follows, as long as that does not go
on with the number. -/
namespace VisualIndex

open Json
open Settings (octets)

/-- The value of a decimal figure. -/
def digitOf (c : Char) : Nat := c.toNat - '0'.toNat

theorem isDigit_bounds {c : Char} (h : c.isDigit = true) : 48 ≤ c.toNat ∧ c.toNat ≤ 57 := by
  simp only [Char.isDigit, Bool.and_eq_true, decide_eq_true_eq, UInt32.le_iff_toNat_le] at h
  exact h

theorem digitOf_lt {c : Char} (h : c.isDigit = true) : digitOf c < 10 := by
  have := isDigit_bounds h
  simp only [digitOf, Char.reduceToNat]
  omega

/-- A figure as an octet. -/
theorem octet_of_isDigit {c : Char} (h : c.isDigit = true) :
    isDigit (.ofNat c.toNat) = true ∧ digitValue (.ofNat c.toNat) = digitOf c := by
  have bounds := isDigit_bounds h
  have small : (UInt8.ofNat c.toNat).toNat = c.toNat := by
    rw [UInt8.toNat_ofNat']
    omega
  simp only [isDigit, zeroDigit, Bool.and_eq_true, decide_eq_true_eq, UInt8.le_iff_toNat_le,
    digitValue, digitOf, small, UInt8.reduceToNat, Char.reduceToNat]
  exact ⟨bounds, trivial⟩

/-- Some figures, at least one. -/
structure Figures where
  chars : List Char
  isDigit : ∀ c ∈ chars, c.isDigit = true
  nonempty : chars ≠ []

namespace Figures

def digits (f : Figures) : List Nat := f.chars.map digitOf

def value (f : Figures) : Nat := Nat.ofDigitChars 10 f.chars 0

/-- Figures without a zero before others. -/
def IsLeading (f : Figures) : Prop := f.chars.head? = some '0' → f.chars = ['0']

theorem value_lt_of_digits {cs : List Char} (digits : ∀ c ∈ cs, c.isDigit = true) (v : Nat) :
    Nat.ofDigitChars 10 cs v < 10 ^ cs.length * (v + 1) := by
  induction cs generalizing v with
  | nil => simp
  | cons c cs ih =>
    have small := digitOf_lt (digits c List.mem_cons_self)
    calc Nat.ofDigitChars 10 (c :: cs) v
        < 10 ^ cs.length * (10 * v + digitOf c + 1) := by
          rw [Nat.ofDigitChars_cons]
          exact ih (fun d hd => digits d (List.mem_cons_of_mem _ hd)) _
      _ ≤ 10 ^ cs.length * (10 * (v + 1)) := Nat.mul_le_mul_left _ (by omega)
      _ = 10 ^ (c :: cs).length * (v + 1) := by rw [List.length_cons]; ring

/-- The figures of a natural number. -/
def ofNat (n : Nat) : Figures where
  chars := (Nat.repr n).toList
  isDigit := by
    intro c hc
    rw [Nat.toList_repr] at hc
    exact Nat.isDigit_of_mem_toDigits (by decide) (by decide) hc
  nonempty := by
    rw [Nat.toList_repr]
    exact Nat.toDigits_ne_nil

theorem ofDigitChars_ofNat (n : Nat) : Nat.ofDigitChars 10 (ofNat n).chars 0 = n := by
  simp [ofNat, Nat.toList_repr]

@[simp] theorem value_ofNat (n : Nat) : (ofNat n).value = n := ofDigitChars_ofNat n

/-- A natural number is written with as few figures as its value allows. -/
theorem isLeading_ofNat (n : Nat) : (ofNat n).IsLeading := by
  intro first
  obtain ⟨cs, hcs⟩ : ∃ cs, (ofNat n).chars = '0' :: cs := by
    cases h : (ofNat n).chars with
    | nil => exact absurd h (ofNat n).nonempty
    | cons c cs =>
      rw [h] at first
      cases first
      exact ⟨cs, rfl⟩
  have value := ofDigitChars_ofNat n
  have digits : ∀ c ∈ cs, c.isDigit = true := fun c hc =>
    (ofNat n).isDigit c (hcs ▸ List.mem_cons_of_mem _ hc)
  have small := value_lt_of_digits digits 0
  rw [hcs, Nat.ofDigitChars_cons] at value
  simp only [Nat.mul_zero, Nat.sub_self, Nat.add_zero, Nat.zero_add, Nat.mul_one] at value small
  rw [value] at small
  rcases Nat.eq_zero_or_pos cs.length with none | some
  · rw [hcs, List.length_eq_zero_iff.mp none]
  · have short : (ofNat n).chars.length ≤ cs.length := by
      simpa only [ofNat, Nat.toList_repr] using
        (Nat.length_toDigits_le_iff (by decide) some).mpr small
    rw [hcs, List.length_cons] at short
    omega

end Figures

/-- A text that does not go on with figures. -/
def NoDigit (rest : List UInt8) : Prop := ∀ c ∈ rest.head?, isDigit c = false

section Scanning

variable (atEnd : DocumentFault) {rest : List UInt8} (f : Figures)

theorem takeDigits_figures (stops : NoDigit rest) :
    takeDigits (octets f.chars ++ rest) = (f.digits, rest) := by
  have marks : ∀ c ∈ octets f.chars, isDigit c = true := by
    intro c hc
    obtain ⟨d, hd, rfl⟩ := List.mem_map.mp hc
    exact (octet_of_isDigit (f.isDigit d hd)).1
  have values : (octets f.chars).map digitValue = f.digits := by
    rw [octets, List.map_map]
    exact List.map_congr_left fun d hd => (octet_of_isDigit (f.isDigit d hd)).2
  have stopped : rest.takeWhile isDigit = [] ∧ rest.dropWhile isDigit = rest := by
    cases rest with
    | nil => exact ⟨rfl, rfl⟩
    | cons c rest => simp [stops c rfl]
  rw [takeDigits, List.takeWhile_append_of_pos marks, List.dropWhile_append_of_pos marks,
    stopped.1, stopped.2, List.append_nil, values]

theorem someDigits_figures (stops : NoDigit rest) :
    someDigits atEnd (octets f.chars ++ rest) = .ok (f.digits, rest) := by
  rw [someDigits, takeDigits_figures f stops]
  split
  · next h => cases f.nonempty (List.map_eq_nil_iff.mp (Prod.mk.inj h).1)
  · next h => cases f.nonempty (List.map_eq_nil_iff.mp (Prod.mk.inj h).1)
  · next h => cases h; rfl

/-- The figure of no value is zero. -/
theorem eq_zero_of_digitOf {c : Char} (h : c.isDigit = true) (none : digitOf c = 0) :
    c = '0' := by
  have bounds := isDigit_bounds h
  apply Char.toNat_inj.mp
  simp only [digitOf, Char.reduceToNat] at none ⊢
  omega

theorem scanWhole_figures (leading : f.IsLeading) (stops : NoDigit rest) :
    scanWhole atEnd (octets f.chars ++ rest) = .ok (f.digits, rest) := by
  rw [scanWhole, someDigits_figures atEnd f stops]
  split
  · next h => cases h
  · next second more tail h =>
    -- a zero and more figures are excluded by `leading`
    obtain ⟨c, cs, hcs, hc, hrest⟩ :=
      List.map_eq_cons_iff.mp (Prod.mk.inj (Except.ok.inj h)).1
    have zero : c = '0' :=
      eq_zero_of_digitOf (f.isDigit c (hcs ▸ List.mem_cons_self)) hc
    rw [Figures.IsLeading, hcs, zero] at leading
    cases (List.cons.inj (leading rfl)).2 ▸ hrest
  · next h => cases h; rfl

end Scanning

/-- A text that does not go on with a number. -/
def EndsNumber (rest : List UInt8) : Prop :=
  ∀ c ∈ rest.head?, isDigit c = false ∧ c ≠ point ∧ isExponentMark c = false

theorem EndsNumber.noDigit {rest : List UInt8} (ends : EndsNumber rest) : NoDigit rest :=
  fun c hc => (ends c hc).1

/-- An exponent as it is written: the case of its letter, its sign, if there is one, as
whether it is a minus, and its figures. -/
structure WrittenExponent where
  capital : Bool
  sign : Option Bool
  figures : Figures

namespace WrittenExponent

@[simp] def signText : Option Bool → List Char
  | none => []
  | some below => [if below then '-' else '+']

def text (e : WrittenExponent) : List Char :=
  (if e.capital then 'E' else 'e') :: (signText e.sign ++ e.figures.chars)

/-- Whether the exponent is below zero, and its digits. -/
def parts (e : WrittenExponent) : Bool × List Nat := (e.sign.getD false, e.figures.digits)

end WrittenExponent

/-- A number as it is written. -/
structure WrittenNumber where
  negative : Bool
  whole : Figures
  leading : whole.IsLeading
  fraction : Option Figures
  exponent : Option WrittenExponent

namespace WrittenNumber

@[simp] def fractionText : Option Figures → List Char
  | none => []
  | some f => '.' :: f.chars

@[simp] def exponentText : Option WrittenExponent → List Char
  | none => []
  | some e => e.text

/-- What follows the minus. -/
def unsigned (n : WrittenNumber) : List Char :=
  n.whole.chars ++ (fractionText n.fraction ++ exponentText n.exponent)

def text (n : WrittenNumber) : List Char :=
  if n.negative then '-' :: n.unsigned else n.unsigned

def numeral (n : WrittenNumber) : Numeral where
  negative := n.negative
  whole := n.whole.digits
  fraction := n.fraction.map Figures.digits
  exponent := n.exponent.map WrittenExponent.parts

variable (atEnd : DocumentFault) {rest : List UInt8}

/-- A digit is neither a sign nor the point. -/
theorem marks_of_isDigit {c : UInt8} (digit : isDigit c = true) :
    c ≠ plus ∧ c ≠ minus ∧ c ≠ point := by
  refine ⟨?_, ?_, ?_⟩ <;> rintro rfl <;> cases digit

theorem exists_digit (f : Figures) (rest : List UInt8) :
    ∃ d tail, octets f.chars ++ rest = d :: tail ∧ isDigit d = true := by
  obtain ⟨c, cs, hcs⟩ := List.exists_cons_of_ne_nil f.nonempty
  exact ⟨.ofNat c.toNat, octets cs ++ rest, by simp [octets, hcs],
    (octet_of_isDigit (f.isDigit c (hcs ▸ List.mem_cons_self))).1⟩

theorem isExponentMark_letter (capital : Bool) :
    isExponentMark (.ofNat (if capital then 'E' else 'e').toNat) = true := by
  cases capital <;> decide

theorem octets_exponent (e : WrittenExponent) (rest : List UInt8) :
    octets e.text ++ rest = .ofNat (if e.capital then 'E' else 'e').toNat ::
      (octets (WrittenExponent.signText e.sign) ++ (octets e.figures.chars ++ rest)) := by
  simp [WrittenExponent.text, octets]

theorem noDigit_exponent (exponent : Option WrittenExponent) (ends : EndsNumber rest) :
    NoDigit (octets (exponentText exponent) ++ rest) := by
  rcases exponent with none | ⟨_ | _, sign, f⟩
  · exact ends.noDigit
  · rintro c ⟨⟩
    rfl
  · rintro c ⟨⟩
    rfl

theorem noDigit_fraction (fraction : Option Figures) (exponent : Option WrittenExponent)
    (ends : EndsNumber rest) :
    NoDigit (octets (fractionText fraction ++ exponentText exponent) ++ rest) := by
  rcases fraction with none | f
  · exact noDigit_exponent exponent ends
  · rintro c ⟨⟩
    rfl

theorem scanSign_text (sign : Option Bool) (f : Figures) :
    scanSign (octets (WrittenExponent.signText sign) ++ (octets f.chars ++ rest)) =
      (sign.getD false, octets f.chars ++ rest) := by
  rcases sign with none | _ | _
  · obtain ⟨d, tail, opened, digit⟩ := exists_digit f rest
    obtain ⟨noPlus, noMinus, -⟩ := marks_of_isDigit digit
    change scanSign (octets f.chars ++ rest) = _
    rw [opened, scanSign.eq_def]
    split
    · next h => exact absurd (List.cons.inj h).1 noPlus
    · next h => exact absurd (List.cons.inj h).1 noMinus
    · rfl
  · rfl
  · rfl

theorem scanExponent_text (exponent : Option WrittenExponent) (ends : EndsNumber rest) :
    scanExponent atEnd (octets (exponentText exponent) ++ rest) =
      .ok (exponent.map WrittenExponent.parts, rest) := by
  rcases exponent with none | e
  · cases rest with
    | nil => rfl
    | cons c rest => simp [octets, scanExponent, (ends c rfl).2.2]
  · have digits := someDigits_figures atEnd e.figures ends.noDigit
    simp only [exponentText, octets_exponent, scanExponent, isExponentMark_letter, if_true,
      scanSign_text, digits]
    rfl

theorem scanFraction_text (fraction : Option Figures) (exponent : Option WrittenExponent)
    (ends : EndsNumber rest) :
    scanFraction atEnd (octets (fractionText fraction ++ exponentText exponent) ++ rest) =
      .ok (fraction.map Figures.digits, octets (exponentText exponent) ++ rest) := by
  rcases fraction with none | f
  · have other : ∀ c ∈ (octets (exponentText exponent) ++ rest).head?, c ≠ point := by
      rcases exponent with none | ⟨_ | _, sign, f⟩
      · exact fun c hc => (ends c hc).2.1
      · rintro c ⟨⟩ ⟨⟩
      · rintro c ⟨⟩ ⟨⟩
    change scanFraction atEnd (octets (exponentText exponent) ++ rest) = _
    unfold scanFraction
    split
    · next h => cases other point (by rw [h]; rfl) rfl
    · rfl
  · have text : octets (fractionText (some f) ++ exponentText exponent) ++ rest =
        point :: (octets f.chars ++ (octets (exponentText exponent) ++ rest)) := by
      simp [octets]
    have digits := someDigits_figures atEnd f (noDigit_exponent exponent ends)
    rw [text]
    unfold scanFraction
    split
    · next tail h =>
      rw [← (List.cons.inj h).2, digits]
      rfl
    · next other => cases other _ rfl

/-- The text of a number is scanned as its parts, and what follows is left. -/
theorem scanNumeral_text (n : WrittenNumber) (ends : EndsNumber rest) :
    scanNumeral atEnd (octets n.text ++ rest) = .ok (n.numeral, rest) := by
  have unsigned : octets n.unsigned ++ rest = octets n.whole.chars ++
      (octets (fractionText n.fraction ++ exponentText n.exponent) ++ rest) := by
    simp [WrittenNumber.unsigned, octets]
  have whole := scanWhole_figures atEnd n.whole n.leading
    (noDigit_fraction n.fraction n.exponent ends)
  unfold scanNumeral
  split
  next negative tail h =>
  have parts : (negative, tail) = (n.negative, octets n.unsigned ++ rest) := by
    rw [← h]
    cases sign : n.negative with
    | true => simp only [text, sign, if_true, octets, List.map_cons, List.cons_append]; rfl
    | false =>
      obtain ⟨d, others, opened, digit⟩ := exists_digit n.whole
        (octets (fractionText n.fraction ++ exponentText n.exponent) ++ rest)
      have plain : n.text = n.unsigned := by simp [text, sign]
      rw [plain, unsigned, opened]
      split
      · next h => exact absurd (List.cons.inj h).1 (marks_of_isDigit digit).2.1
      · rfl
  obtain ⟨rfl, rfl⟩ := Prod.mk.inj parts
  simp only [unsigned, whole, scanFraction_text atEnd n.fraction n.exponent ends,
    scanExponent_text atEnd n.exponent ends, numeral]

end WrittenNumber

end VisualIndex
