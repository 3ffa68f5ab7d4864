import Mathlib.Data.List.Basic
import VisualIndex.Json.Skip

/-! Blanks and strings as JSON writes them.

A written string is a list of pieces: characters that stand for themselves, a backslash
with a letter, and code units in hexadecimal digits of either case. Any such string is
skipped. One whose surrogates come in pairs stands for characters, and these are read. -/
namespace VisualIndex.Json

/-- White space between tokens. -/
def IsBlanks (blanks : List UInt8) : Prop := ∀ c ∈ blanks, isBlank c = true

section Blanks

variable {blanks rest : List UInt8} {c : UInt8}

theorem isBlanks_nil : IsBlanks [] := by
  rintro c ⟨⟩

theorem skipBlanks_append (blank : IsBlanks blanks) (rest : List UInt8) :
    skipBlanks (blanks ++ rest) = skipBlanks rest :=
  List.dropWhile_append_of_pos blank

theorem skipBlanks_cons (inked : isBlank c = false) : skipBlanks (c :: rest) = c :: rest :=
  List.dropWhile_cons_of_neg (by rw [inked]; decide)

theorem skipBlanks_append_cons (blank : IsBlanks blanks) (inked : isBlank c = false) :
    skipBlanks (blanks ++ c :: rest) = c :: rest := by
  rw [skipBlanks_append blank, skipBlanks_cons inked]

theorem skipBlanks_blanks (blank : IsBlanks blanks) : skipBlanks blanks = [] := by
  have all := skipBlanks_append blank []
  rwa [List.append_nil] at all

end Blanks

/-- A hexadecimal digit, as a capital or as a small letter beyond nine. -/
structure HexDigit where
  value : Fin 16
  capital : Bool

def HexDigit.octet (d : HexDigit) : UInt8 :=
  .ofNat (d.value + (if d.value.val < 10 then 0x30 else if d.capital then 0x37 else 0x57))

theorem HexDigit.hexValue?_octet (d : HexDigit) : hexValue? d.octet = some d.value.val := by
  obtain ⟨value, capital⟩ := d
  revert value capital
  decide

/-- A code unit in four digits. -/
structure CodeUnit where
  first : HexDigit
  second : HexDigit
  third : HexDigit
  fourth : HexDigit

namespace CodeUnit

def value (u : CodeUnit) : Nat :=
  ((u.first.value * 16 + u.second.value) * 16 + u.third.value) * 16 + u.fourth.value

def octets (u : CodeUnit) : List UInt8 :=
  [u.first.octet, u.second.octet, u.third.octet, u.fourth.octet]

theorem hexUnit?_octets (u : CodeUnit) :
    hexUnit? u.first.octet u.second.octet u.third.octet u.fourth.octet = some u.value := by
  simp only [hexUnit?, HexDigit.hexValue?_octet]
  rfl

end CodeUnit

/-- A character that may stand for itself in a string. -/
def Unescaped (c : Char) : Prop := 0x20 ≤ c.toNat ∧ c ≠ '"' ∧ c ≠ '\\'

instance (c : Char) : Decidable (Unescaped c) := inferInstanceAs (Decidable (_ ∧ _ ∧ _))

/-- A piece of a string as it is written. -/
inductive Piece where
  | plain (c : Char) (unescaped : Unescaped c)
  | short (letter octet : UInt8) (stands : shortEscape? letter = some octet)
  | unit (u : CodeUnit)

def Piece.octets : Piece → List UInt8
  | plain c _ => String.utf8EncodeChar c
  | short letter _ _ => [backslash, letter]
  | unit u => backslash :: letterU :: u.octets

/-- A string in quotes. -/
def quoted (pieces : List Piece) : List UInt8 :=
  quote :: (pieces.flatMap Piece.octets ++ [quote])

/-- What the pieces of a string stand for: one code unit for a character, or a pair of
surrogates. -/
inductive StandFor : List Piece → List Char → Prop where
  | nil : StandFor [] []
  | plain {c : Char} {pieces : List Piece} {cs : List Char} (unescaped : Unescaped c) :
    StandFor pieces cs → StandFor (.plain c unescaped :: pieces) (c :: cs)
  | short {letter octet : UInt8} {pieces : List Piece} {cs : List Char}
    (stands : shortEscape? letter = some octet) :
    StandFor pieces cs → StandFor (.short letter octet stands :: pieces) (.ofNat octet.toNat :: cs)
  | unit {u : CodeUnit} {pieces : List Piece} {cs : List Char} :
    isLeading u.value = false → isTrailing u.value = false →
    StandFor pieces cs → StandFor (.unit u :: pieces) (.ofNat u.value :: cs)
  | pair {u v : CodeUnit} {pieces : List Piece} {cs : List Char} :
    isLeading u.value = true → isTrailing v.value = true → StandFor pieces cs →
    StandFor (.unit u :: .unit v :: pieces) (.ofNat (joinSurrogates u.value v.value) :: cs)

/-- Characters that all stand for themselves. -/
def plainPieces (cs : List Char) (unescaped : ∀ c ∈ cs, Unescaped c) : List Piece :=
  cs.pmap Piece.plain unescaped

theorem standFor_plainPieces {cs : List Char} (unescaped : ∀ c ∈ cs, Unescaped c) :
    StandFor (plainPieces cs unescaped) cs := by
  induction cs with
  | nil => exact .nil
  | cons c cs ih =>
    exact .plain (unescaped c List.mem_cons_self)
      (ih fun d hd => unescaped d (List.mem_cons_of_mem _ hd))

theorem flatMap_plainPieces {cs : List Char} (unescaped : ∀ c ∈ cs, Unescaped c) :
    (plainPieces cs unescaped).flatMap Piece.octets = cs.flatMap String.utf8EncodeChar := by
  induction cs with
  | nil => rfl
  | cons c cs ih =>
    have others := ih fun d hd => unescaped d (List.mem_cons_of_mem _ hd)
    rw [List.flatMap_cons, ← others]
    rfl

/-- An octet that stands for itself in a string. -/
def IsPlain (c : UInt8) : Prop := c ≠ quote ∧ c ≠ backslash ∧ ¬c < 0x20

/-- The octets of a character are its code if it is ASCII, and else beyond ASCII. -/
theorem mem_utf8EncodeChar {c : Char} {o : UInt8} (mem : o ∈ String.utf8EncodeChar c) :
    o.toNat = c.toNat ∨ 0x80 ≤ o.toNat := by
  have code : c.val.toNat = c.toNat := rfl
  unfold String.utf8EncodeChar at mem
  dsimp only at mem
  rw [code] at mem
  split at mem
  · rw [List.mem_singleton] at mem
    rw [mem, UInt8.toNat_ofNat']
    omega
  · right
    split at mem
    · simp only [List.mem_cons, List.not_mem_nil, or_false] at mem
      rcases mem with rfl | rfl <;> rw [UInt8.toNat_ofNat'] <;> omega
    · split at mem
      · simp only [List.mem_cons, List.not_mem_nil, or_false] at mem
        rcases mem with rfl | rfl | rfl <;> rw [UInt8.toNat_ofNat'] <;> omega
      · simp only [List.mem_cons, List.not_mem_nil, or_false] at mem
        rcases mem with rfl | rfl | rfl | rfl <;> rw [UInt8.toNat_ofNat'] <;> omega

theorem isPlain_of_mem {c : Char} (unescaped : Unescaped c) {o : UInt8}
    (mem : o ∈ String.utf8EncodeChar c) : IsPlain o := by
  obtain ⟨printed, unquoted, unslashed⟩ := unescaped
  rcases mem_utf8EncodeChar mem with same | beyond
  · refine ⟨?_, ?_, ?_⟩
    · rintro rfl
      exact unquoted (Char.toNat_inj.mp same.symm)
    · rintro rfl
      exact unslashed (Char.toNat_inj.mp same.symm)
    · rw [UInt8.lt_iff_toNat_lt, same]
      exact Nat.not_lt.mpr printed
  · refine ⟨?_, ?_, ?_⟩
    · rintro rfl
      exact absurd beyond (by decide)
    · rintro rfl
      exact absurd beyond (by decide)
    · rw [UInt8.lt_iff_toNat_lt]
      exact Nat.not_lt.mpr (Nat.le_trans (by decide) beyond)

section Skipping

variable {rest : List UInt8}

theorem skipText_plain {os : List UInt8} (plain : ∀ o ∈ os, IsPlain o) (input : List UInt8) :
    skipText (os ++ input) = skipText input := by
  induction os with
  | nil => rfl
  | cons o os ih =>
    obtain ⟨⟨unquoted, unslashed, printed⟩, others⟩ := List.forall_mem_cons.mp plain
    rw [List.cons_append, skipText.eq_def]
    split <;> simp_all [-UInt8.not_lt]

theorem skipText_short {letter octet : UInt8} (stands : shortEscape? letter = some octet)
    (input : List UInt8) : skipText (backslash :: letter :: input) = skipText input := by
  unfold shortEscape? at stands
  split at stands <;> cases stands <;> rfl

theorem skipText_unit (u : CodeUnit) (input : List UInt8) :
    skipText ((Piece.unit u).octets ++ input) = skipText input :=
  if_pos (by rw [u.hexUnit?_octets]; rfl)

theorem skipText_piece (p : Piece) (input : List UInt8) :
    skipText (p.octets ++ input) = skipText input := by
  cases p with
  | plain c unescaped => exact skipText_plain (fun o mem => isPlain_of_mem unescaped mem) input
  | short letter octet stands => exact skipText_short stands input
  | unit u => exact skipText_unit u input

/-- A written string is skipped to its end. -/
theorem skipText_pieces (pieces : List Piece) :
    skipText (pieces.flatMap Piece.octets ++ quote :: rest) = .ok rest := by
  induction pieces with
  | nil => rfl
  | cons p pieces ih => rw [List.flatMap_cons, List.append_assoc, skipText_piece, ih]

end Skipping

section Reading

variable {rest : List UInt8} {pieces : List Piece} {cs : List Char}

theorem readOctets_plain {os : List UInt8} (plain : ∀ o ∈ os, IsPlain o)
    {decoded input : List UInt8}
    (tail : readOctets input = .ok (decoded, rest)) :
    readOctets (os ++ input) = .ok (os ++ decoded, rest) := by
  induction os with
  | nil => exact tail
  | cons o os ih =>
    obtain ⟨⟨unquoted, unslashed, printed⟩, others⟩ := List.forall_mem_cons.mp plain
    have step : readOctets (o :: (os ++ input)) = prepend [o] (readOctets (os ++ input)) := by
      rw [readOctets.eq_def]
      split <;> simp_all [-UInt8.not_lt]
    rw [List.cons_append, step, ih others]
    rfl

section Escapes

variable {input : List UInt8}

/-- An escaped letter stands for one ASCII character. -/
theorem readOctets_short {letter octet : UInt8} (stands : shortEscape? letter = some octet) :
    readOctets (backslash :: letter :: input) =
      prepend (String.utf8EncodeChar (.ofNat octet.toNat)) (readOctets input) := by
  unfold shortEscape? at stands
  split at stands <;> cases stands <;> rfl

/-- A code unit that is no surrogate stands for the character with this code. -/
theorem readOctets_unit {u : CodeUnit} (leading : isLeading u.value = false)
    (trailing : isTrailing u.value = false) :
    readOctets ((Piece.unit u).octets ++ input) =
      prepend (octetsOf u.value) (readOctets input) := by
  refine (readOctets.eq_3 _ _ _ _ input).trans ?_
  rw [u.hexUnit?_octets]
  simp only [leading, trailing, Bool.false_eq_true, if_false]

/-- A pair of surrogates stands for one character. -/
theorem readOctets_pair {u v : CodeUnit} (leading : isLeading u.value = true)
    (trailing : isTrailing v.value = true) :
    readOctets ((Piece.unit u).octets ++ ((Piece.unit v).octets ++ input)) =
      prepend (octetsOf (joinSurrogates u.value v.value)) (readOctets input) := by
  have first : isTrailing u.value = false := by
    simp only [isLeading, isTrailing, Bool.and_eq_true, decide_eq_true_eq, Bool.and_eq_false_iff,
      decide_eq_false_iff_not] at leading ⊢
    omega
  refine (readOctets.eq_3 _ _ _ _ ((Piece.unit v).octets ++ input)).trans ?_
  rw [u.hexUnit?_octets]
  simp only [first, leading, Bool.false_eq_true, if_false, if_true]
  split
  · next same =>
    cases same
    rw [v.hexUnit?_octets]
    simp only [trailing, if_true]
    rfl
  · next short same =>
    cases same
    exact (short _ _ _ _ _ rfl).elim
  · next single => cases single
  · next empty => cases empty
  · next other _ _ _ => exact (other _ _ _ _ _ rfl).elim

end Escapes

/-- The characters that a string stands for are read as their octets. -/
theorem readOctets_pieces (stand : StandFor pieces cs) :
    readOctets (pieces.flatMap Piece.octets ++ quote :: rest) =
      .ok (cs.flatMap String.utf8EncodeChar, rest) := by
  induction stand with
  | nil => rfl
  | plain unescaped _ ih =>
    rw [List.flatMap_cons, List.append_assoc, List.flatMap_cons]
    exact readOctets_plain (fun o mem => isPlain_of_mem unescaped mem) ih
  | short stands _ ih =>
    exact (readOctets_short stands).trans (congrArg (prepend _) ih)
  | unit leading trailing _ ih =>
    rw [List.flatMap_cons, List.append_assoc, readOctets_unit leading trailing, ih]
    rfl
  | pair leading trailing _ ih =>
    rw [List.flatMap_cons, List.flatMap_cons, List.append_assoc, List.append_assoc,
      readOctets_pair leading trailing, ih]
    rfl

/-- The octets of a text are read as this text. -/
theorem fromUTF8?_utf8EncodeChar (cs : List Char) :
    String.fromUTF8? ⟨(cs.flatMap String.utf8EncodeChar).toArray⟩ = some (.ofList cs) := by
  have bytes : (⟨(cs.flatMap String.utf8EncodeChar).toArray⟩ : ByteArray) =
      (String.ofList cs).toByteArray := by
    apply ByteArray.ext
    exact List.data_toByteArray.symm
  rw [bytes, String.fromUTF8?, dif_pos (String.ofList cs).isValidUTF8]
  rfl

/-- A string is read as the characters that it stands for. -/
theorem readText_pieces (stand : StandFor pieces cs) :
    readText (pieces.flatMap Piece.octets ++ quote :: rest) = .ok (.ofList cs, rest) := by
  simp only [readText, readOctets_pieces stand, fromUTF8?_utf8EncodeChar]

end Reading

end VisualIndex.Json
