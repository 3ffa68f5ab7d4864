import VisualIndex.Proofs.DocumentLayout

/-! The scanner reads documents in any layout.

It meets what is asked of a library, however numbers are converted to doubles: it skips the
blanks before every token, decodes the keys, and goes from key to key until the object ends. -/
namespace VisualIndex

namespace Settings

open Json

section Values

variable (double : Numeral → Except DocumentFault Double) {blanks rest : List UInt8}
  (blank : IsBlanks blanks)
include blank

/-- A number is read as its value. -/
theorem readNumber_written (n : WrittenNumber) (ends : EndsNumber rest) :
    readNumber double (blanks ++ (octets n.text ++ rest)) = do
      let number ← n.numeral.value double
      return (number, rest) := by
  obtain ⟨c, tail, opened, inked, first⟩ := begins_number n
  have scanned := n.scanNumeral_text .truncated ends
  rw [opened, List.cons_append] at scanned ⊢
  have opens : opensNumber (blanks ++ c :: (tail ++ rest)) = true := by
    rw [opensNumber, skipBlanks_append_cons blank inked]
    simpa using first
  rw [readNumber, if_pos opens, skipBlanks_append_cons blank inked, scanned]
  rfl

theorem readSigma_written (n : WrittenNumber) (ends : EndsNumber rest) :
    readSigma double (blanks ++ (octets n.text ++ rest)) = do
      let number ← n.numeral.value double
      return (number.toSingle, rest) := by
  rw [readSigma, readNumber_written double blank n ends]
  cases n.numeral.value double <;> rfl

/-- A cut-off is read as the word that it is written for. -/
theorem readCutoff_written (limit : Option PlainNumber) (ends : EndsNumber rest) :
    readCutoff double (blanks ++ ((Entry.cutoff limit).octets ++ rest)) =
      .ok (limit.map PlainNumber.word, rest) := by
  cases limit with
  | none =>
    rw [readCutoff, skipBlanks_append blank]
    rfl
  | some p =>
    have number := readNumber_written double blank p.written ends
    rw [bind_of_value (p.value_written double)] at number
    rw [Entry.octets, readCutoff]
    split
    · next null =>
      obtain ⟨c, tail, opened, inked, first⟩ := begins_number p.written
      rw [opened, List.cons_append, skipBlanks_append_cons blank inked] at null
      cases null
      rcases first with minus | digit
      · cases minus
      · cases digit
    · exact bind_of_value number _

theorem afterColon_append {α : Type} (read : List UInt8 → Except DocumentFault α) :
    afterColon read (blanks ++ colon :: rest) = read rest := by
  have mark : skipColon (blanks ++ colon :: rest) = .ok rest := by
    rw [skipColon, skipBlanks_append_cons blank (by decide)]
    rfl
  exact bind_of_value mark _

end Values

section Keys

variable {blanks rest : List UInt8} {pieces : List Piece} {cs : List Char}

theorem readText_quoted (stands : StandFor pieces cs) (rest : List UInt8) :
    ∃ opened, quoted pieces ++ rest = quote :: opened ∧ readText opened = .ok (.ofList cs, rest) :=
  ⟨pieces.flatMap Piece.octets ++ quote :: rest, by simp [quoted], readText_pieces stands⟩

/-- The first key is read as what it stands for. -/
theorem nextKey_first (blank : IsBlanks blanks) (stands : StandFor pieces cs) :
    nextKey true (blanks ++ (quoted pieces ++ rest)) = .ok (some (.ofList cs), rest) := by
  obtain ⟨opened, text, read⟩ := readText_quoted stands rest
  rw [text, nextKey, skipBlanks_append_cons blank (by decide)]
  exact bind_of_value read _

/-- Any other key follows a comma. -/
theorem nextKey_other {before : List UInt8} (blank : IsBlanks blanks) (blank' : IsBlanks before)
    (stands : StandFor pieces cs) :
    nextKey false (blanks ++ comma :: (before ++ (quoted pieces ++ rest))) =
      .ok (some (.ofList cs), rest) := by
  obtain ⟨opened, text, read⟩ := readText_quoted stands rest
  have mark : openKey (before ++ quote :: opened) = .ok opened := by
    rw [openKey, skipBlanks_append_cons blank' (by decide)]
    rfl
  rw [text, nextKey, skipBlanks_append_cons blank (by decide)]
  exact (bind_of_value mark _).trans (bind_of_value read _)

theorem nextKey_end (first : Bool) (blank : IsBlanks blanks) :
    nextKey first (blanks ++ closeBrace :: rest) = .ok (none, rest) := by
  rw [nextKey, skipBlanks_append_cons blank (by decide)]
  rfl

end Keys

section Members

variable (double : Numeral → Except DocumentFault Double) {first : Bool} {m : Members}
  {input rest : List UInt8}

theorem readMembers_end (next : nextKey first input = .ok (none, rest)) :
    readMembers double first m input = .ok (m.toSettings, rest) := by
  rw [readMembers]
  split
  · next fault => cases next.symm.trans fault
  · next same => cases next.symm.trans same; rfl
  · next some => cases next.symm.trans some

/-- One member is read by its key, and the others after it. -/
theorem readMembers_key {key : String} (next : nextKey first input = .ok (some key, rest)) :
    readMembers double first m input =
      readMember double m key rest >>= fun p => readMembers double false p.1 p.2 := by
  rw [readMembers]
  split
  · next fault => cases next.symm.trans fault
  · next none => cases next.symm.trans none
  · next some =>
    cases next.symm.trans some
    split
    · next fault => rw [fault]; rfl
    · next read => rw [read]; rfl

end Members

end Settings

namespace DocumentLibrary

open Json Settings

variable (double : Numeral → Except DocumentFault Double)

/-- An object is read by its members, and the document has to end behind it. -/
theorem read_object {input rest : List UInt8} (brace : skipBlanks input = openBrace :: rest) :
    ofDocument double input = (readMembers double true ⟨none, none⟩ rest >>= fun p =>
      (scanner double).finish p.2 >>= fun _ => Except.ok p.1) := by
  have value : readValue double input = readMembers double true ⟨none, none⟩ rest := by
    rw [readValue, brace]
    rfl
  rw [ofDocument, value]
  cases readMembers double true ⟨none, none⟩ rest with
  | error fault => rfl
  | ok p =>
    change (if skipBlanks p.2 = [] then .ok p.1 else .error .malformed) =
      (scanner double).finish p.2 >>= fun _ => Except.ok p.1
    by_cases done : skipBlanks p.2 = []
    · have finished : (scanner double).finish p.2 = .ok () := if_pos done
      rw [if_pos done, finished]
      rfl
    · have unfinished : (scanner double).finish p.2 = .error .malformed := if_neg done
      rw [if_neg done, unfinished]
      rfl

theorem scanner_derivesReader : (scanner double).DerivesReader where
  object {input rest} opened := by
    have brace : skipBlanks input = openBrace :: rest := by
      simp only [scanner] at opened
      split at opened
      · next h => cases opened; exact h
      · cases opened
    exact read_object double brace
  ended next := readMembers_end double next
  width {first m input rest} next unseen := by
    refine (readMembers_key double next).trans ?_
    change _ = afterColon (readSigma double) rest >>= _
    rw [readMember, if_pos rfl, unseen, if_neg (by decide)]
    cases afterColon (readSigma double) rest <;> rfl
  limit {first m input rest} next unseen := by
    refine (readMembers_key double next).trans ?_
    change _ = afterColon (readCutoff double) rest >>= _
    rw [readMember, if_neg (by decide), if_pos rfl, unseen, if_neg (by decide)]
    cases afterColon (readCutoff double) rest <;> rfl
  secondWidth next seen := by
    refine (readMembers_key double next).trans ?_
    rw [readMember, if_pos rfl, if_pos seen]
    rfl
  secondLimit next seen := by
    refine (readMembers_key double next).trans ?_
    rw [readMember, if_neg (by decide), if_pos rfl, if_pos seen]
    rfl
  foreign {first m input rest key} next other other' := by
    refine (readMembers_key double next).trans ?_
    change _ = afterColon skipValue rest >>= _
    rw [readMember, if_neg other, if_neg other']
    cases afterColon skipValue rest <;> rfl

theorem scanner_readsTokens : (scanner double).ReadsTokens where
  opened {blanks rest} blank := by
    have brace : skipBlanks (blanks ++ openBrace :: rest) = openBrace :: rest :=
      skipBlanks_append_cons blank (by decide)
    simp only [scanner, brace]
    rfl
  finished blank := if_pos (skipBlanks_blanks blank)
  closed first blank := nextKey_end first blank
  firstKey := nextKey_first
  otherKey := nextKey_other

theorem scanner_readsValues : (scanner double).ReadsValues where
  number n blank blank' ends :=
    (afterColon_append blank _).trans (readSigma_written double blank' n ends)
  word limit blank blank' ends :=
    (afterColon_append blank _).trans (readCutoff_written double blank' limit ends)
  skipped blank blank' written ends :=
    (afterColon_append blank _).trans (skipValue_written blank' written ends)

/-- The scanner reads documents as it is asked of a library. -/
theorem scanner_readsDocuments : (scanner double).ReadsDocuments where
  toDerivesReader := scanner_derivesReader double
  toReadsTokens := scanner_readsTokens double
  toReadsValues := scanner_readsValues double

end DocumentLibrary

end VisualIndex
