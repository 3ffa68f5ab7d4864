import VisualIndex.Proofs.DocumentScanner
import VisualIndex.Proofs.NumberSpelling
import VisualIndex.Proofs.VotingTables

/-! The document of settings is read as these settings.

The document is one of the layouts: two members, no blanks, keys in plain characters and the
width as its shortest decimal. It has both members, so what it is read as does not depend on
the defaults. Whether the width survives depends on how numerals are converted to doubles: it
does if each is converted to the nearest one, except for a single width, and it always does if
the figures are scaled. -/
namespace VisualIndex

open Json

namespace Settings

/-- ASCII characters are one octet each. -/
theorem flatMap_of_ascii {cs : List Char} (ascii : ∀ c ∈ cs, c.toNat < 0x80) :
    cs.flatMap String.utf8EncodeChar = octets cs := by
  have one (c : Char) (hc : c ∈ cs) : String.utf8EncodeChar c = [.ofNat c.toNat] := by
    have size : c.utf8Size = 1 := by
      rw [Char.utf8Size_eq_one_iff, UInt32.le_iff_toNat_le]
      exact Nat.le_of_lt_succ (ascii c hc)
    rw [String.utf8EncodeChar_eq_singleton size]
    rfl
  rw [List.flatMap_congr one, octets, List.map_eq_flatMap]

/-- A key in quotes and a colon. -/
def label (key : List Char) : List Char := '"' :: key ++ ['"', ':']

/-- An entry with an ASCII key, written without blanks. -/
theorem octets_tight (e : Entry) (unescaped : ∀ c ∈ e.key, Unescaped c)
    (ascii : e.key.all (·.toNat < 0x80) = true) :
    (WrittenMember.tight e unescaped).octets = octets (label e.key) ++ e.octets := by
  have short : ∀ c ∈ e.key, c.toNat < 0x80 := fun c hc =>
    of_decide_eq_true (List.all_eq_true.mp ascii c hc)
  simp [WrittenMember.octets, WrittenMember.tight, Blanks.none, quoted,
    flatMap_plainPieces unescaped, flatMap_of_ascii short, label, octets]

/-- A word in plain figures. -/
def PlainNumber.ofWord (n : UInt64) : PlainNumber where
  figures := .ofNat n.toNat
  leading := Figures.isLeading_ofNat _
  fits := (Figures.value_ofNat _).trans_lt n.toNat_lt

theorem PlainNumber.word_ofWord (n : UInt64) : (ofWord n).word = n := by
  rw [word, ofWord, Figures.value_ofNat, UInt64.ofNat_toNat]

/-- The two members of the document are read as they are written. -/
theorem joinAll_members {double : Numeral → Except DocumentFault Double} {n : WrittenNumber}
    {number : Number} (cutoff : Option UInt64) (value : n.numeral.value double = .ok number) :
    joinAll double [.sigma n, .cutoff (cutoff.map PlainNumber.ofWord)] ⟨none, none⟩ =
      .ok ⟨some number.toSingle, some cutoff⟩ := by
  have word : (cutoff.map PlainNumber.ofWord).map PlainNumber.word = cutoff := by
    simp [Function.comp_def, PlainNumber.word_ofWord]
  have first : (Entry.sigma n).join double ⟨none, none⟩ = .ok ⟨some number.toSingle, none⟩ :=
    bind_of_value value _
  have second : (Entry.cutoff (cutoff.map PlainNumber.ofWord)).join double
      ⟨some number.toSingle, none⟩ = .ok ⟨some number.toSingle, some cutoff⟩ := by
    conv_rhs => rw [← word]
    rfl
  rw [joinAll_cons, bind_of_value first, joinAll_cons, bind_of_value second]
  rfl

theorem octets_append (cs ds : List Char) : octets (cs ++ ds) = octets cs ++ octets ds :=
  List.map_append

/-- The characters of a cut-off. -/
def limitText (limit : Option UInt64) : List Char :=
  match limit with
  | some n => (Nat.repr n.toNat).toList
  | none => "null".toList

theorem octets_cutoff (limit : Option UInt64) :
    (Entry.cutoff (limit.map PlainNumber.ofWord)).octets = octets (limitText limit) := by
  cases limit with
  | none => rfl
  | some n =>
    simp [Entry.octets, PlainNumber.written, PlainNumber.ofWord, WrittenNumber.text,
      WrittenNumber.unsigned, Figures.ofNat, limitText]

/-- The parts of the document. -/
theorem toDocument_of_isFinite {s : Settings} (finite : s.sigma.isFinite = true) :
    s.toDocument = openBrace :: (octets (label sigmaKey.toList) ++ (octets s.sigma.compactText ++
      comma :: (octets (label cutoffKey.toList) ++
        (octets (limitText s.cutoff) ++ [closeBrace])))) := by
  rw [toDocument, finite]
  change octets (((('\x7b' :: label sigmaKey.toList) ++ s.sigma.compactText) ++
    ',' :: label cutoffKey.toList) ++ limitText s.cutoff ++ ['\x7d']) = _
  rw [octets_append, octets_append, octets_append, octets_append, List.append_assoc,
    List.append_assoc, List.append_assoc]
  rfl

/-- The document of a width and a cut-off. -/
def compactDocument (n : WrittenNumber) (cutoff : Option UInt64) : WrittenSettings where
  before := .none
  inner := .none
  members := [.tight (.sigma n) unescaped_sigmaKey,
    .tight (.cutoff (cutoff.map PlainNumber.ofWord)) unescaped_cutoffKey]
  after := .none

theorem octets_compactDocument (n : WrittenNumber) (cutoff : Option UInt64) :
    (compactDocument n cutoff).octets = openBrace :: (octets (label sigmaKey.toList) ++
      (octets n.text ++ comma :: (octets (label cutoffKey.toList) ++
        (octets (limitText cutoff) ++ [closeBrace])))) := by
  have width := octets_tight (.sigma n) unescaped_sigmaKey
    (show sigmaKey.toList.all _ = true by decide)
  have limit := octets_tight (.cutoff (cutoff.map PlainNumber.ofWord)) unescaped_cutoffKey
    (show cutoffKey.toList.all _ = true by decide)
  rw [octets_cutoff] at limit
  change openBrace :: ((WrittenMember.octets _ ++ (comma :: WrittenMember.octets _ ++ [])) ++
    [closeBrace]) = _
  rw [width, limit]
  simp only [Entry.octets, Entry.key, List.append_assoc, List.cons_append, List.nil_append]

/-- Valid settings have the code of a positive finite single. -/
theorem exists_code_of_check {s : Settings} (valid : s.check = .ok ()) :
    ∃ c, c + 1 < singleFormat.infinity ∧ s.sigma = .ofCode (c + 1) := by
  obtain ⟨c, positive, finite, sigma⟩ := (s.check_eq_ok_iff).mp valid
  obtain ⟨c, rfl⟩ := Nat.exists_eq_succ_of_ne_zero positive.ne'
  exact ⟨c, finite, sigma⟩

end Settings

namespace DocumentLibrary

open Settings

/-- The writer of settings puts both members into an object without blanks: the width as its
shortest decimal, marked as a real number, and null where there is no cut-off. -/
def WritesDocuments (library : DocumentLibrary) : Prop :=
  ∀ s : Settings, s.check = .ok () → ∃ n : WrittenNumber, n.IsShortest s.sigma ∧
    (library.pieces s).flatten = (compactDocument n s.cutoff).octets

/-- A numeral that is no plain number is converted to the nearest double: a size of `num / den`
quanta is rounded once. -/
def ReadsNearest (library : DocumentLibrary) : Prop :=
  ∀ n : WrittenNumber, n.numeral.isPlain = false → ∀ num den : Nat, 0 < den →
    n.magnitude * unit = num / den → doubleFormat.round num den < doubleFormat.infinity →
    library.double n.numeral = .ok (.ofCode (doubleFormat.round num den))

variable {library : DocumentLibrary} {s : Settings}

/-- The document of a width and a cut-off is read as these. -/
theorem ReadsDocuments.read_compact (reads : library.ReadsDocuments) {n : WrittenNumber}
    {number : Number} (cutoff : Option UInt64)
    (value : n.numeral.value library.double = .ok number) :
    library.read (compactDocument n cutoff).octets = .ok ⟨number.toSingle, cutoff⟩ := by
  rw [reads.read_octets]
  change (joinAll _ [.sigma n, .cutoff (cutoff.map PlainNumber.ofWord)] ⟨none, none⟩).map _ = _
  rw [joinAll_members cutoff value]
  rfl

/-- Valid settings are read back from their document by way of the nearest doubles, whatever
their width but one. -/
theorem read_pieces_of_nearest (reads : library.ReadsDocuments) (writes : library.WritesDocuments)
    (nearest : library.ReadsNearest) (valid : s.check = .ok ()) (apart : s.sigma ≠ ⟨0x15ae43fd⟩) :
    library.read (library.pieces s).flatten = .ok s := by
  obtain ⟨c, finite, sigma⟩ := exists_code_of_check valid
  obtain ⟨n, shortest, text⟩ := writes s valid
  obtain ⟨p, hp, exponent, some, few, -⟩ := shortestDecimal_reads finite
  obtain ⟨inside, -⟩ := Json.nearestCode_spec hp exponent some few 45
  have other : c + 1 ≠ nearestLost := by
    intro lost
    rw [sigma, lost] at apart
    exact apart rfl
  have narrow := of_decide_eq_true (nearestBack_of_finite finite other)
  have power : ((shortestDecimal .even (c + 1)).exponent + finestExponent).toNat = p := by omega
  rw [Decimal.nearestCode, power] at inside narrow
  rw [sigma] at shortest
  have read := nearest n shortest.marked.isPlain _ _ (Nat.pow_pos (by decide))
    (shortest.quotient finite exponent) inside
  have value := n.value_of_double shortest.marked.isPlain read
  rw [shortest.positive, if_neg (by decide)] at value
  rw [text, reads.read_compact s.cutoff value]
  change Except.ok (Settings.mk (Double.narrow _) s.cutoff) = .ok s
  rw [narrow, ← sigma]

section Scanner

variable (double : Numeral → Except DocumentFault Double)

/-- The document of valid settings as it is laid out, with its number as it is scaled. -/
theorem exists_toDocument (valid : s.check = .ok ()) : ∃ n : WrittenNumber,
    n.IsShortest s.sigma ∧ s.toDocument = (compactDocument n s.cutoff).octets ∧
      ∃ y, n.numeral.value Numeral.toDouble = .ok (.real y) ∧ y.narrow = s.sigma := by
  obtain ⟨c, finite, sigma⟩ := exists_code_of_check valid
  have isFinite : s.sigma.isFinite = true := by
    rw [sigma, Single.isFinite, Single.magnitude_ofCode finite.le]
    exact decide_eq_true finite
  obtain ⟨n, text, shortest, read⟩ := exists_spelling finite
  rw [← sigma] at text shortest read
  exact ⟨n, shortest, by rw [toDocument_of_isFinite isFinite, octets_compactDocument, text], read⟩

theorem scanner_writesDocuments : (scanner double).WritesDocuments := by
  intro s valid
  obtain ⟨n, shortest, text, -⟩ := exists_toDocument valid
  exact ⟨n, shortest, by rw [← text]; exact List.flatten_singleton⟩

/-- Where numbers are scaled, all valid settings are read back from their document. -/
theorem read_pieces_scaling (valid : s.check = .ok ()) :
    scaling.read (scaling.pieces s).flatten = .ok s := by
  obtain ⟨n, -, text, y, value, narrow⟩ := exists_toDocument valid
  have document : (scaling.pieces s).flatten = (compactDocument n s.cutoff).octets := by
    rw [← text]
    exact List.flatten_singleton
  rw [document]
  refine ((scanner_readsDocuments Numeral.toDouble).read_compact s.cutoff value).trans ?_
  change Except.ok (Settings.mk y.narrow s.cutoff) = .ok s
  rw [narrow]

end Scanner

end DocumentLibrary

end VisualIndex
