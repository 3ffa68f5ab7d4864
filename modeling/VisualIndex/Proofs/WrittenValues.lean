import VisualIndex.Proofs.WrittenNumbers
import VisualIndex.Proofs.WrittenTexts

/-! Values as JSON writes them, and how they are skipped.

The grammar derives the texts of values and of what stands in lists and objects, with blanks
between all tokens and any nesting. Whatever it derives is skipped to its end: a value leaves
the stack of open enclosures as it was, an item is followed by a comma or by the closing
mark, and the last item's closing mark takes the enclosure off the stack. -/
namespace VisualIndex.Json

open Settings (octets)

/-- The mark that begins a list or an object. -/
def Enclosure.opening : Enclosure → UInt8
  | list => openBracket
  | object => openBrace

/-- What stands before a value: nothing in a list, a key and a colon in an object. -/
inductive IsLabel : Enclosure → List UInt8 → Prop where
  | list : IsLabel .list []
  | object {before after : List UInt8} (pieces : List Piece) :
    IsBlanks before → IsBlanks after →
    IsLabel .object (before ++ (quoted pieces ++ (after ++ [colon])))

/-- What the grammar derives: values, and what stands between the marks of an enclosure. -/
inductive Form where
  | value
  | item (e : Enclosure)
  | items (e : Enclosure)

/-- The texts of a form. -/
inductive Written : Form → List UInt8 → Prop where
  | null : Written .value (letterN :: nullRest)
  | yes : Written .value (letterT :: trueRest)
  | no : Written .value (letterF :: falseRest)
  | number (n : WrittenNumber) : Written .value (octets n.text)
  | text (pieces : List Piece) : Written .value (quoted pieces)
  | empty (e : Enclosure) {blanks : List UInt8} :
    IsBlanks blanks → Written .value (e.opening :: (blanks ++ [e.close]))
  | enclosed {e : Enclosure} {items : List UInt8} :
    Written (.items e) items → Written .value (e.opening :: (items ++ [e.close]))
  | item {e : Enclosure} {label before value : List UInt8} :
    IsLabel e label → IsBlanks before → Written .value value →
    Written (.item e) (label ++ (before ++ value))
  | last {e : Enclosure} {item after : List UInt8} :
    Written (.item e) item → IsBlanks after → Written (.items e) (item ++ after)
  | more {e : Enclosure} {item after items : List UInt8} :
    Written (.item e) item → IsBlanks after → Written (.items e) items →
    Written (.items e) (item ++ (after ++ comma :: items))

section Beginnings

/-- An octet that is neither blank nor ends an enclosure. -/
def Begins (c : UInt8) : Prop := isBlank c = false ∧ ∀ e : Enclosure, c ≠ e.close

instance (c : UInt8) : Decidable (∀ e : Enclosure, c ≠ e.close) :=
  decidable_of_iff (c ≠ Enclosure.list.close ∧ c ≠ Enclosure.object.close)
    ⟨fun h e => by cases e; exacts [h.1, h.2], fun h => ⟨h _, h _⟩⟩

instance (c : UInt8) : Decidable (Begins c) := inferInstanceAs (Decidable (_ ∧ _))

theorem begins_of_isDigit {c : UInt8} (digit : isDigit c = true) : Begins c := by
  constructor
  · by_contra blank
    simp only [isBlank, Bool.not_eq_false, Bool.or_eq_true, decide_eq_true_eq] at blank
    rcases blank with ((rfl | rfl) | rfl) | rfl <;> cases digit
  · rintro (_ | _) rfl <;> cases digit

/-- The text of a number begins with a minus or a digit. -/
theorem begins_number (n : WrittenNumber) : ∃ c tail, octets n.text = c :: tail ∧
    isBlank c = false ∧ (c = minus ∨ isDigit c = true) := by
  cases sign : n.negative with
  | true =>
    have opened : octets n.text = minus :: octets n.unsigned := by
      simp only [WrittenNumber.text, sign, if_true, octets, List.map_cons]
      rfl
    exact ⟨_, _, opened, rfl, .inl rfl⟩
  | false =>
    obtain ⟨d, tail, opened, digit⟩ := WrittenNumber.exists_digit n.whole
      (octets (WrittenNumber.fractionText n.fraction ++ WrittenNumber.exponentText n.exponent))
    refine ⟨d, tail, ?_, (begins_of_isDigit digit).1, .inr digit⟩
    rw [← opened]
    simp [WrittenNumber.text, WrittenNumber.unsigned, sign, octets]

/-- Before a text of any form there are at most blanks. -/
theorem Written.begins {form : Form} {text : List UInt8} (written : Written form text) :
    ∃ blanks c tail, text = blanks ++ c :: tail ∧ IsBlanks blanks ∧ Begins c := by
  induction written with
  | null => exact ⟨[], _, _, rfl, isBlanks_nil, by decide⟩
  | yes => exact ⟨[], _, _, rfl, isBlanks_nil, by decide⟩
  | no => exact ⟨[], _, _, rfl, isBlanks_nil, by decide⟩
  | number n =>
    obtain ⟨c, tail, opened, -, rfl | digit⟩ := begins_number n
    · exact ⟨[], _, _, opened, isBlanks_nil, by decide⟩
    · exact ⟨[], _, _, opened, isBlanks_nil, begins_of_isDigit digit⟩
  | text pieces => exact ⟨[], _, _, rfl, isBlanks_nil, by decide⟩
  | empty e => exact ⟨[], _, _, rfl, isBlanks_nil, by cases e <;> decide⟩
  | @enclosed e => exact ⟨[], _, _, rfl, isBlanks_nil, by cases e <;> decide⟩
  | @item e _ before value label blank _ ih =>
    cases label with
    | list =>
      obtain ⟨blanks, c, tail, rfl, blank', first⟩ := ih
      refine ⟨before ++ blanks, c, tail, by simp, ?_, first⟩
      exact List.forall_mem_append.mpr ⟨blank, blank'⟩
    | object pieces blank' _ => exact ⟨_, quote, _, List.append_assoc .., blank', by decide⟩
  | last _ _ ih =>
    obtain ⟨blanks, c, tail, rfl, blank, first⟩ := ih
    exact ⟨blanks, c, _, List.append_assoc .., blank, first⟩
  | more _ _ _ ih _ =>
    obtain ⟨blanks, c, tail, rfl, blank, first⟩ := ih
    exact ⟨blanks, c, _, List.append_assoc .., blank, first⟩

end Beginnings

section Steps

variable {stack outer : List Enclosure} {e : Enclosure} {blanks input rest : List UInt8}

theorem skipFrom_scalar (opening : skipOpening input = .ok (none, rest)) :
    skipFrom .value stack input = skipFrom .ended stack rest := by
  rw [skipFrom]
  split
  · next fault => cases opening.symm.trans fault
  · next same => cases opening.symm.trans same; rfl
  · next other => cases opening.symm.trans other

theorem skipFrom_enclosure (opening : skipOpening input = .ok (some e, rest)) :
    skipFrom .value stack input = skipFrom .opened (e :: stack) rest := by
  rw [skipFrom]
  split
  · next fault => cases opening.symm.trans fault
  · next other => cases opening.symm.trans other
  · next same => cases opening.symm.trans same; rfl

theorem skipFrom_fault {fault : DocumentFault} (opening : skipOpening input = .error fault) :
    skipFrom .value stack input = .error fault := by
  rw [skipFrom]
  split
  · next same => cases opening.symm.trans same; rfl
  · next other => cases opening.symm.trans other
  · next other => cases opening.symm.trans other

/-- Blanks before a value do not count. -/
theorem skipFrom_value_append (blank : IsBlanks blanks) :
    skipFrom .value stack (blanks ++ input) = skipFrom .value stack input := by
  have same : skipOpening (blanks ++ input) = skipOpening input := by
    rw [skipOpening, skipOpening, skipBlanks_append blank]
  cases opening : skipOpening input with
  | error fault => rw [skipFrom_fault opening, skipFrom_fault (same.trans opening)]
  | ok found =>
    obtain ⟨_ | e, rest⟩ := found
    · rw [skipFrom_scalar opening, skipFrom_scalar (same.trans opening)]
    · rw [skipFrom_enclosure opening, skipFrom_enclosure (same.trans opening)]

/-- An item is skipped from its label on. -/
def skipItem (e : Enclosure) (outer : List Enclosure) (input : List UInt8) :
    Except DocumentFault (List UInt8) :=
  match skipLabel e input with
  | .error fault => .error fault
  | .ok next => skipFrom .value (e :: outer) next

theorem skipItem_append (blank : IsBlanks blanks) :
    skipItem e outer (blanks ++ input) = skipItem e outer input := by
  cases e with
  | list => exact skipFrom_value_append blank
  | object => simp only [skipItem, skipLabel, skipBlanks_append blank]

/-- A label is skipped up to the value behind it. -/
theorem skipItem_label {label : List UInt8} (written : IsLabel e label) :
    skipItem e outer (label ++ input) = skipFrom .value (e :: outer) input := by
  cases written with
  | list => rfl
  | @object before after pieces blank blank' =>
    have text : before ++ (quoted pieces ++ (after ++ [colon])) ++ input =
        before ++ quote :: (pieces.flatMap Piece.octets ++ quote :: (after ++ colon :: input)) := by
      simp [quoted]
    have mark : skipColon (after ++ colon :: input) = .ok input := by
      rw [skipColon, skipBlanks_append_cons blank' (by decide)]
      rfl
    rw [text, skipItem, skipLabel, skipBlanks_append_cons blank (by decide)]
    simp only [if_true, skipText_pieces, mark]

theorem skipFrom_opened {c : UInt8} (blank : IsBlanks blanks) (begins : Begins c) :
    skipFrom .opened (e :: outer) (blanks ++ c :: rest) = skipItem e outer (c :: rest) := by
  have first : skipBlanks (blanks ++ c :: rest) = c :: rest :=
    skipBlanks_append_cons blank begins.1
  rw [skipFrom]
  split
  · next none => cases first.symm.trans none
  · next d tail some =>
    cases first.symm.trans some
    rw [if_neg (begins.2 e), skipItem]
    split <;> simp_all

/-- The closing mark takes the enclosure off the stack. -/
theorem skipFrom_closed (blank : IsBlanks blanks) :
    skipFrom .opened (e :: outer) (blanks ++ e.close :: rest) = skipFrom .ended outer rest ∧
      skipFrom .ended (e :: outer) (blanks ++ e.close :: rest) = skipFrom .ended outer rest := by
  have first : skipBlanks (blanks ++ e.close :: rest) = e.close :: rest :=
    skipBlanks_append_cons blank (by cases e <;> decide)
  constructor <;>
  · rw [skipFrom]
    split
    · next none => cases first.symm.trans none
    · next d tail some =>
      cases first.symm.trans some
      rw [if_pos rfl]

/-- A comma leads to the next item. -/
theorem skipFrom_comma (blank : IsBlanks blanks) :
    skipFrom .ended (e :: outer) (blanks ++ comma :: rest) = skipItem e outer rest := by
  have first : skipBlanks (blanks ++ comma :: rest) = comma :: rest :=
    skipBlanks_append_cons blank (by decide)
  rw [skipFrom]
  split
  · next none => cases first.symm.trans none
  · next d tail some =>
    cases first.symm.trans some
    rw [if_neg (by cases e <;> decide), if_pos rfl, skipItem]
    split <;> simp_all

end Steps

section Values

variable {rest : List UInt8}

/-- A number is skipped as one token, up to what does not go on with it. -/
theorem skipOpening_number (n : WrittenNumber) (ends : EndsNumber rest) :
    skipOpening (octets n.text ++ rest) = .ok (none, rest) := by
  obtain ⟨c, tail, opened, inked, first⟩ := begins_number n
  have scanned := n.scanNumeral_text .malformed ends
  rw [opened, List.cons_append] at scanned ⊢
  have other {d : UInt8} (mark : d ≠ minus ∧ isDigit d = false) : c ≠ d := by
    rintro rfl
    rcases first with rfl | digit
    · exact mark.1 rfl
    · cases digit.symm.trans mark.2
  rw [skipOpening, skipBlanks_cons inked]
  split
  · next none => cases none
  · next list => exact absurd (List.cons.inj list).1 (other (by decide))
  · next object => exact absurd (List.cons.inj object).1 (other (by decide))
  · next same =>
    cases same
    have number : (c = minus || isDigit c) = true := by simpa using first
    rw [if_neg (other (by decide)), if_neg (other (by decide)), if_neg (other (by decide)),
      if_neg (other (by decide)), if_pos number, scanned]
    rfl

/-- What it means that a text of a form is skipped to its end. -/
def Skips : Form → List UInt8 → Prop
  | .value, text => ∀ stack rest, EndsNumber rest →
    skipFrom .value stack (text ++ rest) = skipFrom .ended stack rest
  | .item e, text => ∀ outer rest, EndsNumber rest →
    skipItem e outer (text ++ rest) = skipFrom .ended (e :: outer) rest
  | .items e, text => ∀ outer rest,
    skipItem e outer (text ++ e.close :: rest) = skipFrom .ended outer rest

theorem endsNumber_append {blanks : List UInt8} (blank : IsBlanks blanks) (ends : EndsNumber rest) :
    EndsNumber (blanks ++ rest) := by
  cases blanks with
  | nil => exact ends
  | cons c blanks =>
    rintro d ⟨⟩
    have := blank c List.mem_cons_self
    simp only [isBlank, Bool.or_eq_true, decide_eq_true_eq] at this
    rcases this with ((rfl | rfl) | rfl) | rfl <;> decide

theorem endsNumber_close (e : Enclosure) (rest : List UInt8) : EndsNumber (e.close :: rest) := by
  rintro d ⟨⟩
  cases e <;> decide

theorem endsNumber_comma (rest : List UInt8) : EndsNumber (comma :: rest) := by
  rintro d ⟨⟩
  decide

theorem skipOpening_opening (e : Enclosure) (rest : List UInt8) :
    skipOpening (e.opening :: rest) = .ok (some e, rest) := by
  cases e <;> rfl

theorem skipOpening_text (pieces : List Piece) (rest : List UInt8) :
    skipOpening (quoted pieces ++ rest) = .ok (none, rest) := by
  have text : quoted pieces ++ rest = quote :: (pieces.flatMap Piece.octets ++ quote :: rest) := by
    simp [quoted]
  rw [text, skipOpening, skipBlanks_cons (by decide)]
  split
  · next none => cases none
  · next list => cases list
  · next object => cases object
  · next same =>
    cases same
    rw [if_neg (by decide), if_neg (by decide), if_neg (by decide), if_pos rfl, skipText_pieces]

/-- Whatever the grammar derives is skipped to its end. -/
theorem Written.skips {form : Form} {text : List UInt8} (written : Written form text) :
    Skips form text := by
  induction written with
  | null => exact fun stack rest _ => skipFrom_scalar rfl
  | yes => exact fun stack rest _ => skipFrom_scalar rfl
  | no => exact fun stack rest _ => skipFrom_scalar rfl
  | number n => exact fun stack rest ends => skipFrom_scalar (skipOpening_number n ends)
  | text pieces => exact fun stack rest _ => skipFrom_scalar (skipOpening_text pieces rest)
  | @empty e blanks blank =>
    intro stack rest _
    rw [List.cons_append, skipFrom_enclosure (skipOpening_opening e _), List.append_assoc]
    exact (skipFrom_closed blank).1
  | @enclosed e items inside ih =>
    intro stack rest _
    obtain ⟨blanks, c, tail, rfl, blank, begins⟩ := inside.begins
    have items := ih stack rest
    rw [List.append_assoc, skipItem_append blank] at items
    simp only [List.append_assoc, List.cons_append, List.nil_append] at items ⊢
    rw [skipFrom_enclosure (skipOpening_opening e _), skipFrom_opened blank begins, items]
  | item label blank _ ih =>
    intro outer rest ends
    rw [List.append_assoc, List.append_assoc, skipItem_label label, skipFrom_value_append blank]
    exact ih _ _ ends
  | @last e item after _ blank ih =>
    intro outer rest
    rw [List.append_assoc, ih _ _ (endsNumber_append blank (endsNumber_close e rest))]
    exact (skipFrom_closed blank).2
  | more _ blank _ ih ih' =>
    intro outer rest
    simp only [List.append_assoc, List.cons_append]
    rw [ih _ _ (endsNumber_append blank (endsNumber_comma _)), skipFrom_comma blank]
    exact ih' outer rest

/-- A value is skipped, and what follows is left. -/
theorem skipValue_written {before value : List UInt8} (blank : IsBlanks before)
    (written : Written .value value) (ends : EndsNumber rest) :
    skipValue (before ++ (value ++ rest)) = .ok rest := by
  rw [skipValue, skipFrom_value_append blank, written.skips _ _ ends, skipFrom]
  rintro ⟨⟩

end Values

end VisualIndex.Json
