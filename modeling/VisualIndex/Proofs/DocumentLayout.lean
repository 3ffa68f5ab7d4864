import VisualIndex.Proofs.NumberReading
import VisualIndex.Proofs.WrittenValues

/-! Documents of settings in any layout.

A document is an object with blanks between all tokens. Its members come in any order: widths,
cut-offs, and foreign ones with any other key and any value. Keys may be escaped. Of the
library that reads documents three things are asked: that it tells the tokens of an object
whatever blanks are around them, that it reads values by their grammar, and that its reader of
settings goes from key to key. Then, whatever the layout, reading comes down to one pass over
what the members say, in which each joins those seen before it. -/
namespace VisualIndex

namespace Settings

open Json

/-- A reading goes on with the value that has been read. -/
theorem bind_of_value {α β : Type} {x : Except DocumentFault α} {a : α} (value : x = .ok a)
    (f : α → Except DocumentFault β) : (x >>= f) = f a := by
  rw [value]
  rfl

/-- A whole number in plain figures that fits a word. -/
structure PlainNumber where
  figures : Figures
  leading : figures.IsLeading
  fits : figures.value < 2 ^ 64

def PlainNumber.word (p : PlainNumber) : UInt64 := .ofNat p.figures.value

def PlainNumber.written (p : PlainNumber) : WrittenNumber where
  negative := false
  whole := p.figures
  leading := p.leading
  fraction := none
  exponent := none

theorem PlainNumber.value_written (p : PlainNumber)
    (double : Numeral → Except DocumentFault Double) :
    p.written.numeral.value double = .ok (.natural p.word) := by
  have all : p.written.significand = p.figures.value := by
    simp [written, WrittenNumber.significand, Figures.value]
  have value := p.written.value_of_plain double rfl rfl rfl (all ▸ p.fits)
  rw [all] at value
  exact value

/-- What a member says. The key of a foreign one is none of the two that are known. -/
inductive Entry where
  | sigma (n : WrittenNumber)
  | cutoff (limit : Option PlainNumber)
  | foreign (key : List Char)
    (other : String.ofList key ≠ sigmaKey ∧ String.ofList key ≠ cutoffKey)
    (value : List UInt8) (written : Written .value value)

namespace Entry

def key : Entry → List Char
  | sigma _ => sigmaKey.toList
  | cutoff _ => cutoffKey.toList
  | foreign key _ _ _ => key

/-- The text of the value. -/
def octets : Entry → List UInt8
  | sigma n => Settings.octets n.text
  | cutoff none => letterN :: nullRest
  | cutoff (some p) => Settings.octets p.written.text
  | foreign _ _ value _ => value

/-- An entry joins the members seen before it. A second one of its kind is refused. -/
def join (double : Numeral → Except DocumentFault Double) (m : Members) :
    Entry → Except DocumentFault Members
  | sigma n =>
    if m.sigma.isSome then .error .mistyped
    else do
      let number ← n.numeral.value double
      return { m with sigma := some number.toSingle }
  | cutoff limit =>
    if m.cutoff.isSome then .error .mistyped
    else .ok { m with cutoff := some (limit.map PlainNumber.word) }
  | foreign .. => .ok m

end Entry

/-- White space between two tokens. -/
abbrev Blanks := { blanks : List UInt8 // IsBlanks blanks }

def Blanks.none : Blanks := ⟨[], isBlanks_nil⟩

/-- A member as it is written. -/
structure WrittenMember where
  entry : Entry
  key : List Piece
  stands : StandFor key entry.key
  beforeKey : Blanks
  afterKey : Blanks
  beforeValue : Blanks
  afterValue : Blanks

def WrittenMember.octets (w : WrittenMember) : List UInt8 :=
  w.beforeKey.val ++ (quoted w.key ++ (w.afterKey.val ++ colon ::
    (w.beforeValue.val ++ (w.entry.octets ++ w.afterValue.val))))

/-- A member with a plain key and without blanks. -/
def WrittenMember.tight (e : Entry) (unescaped : ∀ c ∈ e.key, Unescaped c) : WrittenMember :=
  ⟨e, plainPieces e.key unescaped, standFor_plainPieces unescaped, .none, .none, .none, .none⟩

theorem unescaped_sigmaKey (c : Char) (hc : c ∈ sigmaKey.toList) : Unescaped c :=
  of_decide_eq_true (List.all_eq_true.mp
    (show sigmaKey.toList.all (fun c => decide (Unescaped c)) = true by decide) c hc)

theorem unescaped_cutoffKey (c : Char) (hc : c ∈ cutoffKey.toList) : Unescaped c :=
  of_decide_eq_true (List.all_eq_true.mp
    (show cutoffKey.toList.all (fun c => decide (Unescaped c)) = true by decide) c hc)

/-- A document as it is written. The inner blanks stand in an object without members. -/
structure WrittenSettings where
  before : Blanks
  inner : Blanks
  members : List WrittenMember
  after : Blanks

namespace WrittenSettings

/-- The members with commas between them. -/
def inside (s : WrittenSettings) : List UInt8 :=
  match s.members with
  | [] => s.inner.val
  | first :: others => first.octets ++ others.flatMap fun w => comma :: w.octets

def octets (s : WrittenSettings) : List UInt8 :=
  s.before.val ++ openBrace :: (s.inside ++ closeBrace :: s.after.val)

def entries (s : WrittenSettings) : List Entry := s.members.map (·.entry)

end WrittenSettings

/-- Entries join the members seen before them, one after the other. -/
def joinAll (double : Numeral → Except DocumentFault Double) (entries : List Entry)
    (m : Members) : Except DocumentFault Members :=
  entries.foldlM (fun m e => e.join double m) m

theorem joinAll_cons (double : Numeral → Except DocumentFault Double) (e : Entry)
    (entries : List Entry) (m : Members) :
    joinAll double (e :: entries) m = e.join double m >>= joinAll double entries :=
  List.foldlM_cons

/-- What follows a member: the others, each after a comma, and the end of the object. -/
def others (members : List WrittenMember) (rest : List UInt8) : List UInt8 :=
  (members.flatMap fun w => comma :: w.octets) ++ closeBrace :: rest

theorem endsNumber_others (members : List WrittenMember) (rest : List UInt8) :
    EndsNumber (others members rest) := by
  cases members with
  | nil => exact endsNumber_close .object rest
  | cons w members => exact endsNumber_comma _

theorem WrittenMember.octets_append (w : WrittenMember) (rest : List UInt8) :
    w.octets ++ rest = w.beforeKey.val ++ (quoted w.key ++ (w.afterKey.val ++ colon ::
      (w.beforeValue.val ++ (w.entry.octets ++ (w.afterValue.val ++ rest))))) := by
  simp [WrittenMember.octets]

end Settings

namespace DocumentLibrary

open Json Settings

/-- The reader of settings, as it is derived from their two members: it goes from key to key, each
of the two is read once, any other is ignored, and missing ones take the defaults. -/
structure DerivesReader (library : DocumentLibrary) : Prop where
  object {input rest : List UInt8} : library.openObject input = .ok rest →
    library.read input = do
      let (s, rest) ← library.members true ⟨none, none⟩ rest
      library.finish rest
      return s
  ended {first : Bool} {m : Members} {input rest : List UInt8} :
    library.nextKey first input = .ok (none, rest) →
    library.members first m input = .ok (m.toSettings, rest)
  width {first : Bool} {m : Members} {input rest : List UInt8} :
    library.nextKey first input = .ok (some sigmaKey, rest) → m.sigma = none →
    library.members first m input = do
      let (sigma, rest) ← library.single rest
      library.members false { m with sigma := some sigma } rest
  limit {first : Bool} {m : Members} {input rest : List UInt8} :
    library.nextKey first input = .ok (some cutoffKey, rest) → m.cutoff = none →
    library.members first m input = do
      let (cutoff, rest) ← library.word? rest
      library.members false { m with cutoff := some cutoff } rest
  secondWidth {first : Bool} {m : Members} {input rest : List UInt8} :
    library.nextKey first input = .ok (some sigmaKey, rest) → m.sigma.isSome = true →
    library.members first m input = .error .mistyped
  secondLimit {first : Bool} {m : Members} {input rest : List UInt8} :
    library.nextKey first input = .ok (some cutoffKey, rest) → m.cutoff.isSome = true →
    library.members first m input = .error .mistyped
  foreign {first : Bool} {m : Members} {input rest : List UInt8} {key : String} :
    library.nextKey first input = .ok (some key, rest) → key ≠ sigmaKey → key ≠ cutoffKey →
    library.members first m input = do
      let rest ← library.ignored rest
      library.members false m rest

/-- The tokens of an object, with blanks before them. A key may be escaped. -/
structure ReadsTokens (library : DocumentLibrary) : Prop where
  opened {blanks rest : List UInt8} : IsBlanks blanks →
    library.openObject (blanks ++ openBrace :: rest) = .ok rest
  finished {blanks : List UInt8} : IsBlanks blanks → library.finish blanks = .ok ()
  closed {blanks rest : List UInt8} (first : Bool) : IsBlanks blanks →
    library.nextKey first (blanks ++ closeBrace :: rest) = .ok (none, rest)
  firstKey {blanks rest : List UInt8} {pieces : List Piece} {cs : List Char} :
    IsBlanks blanks → StandFor pieces cs →
    library.nextKey true (blanks ++ (quoted pieces ++ rest)) = .ok (some (.ofList cs), rest)
  otherKey {blanks before rest : List UInt8} {pieces : List Piece} {cs : List Char} :
    IsBlanks blanks → IsBlanks before → StandFor pieces cs →
    library.nextKey false (blanks ++ comma :: (before ++ (quoted pieces ++ rest))) =
      .ok (some (.ofList cs), rest)

/-- The values behind a colon. A number in plain digits that fit 64 bits is kept as it is, and
any other is converted to a double. A foreign value is checked for its grammar and dropped. -/
structure ReadsValues (library : DocumentLibrary) : Prop where
  number {before after rest : List UInt8} (n : WrittenNumber) : IsBlanks before →
    IsBlanks after → EndsNumber rest →
    library.single (before ++ colon :: (after ++ (octets n.text ++ rest))) = do
      let number ← n.numeral.value library.double
      return (number.toSingle, rest)
  word {before after rest : List UInt8} (limit : Option PlainNumber) : IsBlanks before →
    IsBlanks after → EndsNumber rest →
    library.word? (before ++ colon :: (after ++ ((Entry.cutoff limit).octets ++ rest))) =
      .ok (limit.map PlainNumber.word, rest)
  skipped {before after value rest : List UInt8} : IsBlanks before → IsBlanks after →
    Written .value value → EndsNumber rest →
    library.ignored (before ++ colon :: (after ++ (value ++ rest))) = .ok rest

structure ReadsDocuments (library : DocumentLibrary) : Prop extends
  library.DerivesReader, library.ReadsTokens, library.ReadsValues

namespace ReadsDocuments

variable {library : DocumentLibrary} (reads : library.ReadsDocuments) {m : Members}
  {rest : List UInt8}
include reads

/-- One member of an object joins those seen before it, and the others follow. -/
theorem members_entry (w : WrittenMember) {first : Bool} {input : List UInt8}
    (ends : EndsNumber rest)
    (next : library.nextKey first input = .ok (some (.ofList w.entry.key),
      w.afterKey.val ++ colon :: (w.beforeValue.val ++ (w.entry.octets ++ rest)))) :
    library.members first m input =
      w.entry.join library.double m >>= fun n => library.members false n rest := by
  obtain ⟨e, _, _, _, ⟨_, blank⟩, ⟨_, blank'⟩, _⟩ := w
  simp only at next ⊢
  cases e with
  | sigma n =>
    rw [Entry.key, String.ofList_toList] at next
    rw [Entry.join]
    cases seen : m.sigma with
    | some width => exact reads.secondWidth next (by rw [seen]; rfl)
    | none =>
      rw [reads.width next seen, Entry.octets, reads.number n blank blank' ends]
      cases n.numeral.value library.double <;> rfl
  | cutoff limit =>
    rw [Entry.key, String.ofList_toList] at next
    rw [Entry.join]
    cases seen : m.cutoff with
    | some cutoff => exact reads.secondLimit next (by rw [seen]; rfl)
    | none =>
      rw [reads.limit next seen, reads.word limit blank blank' ends]
      rfl
  | foreign key other value written =>
    rw [reads.foreign next other.1 other.2, Entry.octets, reads.skipped blank blank' written ends]
    rfl

/-- The members after the first are read one by one up to the end of the object. -/
theorem members_others (members : List WrittenMember) {blanks : List UInt8}
    (blank : IsBlanks blanks) :
    library.members false m (blanks ++ others members rest) = do
      let n ← joinAll library.double (members.map (·.entry)) m
      return (n.toSettings, rest) := by
  induction members generalizing m blanks with
  | nil => exact reads.ended (reads.closed false blank)
  | cons w members ih =>
    have text : others (w :: members) rest = comma :: (w.octets ++ others members rest) := by
      simp [others]
    have ends := endsNumber_append w.afterValue.2 (endsNumber_others members rest)
    rw [text, w.octets_append,
      reads.members_entry w ends (reads.otherKey blank w.beforeKey.2 w.stands), List.map_cons,
      joinAll_cons]
    cases w.entry.join library.double m with
    | error fault => rfl
    | ok n => exact ih w.afterValue.2

/-- The members of a document are read to its end. -/
theorem members_inside (s : WrittenSettings) :
    library.members true m (s.inside ++ closeBrace :: rest) = do
      let n ← joinAll library.double s.entries m
      return (n.toSettings, rest) := by
  rw [WrittenSettings.inside, WrittenSettings.entries]
  cases s.members with
  | nil => exact reads.ended (reads.closed true s.inner.2)
  | cons w members =>
    have ends := endsNumber_append w.afterValue.2 (endsNumber_others members rest)
    rw [List.append_assoc, ← others, WrittenMember.octets_append,
      reads.members_entry w ends (reads.firstKey w.beforeKey.2 w.stands), List.map_cons,
      joinAll_cons]
    cases w.entry.join library.double m with
    | error fault => rfl
    | ok n => exact reads.members_others members w.afterValue.2

/-- A document is read as its members join one after the other, whatever its layout. -/
theorem read_octets (s : WrittenSettings) :
    library.read s.octets =
      (joinAll library.double s.entries ⟨none, none⟩).map Members.toSettings := by
  rw [WrittenSettings.octets, reads.object (reads.opened s.before.2), reads.members_inside s]
  cases joinAll library.double s.entries ⟨none, none⟩ with
  | error fault => rfl
  | ok m => exact bind_of_value (reads.finished s.after.2) _

end ReadsDocuments

end DocumentLibrary

end VisualIndex
