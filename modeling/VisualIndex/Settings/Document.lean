import VisualIndex.Json.Skip
import VisualIndex.Settings.Basic

/-! The settings document.

Settings are written and read by a library, of which the settings need what is listed in
`DocumentLibrary`. The scanner is such a library. It writes settings as a JSON object
without blanks. It reads them from an object, whose foreign members are skipped and whose
missing members take the defaults, or from a list of the two values. A width has to be a
number; a cut-off is null or a whole number below `2 ^ 64`. A member that occurs twice
counts as mistyped. How a number becomes a double is left open. -/
namespace VisualIndex

open Json

namespace Settings

/-- The members seen so far. -/
structure Members where
  sigma : Option Single
  cutoff : Option (Option UInt64)

/-- Missing members take the defaults. -/
def Members.toSettings (m : Members) : Settings :=
  ⟨m.sigma.getD defaultSigma, m.cutoff.getD none⟩

def sigmaKey : String := "sigma"

def cutoffKey : String := "max_hamming_distance"

end Settings

/-- What settings need of a library for documents. A function that reads a part of a text
answers with the rest of it; a value is read from the colon before it on. -/
structure DocumentLibrary where
  /-- The document of some settings, in the parts that are written one after the other. -/
  pieces : Settings → List (List UInt8)
  /-- The settings that a document stands for. -/
  read : List UInt8 → Except DocumentFault Settings
  /-- The mark that opens an object. -/
  openObject : List UInt8 → Except DocumentFault (List UInt8)
  /-- The members of an object that follow those seen before; `true` if there are none before. -/
  members : Bool → Settings.Members → List UInt8 → Except DocumentFault (Settings × List UInt8)
  /-- The next key of an object, if there is one; `true` if it is the first. -/
  nextKey : Bool → List UInt8 → Except DocumentFault (Option String × List UInt8)
  /-- A number as a single. -/
  single : List UInt8 → Except DocumentFault (Single × List UInt8)
  /-- A word, or null. -/
  word? : List UInt8 → Except DocumentFault (Option UInt64 × List UInt8)
  /-- Any value, which is not kept. -/
  ignored : List UInt8 → Except DocumentFault (List UInt8)
  /-- The end of a document. -/
  finish : List UInt8 → Except DocumentFault Unit
  /-- The double that a numeral without its sign is converted to. -/
  double : Numeral → Except DocumentFault Double

namespace Settings

section Scanning

variable (double : Numeral → Except DocumentFault Double)

/-- The fault of a value of the wrong type: it is judged by its first token. -/
def refuse (input : List UInt8) : DocumentFault :=
  match skipBlanks input with
  | [] => .truncated
  | c :: rest =>
    let token : Except DocumentFault Unit := do
      if c = letterN then discard (expect nullRest rest)
      else if c = letterT then discard (expect trueRest rest)
      else if c = letterF then discard (expect falseRest rest)
      else if c = quote then discard (readText rest)
      else if c = minus || isDigit c then
        let (numeral, _) ← scanNumeral .truncated (c :: rest)
        discard (numeral.value double)
      else if c ≠ openBracket && c ≠ openBrace then throw .malformed
    match token with
    | .ok () => .mistyped
    | .error fault => fault

/-- Whether a value is written as a number. -/
def opensNumber (input : List UInt8) : Bool :=
  match skipBlanks input with
  | [] => false
  | c :: _ => c = minus || isDigit c

def readNumber (input : List UInt8) : Except DocumentFault (Number × List UInt8) :=
  if opensNumber input then do
    let (numeral, rest) ← scanNumeral .truncated (skipBlanks input)
    let number ← numeral.value double
    return (number, rest)
  else throw (refuse double input)

def readSigma (input : List UInt8) : Except DocumentFault (Single × List UInt8) := do
  let (number, rest) ← readNumber double input
  return (number.toSingle, rest)

def readCutoff (input : List UInt8) : Except DocumentFault (Option UInt64 × List UInt8) :=
  match skipBlanks input with
  | letterN :: rest => do
    let rest ← expect nullRest rest
    return (none, rest)
  | _ => do
    match ← readNumber double input with
    | (.natural n, rest) => return (some n, rest)
    | _ => throw .mistyped

/-- What stands behind a key's colon. -/
def afterColon {α : Type} (read : List UInt8 → Except DocumentFault α) (input : List UInt8) :
    Except DocumentFault α := do
  let rest ← skipColon input
  read rest

/-- The value of the member with the given key. -/
def readMember (m : Members) (key : String) (input : List UInt8) :
    Except DocumentFault (Members × List UInt8) :=
  if key = sigmaKey then
    if m.sigma.isSome then throw .mistyped
    else do
      let (sigma, rest) ← afterColon (readSigma double) input
      return ({ m with sigma := some sigma }, rest)
  else if key = cutoffKey then
    if m.cutoff.isSome then throw .mistyped
    else do
      let (cutoff, rest) ← afterColon (readCutoff double) input
      return ({ m with cutoff := some cutoff }, rest)
  else do
    let rest ← afterColon skipValue input
    return (m, rest)

/-- The opening quote of a key. -/
def openKey (input : List UInt8) : Except DocumentFault (List UInt8) :=
  match skipBlanks input with
  | [] => .error .truncated
  | c :: rest => if c = quote then .ok rest else .error .malformed

/-- What stands before a key: all but the first follow a comma. -/
def beforeKey (first : Bool) (input : List UInt8) : Except DocumentFault (List UInt8) :=
  if first then openKey input
  else
    match input with
    | comma :: rest => openKey rest
    | _ => .error .malformed

/-- The next key of an object, if there is one. -/
def nextKey (first : Bool) (input : List UInt8) :
    Except DocumentFault (Option String × List UInt8) :=
  match skipBlanks input with
  | [] => .error .truncated
  | c :: rest =>
    if c = closeBrace then .ok (none, rest)
    else do
      let rest ← beforeKey first (c :: rest)
      let (key, rest) ← readText rest
      return (some key, rest)

theorem ok_of_bind {α β : Type} {x : Except DocumentFault α} {f : α → Except DocumentFault β}
    {y : β} (h : x >>= f = .ok y) : ∃ a, x = .ok a ∧ f a = .ok y := by
  cases x with
  | error fault => cases h
  | ok a => exact ⟨a, rfl, h⟩

theorem length_of_readNumber {input rest : List UInt8} {number : Number}
    (h : readNumber double input = .ok (number, rest)) : rest.length < input.length := by
  unfold readNumber at h
  split at h
  · obtain ⟨⟨numeral, tail⟩, hn, h⟩ := ok_of_bind h
    obtain ⟨value, -, h⟩ := ok_of_bind h
    cases h
    exact Nat.lt_of_lt_of_le (length_of_scanNumeral hn) (length_skipBlanks_le input)
  · cases h

theorem length_of_readSigma {input rest : List UInt8} {sigma : Single}
    (h : readSigma double input = .ok (sigma, rest)) : rest.length < input.length := by
  obtain ⟨⟨number, tail⟩, hn, h⟩ := ok_of_bind h
  cases h
  exact length_of_readNumber double hn

theorem length_of_readCutoff {input rest : List UInt8} {cutoff : Option UInt64}
    (h : readCutoff double input = .ok (cutoff, rest)) : rest.length < input.length := by
  unfold readCutoff at h
  split at h
  · next hb =>
    obtain ⟨tail, he, h⟩ := ok_of_bind h
    cases h
    exact Nat.lt_of_le_of_lt (length_expect_le he) (length_of_skipBlanks_cons hb)
  · obtain ⟨⟨number, tail⟩, hn, h⟩ := ok_of_bind h
    have shorter := length_of_readNumber double hn
    cases number with
    | natural n => cases h; exact shorter
    | negative n => cases h
    | real x => cases h

theorem length_of_skipValue {input rest : List UInt8} (h : skipValue input = .ok rest) :
    rest.length ≤ input.length := by
  unfold skipValue at h
  exact length_of_skipFrom h

theorem length_of_readMember {m n : Members} {key : String} {input rest : List UInt8}
    (h : readMember double m key input = .ok (n, rest)) : rest.length < input.length := by
  unfold readMember at h
  repeat' split at h
  · cases h
  · obtain ⟨⟨sigma, last⟩, hs, h⟩ := ok_of_bind h
    obtain ⟨tail, hc, hs⟩ := ok_of_bind hs
    cases h
    exact Nat.lt_trans (length_of_readSigma double hs) (length_of_skipColon hc)
  · cases h
  · obtain ⟨⟨cutoff, last⟩, hs, h⟩ := ok_of_bind h
    obtain ⟨tail, hc, hs⟩ := ok_of_bind hs
    cases h
    exact Nat.lt_trans (length_of_readCutoff double hs) (length_of_skipColon hc)
  · obtain ⟨last, hs, h⟩ := ok_of_bind h
    obtain ⟨tail, hc, hs⟩ := ok_of_bind hs
    cases h
    exact Nat.lt_of_le_of_lt (length_of_skipValue hs) (length_of_skipColon hc)

theorem length_of_openKey {input rest : List UInt8} (h : openKey input = .ok rest) :
    rest.length < input.length := by
  unfold openKey at h
  split at h
  · cases h
  · next hb =>
    split at h
    · cases h; exact length_of_skipBlanks_cons hb
    · cases h

theorem length_of_beforeKey {first : Bool} {input rest : List UInt8}
    (h : beforeKey first input = .ok rest) : rest.length < input.length := by
  unfold beforeKey at h
  split at h
  · exact length_of_openKey h
  · split at h
    · exact Nat.lt_succ_of_lt (length_of_openKey h)
    · cases h

theorem length_of_nextKey {first : Bool} {input rest : List UInt8} {key : Option String}
    (h : nextKey first input = .ok (key, rest)) : rest.length < input.length := by
  unfold nextKey at h
  split at h
  · cases h
  · next c tail hb =>
    have := length_of_skipBlanks_cons hb
    split at h
    · cases h; assumption
    · obtain ⟨opened, ho, h⟩ := ok_of_bind h
      obtain ⟨⟨text, last⟩, ht, h⟩ := ok_of_bind h
      cases h
      have := length_of_beforeKey ho
      have := length_of_readText ht
      simp only [List.length_cons] at *
      omega

/-- The members of an object up to its end. -/
def readMembers (first : Bool) (m : Members) (input : List UInt8) :
    Except DocumentFault (Settings × List UInt8) :=
  match _hk : nextKey first input with
  | .error fault => .error fault
  | .ok (none, rest) => .ok (m.toSettings, rest)
  | .ok (some key, rest) =>
    match _hm : readMember double m key rest with
    | .error fault => .error fault
    | .ok (n, rest) => readMembers false n rest
termination_by input.length
decreasing_by
  have := length_of_nextKey _hk
  have := length_of_readMember double _hm
  omega

/-- The end of a list after its second element. -/
def endList (settings : Settings) (input : List UInt8) :
    Except DocumentFault (Settings × List UInt8) :=
  match skipBlanks input with
  | [] => .error .truncated
  | c :: rest => if c = closeBracket then .ok (settings, rest) else .error .malformed

/-- The rest of a list after its first element. -/
def readSecond (sigma : Single) (input : List UInt8) :
    Except DocumentFault (Settings × List UInt8) :=
  match skipBlanks input with
  | [] => .error .truncated
  | c :: rest =>
    if c = closeBracket then .ok (⟨sigma, none⟩, rest)
    else if c = comma then
      match skipBlanks rest with
      | [] => .error .truncated
      | d :: tail =>
        if d = closeBracket then .error .malformed
        else do
          let (cutoff, rest) ← readCutoff double (d :: tail)
          endList ⟨sigma, cutoff⟩ rest
    else .error .malformed

/-- The elements of a list up to its end. -/
def readElements (input : List UInt8) : Except DocumentFault (Settings × List UInt8) :=
  match skipBlanks input with
  | [] => .error .truncated
  | c :: rest =>
    if c = closeBracket then .ok (default, rest)
    else do
      let (sigma, rest) ← readSigma double (c :: rest)
      readSecond double sigma rest

/-- The settings at the front of a text. -/
def readValue (input : List UInt8) : Except DocumentFault (Settings × List UInt8) :=
  match skipBlanks input with
  | openBrace :: rest => readMembers double true ⟨none, none⟩ rest
  | openBracket :: rest => readElements double rest
  | _ => .error (refuse double input)

/-- Read a document as a whole; nothing but blanks may follow the value. -/
def ofDocument (input : List UInt8) : Except DocumentFault Settings := do
  let (settings, rest) ← readValue double input
  if skipBlanks rest = [] then return settings else throw .malformed

end Scanning

def octets (text : List Char) : List UInt8 := text.map fun c => .ofNat c.toNat

/-- The document of some settings. A width that is no number is written as null. -/
def toDocument (s : Settings) : List UInt8 :=
  let null := "null".toList
  let sigma := if s.sigma.isFinite then s.sigma.compactText else null
  let cutoff := match s.cutoff with
    | some n => (Nat.repr n.toNat).toList
    | none => null
  let key (name : String) := '"' :: name.toList ++ ['"', ':']
  octets ('\x7b' :: key sigmaKey ++ sigma ++ ',' :: key cutoffKey ++ cutoff ++ ['\x7d'])

end Settings

namespace DocumentLibrary

open Settings

/-- The library that scans documents, where a conversion of numerals to doubles is given. -/
def scanner (double : Numeral → Except DocumentFault Double) : DocumentLibrary where
  pieces s := [s.toDocument]
  read := ofDocument double
  openObject input :=
    match skipBlanks input with
    | openBrace :: rest => .ok rest
    | _ => .error (refuse double input)
  members := readMembers double
  nextKey := Settings.nextKey
  single := afterColon (readSigma double)
  word? := afterColon (readCutoff double)
  ignored := afterColon skipValue
  finish input := if skipBlanks input = [] then .ok () else .error .malformed
  double := double

/-- The scanner that scales the leading digits of a number by a power of ten. -/
def scaling : DocumentLibrary := scanner Numeral.toDouble

end DocumentLibrary

end VisualIndex
