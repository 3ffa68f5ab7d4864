import VisualIndex.Json.Lexical

/-! JSON strings, from after the opening quote.

A string that is skipped is checked for its grammar alone. One that is read is also
decoded: escapes become characters, surrogates have to come in pairs, and the octets
have to be UTF-8 as a whole. -/
namespace VisualIndex.Json

/-- What a backslash and a letter stand for. -/
def shortEscape? : UInt8 → Option UInt8
  | quote => some quote
  | backslash => some backslash
  | slash => some slash
  | letterB => some 0x08
  | letterF => some 0x0c
  | letterN => some 0x0a
  | letterR => some 0x0d
  | letterT => some 0x09
  | _ => none

/-- Skip a string. -/
def skipText : List UInt8 → Except DocumentFault (List UInt8)
  | [] => .error .truncated
  | quote :: rest => .ok rest
  | backslash :: letterU :: a :: b :: c :: d :: rest =>
    if (hexUnit? a b c d).isSome then skipText rest else .error .malformed
  | backslash :: letterU :: _ => .error .truncated
  | backslash :: c :: rest =>
    if (shortEscape? c).isSome then skipText rest else .error .malformed
  | [backslash] => .error .truncated
  | c :: rest => if c < 0x20 then .error .malformed else skipText rest

/-- A code unit that opens a surrogate pair. -/
def isLeading (unit : Nat) : Bool := 0xd800 ≤ unit && unit < 0xdc00

/-- A code unit that closes a surrogate pair. -/
def isTrailing (unit : Nat) : Bool := 0xdc00 ≤ unit && unit < 0xe000

/-- The UTF-8 octets of a scalar value. -/
def octetsOf (scalar : Nat) : List UInt8 := String.utf8EncodeChar (Char.ofNat scalar)

/-- The scalar value of a surrogate pair. -/
def joinSurrogates (leading trailing : Nat) : Nat :=
  0x10000 + (leading - 0xd800) * 0x400 + (trailing - 0xdc00)

/-- Decoded octets and the rest of the text. -/
abbrev Decoded := Except DocumentFault (List UInt8 × List UInt8)

/-- Put decoded octets in front of what follows. -/
def prepend (octets : List UInt8) : Decoded → Decoded
  | .ok (more, rest) => .ok (octets ++ more, rest)
  | .error fault => .error fault

/-- Decode a string to octets. -/
def readOctets : List UInt8 → Decoded
  | [] => .error .truncated
  | quote :: rest => .ok ([], rest)
  | backslash :: letterU :: a :: b :: c :: d :: rest =>
    match hexUnit? a b c d with
    | none => .error .malformed
    | some unit =>
      if isTrailing unit then .error .malformed
      else if isLeading unit then
        match rest with
        | backslash :: letterU :: e :: f :: g :: h :: rest =>
          match hexUnit? e f g h with
          | none => .error .malformed
          | some low =>
            if isTrailing low then prepend (octetsOf (joinSurrogates unit low)) (readOctets rest)
            else .error .malformed
        | backslash :: letterU :: _ => .error .truncated
        | [backslash] => .error .truncated
        | [] => .error .truncated
        | _ => .error .malformed
      else prepend (octetsOf unit) (readOctets rest)
  | backslash :: letterU :: _ => .error .truncated
  | backslash :: c :: rest =>
    match shortEscape? c with
    | some octet => prepend [octet] (readOctets rest)
    | none => .error .malformed
  | [backslash] => .error .truncated
  | c :: rest => if c < 0x20 then .error .malformed else prepend [c] (readOctets rest)

/-- Read a string. -/
def readText (input : List UInt8) : Except DocumentFault (String × List UInt8) :=
  match readOctets input with
  | .error fault => .error fault
  | .ok (octets, rest) =>
    match String.fromUTF8? ⟨octets.toArray⟩ with
    | some text => .ok (text, rest)
    | none => .error .malformed

theorem length_of_skipText {input rest : List UInt8} (h : skipText input = .ok rest) :
    rest.length < input.length := by
  fun_induction skipText input <;> simp_all <;> omega

theorem length_of_prepend {octets decoded rest : List UInt8} {bound : Nat} {r : Decoded}
    (h : prepend octets r = .ok (decoded, rest))
    (tail : ∀ {more}, r = .ok (more, rest) → rest.length < bound) : rest.length < bound := by
  cases r with
  | error fault => cases h
  | ok p =>
    obtain ⟨more, last⟩ := p
    cases h
    exact tail rfl

theorem length_of_readOctets {input decoded rest : List UInt8}
    (h : readOctets input = .ok (decoded, rest)) : rest.length < input.length := by
  fun_induction readOctets input generalizing decoded with
  | case2 => cases h; exact Nat.lt_succ_self _
  | case6 => rename_i ih; have := length_of_prepend h ih; simp only [List.length_cons]; omega
  | case12 => rename_i ih; have := length_of_prepend h ih; simp only [List.length_cons]; omega
  | case14 => rename_i ih; have := length_of_prepend h ih; simp only [List.length_cons]; omega
  | case18 => rename_i ih; exact Nat.lt_succ_of_lt (length_of_prepend h ih)
  | _ => cases h

theorem length_of_readText {input rest : List UInt8} {text : String}
    (h : readText input = .ok (text, rest)) : rest.length < input.length := by
  unfold readText at h
  split at h
  · cases h
  · next octets tail hr =>
    split at h
    · cases h
      exact length_of_readOctets hr
    · cases h

end VisualIndex.Json
