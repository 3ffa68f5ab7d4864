import VisualIndex.Error

/-! The marks of JSON text, judged octet by octet from left to right.

Scanners take the rest of a text and answer with what remains after the part they know.
The first problem counts: a text that ends too early is truncated, any other departure
from the grammar is malformed. -/
namespace VisualIndex.Json

@[match_pattern] abbrev quote : UInt8 := 0x22
@[match_pattern] abbrev plus : UInt8 := 0x2b
@[match_pattern] abbrev comma : UInt8 := 0x2c
@[match_pattern] abbrev minus : UInt8 := 0x2d
@[match_pattern] abbrev point : UInt8 := 0x2e
@[match_pattern] abbrev slash : UInt8 := 0x2f
@[match_pattern] abbrev zeroDigit : UInt8 := 0x30
@[match_pattern] abbrev colon : UInt8 := 0x3a
@[match_pattern] abbrev openBracket : UInt8 := 0x5b
@[match_pattern] abbrev backslash : UInt8 := 0x5c
@[match_pattern] abbrev closeBracket : UInt8 := 0x5d
@[match_pattern] abbrev letterB : UInt8 := 0x62
@[match_pattern] abbrev letterF : UInt8 := 0x66
@[match_pattern] abbrev letterN : UInt8 := 0x6e
@[match_pattern] abbrev letterR : UInt8 := 0x72
@[match_pattern] abbrev letterT : UInt8 := 0x74
@[match_pattern] abbrev letterU : UInt8 := 0x75
@[match_pattern] abbrev openBrace : UInt8 := 0x7b
@[match_pattern] abbrev closeBrace : UInt8 := 0x7d

/-- Blank, line feed, tabulator and carriage return. -/
def isBlank (c : UInt8) : Bool := c = 0x20 || c = 0x0a || c = 0x09 || c = 0x0d

def skipBlanks (input : List UInt8) : List UInt8 := input.dropWhile isBlank

def isDigit (c : UInt8) : Bool := zeroDigit ≤ c && c ≤ 0x39

def digitValue (c : UInt8) : Nat := c.toNat - zeroDigit.toNat

/-- The value of a hexadecimal digit of either case. -/
def hexValue? (c : UInt8) : Option Nat :=
  if isDigit c then some (digitValue c)
  else if 0x61 ≤ c && c ≤ 0x66 then some (c.toNat - 0x57)
  else if 0x41 ≤ c && c ≤ 0x46 then some (c.toNat - 0x37)
  else none

/-- The value of four hexadecimal digits. -/
def hexUnit? (a b c d : UInt8) : Option Nat := do
  let w ← hexValue? a
  let x ← hexValue? b
  let y ← hexValue? c
  let z ← hexValue? d
  return ((w * 16 + x) * 16 + y) * 16 + z

/-- The rest of a name whose first letter has been seen. -/
def expect : List UInt8 → List UInt8 → Except DocumentFault (List UInt8)
  | [], input => .ok input
  | _ :: _, [] => .error .truncated
  | c :: name, d :: input => if c = d then expect name input else .error .malformed

/-- The letters of `null`, `true` and `false` after the first. -/
def nullRest : List UInt8 := [0x75, 0x6c, 0x6c]
def trueRest : List UInt8 := [0x72, 0x75, 0x65]
def falseRest : List UInt8 := [0x61, 0x6c, 0x73, 0x65]

theorem length_skipBlanks_le (input : List UInt8) : (skipBlanks input).length ≤ input.length :=
  (List.dropWhile_sublist isBlank).length_le

theorem length_of_skipBlanks_cons {c : UInt8} {input rest : List UInt8}
    (h : skipBlanks input = c :: rest) : rest.length < input.length := by
  have := length_skipBlanks_le input
  rw [h, List.length_cons] at this
  exact this

theorem length_expect_le {name input rest : List UInt8} (h : expect name input = .ok rest) :
    rest.length ≤ input.length := by
  fun_induction expect name input with
  | case1 => cases h; exact Nat.le_refl _
  | case2 => cases h
  | case3 _ _ _ ih => exact Nat.le_succ_of_le (ih h)
  | case4 => cases h

end VisualIndex.Json
