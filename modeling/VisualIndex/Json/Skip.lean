import VisualIndex.Json.Numeral
import VisualIndex.Json.Text

/-! Skipping a JSON value.

A skipped value is checked for the grammar and nothing else. The lists and objects that
are open are kept on a stack, so nesting has no limit. -/
namespace VisualIndex.Json

inductive Enclosure where
  | list | object
  deriving DecidableEq

/-- The mark that ends a list or an object. -/
def Enclosure.close : Enclosure → UInt8
  | list => closeBracket
  | object => closeBrace

/-- A value without parts, or the opening mark of a list or an object. -/
def skipOpening (input : List UInt8) : Except DocumentFault (Option Enclosure × List UInt8) :=
  match skipBlanks input with
  | [] => .error .truncated
  | openBracket :: rest => .ok (some .list, rest)
  | openBrace :: rest => .ok (some .object, rest)
  | c :: rest =>
    let scalar : Except DocumentFault (List UInt8) :=
      if c = letterN then expect nullRest rest
      else if c = letterT then expect trueRest rest
      else if c = letterF then expect falseRest rest
      else if c = quote then skipText rest
      else if c = minus || isDigit c then (·.2) <$> scanNumeral .malformed (c :: rest)
      else .error .malformed
    match scalar with
    | .ok rest => .ok (none, rest)
    | .error fault => .error fault

/-- The colon after a key. -/
def skipColon (input : List UInt8) : Except DocumentFault (List UInt8) :=
  match skipBlanks input with
  | [] => .error .truncated
  | c :: rest => if c = colon then .ok rest else .error .malformed

/-- What stands before a value in a list or an object: in an object the key. -/
def skipLabel (e : Enclosure) (input : List UInt8) : Except DocumentFault (List UInt8) :=
  match e with
  | .list => .ok input
  | .object =>
    match skipBlanks input with
    | [] => .error .truncated
    | c :: rest =>
      if c = quote then
        match skipText rest with
        | .ok rest => skipColon rest
        | .error fault => .error fault
      else .error .malformed

theorem length_of_skipColon {input rest : List UInt8} (h : skipColon input = .ok rest) :
    rest.length < input.length := by
  unfold skipColon at h
  split at h
  · cases h
  · next hb =>
    split at h
    · cases h; exact length_of_skipBlanks_cons hb
    · cases h

theorem length_of_skipLabel {e : Enclosure} {input rest : List UInt8}
    (h : skipLabel e input = .ok rest) : rest.length ≤ input.length := by
  cases e with
  | list => cases h; exact Nat.le_refl _
  | object =>
    simp only [skipLabel] at h
    split at h
    · cases h
    · next hb =>
      have := length_of_skipBlanks_cons hb
      split at h
      · split at h
        · next ht =>
          have := length_of_skipText ht
          have := length_of_skipColon h
          omega
        · cases h
      · cases h

theorem length_of_skipOpening {input rest : List UInt8} {opened : Option Enclosure}
    (h : skipOpening input = .ok (opened, rest)) : rest.length < input.length := by
  unfold skipOpening at h
  split at h
  · cases h
  · next hb => cases h; exact length_of_skipBlanks_cons hb
  · next hb => cases h; exact length_of_skipBlanks_cons hb
  · next c tail _ _ hb =>
    have shorter := length_of_skipBlanks_cons hb
    simp only at h
    split at h
    · next after hs =>
      cases h
      suffices rest.length ≤ tail.length by omega
      repeat' split at hs
      · exact length_expect_le hs
      · exact length_expect_le hs
      · exact length_expect_le hs
      · exact Nat.le_of_lt (length_of_skipText hs)
      · rcases hn : scanNumeral .malformed (c :: tail) with fault | ⟨n, last⟩
        · rw [hn] at hs; cases hs
        · rw [hn] at hs
          cases hs
          exact Nat.le_of_lt_succ (length_of_scanNumeral hn)
      · cases hs
    · cases h

/-- The states of a skip: a value is expected, a list or an object has just been opened,
or a value has just ended. -/
inductive SkipState where
  | value | opened | ended

/-- Skip up to the end of the outermost value, with the open enclosures innermost
first. -/
def skipFrom (state : SkipState) (stack : List Enclosure) (input : List UInt8) :
    Except DocumentFault (List UInt8) :=
  match state, stack with
  | .value, _ =>
    match _h : skipOpening input with
    | .error fault => .error fault
    | .ok (none, rest) => skipFrom .ended stack rest
    | .ok (some e, rest) => skipFrom .opened (e :: stack) rest
  | _, [] => .ok input
  | .opened, e :: outer =>
    match _h : skipBlanks input with
    | [] => .error .truncated
    | c :: rest =>
      if c = e.close then skipFrom .ended outer rest
      else
        match _hl : skipLabel e (c :: rest) with
        | .error fault => .error fault
        | .ok next => skipFrom .value stack next
  | .ended, e :: outer =>
    match _h : skipBlanks input with
    | [] => .error .truncated
    | c :: rest =>
      if c = e.close then skipFrom .ended outer rest
      else if c = comma then
        match _hl : skipLabel e rest with
        | .error fault => .error fault
        | .ok next => skipFrom .value stack next
      else .error .malformed
termination_by 2 * input.length + (match state with | .opened => 1 | _ => 0)
decreasing_by
  · have := length_of_skipOpening _h
    omega
  · have := length_of_skipOpening _h
    omega
  · have := length_of_skipBlanks_cons _h
    omega
  · have := length_of_skipLabel _hl
    have := length_skipBlanks_le input
    rw [_h] at this
    omega
  · have := length_of_skipBlanks_cons _h
    omega
  · have := length_of_skipBlanks_cons _h
    have := length_of_skipLabel _hl
    omega

theorem length_of_skipFrom {state : SkipState} {stack : List Enclosure} {input rest : List UInt8}
    (h : skipFrom state stack input = .ok rest) : rest.length ≤ input.length := by
  fun_induction skipFrom state stack input with
  | case2 _ input next hs ih => have := length_of_skipOpening hs; have := ih h; omega
  | case3 _ input e next hs ih => have := length_of_skipOpening hs; have := ih h; omega
  | case4 => cases h; exact Nat.le_refl _
  | case6 => rename_i hb ih; have := length_of_skipBlanks_cons hb; have := ih h; omega
  | case8 input e outer c tail hb _ next hl ih =>
    have := length_skipBlanks_le input
    have := length_of_skipLabel hl
    have := ih h
    rw [hb] at *
    omega
  | case10 => rename_i hb ih; have := length_of_skipBlanks_cons hb; have := ih h; omega
  | case12 input e outer tail next hl hb _ ih =>
    have := length_of_skipBlanks_cons hb
    have := length_of_skipLabel hl
    have := ih h
    omega
  | _ => cases h

/-- Skip one value. -/
def skipValue (input : List UInt8) : Except DocumentFault (List UInt8) := skipFrom .value [] input

end VisualIndex.Json
