import VisualIndex.Stream.Fault

/-! Reading bytes.

A source hands out its bytes in calls of limited size. `readExactly` repeats calls until
it has what it wants: an interruption is retried, an end of data is an error, and
wanting nothing makes no call. -/
namespace VisualIndex

structure Source where
  rest : List UInt8
  taken : Nat
  chunk : Chunking
  fault : Option StreamFault

namespace Source

/-- A source over some bytes, with no limit and no fault. -/
def ofBytes (bytes : List UInt8) : Source := ⟨bytes, 0, .uniform none, none⟩

/-- The source after its next `n` bytes have been handed out. -/
def advance (s : Source) (n : Nat) : Source :=
  { s with rest := s.rest.drop n, taken := s.taken + n }

/-- One call for at most `want` bytes. No bytes mean that there are none to come. -/
def call (s : Source) (want : Nat) : Except IoError (List UInt8) × Source :=
  match faultAt? s.fault s.taken with
  | some ⟨_, .stall⟩ => (.ok [], s)
  | some ⟨_, .fail error⟩ =>
    (.error error, if error.cause = .interrupted then { s with fault := none } else s)
  | none =>
    let part := s.rest.take (callLimit s.chunk s.fault s.taken want)
    (.ok part, s.advance part.length)

/-- What a call can come to: a stall, a failure, or the part that it may hand out. -/
theorem call_cases {s t : Source} {want : Nat} {outcome : Except IoError (List UInt8)}
    (h : s.call want = (outcome, t)) :
    (∃ position, faultAt? s.fault s.taken = some ⟨position, .stall⟩ ∧ outcome = .ok [] ∧ t = s) ∨
    (∃ position error, faultAt? s.fault s.taken = some ⟨position, .fail error⟩ ∧
      outcome = .error error ∧
      t = if error.cause = .interrupted then { s with fault := none } else s) ∨
    ∃ part, faultAt? s.fault s.taken = none ∧
      part = s.rest.take (callLimit s.chunk s.fault s.taken want) ∧
      outcome = .ok part ∧ t = s.advance part.length := by
  rw [call] at h
  split at h
  · next position here =>
    cases h
    exact Or.inl ⟨position, here, rfl, rfl⟩
  · next position error here =>
    cases h
    exact Or.inr (Or.inl ⟨position, error, here, rfl, rfl⟩)
  · next here =>
    cases h
    exact Or.inr (Or.inr ⟨_, here, rfl, rfl, rfl⟩)

theorem fault_of_call_ok {s t : Source} {want : Nat} {part : List UInt8}
    (h : s.call want = (.ok part, t)) : t.fault = s.fault := by
  rcases call_cases h with ⟨_, _, _, rfl⟩ | ⟨_, _, _, failed, _⟩ | ⟨_, _, _, _, rfl⟩
  · rfl
  · cases failed
  · rfl

theorem retriesLeft_of_call_interrupted {s t : Source} {want : Nat} {error : IoError}
    (h : s.call want = (.error error, t)) (hc : error.cause = .interrupted) :
    retriesLeft t.fault < retriesLeft s.fault := by
  rcases call_cases h with ⟨_, _, passed, _⟩ | ⟨_, _, here, failed, rfl⟩ | ⟨_, _, _, passed, _⟩
  · cases passed
  · obtain ⟨hs, -⟩ := faultAt?_eq_some here
    cases failed
    simp [hs, hc, retriesLeft, StreamFault.isInterruption]
  · cases passed

/-- Exactly `want` bytes, over as many calls as it takes. When it fails, what was
handed out until then is gone. -/
def readExactly (s : Source) (want : Nat) : Except IoError (List UInt8) × Source :=
  if want = 0 then (.ok [], s)
  else
    match _h : s.call want with
    | (.error error, t) =>
      if error.cause = .interrupted then t.readExactly want else (.error error, t)
    | (.ok [], t) => (.error ⟨.unexpectedEnd, none⟩, t)
    | (.ok (byte :: more), t) =>
      match t.readExactly (want - (byte :: more).length) with
      | (.ok tail, u) => (.ok (byte :: more ++ tail), u)
      | (.error error, u) => (.error error, u)
termination_by want + retriesLeft s.fault
decreasing_by
  · have := retriesLeft_of_call_interrupted _h (by assumption)
    omega
  · rw [fault_of_call_ok _h]
    simp only [List.length_cons]
    omega

end Source

end VisualIndex
