import VisualIndex.Stream.Fault

/-! Writing bytes.

A sink takes bytes in calls of limited size. `writeAll` repeats calls until everything
is taken: an interruption is retried, a call that takes nothing is an error, and
writing nothing makes no call. What has been taken stays written. Beside its fault a sink
can interrupt one call, so that an interruption can come before a failure that stays. -/
namespace VisualIndex

structure Sink where
  written : Array UInt8
  chunk : Chunking
  fault : Option StreamFault
  /-- With this many bytes taken, one call is interrupted. -/
  interruption : Option Nat

namespace Sink

/-- A sink that holds nothing yet, with no limit and no fault. -/
def empty : Sink := ⟨#[], .uniform none, none, none⟩

/-- The sink after taking some bytes. -/
def accept (s : Sink) (bytes : List UInt8) : Sink :=
  { s with written := s.written.appendList bytes }

/-- One call with `bytes` to write; it answers how many were taken. -/
def call (s : Sink) (bytes : List UInt8) : Except IoError Nat × Sink :=
  if s.interruption = some s.written.size then
    (.error ⟨.interrupted, none⟩, { s with interruption := none })
  else
    match faultAt? s.fault s.written.size with
    | some ⟨_, .stall⟩ => (.ok 0, s)
    | some ⟨_, .fail error⟩ =>
      (.error error, if error.cause = .interrupted then { s with fault := none } else s)
    | none =>
      let part := bytes.take (callLimit s.chunk s.fault s.written.size bytes.length)
      (.ok part.length, s.accept part)

/-- What a call can come to: the interruption, a stall, a failure, or taking the part that it
may take. -/
theorem call_cases {s t : Sink} {bytes : List UInt8} {outcome : Except IoError Nat}
    (h : s.call bytes = (outcome, t)) :
    (s.interruption = some s.written.size ∧ outcome = .error ⟨.interrupted, none⟩ ∧
      t = { s with interruption := none }) ∨
    (∃ position, faultAt? s.fault s.written.size = some ⟨position, .stall⟩ ∧
      outcome = .ok 0 ∧ t = s) ∨
    (∃ position error, faultAt? s.fault s.written.size = some ⟨position, .fail error⟩ ∧
      outcome = .error error ∧
      t = if error.cause = .interrupted then { s with fault := none } else s) ∨
    ∃ part, faultAt? s.fault s.written.size = none ∧
      part = bytes.take (callLimit s.chunk s.fault s.written.size bytes.length) ∧
      outcome = .ok part.length ∧ t = s.accept part := by
  rw [call] at h
  split at h
  · next due =>
    cases h
    exact Or.inl ⟨due, rfl, rfl⟩
  split at h
  · next position here =>
    cases h
    exact Or.inr (Or.inl ⟨position, here, rfl, rfl⟩)
  · next position error here =>
    cases h
    exact Or.inr (Or.inr (Or.inl ⟨position, error, here, rfl, rfl⟩))
  · next here =>
    cases h
    exact Or.inr (Or.inr (Or.inr ⟨_, here, rfl, rfl, rfl⟩))

/-- The interruptions that are still to come. -/
def retries (s : Sink) : Nat :=
  retriesLeft s.fault + if s.interruption.isSome then 1 else 0

theorem retries_of_call_ok {s t : Sink} {bytes : List UInt8} {taken : Nat}
    (h : s.call bytes = (.ok taken, t)) : t.retries = s.retries := by
  rcases call_cases h with ⟨_, failed, _⟩ | ⟨_, _, _, rfl⟩ | ⟨_, _, _, failed, _⟩ |
    ⟨_, _, _, _, rfl⟩
  · cases failed
  · rfl
  · cases failed
  · rfl

theorem retries_of_call_interrupted {s t : Sink} {bytes : List UInt8} {error : IoError}
    (h : s.call bytes = (.error error, t)) (hc : error.cause = .interrupted) :
    t.retries < s.retries := by
  rcases call_cases h with ⟨due, _, rfl⟩ | ⟨_, _, passed, _⟩ | ⟨_, _, here, failed, rfl⟩ |
    ⟨_, _, _, passed, _⟩
  · simp [retries, due]
  · cases passed
  · obtain ⟨hs, -⟩ := faultAt?_eq_some here
    cases failed
    simp [retries, hs, hc, retriesLeft, StreamFault.isInterruption]
  · cases passed

/-- All of `bytes`, over as many calls as it takes. -/
def writeAll (s : Sink) (bytes : List UInt8) : Except IoError Unit × Sink :=
  if bytes = [] then (.ok (), s)
  else
    match _h : s.call bytes with
    | (.error error, t) =>
      if error.cause = .interrupted then t.writeAll bytes else (.error error, t)
    | (.ok 0, t) => (.error ⟨.acceptedNothing, none⟩, t)
    | (.ok (taken + 1), t) => t.writeAll (bytes.drop (taken + 1))
termination_by bytes.length + s.retries
decreasing_by
  · have := retries_of_call_interrupted _h (by assumption)
    omega
  · have := List.length_pos_iff.2 (by assumption : ¬bytes = [])
    rw [retries_of_call_ok _h, List.length_drop]
    omega

end Sink

end VisualIndex
