import VisualIndex.Error

/-! A stream's one fault.

A fault is met once exactly `position` bytes have passed; calls stop short there so
that it cannot be stepped over. An interruption is over after one call, any other
failure stays. A stalled stream neither gives nor takes any more bytes. -/
namespace VisualIndex

/-- What happens at the fault's position. -/
inductive FaultEffect where
  | fail (error : IoError)
  | stall
  deriving DecidableEq

structure StreamFault where
  position : Nat
  effect : FaultEffect
  deriving DecidableEq

namespace StreamFault

def isInterruption (f : StreamFault) : Bool :=
  match f.effect with
  | .fail error => error.cause = .interrupted
  | .stall => false

end StreamFault

/-- The fault met after `passed` bytes, if it is there. -/
def faultAt? (fault : Option StreamFault) (passed : Nat) : Option StreamFault :=
  fault.filter (·.position = passed)

theorem faultAt?_eq_some {fault : Option StreamFault} {passed : Nat} {f : StreamFault}
    (h : faultAt? fault passed = some f) : fault = some f ∧ f.position = passed := by
  simpa [faultAt?, Option.filter_eq_some_iff] using h

/-- How a stream is cut into calls: the most bytes that a call may move, by the number of
bytes that passed before it. Calls that move bytes stand at different numbers, so calls of
any sizes can follow one another. -/
structure Chunking where
  limit : Nat → Option Nat

namespace Chunking

/-- One limit for all calls, if there is any. -/
def uniform (size : Option Nat) : Chunking := ⟨fun _ => size⟩

instance : Coe (Option Nat) Chunking := ⟨uniform⟩

/-- What the call after `passed` bytes may move of what is wanted. A chunk holds at least
one byte. -/
def most (c : Chunking) (passed want : Nat) : Nat :=
  match c.limit passed with
  | none => want
  | some size => min want (max size 1)

end Chunking

/-- The bytes one call may move: what is wanted, cut to the call's chunk and to the way
left before the fault. -/
def callLimit (chunk : Chunking) (fault : Option StreamFault) (passed want : Nat) : Nat :=
  match fault with
  | none => chunk.most passed want
  | some f =>
    if passed < f.position then min (chunk.most passed want) (f.position - passed)
    else chunk.most passed want

/-- 1 while an interruption is still to come, counting the retries left. -/
def retriesLeft (fault : Option StreamFault) : Nat :=
  match fault with
  | none => 0
  | some f => if f.isInterruption then 1 else 0

end VisualIndex
