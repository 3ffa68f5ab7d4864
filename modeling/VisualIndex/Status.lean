/-! The status byte of a posting list.

Two of its bits carry a meaning; the others are kept as they are. -/
namespace VisualIndex

structure Status where
  bits : UInt8
  deriving DecidableEq

namespace Status

/-- Neither trained nor sorted. -/
def blank : Status := ⟨0⟩

/-- The thresholds have been learned. -/
def trained : Status := ⟨1⟩

/-- The postings are in the order of their image ids. -/
def sorted : Status := ⟨2⟩

/-- Trained and sorted, as scoring asks for. -/
def ready : Status := ⟨3⟩

/-- Whether all bits of `t` are set. -/
def contains (s t : Status) : Bool := s.bits &&& t.bits = t.bits

def insert (s t : Status) : Status := ⟨s.bits ||| t.bits⟩

def remove (s t : Status) : Status := ⟨s.bits &&& ~~~t.bits⟩

def isReady (s : Status) : Bool := s.contains ready

def text (s : Status) : String :=
  let flag (value : Bool) := if value then "true" else "false"
  let embedding := flag (s.contains trained)
  let order := flag (s.contains sorted)
  s!"Status[embedding: {embedding}, sorted: {order}]"

end Status

end VisualIndex
