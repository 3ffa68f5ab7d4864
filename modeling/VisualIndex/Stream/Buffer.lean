import VisualIndex.Stream.Sink

/-! Writing through a buffer.

A buffer holds bytes back until there are too many of them, and passes a part that would
fill it alone straight on. A flush passes on what is held and tells whether the sink took
it. Closing passes it on as well, but nobody is told what has been lost then. -/
namespace VisualIndex

/-- A sink behind the bytes that are held back from it. -/
structure Buffered where
  sink : Sink
  held : List UInt8

namespace Buffered

/-- The most bytes that are held back. -/
def capacity : Nat := 8192

/-- A buffer that holds nothing yet. -/
def onto (sink : Sink) : Buffered := ⟨sink, []⟩

def hold (w : Buffered) (bytes : List UInt8) : Buffered := { w with held := w.held ++ bytes }

/-- Pass on what is held; what the sink does not take stays. -/
def flush (w : Buffered) : Except IoError Unit × Buffered :=
  let (outcome, sink) := w.sink.writeAll w.held
  (outcome, ⟨sink, w.held.drop (sink.written.size - w.sink.written.size)⟩)

/-- Write past the buffer. -/
def pass (w : Buffered) (bytes : List UInt8) : Except IoError Unit × Buffered :=
  let (outcome, sink) := w.sink.writeAll bytes
  (outcome, { w with sink })

/-- Hold some bytes for which there is room, or pass them on. -/
def store (w : Buffered) (bytes : List UInt8) : Except IoError Unit × Buffered :=
  if bytes.length < capacity then (.ok (), w.hold bytes) else w.pass bytes

/-- Take some bytes, after a flush if there is no room for them. -/
def writeAll (w : Buffered) (bytes : List UInt8) : Except IoError Unit × Buffered :=
  let spare := capacity - w.held.length
  if bytes.length < spare then (.ok (), w.hold bytes)
  else if bytes.length = spare then w.store bytes
  else
    match w.flush with
    | (.error error, t) => (.error error, t)
    | (.ok (), t) => t.store bytes

/-- The sink once all that is held has been passed on, as far as the sink takes it. -/
def close (w : Buffered) : Sink := w.flush.2.sink

end Buffered

end VisualIndex
