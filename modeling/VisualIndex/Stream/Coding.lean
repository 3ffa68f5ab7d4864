import VisualIndex.LittleEndian
import VisualIndex.Number.Single
import VisualIndex.Stream.Buffer
import VisualIndex.Stream.Source

/-! Reading and writing values.

A `Reading` consumes a source and a `WritingTo` fills something that can be written to;
both stop at the first error and keep what has passed until then. Numbers are stored least
significant byte first, and a single is stored as its bits, whatever they mean. -/
namespace VisualIndex

/-- A computation that reads from a source. -/
abbrev Reading (ε : Type) := ExceptT ε (StateM Source)

/-- What bytes can be written to. -/
class Writer (σ : Type) where
  /-- Write all of some bytes. -/
  writeAll : σ → List UInt8 → Except IoError Unit × σ

instance : Writer Sink := ⟨Sink.writeAll⟩
instance : Writer Buffered := ⟨Buffered.writeAll⟩

/-- A computation that writes. -/
abbrev WritingTo (σ ε : Type) := ExceptT ε (StateM σ)

/-- A computation that writes to a sink. -/
abbrev Writing := WritingTo Sink

/-- The vector of the first `n` elements, filled up where there are fewer. -/
def vectorOf {α : Type} (n : Nat) (filler : α) (xs : List α) : Vector α n :=
  .ofFn fun i => xs.getD i filler

/-- The singles stored in some bytes, four bytes each. -/
def singlesOfBytes : List UInt8 → List Single
  | a :: b :: c :: d :: rest => .ofCode (ofLittleEndian [a, b, c, d]) :: singlesOfBytes rest
  | _ => []

/-- The stored form of a single. -/
def Single.toBytes (x : Single) : List UInt8 := littleEndian 4 x.bits.toNat

namespace Reading

def bytes (n : Nat) : Reading IoError (List UInt8) := fun s => s.readExactly n

def byteVector (n : Nat) : Reading IoError (Vector UInt8 n) := vectorOf n 0 <$> bytes n

def number (width : Nat) : Reading IoError Nat := ofLittleEndian <$> bytes width

def single : Reading IoError Single := Single.ofCode <$> number 4

/-- All of the numbers at once, so that an early end takes every byte that is left. -/
def singles (n : Nat) : Reading IoError (Vector Single n) := do
  let stored ← bytes (4 * n)
  return vectorOf n .zero (singlesOfBytes stored)

end Reading

namespace Writing

variable {σ : Type} [Writer σ]

def bytes (xs : List UInt8) : WritingTo σ IoError Unit := fun w => Writer.writeAll w xs

def number (width n : Nat) : WritingTo σ IoError Unit := bytes (littleEndian width n)

def single (x : Single) : WritingTo σ IoError Unit := bytes x.toBytes

/-- One after the other. -/
def singles {n : Nat} (xs : Vector Single n) : WritingTo σ IoError Unit :=
  xs.toList.forM single

/-- Pass on what a buffer holds. -/
def flush : WritingTo Buffered IoError Unit := fun w => w.flush

end Writing

/-- Reading one field of a record. -/
def RecordField.read {α : Type} (field : RecordField) (r : Reading IoError α) :
    Reading RecordError α := ExceptT.adapt (RecordError.ofReading field) r

/-- Writing a part of a record. -/
def writeField {σ : Type} (w : WritingTo σ IoError Unit) : WritingTo σ RecordError Unit :=
  ExceptT.adapt RecordError.io w

end VisualIndex
