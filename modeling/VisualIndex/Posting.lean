import VisualIndex.Signature
import VisualIndex.Stream.Coding

/-! Postings.

A posting says that a feature with some signature occurs in some image. Its record is
the image id in four bytes and then the signature's bytes. -/
namespace VisualIndex

structure Posting (b : Nat) where
  image : ImageId
  code : Signature b
  deriving DecidableEq

namespace Posting

variable {b : Nat}

/-- The posting of image 0 with no bit set. -/
def blank : Posting b := ⟨0, .allClear⟩

/-- The length of a record. -/
def recordLength (b : Nat) : Nat := 4 + b

def text (p : Posting b) : String := s!"(image_id: {p.image.toInt}, code: {p.code.text})"

def write {σ : Type} [Writer σ] (p : Posting b) : WritingTo σ RecordError Unit := do
  writeField (Writing.number 4 p.image.toUInt32.toNat)
  writeField (Writing.bytes p.code.bytes.toList)

/-- Read a posting. Any image id is taken here, a negative one too. -/
def read (b : Nat) : Reading RecordError (Posting b) := do
  let image ← RecordField.imageId.read (.number 4)
  let code ← RecordField.code.read (.byteVector b)
  return ⟨(UInt32.ofNat image).toInt32, ⟨code⟩⟩

end Posting

end VisualIndex
