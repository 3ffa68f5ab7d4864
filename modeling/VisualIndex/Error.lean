/-! What can go wrong, by cause.

Errors are values of the operation that met them: a stream or the directory failed, a
document or a record is malformed, or settings make no sense. A `Violation` is a call
outside an operation's contract; it aborts the call and is no value to recover from. -/
namespace VisualIndex

/-- Images are numbered; a stored number is never negative. -/
abbrev ImageId := Int32

/-- The cause of a failed call on a stream or on the directory. -/
inductive IoCause where
  | notFound | permissionDenied | alreadyExists | notADirectory | isADirectory | nameTooLong
  | directoryNotEmpty | readOnlyVolume | storageFull | quotaExceeded | fileTooLarge
  | interrupted | wouldBlock | timedOut | unexpectedEnd | acceptedNothing
  | brokenPipe | connectionRefused | connectionReset | connectionAborted | notConnected
  | hostUnreachable | networkUnreachable | networkDown | addressInUse | addressUnavailable
  | invalidInput | invalidData | unsupported | outOfMemory | resourceBusy | deadlock
  | other
  deriving DecidableEq

/-- A failed call, with the text its origin attached to it, if any. -/
structure IoError where
  cause : IoCause
  detail : Option String
  deriving DecidableEq

/-- How a settings document is refused. -/
inductive DocumentFault where
  | truncated | malformed | mistyped | unreadable
  deriving DecidableEq

/-- The side of an atomic save that failed: filling the new file, or making it and
moving it into place. -/
inductive SaveStage where
  | filling | placing
  deriving DecidableEq

/-- A failed operation on stored files. -/
inductive StorageError where
  | io (error : IoError)
  | document (fault : DocumentFault)
  | save (stage : SaveStage)
  | saveDocument (stage : SaveStage)
  deriving DecidableEq

/-- The fields of a record, in the order they are stored. -/
inductive RecordField where
  | status | idfWeight | thresholds | count | imageId | code
  deriving DecidableEq

def RecordField.label : RecordField → String
  | .status => "status"
  | .idfWeight => "idf weight"
  | .thresholds => "thresholds"
  | .count => "entry count"
  | .imageId => "entry image id"
  | .code => "entry code"

/-- A failed operation on a posting list's record or on the settings. -/
inductive RecordError where
  | io (error : IoError)
  | truncated (field : RecordField)
  | invalidImageId (index : Nat) (image : ImageId)
  | tooManyPostings (count : Nat)
  | invalidSettings (reason : String)
  | storage (error : StorageError)
  deriving DecidableEq

/-- Reading a field that the data ends in is a truncation; any other failure is passed
on as it is. -/
def RecordError.ofReading (field : RecordField) (error : IoError) : RecordError :=
  if error.cause = .unexpectedEnd then .truncated field else .io error

/-- The cause that a storage error is reported under. -/
def StorageError.ioCause : StorageError → IoCause
  | .io error => error.cause
  | _ => .other

/-- The cause that a record error is reported under. -/
def RecordError.ioCause : RecordError → IoCause
  | .io error => error.cause
  | .truncated _ => .unexpectedEnd
  | .invalidImageId .. | .tooManyPostings _ | .invalidSettings _ => .invalidData
  | .storage error => error.ioCause

/-- The text of a storage error, where this library words it. -/
def StorageError.message? : StorageError → Option String
  | .io error => error.detail
  | _ => none

/-- The text of a record error, where this library words it. -/
def RecordError.message? : RecordError → Option String
  | .io error => error.detail.map fun text => s!"An IO error occurred: '{text}'"
  | .truncated field => some s!"Inverted file data is truncated while reading {field.label}"
  | .invalidImageId index image => some s!"Entry {index} stores an invalid image id {image.toInt}"
  | .tooManyPostings count => some s!"Too many entries to serialize: {count}"
  | .invalidSettings reason => some s!"Invalid InvertedFileConfig: '{reason}'"
  | .storage _ => none

/-- A record error where only failed calls can be told. -/
def RecordError.toIoError : RecordError → IoError
  | .io error | .storage (.io error) => error
  | error => ⟨error.ioCause, error.message?⟩

/-- A call outside the contract of an operation. -/
inductive Violation where
  | outOfBounds
  | negativeImageId (image : ImageId)
  | imageBeyondSums (image : ImageId) (length : Nat)
  | trainingMismatch (sets lists : Nat)
  | tableWidth (tableBits codeBits : Nat)
  deriving DecidableEq

/-- The text of a violation; an index out of bounds has none. -/
def Violation.message? : Violation → Option String
  | .outOfBounds => none
  | .negativeImageId image => some s!"Can't add entry with negative image_id: {image.toInt}"
  | .imageBeyondSums image length =>
    let place := s!"image_id {image.toInt} overflow when accumulating self similarities"
    some s!"{place}, length is {length}"
  | .trainingMismatch sets lists =>
    some s!"Got training descriptors for {sets} words, but {lists} inverted files"
  | .tableWidth tableBits codeBits =>
    let table := s!"Hamming weight table covers {tableBits} bits"
    some s!"{table}, inverted file codes have {codeBits} bits"

end VisualIndex
