import VisualIndex.Error

/-! Written paths.

A path is a text of parts divided by slashes. A blank part or a dot stays where it is,
two dots go up, and any other part goes down to an item of that name. Parts that stay at
the end of a path ask for a folder; whether that matters is up to the operation. The
length of the text is limited, and so is that of a name. -/
namespace VisualIndex

/-- A part of a path, as the step that it takes. -/
inductive Step where
  | blank
  | here
  | up
  | down (name : String)
  deriving DecidableEq

namespace Step

def ofPart : List Char → Step
  | [] => .blank
  | ['.'] => .here
  | ['.', '.'] => .up
  | part => .down (String.ofList part)

/-- The length of the part. -/
def octets : Step → Nat
  | blank => 0
  | here => 1
  | up => 2
  | down name => name.utf8ByteSize

def isBlank : Step → Bool
  | blank => true
  | _ => false

def isStay : Step → Bool
  | blank | here => true
  | _ => false

/-- Whether the part holds the null character, which no path may. -/
def holdsNull : Step → Bool
  | down name => name.toList.contains '\x00'
  | _ => false

end Step

/-- The longest name, in octets. -/
def longestName : Nat := 255

/-- The longest path that the system follows, in octets. -/
def longestPath : Nat := 4095

/-- Why no item can have a name, if none can. -/
def nameFault? (name : String) : Option IoCause :=
  if name.toList.contains '\x00' then some .invalidInput
  else if longestName < name.utf8ByteSize then some .nameTooLong
  else none

/-- The parts of a text between its slashes. -/
def betweenSlashes : List Char → List (List Char)
  | [] => [[]]
  | '/' :: rest => [] :: betweenSlashes rest
  | c :: rest =>
    match betweenSlashes rest with
    | part :: parts => (c :: part) :: parts
    | [] => [[c]]

/-- A list without the elements at its end that satisfy a condition. -/
def withoutEnd {α : Type} (p : α → Bool) (xs : List α) : List α :=
  (xs.reverse.dropWhile p).reverse

/-- Steps that end in a name, as the steps to a folder and the name in it. -/
def splitName? (steps : List Step) : Option (List Step × String) :=
  match steps.getLast? with
  | some (.down name) => some (steps.dropLast, name)
  | _ => none

/-- The parts at the front that end where a step moves, the shortest first. -/
def movingFronts : List Step → List (List Step)
  | [] => []
  | step :: rest =>
    let longer := (movingFronts rest).map (step :: ·)
    if step.isStay then longer else [step] :: longer

structure Path where
  steps : List Step
  deriving DecidableEq

namespace Path

def ofText (text : String) : Path := ⟨(betweenSlashes text.toList).map Step.ofPart⟩

/-- The length of the text. -/
def octets (p : Path) : Nat :=
  (p.steps.map Step.octets).foldr (· + ·) 0 + (p.steps.length - 1)

/-- Why a path cannot be followed at all where paths are limited, if it cannot. -/
def fault? (p : Path) (limit : Nat) : Option IoCause :=
  if p.steps.any Step.holdsNull then some .invalidInput
  else if limit < p.octets then some .nameTooLong
  else none

def endsInSlash (p : Path) : Bool := p.steps.getLast? = some .blank

/-- The path of an item in the folder that a path leads to. -/
def child (p : Path) (name : String) : Path :=
  ⟨(if p.endsInSlash then p.steps.dropLast else p.steps) ++ [.down name]⟩

/-- The path without slashes at its end. -/
def bare (p : Path) : Path := ⟨withoutEnd Step.isBlank p.steps⟩

/-- The path without parts at its end that stay. -/
def settled (p : Path) : Path := ⟨withoutEnd Step.isStay p.steps⟩

/-- The path to what an item is in. -/
def parent (p : Path) : Path := settled ⟨p.settled.steps.dropLast⟩

/-- The paths above an item, the nearest first and without the root. -/
def above (p : Path) : List Path := (movingFronts p.steps).dropLast.reverse.map Path.mk

end Path

end VisualIndex
