import VisualIndex.Path

/-! A directory tree.

An item is located by the names that lead to it from the root, which has no folder above
it. A path is followed step by step, each step being taken from a folder, and the items
passed on the way down are kept for the way up. Paths of more than some length cannot be
followed at all. -/
namespace VisualIndex

/-- The names from the root down to an item. -/
abbrev Location := List String

inductive Item where
  | folder
  | file (content : List UInt8)
  deriving DecidableEq

/-- An item with all that is in it. -/
inductive Node where
  | file (content : List UInt8)
  | folder (entries : List (String × Node))

namespace Node

def empty : Node := .folder []

def item : Node → Item
  | file content => .file content
  | folder _ => .folder

/-- What has a name in a folder. -/
def child? (node : Node) (name : String) : Option Node :=
  match node with
  | .file _ => none
  | .folder entries => (entries.find? (·.1 = name)).map (·.2)

/-- What a location below an item leads to. -/
def below? (node : Node) : Location → Option Node
  | [] => some node
  | name :: rest =>
    match node.child? name with
    | some next => next.below? rest
    | none => none

/-- Put a new item at a location, in place of what is there. -/
def put (node new : Node) : Location → Node
  | [] => new
  | name :: rest =>
    match node with
    | .file content => .file content
    | .folder entries =>
      let next := ((Node.folder entries).child? name).getD empty
      .folder ((name, next.put new rest) :: entries.filter (·.1 ≠ name))

end Node

/-- The items passed on the way down from the root, the last first. -/
abbrev Trail := List (String × Node)

def Trail.location (t : Trail) : Location := (t.map (·.1)).reverse

structure Directory where
  root : Node
  /-- The longest path that can be followed from the root, in octets. Where the root is itself
  in a folder, the way to it takes its part of what the system allows. -/
  pathLimit : Nat := longestPath

namespace Directory

def empty : Directory := { root := .empty }

/-- Why a path cannot be followed at all, if it cannot. -/
def fault? (d : Directory) (path : Path) : Option IoCause := path.fault? d.pathLimit

/-- What stands at a location. -/
def item? (d : Directory) (place : Location) : Option Item := (d.root.below? place).map (·.item)

/-- Where a trail has led to. -/
def arrival (d : Directory) (t : Trail) : Node :=
  match t with
  | [] => d.root
  | (_, node) :: _ => node

/-- Put an item into the folder that a trail has led to. -/
def put (d : Directory) (t : Trail) (name : String) (node : Node) : Directory :=
  { d with root := d.root.put node (t.location ++ [name]) }

/-- Take steps from where a trail has led to. -/
def walk (d : Directory) (t : Trail) : List Step → Except IoCause Trail
  | [] => .ok t
  | step :: rest =>
    match d.arrival t with
    | .file _ => .error .notADirectory
    | .folder entries =>
      match step with
      | .blank | .here => d.walk t rest
      | .up => d.walk t.tail rest
      | .down name =>
        match (Node.folder entries).child? name with
        | some node => d.walk ((name, node) :: t) rest
        | none => .error ((nameFault? name).getD .notFound)

/-- Take steps from the root to a folder. -/
def folderAt (d : Directory) (steps : List Step) : Except IoCause Trail :=
  d.walk [] (steps ++ [.here])

/-- Follow a path. -/
def locate (d : Directory) (path : Path) : Except IoCause Trail :=
  match d.fault? path with
  | some cause => .error cause
  | none => d.walk [] path.steps

def isFolder (d : Directory) (path : Path) : Bool :=
  match d.locate path with
  | .ok t => (d.arrival t).item = .folder
  | .error _ => false

/-- Open a file, or a folder, which gives nothing to read. -/
def openItem (d : Directory) (path : Path) : Except StorageError Item :=
  match d.locate path with
  | .ok t => .ok (d.arrival t).item
  | .error cause => .error (.io ⟨cause, none⟩)

/-- Make one folder. -/
def makeFolder (d : Directory) (path : Path) : Except IoCause Directory := do
  if let some cause := d.fault? path then throw cause
  match splitName? path.bare.steps with
  | none =>
    let _ ← d.folderAt path.bare.steps.dropLast
    throw .alreadyExists
  | some (steps, name) =>
    let t ← d.folderAt steps
    match (d.arrival t).child? name, nameFault? name with
    | some _, _ => throw .alreadyExists
    | none, some cause => throw cause
    | none, none => return d.put t name .empty

/-- Make one folder. One that is there already is no failure. -/
def ensureFolder (d : Directory) (path : Path) : Except IoCause Unit × Directory :=
  match d.makeFolder path with
  | .ok e => (.ok (), e)
  | .error cause => (if d.isFolder path then .ok () else .error cause, d)

/-- Make the first folder of a list, and before it the others where they are missing. -/
def makeChain (d : Directory) : List Path → Except IoCause Unit × Directory
  | [] => (.ok (), d)
  | path :: above =>
    match d.makeFolder path with
    | .error .notFound =>
      match d.makeChain above with
      | (.ok (), e) => e.ensureFolder path
      | failed => failed
    | _ => d.ensureFolder path

/-- Make a folder and the folders above it. What was made before a failure stays. -/
def makeFolders (d : Directory) (path : Path) : Except IoCause Unit × Directory :=
  d.makeChain (path :: path.above)

/-- Put a file into a folder, in the place of what is there unless that is a folder. -/
def putFile (d : Directory) (t : Trail) (name : String) (content : List UInt8) :
    Except IoCause Directory :=
  match (d.arrival t).child? name, nameFault? name with
  | some (.folder _), _ => .error .isADirectory
  | none, some cause => .error cause
  | _, _ => .ok (d.put t name (.file content))

/-- Write a file in place. -/
def write (d : Directory) (path : Path) (content : List UInt8) : Except IoCause Directory := do
  if let some cause := d.fault? path then throw cause
  match splitName? path.bare.steps with
  | none =>
    let _ ← d.folderAt path.steps
    throw .isADirectory
  | some (steps, name) =>
    let t ← d.folderAt steps
    if path.endsInSlash then throw .isADirectory
    d.putFile t name content

/-- Put a new file into the place that a path names. Parts at the end of the path that stay
do not count. -/
def replace (d : Directory) (path : Path) (content : List UInt8) : Except IoCause Directory := do
  match splitName? path.settled.steps with
  | none => throw .invalidInput
  | some (_, name) =>
    let t ← d.folderAt path.parent.steps
    d.putFile t name content

end Directory

end VisualIndex
