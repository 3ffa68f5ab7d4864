import VisualIndex.Directory
import VisualIndex.PostingList.Record
import VisualIndex.Settings.Document

/-! Posting lists and settings in files.

A file is saved by a library: it has a new file filled, and then puts that into the place of
the old one. What is written goes through a buffer. A list's buffer is flushed before the new
file takes its place. That of settings is only closed, so a failure to write what it still
holds goes unnoticed. Settings are kept under a fixed name in the folder of the index they
belong to; saving makes the folder if nothing is there. -/
namespace VisualIndex

/-- A library that saves files: given what fills a new file, it answers whether the save has
succeeded, or else what has failed, with the tree that is left. -/
structure AtomicFiles where
  write : Directory → Path → (Sink → Except IoError Unit × Sink) →
    Except SaveStage Unit × Directory

/-- Fill a file through a buffer, which is closed at the end. -/
def throughBuffer (fill : WritingTo Buffered IoError Unit) (file : Sink) :
    Except IoError Unit × Sink :=
  let (outcome, w) := fill (.onto file)
  (outcome, w.close)

namespace AtomicFiles

/-- Save what is written, all of it before the new file takes its place. -/
def saveFlushed (files : AtomicFiles) (d : Directory) (path : Path)
    (fill : WritingTo Buffered IoError Unit) : Except SaveStage Unit × Directory :=
  files.write d path (throughBuffer do fill; Writing.flush)

/-- Save what is written. What the buffer holds in the end is written as it is closed. -/
def saveClosed (files : AtomicFiles) (d : Directory) (path : Path)
    (fill : WritingTo Buffered IoError Unit) : Except SaveStage Unit × Directory :=
  files.write d path (throughBuffer fill)

/-- By how much the path of a new file is longer than that of its folder. -/
def newFileOctets : Nat := 31

/-- The folder for the new file that is to take a path's place. -/
def workspace (d : Directory) (path : Path) : Except IoCause Trail :=
  if d.pathLimit < path.parent.octets + newFileOctets then .error .nameTooLong
  else d.folderAt path.parent.steps

/-- The library that makes the new file in a folder of its own beside the old one, where every
new file behaves as the given one. -/
def beside (file : Sink) : AtomicFiles where
  write d path fill :=
    match workspace d path with
    | .error _ => (.error .placing, d)
    | .ok _ =>
      match fill file with
      | (.error _, _) => (.error .filling, d)
      | (.ok (), full) =>
        match d.replace path full.written.toList with
        | .ok e => (.ok (), e)
        | .error _ => (.error .placing, d)

end AtomicFiles

namespace PostingList

variable {b : Nat}

def save (p : PostingList b) (files : AtomicFiles) (d : Directory) (path : Path) :
    Except RecordError Unit × Directory :=
  match files.saveFlushed d path (ExceptT.adapt RecordError.toIoError p.write) with
  | (.ok (), e) => (.ok (), e)
  | (.error stage, e) => (.error (.storage (.save stage)), e)

/-- The stream over an opened item; a folder fails at the first byte. -/
def sourceOf : Item → Source
  | .file content => .ofBytes content
  | .folder => ⟨[], 0, .uniform none, some ⟨0, .fail ⟨.isADirectory, none⟩⟩⟩

def load (p : PostingList b) (d : Directory) (path : Path) :
    Except RecordError Unit × PostingList b :=
  match d.openItem path with
  | .error error => (.error (.storage error), p)
  | .ok item =>
    let (outcome, q, _) := p.read (sourceOf item)
    (outcome, q)

end PostingList

namespace Settings

def fileName : String := "inverted_file_config.json"

def load (library : DocumentLibrary) (d : Directory) (folder : Path) :
    Except StorageError Settings :=
  match d.openItem (folder.child fileName) with
  | .error error => .error error
  | .ok .folder => .error (.document .unreadable)
  | .ok (.file content) => (library.read content).mapError .document

/-- The directory with the settings' folder in it. -/
def prepare (d : Directory) (folder : Path) : Except IoCause Unit × Directory :=
  match d.locate folder with
  | .ok _ => (.ok (), d)
  | .error _ => d.makeFolders folder

def save (s : Settings) (library : DocumentLibrary) (files : AtomicFiles) (d : Directory)
    (folder : Path) : Except StorageError Unit × Directory :=
  match prepare d folder with
  | (.error cause, e) => (.error (.io ⟨cause, none⟩), e)
  | (.ok (), e) =>
    match files.saveClosed e (folder.child fileName) ((library.pieces s).forM Writing.bytes) with
    | (.ok (), e) => (.ok (), e)
    | (.error stage, e) => (.error (.saveDocument stage), e)

end Settings

end VisualIndex
