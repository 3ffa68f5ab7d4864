import VisualIndex.Proofs.AtomicSaves
import VisualIndex.Proofs.NearestReading

/-! Saved settings are loaded unchanged.

Settings are saved to a path that ends in the name of their file, so that path leads to the file
unless it is too long. What is written goes through a buffer that is only closed: a new file
that takes all of it then holds the document, and of any other the save does not tell what has
been lost. The document is read back by any library that spells a width as its shortest decimal
and converts it to the nearest double, except for one width. -/
namespace VisualIndex

namespace Path

variable (folder : Path) (name : String)

/-- The steps to a folder, without a slash at the end. -/
def base : List Step := if folder.endsInSlash then folder.steps.dropLast else folder.steps

theorem steps_child : (folder.child name).steps = folder.base ++ [.down name] := rfl

theorem endsInName_child : (folder.child name).EndsInName := ⟨folder.base, name, rfl⟩

theorem fault?_eq_none_iff (p : Path) (limit : Nat) :
    p.fault? limit = none ↔ p.steps.any Step.holdsNull = false ∧ p.octets ≤ limit := by
  unfold fault?
  split
  · next null => simp [null]
  · next free =>
    split
    · next long => simp [free, long]
    · next room => simp [free, Nat.not_lt.mp room]

theorem base_sublist : folder.base.Sublist folder.steps := by
  rw [base]
  split
  · exact List.dropLast_sublist _
  · exact List.Sublist.refl _

/-- A path with a name after it can be followed if there is room for the name. -/
theorem fault?_child {name : String} {limit : Nat}
    (plain : folder.steps.any Step.holdsNull = false) (legal : (Step.down name).holdsNull = false)
    (room : (folder.child name).octets ≤ limit) : (folder.child name).fault? limit = none := by
  refine (fault?_eq_none_iff _ _).mpr ⟨?_, room⟩
  rw [List.any_eq_false] at plain
  simp only [steps_child, List.any_append, List.any_cons, List.any_nil, legal, Bool.or_false]
  exact List.any_eq_false.mpr fun step hs => plain step (folder.base_sublist.mem hs)

end Path

namespace Directory

variable {d e : Directory} {path : Path}

/-- A path that cannot be followed is no folder. -/
theorem makeFolder_of_fault {cause : IoCause} (fault : d.fault? path = some cause) :
    d.makeFolder path = .error cause ∧ d.isFolder path = false := by
  constructor
  · rw [makeFolder, fault]
    rfl
  · rw [isFolder, locate, fault]

/-- Folders are made only along a path that can be followed. -/
theorem fault?_of_makeFolders (made : d.makeFolders path = (.ok (), e)) :
    d.fault? path = none := by
  cases fault : d.fault? path with
  | none => rfl
  | some cause =>
    obtain ⟨failed, absent⟩ := makeFolder_of_fault fault
    have lasting : cause ≠ .notFound := by
      rintro rfl
      unfold Directory.fault? Path.fault? at fault
      split at fault
      · cases fault
      · split at fault <;> cases fault
    rw [makeFolders, makeChain, failed] at made
    cases cause <;> simp_all [ensureFolder]

/-- A new folder does not change how long paths may be. -/
theorem pathLimit_makeFolder (made : d.makeFolder path = .ok e) : e.pathLimit = d.pathLimit := by
  cases fault : d.fault? path with
  | some cause => cases (makeFolder_of_fault fault).1.symm.trans made
  | none =>
    cases named : splitName? path.bare.steps with
    | none =>
      cases found : d.folderAt path.bare.steps.dropLast <;>
        simp [makeFolder, fault, named, found, bind, Except.bind, throw, throwThe,
          MonadExceptOf.throw] at made
    | some split =>
      obtain ⟨steps, name⟩ := split
      cases found : d.folderAt steps with
      | error cause => simp [makeFolder, fault, named, found, bind, Except.bind] at made
      | ok t =>
        simp only [makeFolder, fault, named, found, bind, Except.bind] at made
        split at made
        · cases made
        · cases made
        · cases made
          rfl

theorem pathLimit_ensureFolder : (d.ensureFolder path).2.pathLimit = d.pathLimit := by
  rw [ensureFolder]
  split
  · next made => exact pathLimit_makeFolder made
  · rfl

theorem pathLimit_makeChain (paths : List Path) :
    (d.makeChain paths).2.pathLimit = d.pathLimit := by
  induction paths with
  | nil => rfl
  | cons path above ih =>
    rw [makeChain]
    split
    · split
      · next made =>
        rw [made] at ih
        exact pathLimit_ensureFolder.trans ih
      · exact ih
    · exact pathLimit_ensureFolder

end Directory

namespace AtomicFiles

variable {files : AtomicFiles} {d e : Directory} {path : Path} {parts : List (List UInt8)}

/-- A closed save that succeeds puts all parts into place if new files are sound. -/
theorem TemporaryThenRename.replaced_of_closed (atomic : files.TemporaryThenRename Sink.IsSound)
    (saved : files.saveClosed d path (parts.forM Writing.bytes) = (.ok (), e)) :
    d.replace path parts.flatten = .ok e := by
  obtain ⟨file, full, sound, filled, placed⟩ := atomic.replaced saved
  obtain ⟨full', filled', whole⟩ := written_of_closed sound parts
  cases filled.symm.trans filled'
  exact whole ▸ placed

/-- A closed save of a little beside the old file succeeds, whatever the new file takes of it. -/
theorem saveClosed_beside {file : Sink} {t : Trail} (new : file.IsNew)
    (found : workspace d path = .ok t) (small : parts.flatten.length < Buffered.capacity)
    (placed : d.replace path (file.intake parts.flatten) = .ok e) :
    (beside file).saveClosed d path (parts.forM Writing.bytes) = (.ok (), e) := by
  obtain ⟨full, filled, taken⟩ := written_of_small new small
  simp only [saveClosed, beside, found, filled, taken, placed]

end AtomicFiles

namespace Settings

variable {s : Settings} {library : DocumentLibrary} {files : AtomicFiles} {d e : Directory}
  {folder : Path}

theorem pathLimit_prepare (d : Directory) (folder : Path) :
    (prepare d folder).2.pathLimit = d.pathLimit := by
  rw [prepare]
  split
  · rfl
  · exact Directory.pathLimit_makeChain _

theorem fault?_of_prepare (prepared : prepare d folder = (.ok (), e)) :
    d.fault? folder = none := by
  unfold prepare at prepared
  split at prepared
  · next t found =>
    unfold Directory.locate at found
    split at found
    · cases found
    · assumption
  · exact Directory.fault?_of_makeFolders prepared

theorem save_eq_ok_iff : s.save library files d folder = (.ok (), e) ↔
    ∃ d', prepare d folder = (.ok (), d') ∧ files.saveClosed d' (folder.child fileName)
      ((library.pieces s).forM Writing.bytes) = (.ok (), e) := by
  constructor
  · intro saved
    unfold save at saved
    split at saved
    · cases saved
    · next d' prepared =>
      split at saved
      · next done => cases saved; exact ⟨d', prepared, done⟩
      · cases saved
  · rintro ⟨d', prepared, done⟩
    simp only [save, prepared, done]

/-- A stored document is loaded as the library reads it. -/
theorem load_of_replace {content : List UInt8} (placed : d.replace (folder.child fileName) content =
    .ok e) (allowed : d.fault? (folder.child fileName) = none) :
    load library e folder = (library.read content).mapError .document := by
  obtain ⟨place, target, replaced⟩ := Directory.replaced_of_replace placed
  have leads := Directory.leadsTo_of_replace placed target (folder.endsInName_child _) allowed
  rw [load, leads.openItem replaced.stands]

/-- What has been saved is loaded as the library reads the document that it has written. -/
theorem load_of_save (atomic : files.TemporaryThenRename Sink.IsSound)
    (room : (folder.child fileName).octets ≤ d.pathLimit)
    (saved : s.save library files d folder = (.ok (), e)) :
    load library e folder = (library.read (library.pieces s).flatten).mapError .document := by
  obtain ⟨d', prepared, done⟩ := save_eq_ok_iff.mp saved
  have limit : d'.pathLimit = d.pathLimit := by
    rw [← pathLimit_prepare d folder, prepared]
  obtain ⟨plain, -⟩ := (folder.fault?_eq_none_iff _).mp (fault?_of_prepare prepared)
  have allowed : d'.fault? (folder.child fileName) = none :=
    folder.fault?_child plain (by decide) (limit ▸ room)
  exact load_of_replace (atomic.replaced_of_closed done) allowed

/-- Where numbers are scaled all valid settings are loaded unchanged, whatever their width. -/
theorem load_save_scaling (atomic : files.TemporaryThenRename Sink.IsSound)
    (valid : s.check = .ok ()) (room : (folder.child fileName).octets ≤ d.pathLimit)
    (saved : s.save .scaling files d folder = (.ok (), e)) : load .scaling e folder = .ok s := by
  rw [load_of_save atomic room saved, DocumentLibrary.read_pieces_scaling valid]
  rfl

section Beside

variable {file : Sink} {d' : Directory} {t : Trail} (new : file.IsNew)
  (prepared : prepare d folder = (.ok (), d'))
  (found : AtomicFiles.workspace d' (folder.child fileName) = .ok t)
  (small : (library.pieces s).flatten.length < Buffered.capacity)
include new prepared found small

/-- Saving a small document beside the old file succeeds, and the file then holds what the new
one has taken, without a word about the rest. -/
theorem save_beside (placed : d'.replace (folder.child fileName)
    (file.intake (library.pieces s).flatten) = .ok e) :
    s.save library (.beside file) d folder = (.ok (), e) :=
  save_eq_ok_iff.mpr ⟨d', prepared, AtomicFiles.saveClosed_beside new found small placed⟩

end Beside

/-- The width beside the one that is lost by way of the nearest doubles. -/
def besideLost : Settings := ⟨⟨0x15ae43fe⟩, some 18446744073709551615⟩

def indexFolder : Path := Path.ofText "index/"

def indexTrail : Trail := [("index", .empty)]

/-- A tree with an index that has no settings yet. -/
def emptyIndex : Directory := { root := .folder indexTrail }

/-- The index's folder, with steps behind it that stay. -/
def indexDots (stays : Nat) : Path := ⟨.down "index" :: List.replicate stays .here⟩

theorem child_indexDots (stays : Nat) :
    (indexDots stays).child fileName = .longWay "index" fileName stays := by
  have no_slash : (indexDots stays).endsInSlash = false := by
    cases stays with
    | zero => rfl
    | succ n =>
      rw [Path.endsInSlash, indexDots, List.replicate_succ', ← List.cons_append,
        List.getLast?_concat]
      decide
  rw [Path.child, no_slash]
  rfl

theorem locate_indexDots {stays : Nat} (short : 2 * stays + 5 ≤ longestPath) :
    emptyIndex.locate (indexDots stays) = .ok indexTrail := by
  have octets : (indexDots stays).octets = 2 * stays + 5 := by
    have total := Path.octets_stays stays []
    rw [List.append_nil] at total
    rw [Path.octets, indexDots, List.map_cons, List.foldr_cons, total]
    simp only [List.map_nil, List.foldr_nil, List.length_cons, List.length_replicate, Step.octets,
      show "index".utf8ByteSize = 5 by decide]
    omega
  have plain : (indexDots stays).steps.any Step.holdsNull = false := by
    simp only [indexDots, List.any_cons, List.any_replicate]
    split <;> decide
  have allowed : emptyIndex.fault? (indexDots stays) = none :=
    (Path.fault?_eq_none_iff _ _).mpr ⟨plain, octets.trans_le short⟩
  have down : emptyIndex.walk [] (indexDots stays).steps =
      emptyIndex.walk indexTrail (List.replicate stays .here) :=
    Directory.walk_cons rfl rfl _
  rw [Directory.locate, allowed]
  exact down.trans (Directory.walk_stays rfl fun step hs => by
    rw [List.eq_of_mem_replicate hs]
    rfl)

/-- The settings are saved to the same place, however many steps stay. -/
theorem save_indexDots (small : (library.pieces s).flatten.length < Buffered.capacity)
    {stays : Nat} (short : 2 * stays + 5 ≤ longestPath) :
    s.save library (.beside .empty) emptyIndex (indexDots stays) =
      (.ok (), emptyIndex.put indexTrail fileName (.file (library.pieces s).flatten)) := by
  have prepared : prepare emptyIndex (indexDots stays) = (.ok (), emptyIndex) := by
    rw [prepare, locate_indexDots short]
  have folder : emptyIndex.folderAt (Path.longWay "index" fileName stays).parent.steps =
      .ok indexTrail := by
    rw [Path.longWay_parent]
    rfl
  have found : AtomicFiles.workspace emptyIndex ((indexDots stays).child fileName) =
      .ok indexTrail := by
    rw [child_indexDots, AtomicFiles.workspace, Path.longWay_parent]
    rfl
  refine save_beside Sink.isNew_empty prepared found small ?_
  rw [child_indexDots, Sink.isSound_empty.endures.intake]
  exact Directory.replace_eq_ok_iff.mpr ⟨_, _, _, Path.longWay_name _ _ _, folder, rfl⟩

/-- Where the path to the folder leaves no room for the name of the file, what has been saved is
not loaded. -/
theorem load_indexDots {stays : Nat} (long : 2033 ≤ stays)
    (limit : d.pathLimit = longestPath) :
    load library d (indexDots stays) = .error (.io ⟨.nameTooLong, none⟩) := by
  have name : fileName.utf8ByteSize = 25 := by decide
  have folder : "index".utf8ByteSize = 5 := by decide
  have unopened : d.openItem ((indexDots stays).child fileName) =
      .error (.io ⟨.nameTooLong, none⟩) := by
    rw [child_indexDots]
    refine Directory.openItem_longWay (by decide) (by decide) ?_
    rw [limit, longestPath, name, folder]
    omega
  rw [load, unopened]

/-- The number 7.038531e-26. -/
def lostNumber : WrittenNumber :=
  ⟨false, .ofNat 7, Figures.isLeading_ofNat 7, some (.padded (.ofNat 38531) 1),
    some ⟨false, some true, .ofNat 26⟩⟩

end Settings

end VisualIndex
