import VisualIndex.Proofs.BrokenSinks
import VisualIndex.Proofs.Buffering
import VisualIndex.Proofs.SavedFiles

/-! Saving is all or nothing.

Where files are saved by filling a temporary file and then renaming it, a save whose buffer is
flushed either puts the whole of what was written into the place of the old file or leaves the
tree as it was: whether the writer fails, a write to the temporary file, the flush or the
renaming. A list that has been saved is loaded from there bit for bit, and a load that fails
leaves the loading list as it was. -/
namespace VisualIndex

namespace Sink

/-- A new file on a volume with room for some bytes. -/
def ofRoom (room : Nat) : Sink := empty.breakingAfter room (.fail ⟨.other, none⟩)

theorem isNew_ofRoom (room : Nat) : (ofRoom room).IsNew := rfl

theorem intake_ofRoom (room : Nat) (bytes : List UInt8) :
    (ofRoom room).intake bytes = bytes.take room :=
  intake_breakingAfter _ _ (by decide) _

end Sink

namespace AtomicFiles

variable {files : AtomicFiles} {d e : Directory} {path : Path} {parts : List (List UInt8)}
  {failure : Option IoError}

/-- A flushed save that succeeds puts all parts into the place that the path names. -/
theorem TemporaryThenRename.replaced_of_flushed (atomic : files.TemporaryThenRename Sink.IsNew)
    (saved : files.saveFlushed d path (Writing.parts parts failure) = (.ok (), e)) :
    failure = none ∧ d.replace path parts.flatten = .ok e := by
  obtain ⟨file, full, new, filled, placed⟩ := atomic.replaced saved
  obtain ⟨unfailing, whole⟩ := written_of_flushed new filled
  exact ⟨unfailing, whole ▸ placed⟩

theorem TemporaryThenRename.saveFlushed_cases (atomic : files.TemporaryThenRename Sink.IsNew)
    (d : Directory) (path : Path) (parts : List (List UInt8)) (failure : Option IoError) :
    (failure = none ∧ ∃ e,
      files.saveFlushed d path (Writing.parts parts failure) = (.ok (), e) ∧
      d.replace path parts.flatten = .ok e) ∨
    ∃ stage, files.saveFlushed d path (Writing.parts parts failure) = (.error stage, d) := by
  rcases saved : files.saveFlushed d path (Writing.parts parts failure) with ⟨stage | _, e⟩
  · exact Or.inr ⟨stage, by rw [atomic.unchanged saved]⟩
  · obtain ⟨unfailing, placed⟩ := atomic.replaced_of_flushed saved
    exact Or.inl ⟨unfailing, e, rfl, placed⟩

/-- A flushed save beside the old file succeeds if the file takes what is written. -/
theorem saveFlushed_beside {file : Sink} {t : Trail} (new : file.IsNew)
    (found : workspace d path = .ok t) (small : parts.flatten.length < Buffered.capacity)
    (taken : file.intake parts.flatten = parts.flatten)
    (placed : d.replace path parts.flatten = .ok e) :
    (beside file).saveFlushed d path (Writing.parts parts none) = (.ok (), e) := by
  obtain ⟨full, filled⟩ := flushed_of_small file small
  rw [if_pos taken] at filled
  obtain ⟨-, whole⟩ := written_of_flushed new filled
  simp only [saveFlushed, beside, found, filled, whole, placed]

/-- It fails if the file does not take what is written. -/
theorem saveFlushed_beside_error {file : Sink} {t : Trail} (found : workspace d path = .ok t)
    (small : parts.flatten.length < Buffered.capacity)
    (short : file.intake parts.flatten ≠ parts.flatten) :
    (beside file).saveFlushed d path (Writing.parts parts none) = (.error .filling, d) := by
  obtain ⟨full, filled⟩ := flushed_of_small file small
  rw [if_neg short] at filled
  simp only [saveFlushed, beside, found, filled]

end AtomicFiles

namespace Path

/-- Steps that stay take an octet each. -/
theorem octets_stays (stays : Nat) (steps : List Step) :
    ((List.replicate stays Step.here ++ steps).map Step.octets).foldr (· + ·) 0 =
      stays + (steps.map Step.octets).foldr (· + ·) 0 := by
  induction stays with
  | zero => exact (Nat.zero_add _).symm
  | succ n ih =>
    rw [List.replicate_succ, List.cons_append, List.map_cons, List.foldr_cons, ih, Step.octets]
    omega

/-- The path of a file in a folder, with steps between that stay. -/
def longWay (folder name : String) (stays : Nat) : Path :=
  ⟨.down folder :: List.replicate stays .here ++ [.down name]⟩

variable (folder name : String) (stays : Nat)

theorem longWay_settled : (longWay folder name stays).settled = longWay folder name stays :=
  congrArg Path.mk (withoutEnd_concat_of_neg _ rfl)

/-- The steps that stay do not count as the way to the folder. -/
theorem longWay_parent : (longWay folder name stays).parent = ⟨[.down folder]⟩ := by
  have front : withoutEnd Step.isStay (.down folder :: List.replicate stays .here) =
      [.down folder] := by
    induction stays with
    | zero => rfl
    | succ n ih =>
      rw [List.replicate_succ', ← List.cons_append, withoutEnd_concat_of_pos _ rfl, ih]
  rw [Path.parent, longWay_settled, longWay, List.dropLast_concat, Path.settled, front]

theorem longWay_name : splitName? (longWay folder name stays).settled.steps =
    some ((longWay folder name stays).steps.dropLast, name) := by
  rw [longWay_settled, longWay, splitName?, List.getLast?_concat]

/-- Each of the steps takes a dot and a slash. -/
theorem octets_longWay : (longWay folder name stays).octets =
    folder.utf8ByteSize + name.utf8ByteSize + 2 * stays + 1 := by
  rw [octets, longWay, List.cons_append, List.map_cons, List.foldr_cons, octets_stays]
  simp only [List.map_cons, List.map_nil, List.foldr_cons, List.foldr_nil, Step.octets,
    List.length_cons, List.length_append, List.length_replicate, List.length_nil]
  omega

end Path

/-- Such a path cannot be followed if it is too long. -/
theorem Directory.openItem_longWay {d : Directory} {folder name : String} {stays : Nat}
    (plain : (Step.down folder).holdsNull = false)
    (plain' : (Step.down name).holdsNull = false)
    (long : d.pathLimit < folder.utf8ByteSize + name.utf8ByteSize + 2 * stays + 1) :
    d.openItem (Path.longWay folder name stays) = .error (.io ⟨.nameTooLong, none⟩) := by
  have no_null : (Path.longWay folder name stays).steps.any Step.holdsNull = false := by
    have here : Step.here.holdsNull = false := rfl
    simp only [Path.longWay, List.any_append, List.any_cons, List.any_replicate, List.any_nil,
      plain, plain', here]
    split <;> rfl
  have fault : d.fault? (Path.longWay folder name stays) = some .nameTooLong := by
    rw [Directory.fault?, Path.fault?, no_null, Path.octets_longWay]
    exact if_pos long
  rw [Directory.openItem, Directory.locate, fault]

namespace PostingList
variable {b : Nat}

/-- The parts of a list's record are what fills the file that it is saved to. -/
theorem adapt_write (p : PostingList b) (few : p.postings.length < 2 ^ 32) :
    (ExceptT.adapt RecordError.toIoError p.write : WritingTo Buffered IoError Unit) =
      Writing.parts p.record.parts none := by
  have puts := (p.write_puts (σ := Buffered) few).adapt RecordError.toIoError
  have plain : RecordError.toIoError ∘ RecordError.io = id := rfl
  rw [Puts, plain, adapt_id] at puts
  rw [puts]
  exact bind_pure_unit.symm

theorem save_eq_ok_iff {p : PostingList b} (few : p.postings.length < 2 ^ 32)
    {files : AtomicFiles} {d e : Directory} {path : Path} :
    p.save files d path = (.ok (), e) ↔
      files.saveFlushed d path (Writing.parts p.record.parts none) = (.ok (), e) := by
  rw [save, p.adapt_write few]
  rcases files.saveFlushed d path (Writing.parts p.record.parts none) with ⟨_ | _, e'⟩ <;> simp

/-- What a load comes to, by what the path opens. -/
theorem load_eq (q : PostingList b) (d : Directory) (path : Path) :
    q.load d path =
      match d.openItem path with
      | .error error => (.error (.storage error), q)
      | .ok .folder => (.error (.io ⟨.isADirectory, none⟩), q)
      | .ok (.file bytes) =>
        match stop? b bytes with
        | some stop => (.error stop.error, q)
        | none => (.ok (), q.withRecord (recordAt b bytes)) := by
  rw [load]
  cases d.openItem path with
  | error error => rfl
  | ok item =>
    obtain ⟨t, read, -⟩ := q.read_from_supply (sourceOf item)
    cases item with
    | folder =>
      have nothing : (sourceOf .folder).supply = [] := rfl
      have ending : (sourceOf .folder).ending = ⟨.isADirectory, none⟩ := rfl
      have cut : stop? b [] = some (.truncated .status) := by
        simp [stop?, headerLength, headerField]
      rw [nothing, ending, cut] at read
      simp only [read]
      rfl
    | file bytes =>
      have ending : (Source.ofBytes bytes).ending = ⟨.unexpectedEnd, none⟩ :=
        Source.ending_of_transient (by simp [Source.ofBytes])
      rw [sourceOf, Source.supply_ofBytes, ending] at read
      simp only [sourceOf, read]
      cases stop? b bytes with
      | none => rfl
      | some stop => simp only [Stop.errorUnder_unexpectedEnd]

theorem load_error_unchanged {q : PostingList b} {d : Directory} {path : Path}
    {error : RecordError} (failed : (q.load d path).1 = .error error) :
    (q.load d path).2 = q := by
  rw [load_eq] at failed ⊢
  split
  · rfl
  · rfl
  · next bytes opened =>
    rw [opened] at failed
    cases stops : stop? b bytes with
    | some stop => rfl
    | none =>
      simp only [stops] at failed
      cases failed

/-- A record that stands where a path leads to is loaded by that path. -/
theorem load_record {p : PostingList b} (ids : p.IdsValid) (few : p.postings.length < 2 ^ 32)
    {d : Directory} {place : Location} (stands : d.item? place = some (.file p.record.encoding))
    {path : Path} (leads : d.LeadsTo path place) (q : PostingList b) :
    q.load d path = (.ok (), q.withRecord p.record) := by
  have front : p.record.encoding <+: (Source.ofBytes p.record.encoding).supply := by
    simp only [Source.supply_ofBytes, List.prefix_rfl]
  obtain ⟨t, read, -⟩ := p.withRecord_record_read q ids few _ front
  rw [load, leads.openItem stands]
  simp only [sourceOf, read]

/-- To a path that ends in a name, a save of any parts puts all of them at the place that the
path names and changes nothing else, or it fails and changes nothing at all, as it does if the
writer fails. A list of any collection that has been saved is loaded bit for bit by every path
that leads to the place, of which the saved path is one if it can be followed at all. A load
that fails changes nothing. -/
theorem save_atomic_load_exact {files : AtomicFiles}
    (atomic : files.TemporaryThenRename Sink.IsNew) :
    (∀ (d : Directory) (path : Path) parts failure, path.EndsInName →
      (failure = none ∧ ∃ e place,
        files.saveFlushed d path (Writing.parts parts failure) = (.ok (), e) ∧
        d.target? path = some place ∧ d.Replaced e place parts.flatten ∧
        (d.fault? path = none → e.LeadsTo path place)) ∨
      ∃ stage, files.saveFlushed d path (Writing.parts parts failure) = (.error stage, d)) ∧
    (∀ w : Collection b, Collection.Reached (fun _ _ => True) w → ∀ p ∈ w.lists,
      p.postings.length < 2 ^ 32 → ∀ (d e : Directory) (path : Path), path.EndsInName →
      p.save files d path = (.ok (), e) →
      ∃ place, d.target? path = some place ∧ d.Replaced e place p.record.encoding ∧
        (d.fault? path = none → e.LeadsTo path place) ∧
        ∀ other, e.LeadsTo other place → ∀ q : PostingList b, q.load e other =
          (.ok (), ⟨p.status, p.idf, p.postings, p.embedding, q.table⟩)) ∧
    ∀ (q : PostingList b) (d : Directory) path,
      (∀ error, d.openItem path = .error error →
        q.load d path = (.error (.storage error), q)) ∧
      (d.openItem path = .ok .folder →
        q.load d path = (.error (.io ⟨.isADirectory, none⟩), q)) ∧
      (∀ bytes stop, d.openItem path = .ok (.file bytes) → stop? b bytes = some stop →
        q.load d path = (.error stop.error, q)) ∧
      ∀ error, (q.load d path).1 = .error error → (q.load d path).2 = q := by
  refine ⟨?_, ?_, ?_⟩
  · intro d path parts failure ends
    rcases atomic.saveFlushed_cases d path parts failure with
      ⟨unfailing, e, saved, placed⟩ | failed
    · obtain ⟨place, target, replaced⟩ := Directory.replaced_of_replace placed
      exact Or.inl ⟨unfailing, e, place, saved, target, replaced,
        Directory.leadsTo_of_replace placed target ends⟩
    · exact Or.inr failed
  · intro w reached p hp few d e path ends saved
    obtain ⟨-, placed⟩ := atomic.replaced_of_flushed ((save_eq_ok_iff few).mp saved)
    rw [p.record.flatten_parts] at placed
    obtain ⟨place, target, replaced⟩ := Directory.replaced_of_replace placed
    refine ⟨place, target, replaced, Directory.leadsTo_of_replace placed target ends, ?_⟩
    intro other leads q
    exact load_record (reached.ids p hp) few replaced.stands leads q
  · intro q d path
    refine ⟨?_, ?_, ?_, fun error => load_error_unchanged⟩
    · intro error opened
      rw [load_eq, opened]
    · intro opened
      rw [load_eq, opened]
    · intro bytes stop opened stops
      rw [load_eq, opened]
      simp only [stops]

def wordPath : Path := Path.ofText "words/7.bin"

/-- The way to a folder for the word, with an older file in it. -/
def wordTrail : Trail := [("words", .folder [("7.bin", .file [9, 9])])]

def wordFolder : Directory := { root := .folder wordTrail }

theorem twoFeatures_small :
    Collection.twoFeatures.sort.record.parts.flatten.length < Buffered.capacity := by
  have two : Collection.twoFeatures.sort.postings.length = 2 :=
    Collection.twoFeatures.sort_perm.length_eq
  rw [Record.flatten_parts, length_encoding, recordLength, two]
  decide

theorem save_atomic_load_exact_wordFolder :
    (AtomicFiles.beside .empty).TemporaryThenRename Sink.IsNew ∧
    (AtomicFiles.beside (.ofRoom 2)).TemporaryThenRename Sink.IsNew ∧
    wordPath.EndsInName ∧
    (∃ e, (AtomicFiles.beside .empty).saveFlushed wordFolder wordPath
        (Writing.parts [[1], [], [2, 3]] none) = (.ok (), e) ∧
      e.item? ["words", "7.bin"] = some (.file [1, 2, 3]) ∧
      e.LeadsTo wordPath ["words", "7.bin"]) ∧
    (∃ stage, (AtomicFiles.beside .empty).saveFlushed wordFolder wordPath
      (Writing.parts [[1], [2]] (some ⟨.other, none⟩)) = (.error stage, wordFolder)) ∧
    (∃ stage, (AtomicFiles.beside (.ofRoom 2)).saveFlushed wordFolder wordPath
      (Writing.parts [[1], [], [2, 3]] none) = (.error stage, wordFolder)) ∧
    Collection.Reached (fun _ _ => True) Collection.bothSorted ∧
    (∃ p ∈ Collection.bothSorted.lists, p.postings.length < 2 ^ 32 ∧
      ∃ e, p.save (.beside .empty) wordFolder wordPath = (.ok (), e) ∧
        oddList.load e wordPath =
          (.ok (), ⟨p.status, p.idf, p.postings, p.embedding, oddList.table⟩)) ∧
    oddList.load wordFolder wordPath = (.error (.truncated .idfWeight), oddList) := by
  have any : Collection.Reached (fun _ _ => True) Collection.bothSorted :=
    Collection.bothSorted_reached.weaken fun _ _ _ => trivial
  have inside : Collection.twoFeatures.sort ∈ Collection.bothSorted.lists := by
    rw [Collection.bothSorted_lists]
    exact List.mem_cons_self
  have few := Collection.twoFeatures_few
  have sound : (AtomicFiles.beside .empty).TemporaryThenRename Sink.IsNew :=
    AtomicFiles.beside_temporaryThenRename Sink.isNew_empty
  have breaking : (AtomicFiles.beside (.ofRoom 2)).TemporaryThenRename Sink.IsNew :=
    AtomicFiles.beside_temporaryThenRename (Sink.isNew_ofRoom 2)
  have ends : wordPath.EndsInName := ⟨[.down "words"], "7.bin", rfl⟩
  have allowed : wordFolder.fault? wordPath = none := by decide
  have found : AtomicFiles.workspace wordFolder wordPath = .ok wordTrail := rfl
  obtain ⟨parts, lists, loads⟩ := save_atomic_load_exact (b := 1) sound
  refine ⟨sound, breaking, ends, ?_, ?_, ?_, any, ⟨_, inside, few, ?_⟩, ?_⟩
  · obtain ⟨e', saved⟩ : ∃ e', (AtomicFiles.beside .empty).saveFlushed wordFolder wordPath
        (Writing.parts [[1], [], [2, 3]] none) = (.ok (), e') :=
      ⟨_, AtomicFiles.saveFlushed_beside Sink.isNew_empty found (by decide)
        (Sink.isSound_empty.endures.intake _) rfl⟩
    rcases parts wordFolder wordPath [[1], [], [2, 3]] none ends with
      ⟨-, e, place, saved', target, replaced, leads⟩ | ⟨stage, failed⟩
    · have known : wordFolder.target? wordPath = some ["words", "7.bin"] := rfl
      cases known.symm.trans target
      exact ⟨e, saved', replaced.stands, leads allowed⟩
    · cases saved.symm.trans failed
  · rcases parts wordFolder wordPath [[1], [2]] (some ⟨.other, none⟩) ends with
      ⟨no_failure, -⟩ | failed
    · cases no_failure
    · exact failed
  · have short : (Sink.ofRoom 2).intake [1, 2, 3] ≠ [1, 2, 3] := by
      rw [Sink.intake_ofRoom]
      decide
    have failed : (AtomicFiles.beside (.ofRoom 2)).saveFlushed wordFolder wordPath
        (Writing.parts [[1], [], [2, 3]] none) = (.error .filling, wordFolder) :=
      AtomicFiles.saveFlushed_beside_error found (by decide) short
    rcases (save_atomic_load_exact (b := 1) breaking).1 wordFolder wordPath [[1], [], [2, 3]] none
      ends with ⟨-, e, place, saved, -⟩ | failed'
    · cases failed.symm.trans saved
    · exact failed'
  · have saved := AtomicFiles.saveFlushed_beside Sink.isNew_empty found twoFeatures_small
      (Sink.isSound_empty.endures.intake _) rfl
    have done := (save_eq_ok_iff few).mpr saved
    obtain ⟨place, -, -, leads, loaded⟩ := lists _ any _ inside few _ _ _ ends done
    exact ⟨_, done, loaded wordPath (leads allowed) oddList⟩
  · exact (loads oddList wordFolder wordPath).2.2.1 [9, 9] (.truncated .idfWeight) rfl (by decide)

/-- A path with a slash at its end saves the file without the slash, which was not there
before, and does not lead to it. A path that is too long to be followed saves a file that it
does not lead to either. -/
theorem save_atomic_load_exact_slash :
    (AtomicFiles.beside .empty).TemporaryThenRename Sink.IsSound ∧
    Directory.empty.openItem (Path.ofText "g") = .error (.io ⟨.notFound, none⟩) ∧
    (∃ e, (AtomicFiles.beside .empty).saveFlushed .empty (Path.ofText "g/")
        (Writing.parts [[1], [2]] none) = (.ok (), e) ∧
      e.openItem (Path.ofText "g/") = .error (.io ⟨.notADirectory, none⟩) ∧
      e.openItem (Path.ofText "g") = .ok (.file [1, 2])) ∧
    (∃ e, listOfOne.save (.beside .empty) .empty (Path.ofText "g/") = (.ok (), e) ∧
      listOfOne.load e (Path.ofText "g/") =
        (.error (.storage (.io ⟨.notADirectory, none⟩)), listOfOne)) ∧
    ∃ e, listOfOne.save (.beside .empty) wordFolder (.longWay "words" "7.bin" 4096) =
        (.ok (), e) ∧
      listOfOne.load e (.longWay "words" "7.bin" 4096) =
        (.error (.storage (.io ⟨.nameTooLong, none⟩)), listOfOne) := by
  have taken (parts : List (List UInt8)) : Sink.empty.intake parts.flatten = parts.flatten :=
    Sink.isSound_empty.endures.intake _
  have found : AtomicFiles.workspace .empty (Path.ofText "g/") = .ok [] := rfl
  have few : listOfOne.postings.length < 2 ^ 32 := by decide
  have small : listOfOne.record.parts.flatten.length < Buffered.capacity := by
    rw [Record.flatten_parts, length_encoding]
    decide
  refine ⟨AtomicFiles.beside_temporaryThenRename Sink.isSound_empty, rfl, ?_, ?_, ?_⟩
  · exact ⟨_, AtomicFiles.saveFlushed_beside Sink.isNew_empty found (by decide) (taken [[1], [2]])
      rfl, rfl, rfl⟩
  · have saved := AtomicFiles.saveFlushed_beside Sink.isNew_empty found small (taken _) rfl
    refine ⟨_, (save_eq_ok_iff few).mpr saved, ?_⟩
    rw [load_eq]
    rfl
  · have folder : wordFolder.folderAt (Path.longWay "words" "7.bin" 4096).parent.steps =
        .ok wordTrail := by
      rw [Path.longWay_parent]
      rfl
    have nearby : AtomicFiles.workspace wordFolder (.longWay "words" "7.bin" 4096) =
        .ok wordTrail := by
      rw [AtomicFiles.workspace, Path.longWay_parent]
      rfl
    obtain ⟨e, limit, placed⟩ : ∃ e, e.pathLimit = longestPath ∧ wordFolder.replace
        (.longWay "words" "7.bin" 4096) listOfOne.record.parts.flatten = .ok e :=
      ⟨_, rfl, Directory.replace_eq_ok_iff.mpr ⟨_, _, _, Path.longWay_name _ _ _, folder, rfl⟩⟩
    have saved := AtomicFiles.saveFlushed_beside Sink.isNew_empty nearby small (taken _) placed
    refine ⟨_, (save_eq_ok_iff few).mpr saved, ?_⟩
    rw [load_eq, Directory.openItem_longWay (by decide) (by decide) (by rw [limit]; decide)]

end PostingList

end VisualIndex
