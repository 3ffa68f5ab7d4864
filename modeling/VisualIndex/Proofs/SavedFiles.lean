import Mathlib.Data.List.Basic
import VisualIndex.Storage

/-! What saving a file leaves in a directory.

A new file changes what is found at its own location and nowhere else, since no folder has
been put away for it. So every folder of the old tree is one of the new tree, and a path
that led to a folder leads to the folder at the same location. That holds for the items on
the way as well, though they are not the same: they hold the new file. -/
namespace VisualIndex

section Ends

variable {α : Type} {p : α → Bool} {x : α} (xs : List α)

/-- What is left out at the end of a list. -/
theorem exists_end (p : α → Bool) (xs : List α) :
    ∃ tail, xs = withoutEnd p xs ++ tail ∧ ∀ x ∈ tail, p x = true := by
  refine ⟨(xs.reverse.takeWhile p).reverse, ?_, ?_⟩
  · rw [withoutEnd, ← List.reverse_append, List.takeWhile_append_dropWhile, List.reverse_reverse]
  · intro x hx
    exact List.all_eq_true.mp List.all_takeWhile x (List.mem_reverse.mp hx)

theorem withoutEnd_concat_of_neg (kept : p x = false) :
    withoutEnd p (xs ++ [x]) = xs ++ [x] := by
  simp [withoutEnd, kept]

theorem withoutEnd_concat_of_pos (left : p x = true) :
    withoutEnd p (xs ++ [x]) = withoutEnd p xs := by
  simp [withoutEnd, left]

end Ends

/-- A path that does not end in a slash or in dots. -/
def Path.EndsInName (path : Path) : Prop := ∃ front name, path.steps = front ++ [.down name]

/-- Such a path goes through its parent, stays there for some steps and ends in the name. -/
theorem Path.EndsInName.steps_eq {path : Path} (ends : path.EndsInName) :
    ∃ front stays name, splitName? path.settled.steps = some (front, name) ∧
      (∀ step ∈ stays, step.isStay = true) ∧
      path.steps = path.parent.steps ++ stays ++ [.down name] := by
  obtain ⟨front, name, steps⟩ := ends
  have settled : path.settled.steps = front ++ [.down name] := by
    rw [Path.settled, steps]
    exact withoutEnd_concat_of_neg front rfl
  obtain ⟨stays, split_front, stay⟩ := exists_end Step.isStay front
  refine ⟨front, stays, name, ?_, stay, ?_⟩
  · rw [settled, splitName?, List.getLast?_concat, List.dropLast_concat]
  · have parent : path.parent.steps = withoutEnd Step.isStay front := by
      rw [Path.parent, settled, List.dropLast_concat]
      rfl
    rw [steps, parent, ← split_front]

namespace Node

variable {node next new : Node} {entries : List (String × Node)} {name other : String}

theorem below?_append (node : Node) (a b : Location) :
    node.below? (a ++ b) = (node.below? a).bind fun next => next.below? b := by
  induction a generalizing node with
  | nil => rfl
  | cons name a ih =>
    simp only [List.cons_append, below?]
    cases node.child? name with
    | none => rfl
    | some next => exact ih next

theorem below?_singleton (node : Node) (name : String) : node.below? [name] = node.child? name := by
  rw [below?]
  cases node.child? name <;> rfl

/-- A file has nothing in it. -/
theorem below?_file {content : List UInt8} {place : Location} (moves : place ≠ []) :
    (Node.file content).below? place = none := by
  cases place with
  | nil => exact absurd rfl moves
  | cons name rest => rfl

theorem child?_put_self (entries : List (String × Node)) (new : Node) (name : String)
    (rest : Location) : ((folder entries).put new (name :: rest)).child? name =
      some ((((folder entries).child? name).getD empty).put new rest) := by
  simp [put, child?]

theorem child?_put_other (node new : Node) {name other : String} (different : other ≠ name)
    (rest : Location) : (node.put new (name :: rest)).child? other = node.child? other := by
  cases node with
  | file content => rfl
  | folder entries =>
    have both : (fun e : String × Node => decide (decide (e.1 ≠ name) = true ∧
        decide (e.1 = other) = true)) = fun e => decide (e.1 = other) := by
      funext e
      by_cases h : e.1 = other <;> simp [h, different]
    rw [put, child?, List.find?_cons_of_neg (by simpa using different.symm), List.find?_filter,
      both]
    rfl

/-- What a location below a folder leads to goes through the folder's entry. -/
theorem below?_cons_eq_some {rest : Location} :
    node.below? (name :: rest) = some next ↔
      ∃ inner, node.child? name = some inner ∧ inner.below? rest = some next := by
  rw [below?]
  cases node.child? name <;> simp

theorem folder_of_child? (found : node.child? name = some next) :
    ∃ entries, node = folder entries := by
  cases node with
  | file content => cases found
  | folder entries => exact ⟨entries, rfl⟩

/-- A new item stands where it has been put. -/
theorem below?_put_self {base : Location} (reached : node.below? base = some (folder entries)) :
    (node.put new (base ++ [name])).below? (base ++ [name]) = some new := by
  induction base generalizing node with
  | nil =>
    obtain rfl : node = folder entries := Option.some.inj reached
    exact below?_cons_eq_some.mpr ⟨new, child?_put_self entries new name [], rfl⟩
  | cons first base ih =>
    obtain ⟨inner, found, deeper⟩ := below?_cons_eq_some.mp reached
    obtain ⟨others, rfl⟩ := folder_of_child? found
    have entry := child?_put_self others new first (base ++ [name])
    rw [found] at entry
    exact below?_cons_eq_some.mpr ⟨_, entry, ih deeper⟩

/-- The other items stay, though the folders on the way to the new one hold it. -/
theorem below?_put_other {base place : Location}
    (reached : node.below? base = some (folder entries)) (apart : ¬base ++ [name] <+: place) :
    ((node.put new (base ++ [name])).below? place).map item = (node.below? place).map item := by
  induction base generalizing node place with
  | nil =>
    obtain rfl : node = folder entries := Option.some.inj reached
    cases place with
    | nil => rfl
    | cons other place =>
      have different : other ≠ name := by
        rintro rfl
        exact apart ⟨place, rfl⟩
      rw [below?, below?, List.nil_append, child?_put_other _ _ different]
  | cons first base ih =>
    obtain ⟨inner, found, deeper⟩ := below?_cons_eq_some.mp reached
    obtain ⟨others, rfl⟩ := folder_of_child? found
    cases place with
    | nil => rfl
    | cons other place =>
      rw [below?, below?, List.cons_append]
      by_cases same : other = first
      · obtain rfl := same
        rw [child?_put_self, found]
        exact ih deeper fun ⟨rest, h⟩ => apart ⟨rest, by rw [← h]; rfl⟩
      · rw [child?_put_other _ _ same]

end Node

/-- Every item of a trail stands in the one before it. -/
def Trail.IsIn (d : Directory) : Trail → Prop
  | [] => True
  | (name, node) :: t => Trail.IsIn d t ∧ (d.arrival t).child? name = some node

namespace Directory

variable {d e : Directory} {t u v : Trail} {step : Step} {steps : List Step}

theorem location_cons (name : String) (node : Node) (t : Trail) :
    Trail.location ((name, node) :: t) = t.location ++ [name] := by
  simp [Trail.location]

theorem location_tail (t : Trail) : Trail.location t.tail = t.location.dropLast := by
  cases t with
  | nil => rfl
  | cons entry t => simp [Trail.location]

theorem isIn_tail (inside : t.IsIn d) : Trail.IsIn d t.tail := by
  cases t with
  | nil => trivial
  | cons entry t => exact inside.1

/-- A trail leads to what stands at its location. -/
theorem below?_location (inside : t.IsIn d) : d.root.below? t.location = some (d.arrival t) := by
  induction t with
  | nil => rfl
  | cons entry t ih =>
    obtain ⟨name, node⟩ := entry
    rw [location_cons, Node.below?_append, ih inside.1]
    exact (Node.below?_singleton _ _).trans inside.2

theorem item?_location (inside : t.IsIn d) : d.item? t.location = some (d.arrival t).item := by
  rw [item?, below?_location inside]
  rfl

theorem item_eq_folder {node : Node} : node.item = .folder ↔ ∃ entries, node = .folder entries := by
  cases node <;> simp [Node.item]

/-- Where a step from a folder leads. -/
def next? (d : Directory) (t : Trail) : Step → Option Trail
  | .blank | .here => some t
  | .up => some t.tail
  | .down name => ((d.arrival t).child? name).map fun node => (name, node) :: t

theorem walk_cons (folder : (d.arrival t).item = .folder) (moves : d.next? t step = some v)
    (steps : List Step) : d.walk t (step :: steps) = d.walk v steps := by
  obtain ⟨entries, here⟩ := item_eq_folder.mp folder
  rw [walk, here]
  cases step with
  | blank => cases moves; rfl
  | here => cases moves; rfl
  | up => cases moves; rfl
  | down name =>
    obtain ⟨node, found, rfl⟩ := Option.map_eq_some_iff.mp moves
    rw [here] at found
    simp only [found]

/-- What a walk has to find at its first step. -/
theorem walk_cons_eq_ok (walked : d.walk t (step :: steps) = .ok u) :
    (d.arrival t).item = .folder ∧ ∃ v, d.next? t step = some v ∧ d.walk v steps = .ok u := by
  rw [walk] at walked
  cases here : d.arrival t with
  | file content => rw [here] at walked; cases walked
  | folder entries =>
    rw [here] at walked
    refine ⟨rfl, ?_⟩
    cases step with
    | blank => exact ⟨t, rfl, walked⟩
    | here => exact ⟨t, rfl, walked⟩
    | up => exact ⟨t.tail, rfl, walked⟩
    | down name =>
      dsimp only at walked
      cases found : (Node.folder entries).child? name with
      | none => rw [found] at walked; cases walked
      | some node =>
        rw [found] at walked
        exact ⟨(name, node) :: t, by rw [next?, here, found]; rfl, walked⟩

theorem isIn_next? (inside : t.IsIn d) (moves : d.next? t step = some v) : v.IsIn d := by
  cases step with
  | blank => cases moves; exact inside
  | here => cases moves; exact inside
  | up => cases moves; exact isIn_tail inside
  | down name =>
    obtain ⟨node, found, rfl⟩ := Option.map_eq_some_iff.mp moves
    exact And.intro inside found

theorem isIn_walk (inside : t.IsIn d) (walked : d.walk t steps = .ok u) : u.IsIn d := by
  induction steps generalizing t with
  | nil => cases walked; exact inside
  | cons step steps ih =>
    obtain ⟨-, v, moves, walked⟩ := walk_cons_eq_ok walked
    exact ih (isIn_next? inside moves) walked

/-- A walk goes on from where its first part has led to. -/
theorem walk_append (walked : d.walk t steps = .ok u) (more : List Step) :
    d.walk t (steps ++ more) = d.walk u more := by
  induction steps generalizing t with
  | nil => cases walked; rfl
  | cons step steps ih =>
    obtain ⟨folder, v, moves, walked⟩ := walk_cons_eq_ok walked
    rw [List.cons_append, walk_cons folder moves]
    exact ih walked

theorem walk_append_eq_ok {more : List Step} (walked : d.walk t (steps ++ more) = .ok u) :
    ∃ v, d.walk t steps = .ok v ∧ d.walk v more = .ok u := by
  induction steps generalizing t with
  | nil => exact ⟨t, rfl, walked⟩
  | cons step steps ih =>
    obtain ⟨folder, v, moves, walked⟩ := walk_cons_eq_ok walked
    obtain ⟨w, first, second⟩ := ih walked
    exact ⟨w, (walk_cons folder moves steps).trans first, second⟩

/-- Steps that stay lead nowhere else. -/
theorem walk_stays (folder : (d.arrival t).item = .folder)
    (stays : ∀ step ∈ steps, step.isStay = true) : d.walk t steps = .ok t := by
  induction steps with
  | nil => rfl
  | cons step steps ih =>
    have moves : d.next? t step = some t := by
      have := stays step List.mem_cons_self
      cases step <;> simp_all [next?, Step.isStay]
    rw [walk_cons folder moves]
    exact ih fun s hs => stays s (List.mem_cons_of_mem _ hs)

theorem folderAt_eq_ok (found : d.folderAt steps = .ok t) :
    d.walk [] steps = .ok t ∧ (d.arrival t).item = .folder ∧ t.IsIn d := by
  obtain ⟨u, walked, last⟩ := walk_append_eq_ok found
  obtain ⟨folder, v, moves, same⟩ := walk_cons_eq_ok last
  cases moves
  cases same
  exact ⟨walked, folder, isIn_walk (t := []) trivial walked⟩

/-- A walk that ends in a folder has started in one. -/
theorem folder_of_walk (walked : d.walk t steps = .ok u) (folder : (d.arrival u).item = .folder) :
    (d.arrival t).item = .folder := by
  cases steps with
  | nil => cases walked; exact folder
  | cons step steps => exact (walk_cons_eq_ok walked).1

/-- What stands beside a trail's arrival is an entry of it. -/
theorem item?_location_append (inside : t.IsIn d) (name : String) :
    d.item? (t.location ++ [name]) = ((d.arrival t).child? name).map Node.item := by
  rw [item?, Node.below?_append, below?_location inside]
  exact congrArg (Option.map Node.item) (Node.below?_singleton _ _)

section Kept

variable {t' : Trail} (inside : t.IsIn d) (inside' : t'.IsIn e) (same : t'.location = t.location)
  (kept : ∀ place, d.item? place = some .folder → e.item? place = some .folder)
include inside inside' same kept

theorem folder_of_kept (folder : (d.arrival t).item = .folder) :
    (e.arrival t').item = .folder := by
  have stands := kept t.location (by rw [item?_location inside, folder])
  rw [← same, item?_location inside'] at stands
  exact Option.some.inj stands

theorem next?_of_kept (moves : d.next? t step = some v) (folder : (d.arrival v).item = .folder) :
    ∃ v', e.next? t' step = some v' ∧ v'.IsIn e ∧ v'.location = v.location := by
  cases step with
  | blank => cases moves; exact ⟨t', rfl, inside', same⟩
  | here => cases moves; exact ⟨t', rfl, inside', same⟩
  | up =>
    cases moves
    exact ⟨_, rfl, isIn_tail inside', by rw [location_tail, location_tail, same]⟩
  | down name =>
    have inside_v := isIn_next? inside moves
    obtain ⟨node, found, rfl⟩ := Option.map_eq_some_iff.mp moves
    have stands := kept _ ((item?_location inside_v).trans (congrArg some folder))
    rw [location_cons, ← same, item?_location_append inside'] at stands
    obtain ⟨node', found', -⟩ := Option.map_eq_some_iff.mp stands
    refine ⟨(name, node') :: t', by rw [next?, found']; rfl, ⟨inside', found'⟩, ?_⟩
    rw [location_cons, location_cons, same]

end Kept

/-- Where all folders are kept, a walk to a folder leads to the same location. -/
theorem walk_of_kept
    (kept : ∀ place, d.item? place = some .folder → e.item? place = some .folder)
    {w : Trail} (inside : t.IsIn d) (inside' : w.IsIn e) (same : w.location = t.location)
    (walked : d.walk t steps = .ok u) (folder : (d.arrival u).item = .folder) :
    ∃ u', e.walk w steps = .ok u' ∧ u'.IsIn e ∧ u'.location = u.location := by
  induction steps generalizing t w with
  | nil => cases walked; exact ⟨w, rfl, inside', same⟩
  | cons step steps ih =>
    obtain ⟨start, v, moves, walked⟩ := walk_cons_eq_ok walked
    obtain ⟨v', moves', inside_v', same_v⟩ :=
      next?_of_kept inside inside' same kept moves (folder_of_walk walked folder)
    rw [walk_cons (folder_of_kept inside inside' same kept start) moves']
    exact ih (isIn_next? inside moves) inside_v' same_v walked

/-- Only a folder has something in it. -/
theorem item?_beyond {place more : Location} (free : d.item? place ≠ some .folder)
    (moves : more ≠ []) : d.item? (place ++ more) = none := by
  rw [item?, Node.below?_append]
  cases found : d.root.below? place with
  | none => rfl
  | some node =>
    cases node with
    | file content => rw [Option.bind_some, Node.below?_file moves]; rfl
    | folder entries => exact absurd (by rw [item?, found]; rfl) free

/-- A file is put where no folder stands, and under a new name only if it may have it. -/
theorem putFile_eq_ok {name : String} {content : List UInt8} (inside : t.IsIn d) :
    d.putFile t name content = .ok e ↔ d.item? (t.location ++ [name]) ≠ some .folder ∧
      (d.item? (t.location ++ [name]) = none → nameFault? name = none) ∧
      e = d.put t name (.file content) := by
  rw [item?_location_append inside, putFile]
  cases (d.arrival t).child? name with
  | none => cases nameFault? name <;> simp [eq_comm]
  | some node => cases node <;> simp [Node.item, eq_comm]

/-- A file that is put into a folder stands there, and no other item changes. -/
theorem item?_putFile {name : String} {content : List UInt8} (inside : t.IsIn d)
    (folder : (d.arrival t).item = .folder) (done : d.putFile t name content = .ok e) :
    e.item? (t.location ++ [name]) = some (.file content) ∧
      ∀ place ≠ t.location ++ [name], e.item? place = d.item? place := by
  obtain ⟨free, -, rfl⟩ := (putFile_eq_ok inside).mp done
  obtain ⟨entries, here⟩ := item_eq_folder.mp folder
  have reached := below?_location inside
  rw [here] at reached
  have stands : (d.put t name (.file content)).item? (t.location ++ [name]) =
      some (.file content) := by
    rw [item?, put, Node.below?_put_self reached]
    rfl
  refine ⟨stands, fun place other => ?_⟩
  by_cases below : t.location ++ [name] <+: place
  · -- nothing was below the place of the file, and nothing is now
    obtain ⟨more, rfl⟩ := below
    have moves : more ≠ [] := by
      rintro rfl
      exact other (List.append_nil _)
    rw [item?_beyond free moves, item?_beyond (by rw [stands]; simp) moves]
  · exact Node.below?_put_other reached below

/-- A path can be followed to a location. -/
def LeadsTo (d : Directory) (path : Path) (place : Location) : Prop :=
  ∃ t, d.locate path = .ok t ∧ t.location = place

/-- What is opened is what stands at the location. -/
theorem LeadsTo.openItem {path : Path} {place : Location} {item : Item}
    (leads : d.LeadsTo path place) (stands : d.item? place = some item) :
    d.openItem path = .ok item := by
  obtain ⟨t, located, rfl⟩ := leads
  have walked : d.walk [] path.steps = .ok t := by
    rw [locate] at located
    split at located
    · cases located
    · exact located
  rw [item?_location (isIn_walk (t := []) trivial walked)] at stands
  rw [Directory.openItem, located]
  exact congrArg Except.ok (Option.some.inj stands)

/-- A tree holds a file where another one holds no folder, and else what the other holds. -/
structure Replaced (d e : Directory) (place : Location) (content : List UInt8) : Prop where
  free : d.item? place ≠ some .folder
  stands : e.item? place = some (.file content)
  others : ∀ other ≠ place, e.item? other = d.item? other
  pathLimit : e.pathLimit = d.pathLimit

theorem Replaced.kept {place : Location} {content : List UInt8}
    (replaced : d.Replaced e place content) (other : Location)
    (folder : d.item? other = some .folder) : e.item? other = some .folder := by
  rw [replaced.others other fun same => replaced.free (same ▸ folder), folder]

/-- The location that a path names, whether or not something stands there. -/
def target? (d : Directory) (path : Path) : Option Location :=
  match d.folderAt path.parent.steps, splitName? path.settled.steps with
  | .ok t, some (_, name) => some (t.location ++ [name])
  | _, _ => none

section Replacing

variable {path : Path} {content : List UInt8}

/-- A new file is put into the folder that the path's parent leads to, under the path's
name. -/
theorem replace_eq_ok_iff : d.replace path content = .ok e ↔ ∃ t front name,
    splitName? path.settled.steps = some (front, name) ∧
      d.folderAt path.parent.steps = .ok t ∧ d.putFile t name content = .ok e := by
  rw [replace]
  cases splitName? path.settled.steps with
  | none => simp [throw, throwThe, MonadExceptOf.throw]
  | some split =>
    obtain ⟨front, name⟩ := split
    cases found : d.folderAt path.parent.steps with
    | error cause => simp [bind, Except.bind]
    | ok t =>
      simp [bind, Except.bind]

variable (done : d.replace path content = .ok e)
include done

/-- The file stands at the target of the path, and nothing else changes. -/
theorem replaced_of_replace : ∃ place, d.target? path = some place ∧
    d.Replaced e place content := by
  obtain ⟨t, front, name, named, found, put⟩ := replace_eq_ok_iff.mp done
  obtain ⟨-, folder, inside⟩ := folderAt_eq_ok found
  obtain ⟨stands, others⟩ := item?_putFile inside folder put
  obtain ⟨free, -, rfl⟩ := (putFile_eq_ok inside).mp put
  exact ⟨t.location ++ [name], by rw [target?, found, named], free, stands, others, rfl⟩

/-- A path that ends in a name leads to the file, if it can be followed at all. -/
theorem leadsTo_of_replace {place : Location} (target : d.target? path = some place)
    (ends : path.EndsInName) (allowed : d.fault? path = none) : e.LeadsTo path place := by
  obtain ⟨t, _, name, named, found, -⟩ := replace_eq_ok_iff.mp done
  obtain ⟨_, stays, last, split_path, stay, along⟩ := ends.steps_eq
  cases named.symm.trans split_path
  obtain ⟨place', target', replaced⟩ := replaced_of_replace done
  cases target.symm.trans target'
  have location : t.location ++ [name] = place := by
    rw [target?, found, named] at target
    exact Option.some.inj target
  obtain ⟨walked, folder, inside⟩ := folderAt_eq_ok found
  -- the parent still leads to its folder, and the file stands there now
  obtain ⟨u, walked', inside', same⟩ :=
    walk_of_kept replaced.kept (t := []) (w := []) trivial trivial rfl walked folder
  have folder' := folder_of_kept inside inside' same replaced.kept folder
  have stands := replaced.stands
  rw [← location, ← same, item?_location_append inside'] at stands
  obtain ⟨node, entry, file⟩ := Option.map_eq_some_iff.mp stands
  have moves : e.next? u (.down name) = some ((name, node) :: u) := by
    rw [next?, entry]
    rfl
  have allowed' : e.fault? path = none := by rw [fault?, replaced.pathLimit, ← fault?, allowed]
  refine ⟨(name, node) :: u, ?_, by rw [location_cons, same, location]⟩
  rw [locate, allowed']
  simp only
  rw [along, List.append_assoc, walk_append walked', walk_append (walk_stays folder' stay),
    walk_cons folder' moves]
  rfl

end Replacing

end Directory

namespace AtomicFiles

/-- What the save of a file can come to, where `new` says what new files are like: no file was
made, or it was not filled, or it was not put in place, or it was. Only then is the tree another
one, in which nothing but the new file in the place of the old one has changed. -/
inductive Outcome (new : Sink → Prop) (d : Directory) (path : Path)
    (fill : Sink → Except IoError Unit × Sink) : Except SaveStage Unit × Directory → Prop where
  | unmade : Outcome new d path fill (.error .placing, d)
  | unfilled {file full : Sink} {error : IoError} : new file →
    fill file = (.error error, full) → Outcome new d path fill (.error .filling, d)
  | unplaced {file full : Sink} : new file →
    fill file = (.ok (), full) → Outcome new d path fill (.error .placing, d)
  | placed {file full : Sink} {e : Directory} : new file →
    fill file = (.ok (), full) → d.replace path full.written.toList = .ok e →
    Outcome new d path fill (.ok (), e)

/-- The library fills a temporary file and then renames it, once. -/
def TemporaryThenRename (files : AtomicFiles) (new : Sink → Prop) : Prop :=
  ∀ d path fill, Outcome new d path fill (files.write d path fill)

theorem beside_temporaryThenRename {new : Sink → Prop} {file : Sink} (is_new : new file) :
    (beside file).TemporaryThenRename new := by
  intro d path fill
  simp only [beside]
  split
  · exact .unmade
  split
  · next filled => exact .unfilled is_new filled
  · next filled =>
    split
    · next placed => exact .placed is_new filled placed
    · exact .unplaced is_new filled

variable {files : AtomicFiles} {new : Sink → Prop} (atomic : files.TemporaryThenRename new)
  {d e : Directory} {path : Path} {fill : Sink → Except IoError Unit × Sink}
include atomic

theorem TemporaryThenRename.unchanged {stage : SaveStage}
    (failed : files.write d path fill = (.error stage, e)) : e = d := by
  have outcome := atomic d path fill
  rw [failed] at outcome
  cases outcome <;> rfl

theorem TemporaryThenRename.replaced (saved : files.write d path fill = (.ok (), e)) :
    ∃ file full, new file ∧ fill file = (.ok (), full) ∧
      d.replace path full.written.toList = .ok e := by
  have outcome := atomic d path fill
  rw [saved] at outcome
  cases outcome with
  | placed is_new filled done => exact ⟨_, _, is_new, filled, done⟩

end AtomicFiles

end VisualIndex
