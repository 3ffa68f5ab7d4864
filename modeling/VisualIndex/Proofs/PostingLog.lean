import VisualIndex.Proofs.ListChanges
import VisualIndex.Proofs.SignatureBits

/-! The log of a list.

The log tells what a list should hold, told by the changes alone: an added feature is
appended with the signature that the thresholds of that moment give it, clearing and
resetting empty the log, a record that is read replaces it, and nothing else touches it.
After any run of changes the list holds what the log holds, and each image's postings in
the log's order. -/
namespace VisualIndex.PostingList

variable {b : Nat}

/-- How a change of a list takes the log on. -/
inductive Logs (p : PostingList b) (log : List (Posting b)) :
    Change b → List (Posting b) → Prop where
  | added {image : ImageId} {x : Descriptor b} {code : Signature b} (valid : 0 ≤ image)
      (bits : ∀ i : Fin (8 * b),
        code.bit? i = some ((x.get i).gt (p.embedding.thresholds.get i))) :
      Logs p log (.add image x) (log ++ [⟨image, code⟩])
  | refused {image : ImageId} {x : Descriptor b} (negative : image < 0) :
      Logs p log (.add image x) log
  | sorted : Logs p log .sort log
  | cleared : Logs p log .clear []
  | reset : Logs p log .reset []
  | trained {rows : List (Descriptor b)} : Logs p log (.train rows) log
  | weighed {total : Nat} : Logs p log (.weigh total) log
  | replaced {c : Change b} {s : Source} (source : c.source? = some s)
      (whole : stop? b s.supply = none) : Logs p log c (recordAt b s.supply).postings
  | failed {c : Change b} {s : Source} {stop : Stop} (source : c.source? = some s)
      (stops : stop? b s.supply = some stop) : Logs p log c log
  | unopened {directory : Directory} {path : Path}
      (missing : (Change.load (b := b) directory path).source? = none) :
      Logs p log (.load directory path) log

/-- What a run of changes makes of a log. -/
inductive Logged : PostingList b → List (Posting b) → List (Change b) →
    List (Posting b) → Prop where
  | done {p : PostingList b} {log : List (Posting b)} : Logged p log [] log
  | step {p : PostingList b} {log next last : List (Posting b)} {c : Change b}
      {changes : List (Change b)} (first : p.Logs log c next)
      (rest : Logged (p.apply c) next changes last) : Logged p log (c :: changes) last

/-- A list after a run of changes. -/
def run (p : PostingList b) (changes : List (Change b)) : PostingList b :=
  changes.foldl apply p

theorem apply_add_of_valid (p : PostingList b) {image : ImageId} (x : Descriptor b)
    (valid : 0 ≤ image) : p.apply (.add image x) = { p with
      postings := p.postings ++ [⟨image, p.embedding.quantize x⟩]
      status := p.status.remove .sorted } := by
  rw [apply, add, if_neg (Int32.not_lt.mpr valid)]

theorem apply_add_of_negative (p : PostingList b) {image : ImageId} (x : Descriptor b)
    (negative : image < 0) : p.apply (.add image x) = p := by
  rw [apply, add, if_pos negative]

/-- The bits of a signature settle it. -/
theorem eq_quantize {e : Embedding b} {x : Descriptor b} {code : Signature b}
    (bits : ∀ i : Fin (8 * b), code.bit? i = some ((x.get i).gt (e.thresholds.get i))) :
    code = e.quantize x := by
  apply Signature.ext_bit?
  intro i inside
  exact (bits ⟨i, inside⟩).trans (e.bit?_quantize x ⟨i, inside⟩).symm

theorem train_postings (p : PostingList b) (rows : List (Descriptor b)) :
    (p.train rows).2.postings = p.postings := by
  rcases p.train_eq rows with same | ⟨embedding, learned⟩
  · rw [same]
  · rw [learned]

theorem weigh_postings (p : PostingList b) (total : Nat) :
    (p.weigh total).postings = p.postings := by
  obtain ⟨idf, weighed⟩ := p.weigh_eq total
  rw [weighed]

theorem Logs.sameByImage {p : PostingList b} {log next : List (Posting b)} {c : Change b}
    (logs : p.Logs log c next) (same : SameByImage p.postings log) :
    SameByImage (p.apply c).postings next := by
  cases logs with
  | added valid bits =>
    rw [p.apply_add_of_valid _ valid, eq_quantize bits]
    exact same.append _
  | refused negative =>
    rw [p.apply_add_of_negative _ negative]
    exact same
  | sorted => exact (SameByImage.sort p).trans same
  | cleared => exact .refl []
  | reset => exact .refl []
  | trained =>
    rw [apply, train_postings]
    exact same
  | weighed =>
    rw [apply, weigh_postings]
    exact same
  | @replaced _ s source whole =>
    obtain ⟨t, ht, -⟩ := p.read_from_supply s
    rw [whole] at ht
    rw [apply_of_source source, ht]
    exact .refl _
  | @failed _ s _ source stops =>
    obtain ⟨t, ht, -⟩ := p.read_from_supply s
    rw [stops] at ht
    rw [apply_of_source source, ht]
    exact same
  | unopened missing =>
    rw [apply_load_of_no_source missing]
    exact same

theorem exists_logs (p : PostingList b) (log : List (Posting b)) (c : Change b) :
    ∃ next, p.Logs log c next := by
  cases source : c.source? with
  | some s =>
    cases stops : stop? b s.supply with
    | none => exact ⟨_, .replaced source stops⟩
    | some stop => exact ⟨_, .failed source stops⟩
  | none =>
    cases c with
    | add image x =>
      by_cases negative : image < 0
      · exact ⟨_, .refused negative⟩
      · exact ⟨_, .added (Int32.not_lt.mp negative) (p.embedding.bit?_quantize x)⟩
    | sort => exact ⟨_, .sorted⟩
    | clear => exact ⟨_, .cleared⟩
    | reset => exact ⟨_, .reset⟩
    | train rows => exact ⟨_, .trained⟩
    | weigh total => exact ⟨_, .weighed⟩
    | read s => cases source
    | load directory path => exact ⟨_, .unopened source⟩

theorem exists_logged (p : PostingList b) (log : List (Posting b)) (changes : List (Change b)) :
    ∃ last, p.Logged log changes last := by
  induction changes generalizing p log with
  | nil => exact ⟨log, .done⟩
  | cons c changes ih =>
    obtain ⟨next, first⟩ := p.exists_logs log c
    obtain ⟨last, rest⟩ := ih (p.apply c) next
    exact ⟨last, .step first rest⟩

theorem Logged.sameByImage {p : PostingList b} {log last : List (Posting b)}
    {changes : List (Change b)} (logged : p.Logged log changes last)
    (same : SameByImage p.postings log) : SameByImage (p.run changes).postings last := by
  induction logged with
  | done => exact same
  | step first _ ih => exact ih (first.sameByImage same)

/-- A run of changes keeps a log, and the list that it ends in holds a permutation of the
log with the postings of each image in the log's order. Training never changes what is
stored. -/
theorem run_postings_logged (p : PostingList b) (changes : List (Change b)) :
    (∃ log, p.Logged p.postings changes log) ∧
    (∀ log, p.Logged p.postings changes log →
      (p.run changes).postings.Perm log ∧
      ∀ i, ((p.run changes).postings.filter fun q => q.image = i) =
        log.filter fun q => q.image = i) ∧
    ∀ rows, ((p.run changes).apply (.train rows)).postings = (p.run changes).postings := by
  refine ⟨p.exists_logged p.postings changes, ?_, (p.run changes).train_postings⟩
  intro log logged
  have same := logged.sameByImage (.refl p.postings)
  exact ⟨same.perm, same⟩

def ones : Descriptor 1 := .replicate 8 ⟨0x3f800000⟩

/-- Features before and after training, with a sort in between, a feature of no image and a
record that is cut off. -/
def mixedRun : List (Change 1) :=
  [.add 5 ones, .add 3 (.replicate 8 .zero), .sort, .train [ones, ones], .add 5 ones,
    .add (-1) ones, .read (.ofBytes [7, 7, 7]), .sort]

def emptyList : PostingList 1 := ⟨.blank, .zero, [], .initial, ⟨#[]⟩⟩

/-- The signature of ones under the thresholds learned from them. -/
def onesTrained : Signature 1 := (emptyList.train [ones, ones]).2.embedding.quantize ones

def mixedLog : List (Posting 1) := [⟨5, .allSet⟩, ⟨3, .allClear⟩, ⟨5, onesTrained⟩]

theorem mixedRun_logged : emptyList.Logged [] mixedRun mixedLog := by
  refine .step (@Logs.added _ _ _ 5 ones .allSet (by decide) (by decide)) ?_
  refine .step (@Logs.added _ _ _ 3 _ .allClear (by decide) (by decide)) ?_
  refine .step .sorted (.step .trained ?_)
  refine .step (.added (by decide) (Embedding.bit?_quantize _ ones)) ?_
  refine .step (.refused (by decide)) ?_
  refine .step (@Logs.failed _ _ _ _ _ (.truncated .idfWeight) rfl (by decide)) ?_
  exact .step .sorted .done

theorem run_postings_logged_mixedRun :
    emptyList.Logged emptyList.postings mixedRun mixedLog ∧
    (emptyList.run mixedRun).postings.Perm mixedLog ∧
    ((emptyList.run mixedRun).postings.filter fun q => q.image = 5) =
      [⟨5, .allSet⟩, ⟨5, onesTrained⟩] := by
  obtain ⟨-, kept, -⟩ := emptyList.run_postings_logged mixedRun
  obtain ⟨perm, images⟩ := kept mixedLog mixedRun_logged
  exact ⟨mixedRun_logged, perm, images 5⟩

end VisualIndex.PostingList
