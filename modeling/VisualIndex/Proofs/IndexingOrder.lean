import VisualIndex.Proofs.ImageScores
import VisualIndex.Proofs.PostingLog

/-! The order in which images are indexed.

Indexing adds features and may sort at any time. It leaves the thresholds alone, so the
postings of an image depend on the image's own features and their order. Once sorted, lists
that were given the same features of each image are equal, however the images were mixed:
they are stored as the same bytes and score alike. -/
namespace VisualIndex

namespace Status

theorem insert_insert (s t : Status) : (s.insert t).insert t = s.insert t := by
  simp only [insert, UInt8.or_assoc, UInt8.or_self]

theorem insert_remove (s t : Status) : (s.remove t).insert t = s.insert t := by
  have bits : s.bits &&& ~~~t.bits ||| t.bits = s.bits ||| t.bits := by
    apply UInt8.eq_of_toBitVec_eq
    apply BitVec.eq_of_getLsbD_eq
    intro i inside
    simp only [UInt8.toBitVec_or, UInt8.toBitVec_and, UInt8.toBitVec_not, BitVec.getLsbD_or,
      BitVec.getLsbD_and, BitVec.getLsbD_not, inside, decide_true, Bool.true_and]
    cases t.bits.toBitVec.getLsbD i <;> simp
  exact congrArg Status.mk bits

end Status

/-- A change that indexing is made of. -/
inductive Change.Indexing {b : Nat} : Change b → Prop where
  | add {image : ImageId} {x : Descriptor b} (valid : 0 ≤ image) : Indexing (.add image x)
  | sort : Indexing .sort

/-- The descriptors that are added for an image, in their order. -/
def descriptorsOf {b : Nat} (i : ImageId) (changes : List (Change b)) : List (Descriptor b) :=
  changes.filterMap fun
    | .add image x => if image = i then some x else none
    | _ => none

theorem descriptorsOf_append {b : Nat} (i : ImageId) (first second : List (Change b)) :
    descriptorsOf i (first ++ second) = descriptorsOf i first ++ descriptorsOf i second :=
  List.filterMap_append

namespace PostingList

variable {b : Nat}

/-- Lists that differ in no more than their postings and the sorted flag. -/
structure SameSettings (p q : PostingList b) : Prop where
  embedding : q.embedding = p.embedding
  idf : q.idf = p.idf
  table : q.table = p.table
  status : q.status.insert .sorted = p.status.insert .sorted

namespace SameSettings

theorem refl (p : PostingList b) : SameSettings p p := ⟨rfl, rfl, rfl, rfl⟩

theorem trans {p q r : PostingList b} (first : SameSettings p q) (second : SameSettings q r) :
    SameSettings p r where
  embedding := second.embedding.trans first.embedding
  idf := second.idf.trans first.idf
  table := second.table.trans first.table
  status := second.status.trans first.status

theorem apply (p : PostingList b) {c : Change b} (indexing : c.Indexing) :
    SameSettings p (p.apply c) := by
  cases indexing with
  | add valid =>
    rw [p.apply_add_of_valid _ valid]
    exact ⟨rfl, rfl, rfl, p.status.insert_remove _⟩
  | sort => exact ⟨rfl, rfl, rfl, p.status.insert_insert _⟩

theorem run (p : PostingList b) {changes : List (Change b)}
    (indexing : ∀ c ∈ changes, c.Indexing) : SameSettings p (p.run changes) := by
  induction changes generalizing p with
  | nil => exact .refl p
  | cons c changes ih =>
    have first := SameSettings.apply p (indexing c List.mem_cons_self)
    exact first.trans (ih (p.apply c) fun d hd => indexing d (List.mem_cons_of_mem c hd))

/-- The settings and the postings of a sorted list are all there is to it. -/
theorem sort_eq {p q r : PostingList b} (first : SameSettings p q) (second : SameSettings p r)
    (same : SameByImage q.postings r.postings) : q.sort = r.sort := by
  rw [sort, sort, same.mergeSort_eq, first.embedding, second.embedding, first.idf, second.idf,
    first.table, second.table, first.status, second.status]

end SameSettings

theorem filter_apply_add (p : PostingList b) {image : ImageId} (x : Descriptor b)
    (valid : 0 ≤ image) (i : ImageId) :
    ((p.apply (.add image x)).postings.filter fun q => q.image = i) =
      (p.postings.filter fun q => q.image = i) ++
        (descriptorsOf i [.add image x]).map fun x => ⟨i, p.embedding.quantize x⟩ := by
  rw [p.apply_add_of_valid x valid, List.filter_append]
  by_cases same : image = i
  · simp [descriptorsOf, same]
  · simp [descriptorsOf, same]

/-- Indexing gives each image a posting for each of its descriptors, in their order. -/
theorem filter_run_indexing (p : PostingList b) {changes : List (Change b)}
    (indexing : ∀ c ∈ changes, c.Indexing) (i : ImageId) :
    ((p.run changes).postings.filter fun q => q.image = i) =
      (p.postings.filter fun q => q.image = i) ++
        (descriptorsOf i changes).map fun x => ⟨i, p.embedding.quantize x⟩ := by
  induction changes generalizing p with
  | nil => exact (List.append_nil _).symm
  | cons c changes ih =>
    have here := indexing c List.mem_cons_self
    have settings := SameSettings.apply p here
    have rest := ih (p.apply c) fun d hd => indexing d (List.mem_cons_of_mem c hd)
    have split_off := descriptorsOf_append i [c] changes
    rw [settings.embedding] at rest
    rw [run, List.foldl_cons, ← List.singleton_append, split_off, List.map_append,
      ← List.append_assoc]
    refine rest.trans (congrArg (· ++ _) ?_)
    cases here with
    | add valid => exact p.filter_apply_add _ valid i
    | sort => exact (SameByImage.sort p i).trans (List.append_nil _).symm

/-- A list that has been indexed, sorted and weighed. -/
def indexed (p : PostingList b) (changes : List (Change b)) (total : Nat) : PostingList b :=
  (p.run changes).sort.weigh total

theorem indexed_postings (p : PostingList b) (changes : List (Change b)) (total : Nat) :
    (p.indexed changes total).postings = (p.run changes).sort.postings :=
  (p.run changes).sort.weigh_postings total

/-- Two orders of indexing that agree on the descriptors of each image make lists that are
written as the same bytes and that score every descriptor alike: both hold the images in
ascending order, and of each image the postings of its descriptors in the order given. -/
theorem indexed_order_irrelevant (p : PostingList b) (empty : p.postings = [])
    (first second : List (Change b)) (indexing : ∀ c ∈ first, c.Indexing)
    (indexing' : ∀ c ∈ second, c.Indexing)
    (same : ∀ i, descriptorsOf i first = descriptorsOf i second) (total : Nat) :
    (∀ sink : Sink, (p.indexed first total).write sink =
      (p.indexed second total).write sink) ∧
    (∀ x, (p.indexed first total).score x = (p.indexed second total).score x) ∧
    ((p.indexed first total).postings.Pairwise fun q r => q.image ≤ r.image) ∧
    ∀ i, ((p.indexed first total).postings.filter fun q => q.image = i) =
      (descriptorsOf i first).map fun x => ⟨i, p.embedding.quantize x⟩ := by
  have added : ∀ changes : List (Change b), (∀ c ∈ changes, c.Indexing) → ∀ i,
      ((p.run changes).postings.filter fun q => q.image = i) =
        (descriptorsOf i changes).map fun x => ⟨i, p.embedding.quantize x⟩ := by
    intro changes steps i
    rw [p.filter_run_indexing steps i, empty]
    rfl
  have postings : SameByImage (p.run first).postings (p.run second).postings := by
    intro i
    rw [added first indexing i, added second indexing' i, same i]
  have sorted : (p.run first).sort = (p.run second).sort :=
    (SameSettings.run p indexing).sort_eq (SameSettings.run p indexing') postings
  have equal : p.indexed first total = p.indexed second total := by
    rw [indexed, indexed, sorted]
  refine ⟨fun _ => by rw [equal], fun _ => by rw [equal], ?_, ?_⟩
  · rw [indexed_postings]
    exact (p.run first).sort_pairwise
  · intro i
    rw [indexed_postings]
    exact (SameByImage.sort (p.run first) i).trans (added first indexing i)

/-- A list that votes, with thresholds of its own and no postings yet. -/
def noPostings : PostingList 1 := { twoImages with postings := [], embedding := ⟨halfAbove⟩ }

def mixedOrder : List (Change 1) := [.add 2 ones, .add 1 halfAbove, .sort, .add 2 halfAbove]

def imageOrder : List (Change 1) := [.add 1 halfAbove, .add 2 ones, .add 2 halfAbove]

theorem mixedOrder_indexing : ∀ c ∈ mixedOrder, c.Indexing := by
  simp only [mixedOrder, List.forall_mem_cons]
  exact ⟨.add (by decide), .add (by decide), .sort, .add (by decide), by simp⟩

theorem imageOrder_indexing : ∀ c ∈ imageOrder, c.Indexing := by
  simp only [imageOrder, List.forall_mem_cons]
  exact ⟨.add (by decide), .add (by decide), .add (by decide), by simp⟩

theorem descriptorsOf_mixedOrder (i : ImageId) :
    descriptorsOf i mixedOrder = descriptorsOf i imageOrder := by
  by_cases first : i = 1
  · rw [first]
    rfl
  · by_cases second : i = 2
    · rw [second]
      rfl
    · simp [descriptorsOf, mixedOrder, imageOrder, Ne.symm first, Ne.symm second]

theorem indexed_order_irrelevant_mixedOrder :
    noPostings.postings = [] ∧ (∀ c ∈ mixedOrder, c.Indexing) ∧
    (∀ c ∈ imageOrder, c.Indexing) ∧
    (∀ i, descriptorsOf i mixedOrder = descriptorsOf i imageOrder) ∧
    (noPostings.indexed mixedOrder 7).write Sink.empty =
      (noPostings.indexed imageOrder 7).write Sink.empty ∧
    (noPostings.indexed mixedOrder 7).score halfAbove =
      (noPostings.indexed imageOrder 7).score halfAbove ∧
    ((noPostings.indexed mixedOrder 7).postings.filter fun q => q.image = 2) =
      [⟨2, ⟨#v[0xf0]⟩⟩, ⟨2, .allClear⟩] := by
  obtain ⟨written, scored, -, images⟩ := noPostings.indexed_order_irrelevant rfl mixedOrder
    imageOrder mixedOrder_indexing imageOrder_indexing descriptorsOf_mixedOrder 7
  exact ⟨rfl, mixedOrder_indexing, imageOrder_indexing, descriptorsOf_mixedOrder,
    written Sink.empty, scored halfAbove, images 2⟩

end PostingList

end VisualIndex
