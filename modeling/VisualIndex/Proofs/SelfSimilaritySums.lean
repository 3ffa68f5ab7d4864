import Mathlib.Data.List.Induction
import VisualIndex.Proofs.ListChanges
import VisualIndex.Proofs.Rounding
import VisualIndex.Vocabulary

/-! Self-similarities summed by any plan.

What a plan leaves in one slot is a tree of sums over the amounts that the words add to this
slot, in the order of the words. Where the sums of neighbouring amounts are numbers of the
format, no addition rounds, and every plan leaves the sum of all amounts. An image without a
slot stops every plan. -/
namespace VisualIndex

namespace Double

/-- A finite number that is not negative. -/
def IsAmount (x : Double) : Prop := x.bits.toNat < doubleFormat.infinity

/-- The quanta of an amount. -/
def quanta (x : Double) : Nat := doubleFormat.quanta x.bits.toNat

/-- The quanta of several amounts. -/
def total (amounts : List Double) : Nat := amounts.foldr (fun x n => x.quanta + n) 0

theorem eq_of_quanta_eq {x y : Double} (same : x.quanta = y.quanta) : x = y := by
  have bits := doubleFormat.quanta_strictMono.injective same
  exact congrArg Double.mk (UInt64.toNat_inj.mp bits)

theorem total_append (front back : List Double) :
    total (front ++ back) = total front + total back := by
  induction front with
  | nil => exact (Nat.zero_add _).symm
  | cons x front ih => exact (congrArg (x.quanta + ·) ih).trans (Nat.add_assoc _ _ _).symm

theorem total_replicate (n : Nat) (x : Double) :
    total (List.replicate n x) = n * x.quanta := by
  induction n with
  | zero => exact (Nat.zero_mul _).symm
  | succ n ih =>
    rw [Nat.succ_mul, Nat.add_comm (n * x.quanta)]
    exact congrArg (x.quanta + ·) ih

theorem IsAmount.datum {x : Double} (amount : x.IsAmount) :
    x.datum = .finite false x.quanta := by
  have value := datum_of_finite amount
  rw [ofCode, UInt64.ofNat_toNat] at value
  exact value

/-- A sum that is a number of the format is formed without rounding. -/
theorem add_exact {x y z : Double} (hx : x.IsAmount) (hy : y.IsAmount) (hz : z.IsAmount)
    (sum : z.quanta = x.quanta + y.quanta) : x + y = z := by
  have rounded : doubleFormat.round (x.quanta + y.quanta) 1 = z.bits.toNat := by
    rw [← sum, ← Nat.mul_one z.quanta]
    exact doubleFormat.round_quanta (by decide) Nat.one_pos hz
  change ofCode (doubleFormat.add x.datum y.datum) = z
  rw [hx.datum, hy.datum, Format.add, if_pos rfl, Format.pack_false, rounded, ofCode,
    UInt64.ofNat_toNat]

/-- Neighbouring amounts have sums in the format. -/
structure Exact (amounts : List Double) : Prop where
  amount : ∀ x ∈ amounts, x.IsAmount
  sum : ∀ part, part <:+: amounts → ∃ z : Double, z.IsAmount ∧ z.quanta = total part

theorem Exact.part {amounts part : List Double} (exact : Exact amounts)
    (inside : part <:+: amounts) : Exact part where
  amount := fun x there => exact.amount x (inside.subset there)
  sum := fun _ within => exact.sum _ (within.trans inside)

theorem Exact.add {front back : List Double} (exact : Exact (front ++ back)) {x y : Double}
    (hx : x.IsAmount) (hy : y.IsAmount) (first : x.quanta = total front)
    (second : y.quanta = total back) :
    (x + y).IsAmount ∧ (x + y).quanta = total (front ++ back) := by
  obtain ⟨z, amount, value⟩ := exact.sum _ (List.infix_refl _)
  have sum : z.quanta = x.quanta + y.quanta := by
    rw [value, total_append, first, second]
  rw [add_exact hx hy amount sum]
  exact ⟨amount, value⟩

theorem isAmount_zero : zero.IsAmount := by
  unfold IsAmount
  decide

theorem quanta_zero : zero.quanta = 0 := by decide

/-- One amount after the other is added without rounding. -/
theorem Exact.foldl {amounts : List Double} (exact : Exact amounts) :
    (amounts.foldl (· + ·) zero).IsAmount ∧
      (amounts.foldl (· + ·) zero).quanta = total amounts := by
  induction amounts using List.reverseRecOn with
  | nil => exact ⟨isAmount_zero, quanta_zero⟩
  | append_singleton front x ih =>
    obtain ⟨amount, value⟩ := ih (exact.part (List.infix_append' [] front [x]))
    have last := exact.amount x (List.mem_append_right _ List.mem_cons_self)
    rw [List.foldl_append]
    exact exact.add amount last value (Nat.add_zero _).symm

/-- Multiples of a power of two are added without rounding as long as their sum has no more
digits than a number of the format. -/
theorem exact_of_grid {amounts : List Double} {k : Nat} (range : k ≤ 2045)
    (amount : ∀ x ∈ amounts, x.IsAmount) (grid : ∀ x ∈ amounts, 2 ^ k ∣ x.quanta)
    (bounded : total amounts < 2 ^ (k + 53)) : Exact amounts where
  amount := amount
  sum := by
    intro part inside
    obtain ⟨front, back, rfl⟩ := inside
    rw [total_append, total_append] at bounded
    obtain ⟨m, value⟩ : 2 ^ k ∣ total part := by
      have multiples : ∀ x ∈ part, 2 ^ k ∣ x.quanta := fun x there => grid x (by simp [there])
      clear grid amount bounded
      induction part with
      | nil => exact Nat.dvd_zero _
      | cons x part ih =>
        refine Nat.dvd_add (multiples x List.mem_cons_self) (ih ?_)
        exact fun y there => multiples y (List.mem_cons_of_mem x there)
    have digits : m < 2 ^ (doubleFormat.fractionBits + 1) := by
      have below : 2 ^ k * m < 2 ^ k * 2 ^ 53 := by
        rw [← Nat.pow_add, ← value]
        omega
      exact Nat.lt_of_mul_lt_mul_left below
    have exponent : k + 2 < 2 ^ doubleFormat.exponentBits := by
      change k + 2 < 2 ^ 11
      omega
    obtain ⟨c, finite, represented⟩ := doubleFormat.exists_code digits exponent
    have bits : (ofCode c).bits.toNat = c := by
      have bound : doubleFormat.infinity < UInt64.size := by decide
      exact UInt64.toNat_ofNat_of_lt' (by omega)
    refine ⟨ofCode c, ?_, ?_⟩
    · rw [IsAmount, bits]
      exact finite
    · rw [quanta, bits, represented, value, Nat.mul_comm]

end Double

namespace PostingList
variable {b : Nat}

/-- How often an image occurs. -/
def occurrences (p : PostingList b) (image : Nat) : Nat :=
  p.postings.countP fun q => decide (q.image.toInt = (image : Int))

theorem slot?_eq_none_iff {image : ImageId} (nonnegative : 0 ≤ image) (images : Nat) :
    slot? image images = none ↔ (images : Int) ≤ image.toInt := by
  have sign : 0 ≤ image.toInt := Int32.le_iff_toInt_le.mp nonnegative
  unfold slot?
  split
  · next covered => exact iff_of_false (Option.some_ne_none _) (by omega)
  · next beyond => exact iff_of_true rfl (by omega)

theorem toInt_of_slot? {image : ImageId} {length : Nat} {i : Fin length}
    (found : slot? image length = some i) : image.toInt = (i.val : Int) := by
  unfold slot? at found
  split at found
  · next covered =>
    cases found
    exact (Int.toNat_of_nonneg covered.1).symm
  · cases found

/-- One posting adds to the slot of its image and to no other. -/
theorem getElem?_set_slot {image : ImageId} {sums : Array Double} {i : Fin sums.size}
    (found : slot? image sums.size = some i) {sum : Double} (held : sums[i.val]? = some sum)
    (amount : Double) (j : Nat) :
    (sums.set i.val (sum + amount) i.isLt)[j]? =
      sums[j]?.map fun x => if image.toInt = (j : Int) then x + amount else x := by
  rw [Array.getElem?_set, toInt_of_slot? found]
  by_cases here : i.val = j
  · subst here
    rw [if_pos rfl, held, Option.map_some, if_pos rfl]
  · have elsewhere : (i.val : Int) ≠ j := by omega
    simp [here, elsewhere]

/-- Postings whose images have slots are all added, each slot growing by the amounts of its
postings, and what follows them comes after that. -/
theorem addToSlots_append (amount : Double) {front : List (Posting b)} (back : List (Posting b))
    {sums : Array Double} (covered : ∀ q ∈ front, slot? q.image sums.size ≠ none) :
    ∃ added : Array Double, added.size = sums.size ∧
      addToSlots amount (front ++ back) sums = addToSlots amount back added ∧
      ∀ j : Nat, added[j]? = sums[j]?.map ((List.replicate
        (front.countP fun q => decide (q.image.toInt = (j : Int))) amount).foldl (· + ·)) := by
  induction front generalizing sums with
  | nil => exact ⟨sums, rfl, rfl, fun j => by simp⟩
  | cons p front ih =>
    obtain ⟨i, found⟩ := Option.ne_none_iff_exists'.mp (covered p List.mem_cons_self)
    have held : sums[i.val]? = some sums[i] := Array.getElem?_eq_getElem i.isLt
    have size : (sums.set i (sums[i] + amount)).size = sums.size := Array.size_set ..
    have others : ∀ q ∈ front, slot? q.image (sums.set i (sums[i] + amount)).size ≠ none :=
      fun q there => size.symm ▸ covered q (List.mem_cons_of_mem p there)
    obtain ⟨added, kept, result, entries⟩ := ih others
    refine ⟨added, kept.trans size, ?_, ?_⟩
    · rw [List.cons_append, addToSlots, found]
      exact result
    · intro j
      rw [entries j, getElem?_set_slot found held, Option.map_map, List.countP_cons]
      by_cases here : p.image.toInt = (j : Int)
      · simp only [here, decide_true, if_true]
        rfl
      · simp only [here, decide_false, if_false]
        rfl

/-- A posting whose image has no slot ends the adding and leaves the sums as they are. -/
theorem addToSlots_stop (amount : Double) {q : Posting b} (back : List (Posting b))
    {sums : Array Double} (missing : slot? q.image sums.size = none) :
    addToSlots amount (q :: back) sums = (sums, some (.imageBeyondSums q.image sums.size)) := by
  rw [addToSlots, missing]

/-- The first image without a slot is reported; otherwise each slot has grown by the amounts
of its postings. -/
theorem addToSlots_cases (amount : Double) (postings : List (Posting b)) (sums : Array Double) :
    (∃ q ∈ postings, slot? q.image sums.size = none ∧
      (addToSlots amount postings sums).2 = some (.imageBeyondSums q.image sums.size)) ∨
    (∀ q ∈ postings, slot? q.image sums.size ≠ none) ∧
      ∃ added, addToSlots amount postings sums = (added, none) ∧ added.size = sums.size ∧
        ∀ j : Nat, added[j]? = sums[j]?.map ((List.replicate
          (postings.countP fun q => decide (q.image.toInt = (j : Int))) amount).foldl (· + ·)) := by
  cases found : postings.find? fun q => decide (slot? q.image sums.size = none) with
  | none =>
    have covered : ∀ q ∈ postings, slot? q.image sums.size ≠ none := by simpa using found
    obtain ⟨added, size, result, entries⟩ := addToSlots_append amount [] covered
    rw [List.append_nil] at result
    exact Or.inr ⟨covered, added, result, size, entries⟩
  | some q =>
    obtain ⟨missing, front, back, rfl, before⟩ := List.find?_eq_some_iff_append.mp found
    rw [decide_eq_true_iff] at missing
    obtain ⟨added, size, result, -⟩ := addToSlots_append amount (q :: back)
      fun r there => by simpa using before r there
    refine Or.inl ⟨q, by simp, missing, ?_⟩
    rw [result, addToSlots_stop amount back (size ▸ missing), size]

end PostingList

namespace Vocabulary
variable {b : Nat}

/-- What the words add to the sum of an image, in their order. -/
def amounts (v : Vocabulary b) (image : Nat) : List Double :=
  v.flatMap fun p => List.replicate (p.occurrences image) p.squaredIdf

/-- The quanta of the self-similarity of an image. -/
def similarity (v : Vocabulary b) (image : Nat) : Nat :=
  v.foldr (fun p n => p.occurrences image * p.squaredIdf.quanta + n) 0

theorem total_amounts (v : Vocabulary b) (image : Nat) :
    Double.total (v.amounts image) = v.similarity image := by
  induction v with
  | nil => rfl
  | cons p rest ih =>
    change Double.total (List.replicate _ _ ++ amounts rest image) = _
    rw [Double.total_append, Double.total_replicate, ih]
    rfl

theorem amounts_append (v w : Vocabulary b) (image : Nat) :
    amounts (v ++ w) image = v.amounts image ++ w.amounts image := List.flatMap_append

/-- An image of some word that has no slot is reported; otherwise each slot has grown by the
amounts of the words. -/
theorem addSelfSimilarities_cases (v : Vocabulary b) (sums : Array Double) :
    (∃ p ∈ v, ∃ q ∈ p.postings, PostingList.slot? q.image sums.size = none ∧
      addSelfSimilarities v sums = .error (.imageBeyondSums q.image sums.size)) ∨
    (∀ p ∈ v, ∀ q ∈ p.postings, PostingList.slot? q.image sums.size ≠ none) ∧
      ∃ added, addSelfSimilarities v sums = .ok added ∧ added.size = sums.size ∧
        ∀ j : Nat, added[j]? = sums[j]?.map ((v.amounts j).foldl (· + ·)) := by
  induction v generalizing sums with
  | nil => exact Or.inr ⟨nofun, sums, rfl, rfl, fun j => by simp [amounts]⟩
  | cons p rest ih =>
    rcases PostingList.addToSlots_cases p.squaredIdf p.postings sums with
      ⟨q, there, missing, reported⟩ | ⟨covered, middle, result, size, first⟩
    · refine Or.inl ⟨p, List.mem_cons_self, q, there, missing, ?_⟩
      unfold addSelfSimilarities PostingList.addSelfSimilarities
      split
      · next finished =>
        rw [finished] at reported
        cases reported
      · next stopped =>
        rw [stopped] at reported
        cases reported
        rfl
    · have step : addSelfSimilarities (p :: rest) sums = addSelfSimilarities rest middle := by
        rw [addSelfSimilarities, PostingList.addSelfSimilarities, result]
      rw [step]
      rcases ih middle with ⟨p', later, q, there, missing, reported⟩ |
        ⟨others, added, done, kept, entries⟩
      · rw [size] at missing reported
        exact Or.inl ⟨p', List.mem_cons_of_mem p later, q, there, missing, reported⟩
      · rw [size] at others kept
        refine Or.inr ⟨List.forall_mem_cons.mpr ⟨covered, others⟩, added, done, kept, ?_⟩
        intro j
        rw [entries j, first j, Option.map_map]
        refine congrArg (sums[j]?.map ·) (funext fun x => ?_)
        exact (List.foldl_append ..).symm

/-- What a plan leaves in the slot of an image. -/
def entry (image : Nat) : SumPlan (PostingList b) → Double
  | .nothing => .zero
  | .segment words => (amounts words image).foldl (· + ·) .zero
  | .merge left right => entry image left + entry image right

theorem sumByPlan_cases (images : Nat) (plan : SumPlan (PostingList b)) :
    (∃ p ∈ plan.words, ∃ q ∈ p.postings, PostingList.slot? q.image images = none ∧
      sumByPlan images plan = .error (.imageBeyondSums q.image images)) ∨
    (∀ p ∈ plan.words, ∀ q ∈ p.postings, PostingList.slot? q.image images ≠ none) ∧
      ∃ sums, sumByPlan images plan = .ok sums ∧ sums.size = images ∧
        ∀ j < images, sums[j]? = some (entry j plan) := by
  induction plan with
  | nothing =>
    refine Or.inr ⟨nofun, _, rfl, Array.size_replicate, ?_⟩
    intro j inside
    simp [inside, entry]
  | segment words =>
    rcases addSelfSimilarities_cases words (.replicate images .zero) with
      ⟨p, word, q, there, missing, reported⟩ | ⟨covered, sums, result, size, entries⟩
    · rw [Array.size_replicate] at missing reported
      exact Or.inl ⟨p, word, q, there, missing, reported⟩
    · rw [Array.size_replicate] at covered size
      refine Or.inr ⟨covered, sums, result, size, ?_⟩
      intro j inside
      rw [entries j, Array.getElem?_replicate, if_pos inside]
      rfl
  | merge left right ihl ihr =>
    simp only [SumPlan.words, List.mem_append]
    rcases ihl with ⟨p, word, q, there, missing, reported⟩ | ⟨covl, l, okl, sizel, entriesl⟩
    · refine Or.inl ⟨p, Or.inl word, q, there, missing, ?_⟩
      rw [sumByPlan, reported]
      rfl
    · rcases ihr with ⟨p, word, q, there, missing, reported⟩ | ⟨covr, r, okr, sizer, entriesr⟩
      · refine Or.inl ⟨p, Or.inr word, q, there, missing, ?_⟩
        rw [sumByPlan, okl, reported]
        rfl
      · refine Or.inr ⟨fun p word => word.elim (covl p) (covr p), addSums l r, ?_, ?_, ?_⟩
        · rw [sumByPlan, okl, okr]
          rfl
        · rw [addSums, Array.size_zipWith, sizel, sizer, Nat.min_self]
        · intro j inside
          rw [addSums, Array.getElem?_zipWith, entriesl j inside, entriesr j inside]
          rfl

/-- Where no addition rounds, a plan leaves the sum of the amounts, however it is cut. -/
theorem entry_exact {image : Nat} {plan : SumPlan (PostingList b)}
    (exact : Double.Exact (amounts plan.words image)) : (entry image plan).IsAmount ∧
      (entry image plan).quanta = Double.total (amounts plan.words image) := by
  induction plan with
  | nothing => exact ⟨Double.isAmount_zero, Double.quanta_zero⟩
  | segment words => exact Double.Exact.foldl exact
  | merge left right ihl ihr =>
    rw [SumPlan.words, amounts_append] at exact ⊢
    obtain ⟨hl, first⟩ := ihl (exact.part (List.prefix_append _ _).isInfix)
    obtain ⟨hr, second⟩ := ihr (exact.part (List.suffix_append _ _).isInfix)
    exact exact.add hl hr first second

/-- A plan over a vocabulary fails exactly if an image has no slot, and it names such an
image. Otherwise it leaves in each slot, if no addition rounds there, the sum over the words
of the squared idf weight times the occurrences of the image, as adding word by word does. -/
theorem sumByPlan_spec {v : Vocabulary b} (ids : ∀ p ∈ v, p.IdsValid) (images : Nat)
    {plan : SumPlan (PostingList b)} (cut : plan.words = v) :
    ((∃ violation, sumByPlan images plan = .error violation) ↔
      ∃ p ∈ v, ∃ q ∈ p.postings, (images : Int) ≤ q.image.toInt) ∧
    (∀ violation, sumByPlan images plan = .error violation →
      ∃ p ∈ v, ∃ q ∈ p.postings, (images : Int) ≤ q.image.toInt ∧
        violation = .imageBeyondSums q.image images) ∧
    ((∀ p ∈ v, ∀ q ∈ p.postings, q.image.toInt < (images : Int)) →
      ∃ sums sequential, sumByPlan images plan = .ok sums ∧
        addSelfSimilarities v (.replicate images .zero) = .ok sequential ∧
        sums.size = images ∧ sequential.size = images ∧
        ∀ j < images, Double.Exact (v.amounts j) →
          sums[j]? = sequential[j]? ∧
          ∃ sum, sums[j]? = some sum ∧ sum.IsAmount ∧ sum.quanta = v.similarity j) := by
  subst cut
  have slot : ∀ p ∈ plan.words, ∀ q ∈ p.postings,
      (PostingList.slot? q.image images = none ↔ (images : Int) ≤ q.image.toInt) :=
    fun p word q there => PostingList.slot?_eq_none_iff (ids p word q there) images
  refine ⟨?_, ?_, ?_⟩
  · rcases sumByPlan_cases images plan with
      ⟨p, word, q, there, missing, reported⟩ | ⟨covered, sums, result, -, -⟩
    · exact iff_of_true ⟨_, reported⟩ ⟨p, word, q, there, (slot p word q there).mp missing⟩
    · apply iff_of_false
      · rintro ⟨violation, failed⟩
        rw [result] at failed
        cases failed
      · rintro ⟨p, word, q, there, beyond⟩
        exact covered p word q there ((slot p word q there).mpr beyond)
  · intro violation failed
    rcases sumByPlan_cases images plan with
      ⟨p, word, q, there, missing, reported⟩ | ⟨-, sums, result, -, -⟩
    · rw [reported] at failed
      cases failed
      exact ⟨p, word, q, there, (slot p word q there).mp missing, rfl⟩
    · rw [result] at failed
      cases failed
  · intro inside
    have never : ∀ p ∈ plan.words, ∀ q ∈ p.postings,
        PostingList.slot? q.image images ≠ none := fun p word q there missing =>
      absurd ((slot p word q there).mp missing) (Int.not_le.mpr (inside p word q there))
    rcases sumByPlan_cases images plan with
      ⟨p, word, q, there, missing, -⟩ | ⟨-, sums, result, size, entries⟩
    · exact absurd missing (never p word q there)
    rcases sumByPlan_cases images (.segment plan.words) with
      ⟨p, word, q, there, missing, -⟩ | ⟨-, sequential, in_order, size', entries'⟩
    · exact absurd missing (never p word q there)
    refine ⟨sums, sequential, result, in_order, size, size', ?_⟩
    intro j slotted exact
    obtain ⟨amount, value⟩ := entry_exact exact
    obtain ⟨-, value'⟩ := entry_exact
      (show Double.Exact (amounts (SumPlan.segment plan.words).words j) from exact)
    rw [entries j slotted, entries' j slotted]
    exact ⟨congrArg some (Double.eq_of_quanta_eq (value.trans value'.symm)), _, rfl, amount,
      value.trans (total_amounts plan.words j)⟩

/-- A word of weight one and a word of weight two. -/
def twoWords : Vocabulary 1 :=
  [⟨.blank, ⟨0x3f800000⟩, [⟨1, .allClear⟩, ⟨0, .allClear⟩, ⟨1, .allSet⟩], .initial, ⟨#[]⟩⟩,
    ⟨.blank, ⟨0x40000000⟩, [⟨1, .allClear⟩], .initial, ⟨#[]⟩⟩]

/-- Each word by itself, with zeros in between. -/
def wordByWord : SumPlan (PostingList 1) :=
  .merge (.merge (.segment (twoWords.take 1)) .nothing)
    (.merge (.segment []) (.segment (twoWords.drop 1)))

theorem exact_twoWords : Double.Exact (amounts twoWords 1) := by
  refine Double.exact_of_grid (k := 1074) (by decide) ?_ ?_ ?_
  · unfold Double.IsAmount
    decide +kernel
  · decide +kernel
  · decide +kernel

theorem sumByPlan_spec_twoWords : (∀ p ∈ twoWords, p.IdsValid) ∧ wordByWord.words = twoWords ∧
    (∃ violation, sumByPlan 1 wordByWord = .error violation) ∧
    ∃ sums sequential, sumByPlan 3 wordByWord = .ok sums ∧
      addSelfSimilarities twoWords (.replicate 3 .zero) = .ok sequential ∧
      sums.size = 3 ∧ sums[1]? = sequential[1]? ∧ sums[1]? = some (.ofNat 6) := by
  have ids : ∀ p ∈ twoWords, p.IdsValid := by
    unfold PostingList.IdsValid
    decide
  have cut : wordByWord.words = twoWords := rfl
  obtain ⟨fails, -, -⟩ := sumByPlan_spec ids 1 cut
  obtain ⟨-, -, sum⟩ := sumByPlan_spec ids 3 cut
  obtain ⟨sums, sequential, result, in_order, size, -, entries⟩ := sum (by decide)
  obtain ⟨same, six, there, -, value⟩ := entries 1 (by decide) exact_twoWords
  have quanta : (Double.ofNat 6).quanta = similarity twoWords 1 := by decide +kernel
  rw [Double.eq_of_quanta_eq (value.trans quanta.symm)] at there
  exact ⟨ids, cut, fails.mpr (by decide), sums, sequential, result, in_order, size, same, there⟩

end Vocabulary

end VisualIndex
