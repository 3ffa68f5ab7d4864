import VisualIndex.Posting
import VisualIndex.Proofs.Streams

/-! What writings put out and what readings find.

`Emits` gives a writing the bytes that it puts out on any sink, as far as the sink takes
them. `Takes` gives a reading the number of bytes that it wants from any source, and
`Finds` the value that it makes of some bytes. All three go through sequences, so a record
is known from its fields. -/
namespace VisualIndex

section Sequencing
variable {σ ε δ α β : Type} {x : ExceptT ε (StateM σ) α} {s t : σ}

theorem bind_of_ok {a : α} {f : α → ExceptT ε (StateM σ) β} (h : x s = (.ok a, t)) :
    (x >>= f) s = f a t := by
  change ExceptT.bindCont f (x s).1 (x s).2 = f a t
  rw [h]
  rfl

theorem bind_of_error {e : ε} {f : α → ExceptT ε (StateM σ) β} (h : x s = (.error e, t)) :
    (x >>= f) s = (.error e, t) := by
  change ExceptT.bindCont f (x s).1 (x s).2 = (.error e, t)
  rw [h]
  rfl

theorem map_of_ok {a : α} {f : α → β} (h : x s = (.ok a, t)) : (f <$> x) s = (.ok (f a), t) :=
  bind_of_ok h

theorem map_of_error {e : ε} {f : α → β} (h : x s = (.error e, t)) :
    (f <$> x) s = (.error e, t) := bind_of_error h

theorem adapt_apply (f : ε → δ) (x : ExceptT ε (StateM σ) α) (s : σ) :
    ExceptT.adapt f x s = ((x s).1.mapError f, (x s).2) := rfl

theorem adapt_of_ok {a : α} {f : ε → δ} (h : x s = (.ok a, t)) :
    ExceptT.adapt f x s = (.ok a, t) := by
  rw [adapt_apply, h]
  rfl

theorem adapt_of_error {e : ε} {f : ε → δ} (h : x s = (.error e, t)) :
    ExceptT.adapt f x s = (.error (f e), t) := by
  rw [adapt_apply, h]
  rfl

theorem adapt_adapt {γ : Type} (f : ε → δ) (g : δ → γ) (x : ExceptT ε (StateM σ) α) :
    ExceptT.adapt g (ExceptT.adapt f x) = ExceptT.adapt (g ∘ f) x := by
  funext s
  rcases done : x s with ⟨_ | _, t⟩
  · rw [adapt_of_error (adapt_of_error done), adapt_of_error done]
    rfl
  · rw [adapt_of_ok (adapt_of_ok done), adapt_of_ok done]

theorem adapt_id (x : ExceptT ε (StateM σ) α) : ExceptT.adapt id x = x := by
  funext s
  rcases done : x s with ⟨_ | _, t⟩
  · rw [adapt_of_error done, id]
  · rw [adapt_of_ok done]

theorem adapt_bind {γ : Type} (f : ε → γ) (x : ExceptT ε (StateM σ) α)
    (g : α → ExceptT ε (StateM σ) β) :
    ExceptT.adapt f (x >>= g) = ExceptT.adapt f x >>= fun a => ExceptT.adapt f (g a) := by
  funext s
  rcases done : x s with ⟨_ | _, t⟩
  · rw [bind_of_error (adapt_of_error done), adapt_of_error (bind_of_error done)]
  · rw [bind_of_ok (adapt_of_ok done), adapt_apply, adapt_apply, bind_of_ok done]

end Sequencing

/-- A writing is that of some parts, one after the other, with its own wording of errors. -/
def Puts {σ ε : Type} [Writer σ] (wrap : IoError → ε) (w : WritingTo σ ε Unit)
    (parts : List (List UInt8)) : Prop :=
  w = ExceptT.adapt wrap (parts.forM Writing.bytes)

/-- A writing puts out some bytes, or of them what the sink takes. -/
def Emits {ε : Type} (wrap : IoError → ε) (w : Writing ε Unit) (bytes : List UInt8) : Prop :=
  ∀ s : Sink, ∃ t, w s =
      (if s.intake bytes = bytes then .ok () else .error (wrap s.failure), t) ∧
    s.After (s.intake bytes) t

/-- A reading wants `n` bytes and makes a value of them. Where there are fewer it takes all
of them and fails. -/
def Takes {ε α : Type} (wrap : IoError → ε) (r : Reading ε α) (n : Nat)
    (f : List UInt8 → α) : Prop :=
  ∀ s : Source, ∃ t, r s =
      (if n ≤ s.supply.length then .ok (f (s.supply.take n)) else .error (wrap s.ending), t) ∧
    s.After (min n s.supply.length) t

/-- A reading makes a value of some bytes, whatever follows them. -/
def Finds {ε α : Type} (r : Reading ε α) (bytes : List UInt8) (a : α) : Prop :=
  ∀ s : Source, bytes <+: s.supply → ∃ t, r s = (.ok a, t) ∧ s.After bytes.length t

namespace Emits
variable {ε : Type} {wrap : IoError → ε}

theorem bytes (xs : List UInt8) : Emits id (Writing.bytes xs) xs := fun s => s.writeAll_spec xs

/-- On a sink without faults everything is written. -/
theorem fills {w : Writing ε Unit} {xs : List UInt8} (emits : Emits wrap w xs) :
    ∃ sink, w Sink.empty = (.ok (), sink) ∧ sink.written.toList = xs := by
  obtain ⟨sink, done, after⟩ := emits Sink.empty
  have whole := Sink.empty.intake_of_transient (by simp [Sink.empty]) xs
  rw [whole, if_pos rfl] at done
  rw [whole] at after
  exact ⟨sink, done, after.written⟩

theorem nothing : Emits wrap (pure ()) [] := by
  intro s
  refine ⟨s, ?_, ?_⟩
  · rw [s.intake_nil, if_pos rfl]
    rfl
  · rw [s.intake_nil]
    exact .refl s

theorem bind {w v : Writing ε Unit} {xs ys : List UInt8} (hw : Emits wrap w xs)
    (hv : Emits wrap v ys) : Emits wrap (w >>= fun _ => v) (xs ++ ys) := by
  intro s
  obtain ⟨t, ht, first⟩ := hw s
  by_cases whole : s.intake xs = xs
  · rw [if_pos whole] at ht
    rw [whole] at first
    obtain ⟨u, hu, second⟩ := hv t
    have joined := Sink.intake_append_of_eq whole first ys
    refine ⟨u, ?_, joined ▸ first.trans second⟩
    rw [bind_of_ok ht, hu, joined, first.failure]
    simp only [List.append_cancel_left_eq]
  · rw [if_neg whole] at ht
    have stopped := Sink.intake_append_of_ne whole ys
    have short : s.intake xs ≠ xs ++ ys := by
      intro same
      have bound := length_passing_le s.fault s.written.size xs
      rw [show passing s.fault s.written.size xs = xs ++ ys from same, List.length_append] at bound
      have no_more : ys = [] := List.length_eq_zero_iff.mp (by omega)
      exact whole (by rw [same, no_more, List.append_nil])
    refine ⟨t, ?_, by rwa [stopped]⟩
    rw [bind_of_error ht, stopped, if_neg short]

theorem forM {α : Type} {f : α → Writing ε Unit} {g : α → List UInt8} {xs : List α}
    (each : ∀ x ∈ xs, Emits wrap (f x) (g x)) : Emits wrap (xs.forM f) (xs.flatMap g) := by
  induction xs with
  | nil => exact nothing
  | cons x xs ih =>
    rw [List.flatMap_cons]
    exact (each x List.mem_cons_self).bind
      (ih fun y hy => each y (List.mem_cons_of_mem x hy))

/-- Another wording of the errors does not change what is put out. -/
theorem adapt {w : Writing IoError Unit} {xs : List UInt8} (hw : Emits id w xs) :
    Emits wrap (ExceptT.adapt wrap w) xs := by
  intro s
  obtain ⟨t, ht, after⟩ := hw s
  refine ⟨t, ?_, after⟩
  split at ht
  · next whole => rw [if_pos whole, adapt_of_ok ht]
  · next cut => rw [if_neg cut, adapt_of_error ht, id]

/-- On a sink without a fault that stays all of the bytes are put out. -/
theorem ok {w : Writing ε Unit} {xs : List UInt8} (hw : Emits wrap w xs) {s : Sink}
    (transient : ∀ f ∈ s.fault, f.isInterruption) :
    ∃ t, w s = (.ok (), t) ∧ s.After xs t := by
  obtain ⟨t, ht, after⟩ := hw s
  rw [Sink.intake_of_transient transient] at ht after
  exact ⟨t, by rwa [if_pos rfl] at ht, after⟩

end Emits

namespace Puts
variable {σ ε δ : Type} [Writer σ] {wrap : IoError → ε}

theorem nothing : Puts wrap (pure () : WritingTo σ ε Unit) [] := rfl

theorem bytes (xs : List UInt8) : Puts id (Writing.bytes xs : WritingTo σ IoError Unit) [xs] := by
  have single : [xs].forM Writing.bytes = (Writing.bytes xs : WritingTo σ IoError Unit) :=
    bind_pure_unit
  rw [Puts, single, adapt_id]

/-- The parts do not depend on the wording of errors. -/
theorem adapt {w : WritingTo σ ε Unit} {parts : List (List UInt8)} (hw : Puts wrap w parts)
    (f : ε → δ) : Puts (f ∘ wrap) (ExceptT.adapt f w) parts := by
  rw [Puts, hw, adapt_adapt]

theorem field (xs : List UInt8) :
    Puts .io (writeField (Writing.bytes xs) : WritingTo σ RecordError Unit) [xs] :=
  (bytes xs).adapt RecordError.io

theorem bind {w v : WritingTo σ ε Unit} {xs ys : List (List UInt8)} (hw : Puts wrap w xs)
    (hv : Puts wrap v ys) : Puts wrap (w >>= fun _ => v) (xs ++ ys) := by
  have joined : (xs ++ ys).forM Writing.bytes =
      (xs.forM Writing.bytes >>= fun _ => ys.forM Writing.bytes : WritingTo σ IoError Unit) :=
    List.forM_append
  rw [Puts, hw, hv, joined, adapt_bind]

theorem forM {α : Type} {f : α → WritingTo σ ε Unit} {g : α → List (List UInt8)} {xs : List α}
    (each : ∀ x ∈ xs, Puts wrap (f x) (g x)) : Puts wrap (xs.forM f) (xs.flatMap g) := by
  induction xs with
  | nil => exact nothing
  | cons x xs ih =>
    rw [List.flatMap_cons]
    exact (each x List.mem_cons_self).bind
      (ih fun y hy => each y (List.mem_cons_of_mem x hy))

theorem emits {w : Writing ε Unit} {parts : List (List UInt8)} (puts : Puts wrap w parts) :
    Emits wrap w parts.flatten := by
  have each := Emits.forM fun xs (_ : xs ∈ parts) => Emits.bytes xs
  rw [List.flatMap_id'] at each
  exact puts ▸ each.adapt

end Puts

namespace Takes
variable {ε α : Type} {wrap : IoError → ε} {r : Reading ε α} {n : Nat} {f : List UInt8 → α}

theorem bytes (n : Nat) : Takes id (Reading.bytes n) n id := fun s => s.readExactly_spec n

theorem map {β : Type} (hr : Takes wrap r n f) (g : α → β) :
    Takes wrap (g <$> r) n fun xs => g (f xs) := by
  intro s
  obtain ⟨t, ht, after⟩ := hr s
  refine ⟨t, ?_, after⟩
  split at ht
  · next enough => rw [if_pos enough, map_of_ok ht]
  · next short => rw [if_neg short, map_of_error ht]

theorem field {r : Reading IoError α} (hr : Takes id r n f) (field : RecordField) :
    Takes (RecordError.ofReading field) (field.read r) n f := by
  intro s
  obtain ⟨t, ht, after⟩ := hr s
  refine ⟨t, ?_, after⟩
  split at ht
  · next enough => rw [if_pos enough, RecordField.read, adapt_of_ok ht]
  · next short => rw [if_neg short, RecordField.read, adapt_of_error ht, id]

theorem number (width : Nat) : Takes id (Reading.number width) width ofLittleEndian :=
  (bytes width).map ofLittleEndian

theorem single : Takes id Reading.single 4 fun xs => Single.ofCode (ofLittleEndian xs) :=
  (number 4).map Single.ofCode

theorem byteVector (n : Nat) : Takes id (Reading.byteVector n) n (vectorOf n 0) :=
  (bytes n).map (vectorOf n 0)

theorem singles (n : Nat) :
    Takes id (Reading.singles n) (4 * n) fun xs => vectorOf n Single.zero (singlesOfBytes xs) :=
  (bytes (4 * n)).map fun xs => vectorOf n Single.zero (singlesOfBytes xs)

theorem finds (hr : Takes wrap r n f) (bytes : List UInt8) (length : bytes.length = n) :
    Finds r bytes (f bytes) := by
  intro s front
  obtain ⟨t, ht, after⟩ := hr s
  have enough : n ≤ s.supply.length := length ▸ front.length_le
  have taken : s.supply.take n = bytes := by
    rw [List.prefix_iff_eq_take.mp front, length]
  rw [if_pos enough, taken] at ht
  exact ⟨t, ht, after.of_eq (by omega)⟩

end Takes

namespace Finds
variable {ε α β : Type}

theorem nothing (a : α) : Finds (pure a : Reading ε α) [] a := fun s _ => ⟨s, rfl, .refl s⟩

theorem bind {r : Reading ε α} {k : α → Reading ε β} {xs ys : List UInt8} {a : α} {c : β}
    (hr : Finds r xs a) (hk : Finds (k a) ys c) : Finds (r >>= k) (xs ++ ys) c := by
  intro s front
  obtain ⟨t, ht, first⟩ := hr s ((List.prefix_append xs ys).trans front)
  have rest : ys <+: t.supply := by
    obtain ⟨zs, joined⟩ := front
    rw [first.supply, ← joined, List.append_assoc, List.drop_left]
    exact List.prefix_append ys zs
  obtain ⟨u, hu, second⟩ := hk t rest
  refine ⟨u, by rw [bind_of_ok ht, hu], ?_⟩
  rw [List.length_append]
  exact first.trans second

theorem returning {r : Reading ε α} {xs : List UInt8} {a : α} (hr : Finds r xs a) (g : α → β) :
    Finds (r >>= fun x => pure (g x)) xs (g a) := by
  rw [← List.append_nil xs]
  exact hr.bind (nothing (g a))

end Finds

theorem singlesOfBytes_append {front : List UInt8} (length : front.length = 4)
    (bytes : List UInt8) :
    singlesOfBytes (front ++ bytes) = .ofCode (ofLittleEndian front) :: singlesOfBytes bytes := by
  match front, length with
  | [_, _, _, _], _ => rfl

end VisualIndex
