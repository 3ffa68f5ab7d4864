import VisualIndex.Proofs.Coding
import VisualIndex.Storage

/-! What reaches a file through a buffer.

The content of a buffer is what its sink has taken, and behind it what is held. A write that
succeeds appends its bytes to the content, whatever is passed on in the meantime. So a file
whose buffer has been flushed holds all that was written. Where the buffer was only closed the
file holds a front of it, which may be nothing at all, and no error has been met. -/
namespace VisualIndex

namespace Sink

/-- Nothing has been written yet. -/
def IsNew (s : Sink) : Prop := s.written = #[]

/-- Nothing has been written yet, and whatever will be written is going to be taken. -/
def IsSound (s : Sink) : Prop := s.IsNew ∧ ∀ f ∈ s.fault, f.isInterruption

/-- No failure that stays is to come. -/
def Endures (s : Sink) : Prop := ∀ n, lastingRoom? s.fault n = none

theorem isNew_empty : empty.IsNew := rfl

theorem isSound_empty : empty.IsSound := ⟨rfl, by simp [empty]⟩

theorem IsSound.endures {s : Sink} (sound : s.IsSound) : s.Endures :=
  lastingRoom?_of_not_lasting sound.2

theorem Endures.intake {s : Sink} (endures : s.Endures) (bytes : List UInt8) :
    s.intake bytes = bytes := by
  rw [Sink.intake, passing, endures]

theorem After.endures {s t : Sink} {bytes : List UInt8} (after : s.After bytes t)
    (endures : s.Endures) : t.Endures := fun n => (after.room n).trans (endures n)

theorem after_of_writeAll {s t : Sink} {bytes : List UInt8}
    (done : s.writeAll bytes = (.ok (), t)) : s.After bytes t := by
  obtain ⟨u, written, after⟩ := s.writeAll_spec bytes
  obtain ⟨outcome, rfl⟩ := Prod.mk.inj (done.symm.trans written)
  split at outcome
  · next whole => exact whole ▸ after
  · cases outcome

theorem Endures.writeAll {s : Sink} (endures : s.Endures) (bytes : List UInt8) :
    ∃ t, s.writeAll bytes = (.ok (), t) := by
  obtain ⟨t, written, -⟩ := s.writeAll_spec bytes
  exact ⟨t, by rw [written, if_pos (endures.intake bytes)]⟩

end Sink

namespace Buffered

variable {w t u : Buffered} {bytes : List UInt8}

/-- All that has been written. -/
def content (w : Buffered) : List UInt8 := w.sink.written.toList ++ w.held

/-- What a buffer has become once some bytes have been written. -/
structure Gained (w : Buffered) (bytes : List UInt8) (t : Buffered) : Prop where
  content : t.content = w.content ++ bytes
  endures : w.sink.Endures → t.sink.Endures

theorem Gained.refl (w : Buffered) : w.Gained [] w := ⟨(List.append_nil _).symm, id⟩

theorem Gained.trans {more : List UInt8} (first : w.Gained bytes t) (second : t.Gained more u) :
    w.Gained (bytes ++ more) u :=
  ⟨by rw [second.content, first.content, List.append_assoc],
    fun endures => second.endures (first.endures endures)⟩

theorem gained_hold (w : Buffered) (bytes : List UInt8) : w.Gained bytes (w.hold bytes) :=
  ⟨(List.append_assoc ..).symm, id⟩

/-- A flush that succeeds leaves nothing held. -/
theorem gained_of_flush (done : w.flush = (.ok (), t)) : w.Gained [] t ∧ t.held = [] := by
  rcases passed : w.sink.writeAll w.held with ⟨outcome, sink⟩
  simp only [flush, passed] at done
  obtain ⟨rfl, rfl⟩ := Prod.mk.inj done
  have after := Sink.after_of_writeAll passed
  have size := congrArg List.length after.written
  rw [List.length_append, Array.length_toList, Array.length_toList] at size
  have nothing : w.held.drop (sink.written.size - w.sink.written.size) = [] :=
    List.drop_eq_nil_of_le (by omega)
  refine ⟨⟨?_, after.endures⟩, nothing⟩
  rw [content, nothing, after.written, List.append_nil, List.append_nil, content]

/-- A part is passed on only by a buffer that holds nothing. -/
theorem gained_of_store (room : w.held = [] ∨ bytes.length < capacity)
    (done : w.store bytes = (.ok (), t)) : w.Gained bytes t := by
  rw [store] at done
  split at done
  · cases done
    exact gained_hold w bytes
  · next large =>
    have nothing := room.resolve_right large
    rcases passed : w.sink.writeAll bytes with ⟨outcome, sink⟩
    simp only [pass, passed] at done
    obtain ⟨rfl, rfl⟩ := Prod.mk.inj done
    have after := Sink.after_of_writeAll passed
    refine ⟨?_, after.endures⟩
    rw [content, content, after.written, nothing, List.append_nil, List.append_nil]

theorem gained_of_writeAll (done : w.writeAll bytes = (.ok (), t)) : w.Gained bytes t := by
  simp only [writeAll] at done
  split at done
  · cases done
    exact gained_hold w bytes
  split at done
  · next exact_fit =>
    refine gained_of_store ?_ done
    rcases Nat.eq_zero_or_pos w.held.length with nothing | some
    · exact Or.inl (List.length_eq_zero_iff.mp nothing)
    · refine Or.inr ?_
      rw [capacity] at *
      omega
  · split at done
    · cases done
    · next passed flushed =>
      obtain ⟨gained, nothing⟩ := gained_of_flush flushed
      exact gained.trans (gained_of_store (Or.inl nothing) done)

theorem flush_of_endures (endures : w.sink.Endures) : ∃ t, w.flush = (.ok (), t) := by
  obtain ⟨sink, passed⟩ := endures.writeAll w.held
  exact ⟨_, by rw [flush, passed]⟩

theorem store_of_endures (endures : w.sink.Endures) (bytes : List UInt8) :
    ∃ t, w.store bytes = (.ok (), t) := by
  rw [store]
  split
  · exact ⟨_, rfl⟩
  · obtain ⟨sink, passed⟩ := endures.writeAll bytes
    exact ⟨_, by rw [pass, passed]⟩

theorem writeAll_of_endures (endures : w.sink.Endures) (bytes : List UInt8) :
    ∃ t, w.writeAll bytes = (.ok (), t) := by
  simp only [writeAll]
  split
  · exact ⟨_, rfl⟩
  split
  · exact store_of_endures endures bytes
  · obtain ⟨t, flushed⟩ := flush_of_endures endures
    rw [flushed]
    exact store_of_endures ((gained_of_flush flushed).1.endures endures) bytes

/-- A closed buffer has passed on a front of what was written. -/
theorem close_isPrefix (w : Buffered) : w.close.written.toList <+: w.content := by
  obtain ⟨sink, passed, after⟩ := w.sink.writeAll_spec w.held
  have closed : w.close = sink := by rw [close, flush, passed]
  rw [closed, after.written, content, List.prefix_append_right_inj]
  exact passing_isPrefix _ _ _

/-- Nothing is lost where nothing is held, or where the sink takes everything. -/
theorem close_eq_content (whole : w.held = [] ∨ w.sink.Endures) :
    w.close.written.toList = w.content := by
  obtain ⟨sink, passed, after⟩ := w.sink.writeAll_spec w.held
  have closed : w.close = sink := by rw [close, flush, passed]
  have intake : w.sink.intake w.held = w.held := by
    rcases whole with nothing | endures
    · rw [nothing, w.sink.intake_nil]
    · exact endures.intake _
  rw [closed, after.written, intake, content]

end Buffered

/-- Write some parts one after the other, and then fail if told to. -/
def Writing.parts {σ : Type} [Writer σ] (parts : List (List UInt8)) (failure : Option IoError) :
    WritingTo σ IoError Unit := do
  parts.forM Writing.bytes
  match failure with
  | none => return ()
  | some error => throw error

/-- Only a writer that is not told to fail succeeds. -/
theorem Writing.parts_eq_ok {σ : Type} [Writer σ] {s t : σ} {parts : List (List UInt8)}
    {failure : Option IoError} (done : Writing.parts parts failure s = (.ok (), t)) :
    failure = none ∧ (parts.forM Writing.bytes : WritingTo σ IoError Unit) s = (.ok (), t) := by
  unfold Writing.parts at done
  rcases all : (parts.forM Writing.bytes : WritingTo σ IoError Unit) s with ⟨_ | _, u⟩
  · cases (bind_of_error all).symm.trans done
  · rw [bind_of_ok all] at done
    cases failure with
    | none => cases done; exact ⟨rfl, rfl⟩
    | some error => cases done

section Parts

variable {w t : Buffered} {parts : List (List UInt8)} {failure : Option IoError}
  {file full : Sink}

theorem gained_of_parts
    (done : (parts.forM Writing.bytes : WritingTo Buffered IoError Unit) w = (.ok (), t)) :
    w.Gained parts.flatten t := by
  induction parts generalizing w with
  | nil => cases done; exact .refl _
  | cons part parts ih =>
    rcases first : (Writing.bytes part : WritingTo Buffered IoError Unit) w with ⟨_ | _, u⟩
    · cases (bind_of_error first).symm.trans done
    · exact (Buffered.gained_of_writeAll first).trans (ih ((bind_of_ok first).symm.trans done))

theorem parts_of_endures (endures : w.sink.Endures) (parts : List (List UInt8)) :
    ∃ t, (parts.forM Writing.bytes : WritingTo Buffered IoError Unit) w = (.ok (), t) := by
  induction parts generalizing w with
  | nil => exact ⟨w, rfl⟩
  | cons part parts ih =>
    obtain ⟨u, written⟩ := Buffered.writeAll_of_endures endures part
    have first : (Writing.bytes part : WritingTo Buffered IoError Unit) w = (.ok (), u) := written
    obtain ⟨t, others⟩ := ih ((Buffered.gained_of_writeAll first).endures endures)
    exact ⟨t, (bind_of_ok first).trans others⟩

theorem content_onto (new : file.IsNew) : (Buffered.onto file).content = [] := by
  rw [Sink.IsNew] at new
  rw [Buffered.content, Buffered.onto, new]
  rfl

/-- A file that is filled and whose buffer is flushed holds all that was written. -/
theorem written_of_flushed (new : file.IsNew)
    (filled : throughBuffer (do Writing.parts parts failure; Writing.flush) file =
      (.ok (), full)) : failure = none ∧ full.written.toList = parts.flatten := by
  rcases wrote : (Writing.parts parts failure : WritingTo Buffered IoError Unit) (.onto file)
    with ⟨_ | _, t⟩
  · simp only [throughBuffer, bind_of_error wrote] at filled
    cases (Prod.mk.inj filled).1
  · obtain ⟨unfailing, all⟩ := Writing.parts_eq_ok wrote
    rcases flushed : (Writing.flush : WritingTo Buffered IoError Unit) t with ⟨outcome, u⟩
    simp only [throughBuffer, bind_of_ok wrote, flushed] at filled
    obtain ⟨rfl, rfl⟩ := Prod.mk.inj filled
    obtain ⟨gained, nothing⟩ := Buffered.gained_of_flush flushed
    refine ⟨unfailing, ?_⟩
    rw [u.close_eq_content (Or.inl nothing), gained.content, (gained_of_parts all).content,
      content_onto new, List.append_nil, List.nil_append]

/-- A file whose buffer is only closed holds a front of what was written. -/
theorem isPrefix_of_closed (new : file.IsNew)
    (filled : throughBuffer (parts.forM Writing.bytes) file = (.ok (), full)) :
    full.written.toList <+: parts.flatten := by
  rcases wrote : (parts.forM Writing.bytes : WritingTo Buffered IoError Unit) (.onto file)
    with ⟨outcome, t⟩
  simp only [throughBuffer, wrote] at filled
  obtain ⟨rfl, rfl⟩ := Prod.mk.inj filled
  have all := (gained_of_parts wrote).content
  rw [content_onto new, List.nil_append] at all
  exact all ▸ t.close_isPrefix

/-- Parts for which there is room are held, and none is passed on. -/
theorem parts_of_small (parts : List (List UInt8))
    (small : w.held.length + parts.flatten.length < Buffered.capacity) :
    (parts.forM Writing.bytes : WritingTo Buffered IoError Unit) w =
      (.ok (), w.hold parts.flatten) := by
  induction parts generalizing w with
  | nil => simp [Buffered.hold]; rfl
  | cons part parts ih =>
    rw [List.flatten_cons, List.length_append] at small
    have room : part.length < Buffered.capacity - w.held.length := by omega
    have first : (Writing.bytes part : WritingTo Buffered IoError Unit) w =
        (.ok (), w.hold part) := if_pos room
    have others := ih (w := w.hold part) (by simp only [Buffered.hold, List.length_append]; omega)
    refine (bind_of_ok first).trans (others.trans ?_)
    simp [Buffered.hold]

/-- Where all that is written fits the buffer, no file makes a save fail before the buffer is
closed: what the file does not take is lost then. -/
theorem written_of_small (new : file.IsNew)
    (small : parts.flatten.length < Buffered.capacity) :
    ∃ full, throughBuffer (parts.forM Writing.bytes) file = (.ok (), full) ∧
      full.written.toList = file.intake parts.flatten := by
  have held := parts_of_small (w := .onto file) parts
    (by simpa only [Buffered.onto, List.length_nil, Nat.zero_add] using small)
  obtain ⟨full, passed, after⟩ := file.writeAll_spec parts.flatten
  refine ⟨full, ?_, ?_⟩
  · rw [throughBuffer, held]
    simp only [Buffered.close, Buffered.flush, Buffered.hold, Buffered.onto, List.nil_append,
      passed]
  · rw [after.written, new]
    rfl

/-- A flush tells whether the file has taken such parts, which closing does not. -/
theorem flushed_of_small (file : Sink) (small : parts.flatten.length < Buffered.capacity) :
    ∃ full, throughBuffer (do Writing.parts parts none; Writing.flush) file =
      (if file.intake parts.flatten = parts.flatten then .ok () else .error file.failure,
        full) := by
  have held : (Writing.parts parts none : WritingTo Buffered IoError Unit) (.onto file) =
      (.ok (), (Buffered.onto file).hold parts.flatten) :=
    (bind_of_ok (parts_of_small (w := .onto file) parts
      (by simpa only [Buffered.onto, List.length_nil, Nat.zero_add] using small))).trans rfl
  obtain ⟨full, passed, -⟩ := file.writeAll_spec parts.flatten
  refine ⟨_, Prod.ext ?_ rfl⟩
  simp only [throughBuffer, bind_of_ok held]
  simp only [Writing.flush, Buffered.flush, Buffered.hold, Buffered.onto, List.nil_append,
    passed]

/-- A sound file is filled, and holds all that was written though the buffer is only closed. -/
theorem written_of_closed (sound : file.IsSound) (parts : List (List UInt8)) :
    ∃ full, throughBuffer (parts.forM Writing.bytes) file = (.ok (), full) ∧
      full.written.toList = parts.flatten := by
  obtain ⟨t, filled⟩ := parts_of_endures (w := .onto file) sound.endures parts
  have gained := gained_of_parts filled
  refine ⟨t.close, by rw [throughBuffer, filled], ?_⟩
  rw [t.close_eq_content (Or.inr (gained.endures sound.endures)), gained.content,
    content_onto sound.1, List.nil_append]

end Parts

end VisualIndex
