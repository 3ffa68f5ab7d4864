import VisualIndex.Proofs.Collections

/-! Writing to a sink that breaks.

A sink that takes some number of bytes and then fails or stalls has in the end taken the
front of the record that it had room for, and the writer learns of the break exactly if
something is missing. Neither the sizes of the calls nor an interruption, wherever it
comes, changes those bytes or the outcome. -/
namespace VisualIndex

namespace FaultEffect

/-- The effect is not over after one call. -/
def lasts : FaultEffect → Bool
  | .fail error => error.cause ≠ .interrupted
  | .stall => true

/-- What a writer is told that cannot go on. -/
def reported : FaultEffect → IoError
  | .fail error => error
  | .stall => ⟨.acceptedNothing, none⟩

theorem not_interruption {effect : FaultEffect} (lasts : effect.lasts) (position : Nat) :
    StreamFault.isInterruption ⟨position, effect⟩ = false := by
  cases effect with
  | fail error => simpa [FaultEffect.lasts, StreamFault.isInterruption] using lasts
  | stall => rfl

end FaultEffect

namespace Sink

/-- The sink with a fault that it meets once it has taken `room` more bytes. -/
def breakingAfter (s : Sink) (room : Nat) (effect : FaultEffect) : Sink :=
  { s with fault := some ⟨s.written.size + room, effect⟩ }

variable {effect : FaultEffect}

theorem intake_breakingAfter (s : Sink) (room : Nat) (lasts : effect.lasts)
    (bytes : List UInt8) : (s.breakingAfter room effect).intake bytes = bytes.take room := by
  have ahead : ¬ s.written.size + room < s.written.size := by omega
  have left : lastingRoom? (some ⟨s.written.size + room, effect⟩) s.written.size =
      some room := by
    simp [lastingRoom?, FaultEffect.not_interruption lasts, ahead]
  simp only [intake, breakingAfter, passing, left]

theorem failure_breakingAfter (s : Sink) (room : Nat) (lasts : effect.lasts) :
    (s.breakingAfter room effect).failure = effect.reported := by
  cases effect with
  | fail error =>
    have stays : error.cause ≠ .interrupted := by simpa [FaultEffect.lasts] using lasts
    simp only [failure, breakingAfter, FaultEffect.reported, if_neg stays]
  | stall => rfl

end Sink

namespace Emits
variable {ε : Type} {wrap : IoError → ε}

theorem cut {w : Writing ε Unit} {xs : List UInt8} (emits : Emits wrap w xs) (s : Sink)
    (room : Nat) {effect : FaultEffect} (lasts : effect.lasts) :
    ∃ t, w (s.breakingAfter room effect) =
        (if xs.length ≤ room then .ok () else .error (wrap effect.reported), t) ∧
      t.written.toList = s.written.toList ++ xs.take room := by
  obtain ⟨t, outcome, after⟩ := emits (s.breakingAfter room effect)
  rw [s.intake_breakingAfter room lasts] at outcome after
  refine ⟨t, ?_, after.written⟩
  simpa only [s.failure_breakingAfter room lasts, List.take_eq_self_iff] using outcome

end Emits

namespace PostingList
variable {b : Nat}

/-- A sink that breaks after `room` bytes takes the first `room` bytes of a list's record,
and the list is told of it unless that was the whole record. One without a fault that
stays takes the record. Too many postings are refused before the first byte. In all this
the sink may cut its calls and be interrupted anywhere, and no list changes. -/
theorem write_cut_short (p : PostingList b) (s : Sink) :
    (p.postings.length < 2 ^ 32 →
      p.record.encoding.length = p.recordLength ∧
      (∀ room effect, FaultEffect.lasts effect → ∃ t,
        p.write (s.breakingAfter room effect) =
          (if p.recordLength ≤ room then .ok () else .error (.io effect.reported), t) ∧
        t.written.toList = s.written.toList ++ p.record.encoding.take room) ∧
      ((∀ f ∈ s.fault, f.isInterruption) → ∃ t,
        p.write s = (.ok (), t) ∧
        t.written.toList = s.written.toList ++ p.record.encoding)) ∧
    (2 ^ 32 ≤ p.postings.length →
      p.write s = (.error (.tooManyPostings p.postings.length), s)) ∧
    ∀ (w : Collection b) i, (w.step (.write i s)).lists = w.lists := by
  refine ⟨?_, fun many => p.write_of_many many s, fun w i => rfl⟩
  intro few
  have emits := p.write_emits few
  refine ⟨p.length_encoding, ?_, ?_⟩
  · intro room effect lasts
    rw [← p.length_encoding]
    exact emits.cut s room lasts
  · intro transient
    obtain ⟨t, done, after⟩ := emits.ok transient
    exact ⟨t, done, after.written⟩

/-- As many postings as a record cannot count. -/
def crowdedList : PostingList 1 :=
  { oddList with postings := List.replicate (2 ^ 32) ⟨0, .allClear⟩ }

theorem write_cut_short_oddList :
    (∃ t, oddList.write (({ Sink.empty with
          chunk := .uniform (some 3), interruption := some 7 } : Sink).breakingAfter 20 .stall) =
        (.error (.io ⟨.acceptedNothing, none⟩), t) ∧
      t.written.toList = oddList.record.encoding.take 20) ∧
    (∃ t, oddList.write { Sink.empty with interruption := some 5 } = (.ok (), t) ∧
      t.written.toList = oddList.record.encoding) ∧
    crowdedList.write Sink.empty =
      (.error (.tooManyPostings crowdedList.postings.length), Sink.empty) :=
  have few : oddList.postings.length < 2 ^ 32 := by decide
  have many : 2 ^ 32 ≤ crowdedList.postings.length := List.length_replicate.ge
  ⟨((write_cut_short oddList { Sink.empty with
      chunk := .uniform (some 3), interruption := some 7 }).1 few).2.1 20 .stall rfl,
    ((write_cut_short oddList { Sink.empty with interruption := some 5 }).1 few).2.2
      (by simp [Sink.empty]),
    (write_cut_short crowdedList Sink.empty).2.1 many⟩

end PostingList

end VisualIndex
