import Mathlib.Data.List.TakeDrop
import VisualIndex.Stream.Sink
import VisualIndex.Stream.Source

/-! What passes through a stream.

A fault that stays lets the bytes before it pass and no others; an interruption costs one
call and no bytes. So what a source hands out and what a sink takes is settled by the
fault alone, however the bytes are cut into calls. -/
namespace VisualIndex

/-- The number of bytes that can still pass before a fault that stays, if one lies ahead. -/
def lastingRoom? (fault : Option StreamFault) (passed : Nat) : Option Nat :=
  match fault with
  | none => none
  | some f => if f.isInterruption ∨ f.position < passed then none else some (f.position - passed)

/-- The part of some bytes that passes before a fault that stays. -/
def passing (fault : Option StreamFault) (passed : Nat) (bytes : List UInt8) : List UInt8 :=
  match lastingRoom? fault passed with
  | none => bytes
  | some room => bytes.take room

section Passing
variable {fault : Option StreamFault} {passed : Nat} {bytes : List UInt8}

theorem lastingRoom?_of_not_lasting (transient : ∀ f ∈ fault, f.isInterruption) (passed : Nat) :
    lastingRoom? fault passed = none := by
  cases fault with
  | none => rfl
  | some f => simp [lastingRoom?, transient f rfl]

theorem lastingRoom?_eq_some {room : Nat} (h : lastingRoom? fault passed = some room) :
    ∃ f, fault = some f ∧ f.isInterruption = false ∧ f.position = passed + room := by
  cases fault with
  | none => simp [lastingRoom?] at h
  | some f =>
    simp only [lastingRoom?] at h
    split at h
    · cases h
    · rename_i lasting
      rw [not_or] at lasting
      cases h
      exact ⟨f, rfl, by simpa using lasting.1, by omega⟩

theorem lastingRoom?_add {room n : Nat} (h : lastingRoom? fault passed = some room)
    (hn : n ≤ room) : lastingRoom? fault (passed + n) = some (room - n) := by
  obtain ⟨f, rfl, lasting, place⟩ := lastingRoom?_eq_some h
  have ahead : ¬ f.position < passed + n := by omega
  simp only [lastingRoom?, lasting, ahead, or_self, Bool.false_eq_true, if_false]
  congr 1
  omega

theorem lastingRoom?_add_of_none (h : lastingRoom? fault passed = none) (n : Nat) :
    lastingRoom? fault (passed + n) = none := by
  cases fault with
  | none => rfl
  | some f =>
    simp only [lastingRoom?, ite_eq_left_iff, reduceCtorEq, imp_false, not_not] at h ⊢
    exact h.imp_right fun behind => by omega

theorem passing_isPrefix (fault : Option StreamFault) (passed : Nat) (bytes : List UInt8) :
    passing fault passed bytes <+: bytes := by
  rw [passing]
  split
  · exact List.prefix_rfl
  · exact List.take_prefix _ _

theorem length_passing_le (fault : Option StreamFault) (passed : Nat) (bytes : List UInt8) :
    (passing fault passed bytes).length ≤ bytes.length :=
  (passing_isPrefix fault passed bytes).length_le

theorem passing_drop {n : Nat} (hn : n ≤ (passing fault passed bytes).length) :
    passing fault (passed + n) (bytes.drop n) = (passing fault passed bytes).drop n := by
  cases h : lastingRoom? fault passed with
  | none => simp [passing, h, lastingRoom?_add_of_none h]
  | some room =>
    simp only [passing, h, List.length_take] at hn ⊢
    rw [lastingRoom?_add h (by omega), List.drop_take]

theorem passing_take (n : Nat) :
    passing fault passed (bytes.take n) = (passing fault passed bytes).take n := by
  cases h : lastingRoom? fault passed with
  | none => simp [passing, h]
  | some room => simp only [passing, h, List.take_take, Nat.min_comm]

theorem passing_append_of_eq {more : List UInt8} (h : passing fault passed bytes = bytes) :
    passing fault passed (bytes ++ more) =
      bytes ++ passing fault (passed + bytes.length) more := by
  cases hr : lastingRoom? fault passed with
  | none => simp [passing, hr, lastingRoom?_add_of_none hr]
  | some room =>
    simp only [passing, hr, List.take_eq_self_iff] at h ⊢
    rw [lastingRoom?_add hr h, List.take_append, List.take_of_length_le h]

theorem passing_append_of_ne {more : List UInt8} (h : passing fault passed bytes ≠ bytes) :
    passing fault passed (bytes ++ more) = passing fault passed bytes := by
  cases hr : lastingRoom? fault passed with
  | none => simp [passing, hr] at h
  | some room =>
    simp only [passing, hr, ne_eq, List.take_eq_self_iff, Nat.not_le] at h ⊢
    exact List.take_append_of_le_length (Nat.le_of_lt h)

theorem Chunking.most_le (c : Chunking) (passed want : Nat) : c.most passed want ≤ want := by
  rw [most]
  split <;> omega

theorem Chunking.most_pos (c : Chunking) (passed : Nat) {want : Nat} (h : 0 < want) :
    0 < c.most passed want := by
  rw [most]
  split <;> omega

theorem callLimit_le (chunk : Chunking) (fault : Option StreamFault) (passed want : Nat) :
    callLimit chunk fault passed want ≤ want := by
  have := chunk.most_le passed want
  cases fault with
  | none => exact this
  | some f =>
    rw [callLimit]
    split <;> omega

theorem callLimit_pos (chunk : Chunking) (fault : Option StreamFault) (passed : Nat)
    {want : Nat} (h : 0 < want) : 0 < callLimit chunk fault passed want := by
  have := chunk.most_pos passed h
  cases fault with
  | none => exact this
  | some f =>
    rw [callLimit]
    split <;> omega

/-- A call stops short of the fault, so it moves none but bytes that pass. -/
theorem callLimit_le_room {chunk : Chunking} {want room : Nat}
    (h : faultAt? fault passed = none) (hr : lastingRoom? fault passed = some room) :
    callLimit chunk fault passed want ≤ room := by
  obtain ⟨f, rfl, -, place⟩ := lastingRoom?_eq_some hr
  have apart : f.position ≠ passed := by simpa [faultAt?] using h
  have before : passed < f.position := by omega
  rw [callLimit, if_pos before]
  omega

theorem take_callLimit {chunk : Chunking} {want : Nat} (h : faultAt? fault passed = none) :
    bytes.take (callLimit chunk fault passed want) =
      (passing fault passed bytes).take (callLimit chunk fault passed want) := by
  cases hr : lastingRoom? fault passed with
  | none => simp [passing, hr]
  | some room =>
    simp only [passing, hr, List.take_take]
    rw [Nat.min_eq_left (callLimit_le_room h hr)]

end Passing

theorem length_le_of_take {α : Type} {xs part : List α} (h : xs.take part.length = part) :
    part.length ≤ xs.length := by
  have := congrArg List.length h
  rw [List.length_take] at this
  omega

namespace Source

/-- The bytes that come before the data ends or a fault stays. -/
def supply (s : Source) : List UInt8 := passing s.fault s.taken s.rest

/-- The failure met when more is wanted than the supply holds. -/
def ending (s : Source) : IoError :=
  match s.fault with
  | some ⟨position, .fail error⟩ =>
    if error.cause ≠ .interrupted ∧ s.taken ≤ position ∧ position ≤ s.taken + s.rest.length then
      error
    else ⟨.unexpectedEnd, none⟩
  | _ => ⟨.unexpectedEnd, none⟩

/-- What a source has become once `n` more bytes of its supply are gone. -/
structure After (s : Source) (n : Nat) (t : Source) : Prop where
  rest : t.rest = s.rest.drop n
  taken : t.taken = s.taken + n
  supply : t.supply = s.supply.drop n
  ending : t.ending = s.ending

theorem After.refl (s : Source) : s.After 0 s := ⟨rfl, rfl, rfl, rfl⟩

theorem After.trans {s t u : Source} {m n : Nat} (first : s.After m t) (second : t.After n u) :
    s.After (m + n) u where
  rest := by rw [second.rest, first.rest, List.drop_drop]
  taken := by rw [second.taken, first.taken, Nat.add_assoc]
  supply := by rw [second.supply, first.supply, List.drop_drop]
  ending := by rw [second.ending, first.ending]

theorem After.of_eq {s t : Source} {m n : Nat} (after : s.After m t) (h : m = n) :
    s.After n t := h ▸ after

theorem After.length_supply {s t : Source} {n : Nat} (after : s.After n t) :
    t.supply.length = s.supply.length - n := by
  rw [after.supply, List.length_drop]

theorem length_supply_le (s : Source) : s.supply.length ≤ s.rest.length :=
  length_passing_le s.fault s.taken s.rest

theorem supply_of_transient {s : Source} (h : ∀ f ∈ s.fault, f.isInterruption) :
    s.supply = s.rest := by
  rw [supply, passing, lastingRoom?_of_not_lasting h]

theorem supply_ofBytes (bytes : List UInt8) : (Source.ofBytes bytes).supply = bytes :=
  supply_of_transient (by simp [ofBytes])

theorem ending_of_transient {s : Source} (h : ∀ f ∈ s.fault, f.isInterruption) :
    s.ending = ⟨.unexpectedEnd, none⟩ := by
  rw [ending]
  split
  · next position error hf =>
    have interrupted := h _ hf
    simp only [StreamFault.isInterruption, decide_eq_true_eq] at interrupted
    simp [interrupted]
  · rfl

theorem after_advance (s : Source) {n : Nat} (hn : n ≤ s.supply.length) :
    s.After n (s.advance n) where
  rest := rfl
  taken := rfl
  supply := passing_drop hn
  ending := by
    have bound := Nat.le_trans hn s.length_supply_le
    simp only [Source.ending, advance, List.length_drop]
    split
    · next position error hf =>
      refine if_congr (and_congr_right fun lasting => ?_) rfl rfl
      have reach : s.taken ≤ position → s.taken + n ≤ position := by
        intro ahead
        have room : lastingRoom? s.fault s.taken = some (position - s.taken) := by
          simp [hf, lastingRoom?, StreamFault.isInterruption, lasting, ahead]
        simp only [supply, passing, room, List.length_take] at hn
        omega
      omega
    · rfl

theorem supply_eq_nil_at {s : Source} {f : StreamFault} (h : faultAt? s.fault s.taken = some f)
    (lasting : f.isInterruption = false) : s.supply = [] := by
  obtain ⟨hf, place⟩ := faultAt?_eq_some h
  simp [supply, passing, lastingRoom?, hf, lasting, place]

theorem after_of_call_interrupted {s t : Source} {want : Nat} {error : IoError}
    (h : s.call want = (.error error, t)) (interrupted : error.cause = .interrupted) :
    s.After 0 t := by
  rcases call_cases h with ⟨_, _, passed, _⟩ | ⟨position, _, here, failed, rfl⟩ |
    ⟨_, _, _, passed, _⟩
  · cases passed
  · obtain ⟨hf, -⟩ := faultAt?_eq_some here
    cases failed
    have transient : ∀ f ∈ s.fault, f.isInterruption := by
      simp [hf, StreamFault.isInterruption, interrupted]
    rw [if_pos interrupted]
    refine ⟨rfl, rfl, ?_, ?_⟩
    · rw [List.drop_zero, supply_of_transient transient]
      rfl
    · rw [ending_of_transient transient]
      rfl
  · cases passed

theorem ending_of_call_failed {s t : Source} {want : Nat} {error : IoError}
    (h : s.call want = (.error error, t)) (lasting : error.cause ≠ .interrupted) :
    s.supply = [] ∧ s.ending = error ∧ t = s := by
  rcases call_cases h with ⟨_, _, passed, _⟩ | ⟨position, _, here, failed, rfl⟩ |
    ⟨_, _, _, passed, _⟩
  · cases passed
  · obtain ⟨hf, place⟩ := faultAt?_eq_some here
    cases failed
    have stays : StreamFault.isInterruption ⟨position, .fail error⟩ = false := by
      simpa [StreamFault.isInterruption] using lasting
    refine ⟨supply_eq_nil_at here stays, ?_, if_neg lasting⟩
    simp [ending, hf, lasting, ← place]
  · cases passed

theorem after_of_call_ok {s t : Source} {want : Nat} {part : List UInt8}
    (h : s.call want = (.ok part, t)) :
    part.length ≤ want ∧ s.supply.take part.length = part ∧ s.After part.length t := by
  rcases call_cases h with ⟨_, _, passed, rfl⟩ | ⟨_, _, _, failed, _⟩ | ⟨_, here, rfl, passed, rfl⟩
  · cases passed
    exact ⟨Nat.zero_le _, rfl, .refl _⟩
  · cases failed
  · have cut : s.rest.take (callLimit s.chunk s.fault s.taken want) =
        s.supply.take (callLimit s.chunk s.fault s.taken want) := take_callLimit here
    have limit_le := callLimit_le s.chunk s.fault s.taken want
    cases passed
    rw [cut]
    refine ⟨?_, ?_, s.after_advance (List.length_take_le' _ _)⟩
    · rw [List.length_take]
      omega
    · rw [List.length_take, ← List.take_eq_take_min]

/-- Where nothing is handed out, nothing comes any more. -/
theorem ending_of_call_nil {s t : Source} {want : Nat} (hw : 0 < want)
    (h : s.call want = (.ok [], t)) : s.supply = [] ∧ s.ending = ⟨.unexpectedEnd, none⟩ := by
  rcases call_cases h with ⟨_, here, _, _⟩ | ⟨_, _, _, failed, _⟩ | ⟨part, here, cut, passed, _⟩
  · obtain ⟨hf, -⟩ := faultAt?_eq_some here
    exact ⟨supply_eq_nil_at here rfl, by simp [ending, hf]⟩
  · cases failed
  · have limit_pos := callLimit_pos s.chunk s.fault s.taken hw
    have nothing : s.rest = [] := by
      cases passed
      exact (List.take_eq_nil_iff.mp cut.symm).resolve_left (by omega)
    refine ⟨List.prefix_nil.mp (nothing ▸ passing_isPrefix s.fault s.taken s.rest), ?_⟩
    rw [ending]
    split
    · next position error hf =>
      have apart : position ≠ s.taken := by simpa [faultAt?, hf] using here
      rw [if_neg]
      rintro ⟨-, ahead, inside⟩
      rw [nothing, List.length_nil] at inside
      omega
    · rfl

/-- Reading takes what is wanted from the supply, or all of it and then fails. -/
theorem readExactly_spec (s : Source) (want : Nat) :
    ∃ t, s.readExactly want =
        (if want ≤ s.supply.length then .ok (s.supply.take want) else .error s.ending, t) ∧
      s.After (min want s.supply.length) t := by
  fun_induction readExactly s want with
  | case1 s => exact ⟨s, by simp, by simpa using After.refl s⟩
  | case2 s want _ error t called interrupted ih =>
    have retried := after_of_call_interrupted called interrupted
    obtain ⟨u, hu, after⟩ := ih
    rw [retried.supply, retried.ending, List.drop_zero] at hu
    rw [retried.supply, List.drop_zero] at after
    exact ⟨u, hu, by simpa using retried.trans after⟩
  | case3 s want wanted error t called lasting =>
    obtain ⟨empty, rfl, rfl⟩ := ending_of_call_failed called lasting
    exact ⟨t, by simp [empty, wanted], by simpa [empty] using After.refl t⟩
  | case4 s want wanted t called =>
    obtain ⟨empty, failing⟩ := ending_of_call_nil (by omega) called
    have after := (after_of_call_ok called).2.2
    exact ⟨t, by simp [empty, wanted, failing], by simpa [empty] using after⟩
  | case5 s want _ byte more t called tail u read ih =>
    obtain ⟨part_le, part, first⟩ := after_of_call_ok called
    obtain ⟨v, hv, second⟩ := ih
    have shorter := first.length_supply
    have inside := length_le_of_take part
    rw [read, Prod.mk.injEq] at hv
    obtain ⟨hv, rfl⟩ := hv
    split at hv
    · next enough =>
      cases hv
      refine ⟨u, ?_, (first.trans second).of_eq (by omega)⟩
      rw [if_pos (by omega), first.supply]
      nth_rewrite 1 [← part]
      rw [← List.take_add, Nat.add_sub_cancel' part_le]
    · cases hv
  | case6 s want _ byte more t called error u read ih =>
    obtain ⟨part_le, part, first⟩ := after_of_call_ok called
    obtain ⟨v, hv, second⟩ := ih
    have shorter := first.length_supply
    have inside := length_le_of_take part
    rw [read, Prod.mk.injEq] at hv
    obtain ⟨hv, rfl⟩ := hv
    split at hv
    · cases hv
    · next short =>
      cases hv
      refine ⟨u, ?_, (first.trans second).of_eq (by omega)⟩
      rw [if_neg (by omega), first.ending]

end Source

namespace Sink

/-- The part of some bytes that a sink takes before a fault that stays. -/
def intake (s : Sink) (bytes : List UInt8) : List UInt8 := passing s.fault s.written.size bytes

/-- The failure met when a sink does not take all of some bytes. -/
def failure (s : Sink) : IoError :=
  match s.fault with
  | some ⟨_, .fail error⟩ =>
    if error.cause = .interrupted then ⟨.acceptedNothing, none⟩ else error
  | _ => ⟨.acceptedNothing, none⟩

/-- What a sink has become once it has taken some bytes. -/
structure After (s : Sink) (bytes : List UInt8) (t : Sink) : Prop where
  written : t.written.toList = s.written.toList ++ bytes
  room : ∀ n, lastingRoom? t.fault n = lastingRoom? s.fault n
  failure : t.failure = s.failure

theorem After.refl (s : Sink) : s.After [] s := ⟨by rw [List.append_nil], fun _ => rfl, rfl⟩

theorem After.trans {s t u : Sink} {xs ys : List UInt8} (first : s.After xs t)
    (second : t.After ys u) : s.After (xs ++ ys) u where
  written := by rw [second.written, first.written, List.append_assoc]
  room n := by rw [second.room, first.room]
  failure := by rw [second.failure, first.failure]

theorem After.intake {s t : Sink} {xs : List UInt8} (after : s.After xs t) (ys : List UInt8) :
    t.intake ys = passing s.fault (s.written.size + xs.length) ys := by
  have size := congrArg List.length after.written
  rw [List.length_append, Array.length_toList, Array.length_toList] at size
  rw [Sink.intake, size, passing, passing, after.room]

theorem intake_append_of_eq {s t : Sink} {xs : List UInt8} (whole : s.intake xs = xs)
    (after : s.After xs t) (ys : List UInt8) : s.intake (xs ++ ys) = xs ++ t.intake ys := by
  rw [after.intake]
  exact passing_append_of_eq whole

theorem intake_append_of_ne {s : Sink} {xs : List UInt8} (cut : s.intake xs ≠ xs)
    (ys : List UInt8) : s.intake (xs ++ ys) = s.intake xs :=
  passing_append_of_ne cut

theorem intake_nil (s : Sink) : s.intake [] = [] :=
  List.prefix_nil.mp (passing_isPrefix s.fault s.written.size [])

theorem intake_of_transient {s : Sink} (h : ∀ f ∈ s.fault, f.isInterruption)
    (bytes : List UInt8) : s.intake bytes = bytes := by
  rw [intake, passing, lastingRoom?_of_not_lasting h]

theorem intake_eq_nil_at {s : Sink} {f : StreamFault}
    (h : faultAt? s.fault s.written.size = some f) (lasting : f.isInterruption = false)
    (bytes : List UInt8) : s.intake bytes = [] := by
  obtain ⟨hf, place⟩ := faultAt?_eq_some h
  simp [intake, passing, lastingRoom?, hf, lasting, place]

theorem after_of_call_interrupted {s t : Sink} {bytes : List UInt8} {error : IoError}
    (h : s.call bytes = (.error error, t)) (interrupted : error.cause = .interrupted) :
    s.After [] t := by
  rcases call_cases h with ⟨_, _, rfl⟩ | ⟨_, _, passed, _⟩ | ⟨_, _, here, failed, rfl⟩ |
    ⟨_, _, _, passed, _⟩
  · exact ⟨by rw [List.append_nil], fun _ => rfl, rfl⟩
  · cases passed
  · obtain ⟨hf, -⟩ := faultAt?_eq_some here
    cases failed
    have transient : ∀ f ∈ s.fault, f.isInterruption := by
      simp [hf, StreamFault.isInterruption, interrupted]
    rw [if_pos interrupted]
    refine ⟨by rw [List.append_nil], ?_, by simp [failure, hf, interrupted]⟩
    intro n
    rw [lastingRoom?_of_not_lasting transient]
    rfl
  · cases passed

theorem failure_of_call_failed {s t : Sink} {bytes : List UInt8} {error : IoError}
    (h : s.call bytes = (.error error, t)) (lasting : error.cause ≠ .interrupted) :
    s.intake bytes = [] ∧ s.failure = error ∧ t = s := by
  rcases call_cases h with ⟨_, failed, _⟩ | ⟨_, _, passed, _⟩ | ⟨position, _, here, failed, rfl⟩ |
    ⟨_, _, _, passed, _⟩
  · cases failed
    exact absurd rfl lasting
  · cases passed
  · obtain ⟨hf, -⟩ := faultAt?_eq_some here
    cases failed
    have stays : StreamFault.isInterruption ⟨position, .fail error⟩ = false := by
      simpa [StreamFault.isInterruption] using lasting
    refine ⟨intake_eq_nil_at here stays bytes, ?_, if_neg lasting⟩
    simp [failure, hf, lasting]
  · cases passed

theorem after_of_call_ok {s t : Sink} {bytes : List UInt8} {taken : Nat}
    (h : s.call bytes = (.ok taken, t)) :
    taken ≤ bytes.length ∧ s.intake (bytes.take taken) = bytes.take taken ∧
      s.After (bytes.take taken) t := by
  rcases call_cases h with ⟨_, failed, _⟩ | ⟨_, _, passed, rfl⟩ | ⟨_, _, _, failed, _⟩ |
    ⟨_, here, rfl, passed, rfl⟩
  · cases failed
  · cases passed
    exact ⟨Nat.zero_le _, intake_nil _, .refl _⟩
  · cases failed
  · have limit_le := callLimit_le s.chunk s.fault s.written.size bytes.length
    rw [List.length_take, Nat.min_eq_left limit_le] at passed
    cases passed
    refine ⟨limit_le, ?_, ⟨by simp [accept], fun _ => rfl, rfl⟩⟩
    rw [intake, passing_take]
    exact (take_callLimit here).symm

/-- Where nothing is taken, nothing is taken any more. -/
theorem failure_of_call_nothing {s t : Sink} {bytes : List UInt8} (some_left : bytes ≠ [])
    (h : s.call bytes = (.ok 0, t)) :
    s.intake bytes = [] ∧ s.failure = ⟨.acceptedNothing, none⟩ := by
  rcases call_cases h with ⟨_, failed, _⟩ | ⟨_, here, _, _⟩ | ⟨_, _, _, failed, _⟩ |
    ⟨part, _, cut, passed, _⟩
  · cases failed
  · obtain ⟨hf, -⟩ := faultAt?_eq_some here
    exact ⟨intake_eq_nil_at here rfl bytes, by simp [failure, hf]⟩
  · cases failed
  · have length_pos := List.length_pos_iff.mpr some_left
    have limit_pos := callLimit_pos s.chunk s.fault s.written.size length_pos
    have length := congrArg List.length cut
    rw [List.length_take] at length
    rw [Except.ok.injEq] at passed
    omega

/-- Writing puts out what the sink takes, and fails if that is not all. -/
theorem writeAll_spec (s : Sink) (bytes : List UInt8) :
    ∃ t, s.writeAll bytes =
        (if s.intake bytes = bytes then .ok () else .error s.failure, t) ∧
      s.After (s.intake bytes) t := by
  fun_induction writeAll s bytes with
  | case1 s => exact ⟨s, by simp [intake_nil], by simpa [intake_nil] using After.refl s⟩
  | case2 s bytes _ error t called interrupted ih =>
    have retried := after_of_call_interrupted called interrupted
    obtain ⟨u, hu, after⟩ := ih
    have same : t.intake bytes = s.intake bytes := retried.intake bytes
    rw [same, retried.failure] at hu
    rw [same] at after
    exact ⟨u, hu, retried.trans after⟩
  | case3 s bytes some_left error t called lasting =>
    obtain ⟨nothing, rfl, rfl⟩ := failure_of_call_failed called lasting
    exact ⟨t, by rw [nothing, if_neg (Ne.symm some_left)], nothing ▸ After.refl t⟩
  | case4 s bytes some_left t called =>
    obtain ⟨nothing, failing⟩ := failure_of_call_nothing some_left called
    exact ⟨t, by rw [nothing, if_neg (Ne.symm some_left), failing],
      nothing ▸ (after_of_call_ok called).2.2⟩
  | case5 s bytes _ taken t called ih =>
    obtain ⟨-, whole, first⟩ := after_of_call_ok called
    obtain ⟨u, hu, second⟩ := ih
    have split_intake := intake_append_of_eq whole first (bytes.drop (taken + 1))
    rw [List.take_append_drop] at split_intake
    have agree : s.intake bytes = bytes ↔
        t.intake (bytes.drop (taken + 1)) = bytes.drop (taken + 1) := by
      rw [split_intake]
      constructor
      · intro h
        exact List.append_cancel_left (h.trans (List.take_append_drop (taken + 1) bytes).symm)
      · intro h
        rw [h]
        exact List.take_append_drop (taken + 1) bytes
    refine ⟨u, ?_, split_intake ▸ first.trans second⟩
    simp only [hu, first.failure, agree]

end Sink

end VisualIndex
