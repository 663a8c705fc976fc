import EntityRpc.Object.Store
import EntityRpc.Proofs.Transcript

namespace EntityRpc.Tracker

variable {O α : Type} [FieldStore O]

structure ClearsWhenAttached (entity : EntityId) (phase? : Option Phase)
    (result : Except Error α) : Prop where
  unknown_iff : result = .error (.unknownEntity entity) ↔ phase? = none
  invalid_iff : ∀ source, result = .error (.invalidMove entity source .cleared) ↔
    phase? = some source ∧ (source = .pending ∨ source = .cleared)
  ok_iff : (∃ block, result = .ok block) ↔ phase? = some .attached

namespace Slot

variable {slot : Slot} {entity : EntityId}

theorem queue_eq_error_iff {payload : Payload} {error : Error} :
    (slot.queue entity payload).result = .error error ↔
      (slot.map Record.phase = some .attached ∨ slot.map Record.phase = some .cleared) ∧
        error = .alreadyCreated entity := by
  match slot with
  | none | some ⟨.pending, _⟩ => simp [queue]
  | some ⟨.attached, _⟩ | some ⟨.cleared, _⟩ => simp [queue, eq_comm]

theorem attach_eq_error_iff {error : Error} :
    (slot.attach (O := O) entity).result = .error error ↔
      ∃ source, slot.map Record.phase = some source ∧ (source = .attached ∨ source = .cleared) ∧
        error = .invalidMove entity source .attached := by
  match slot with
  | none | some ⟨.pending, _⟩ => simp [attach, Record.move, Phase.next?]
  | some ⟨.attached, _⟩ | some ⟨.cleared, _⟩ =>
    simp [attach, Record.move, Phase.next?, eq_comm]

theorem clearsWhenAttached_clear (slot : Slot) (entity : EntityId) (block : α) :
    ClearsWhenAttached entity (slot.map Record.phase) (slot.clear entity block).result := by
  match slot with
  | none => constructor <;> simp [clear]
  | some ⟨.pending, _⟩ | some ⟨.attached, _⟩ | some ⟨.cleared, _⟩ =>
    constructor <;> simp [clear, Record.move, Phase.next?]

/-- A record that is made for a call is pending, and a pending record takes the call. -/
theorem perform_state_of_error {call : Call} {error : Error}
    (h : (slot.perform (O := O) call).result = .error error) :
    (slot.perform (O := O) call).state = slot := by
  match slot with
  | none | some ⟨.pending, _⟩ =>
    cases call with
    | queue | attach | forget => contradiction
    | clearByUpdate | clearByCommand => rfl
  | some ⟨.attached, _⟩ =>
    cases call with
    | queue | attach => rfl
    | clearByUpdate | clearByCommand | forget => contradiction
  | some ⟨.cleared, _⟩ =>
    cases call with
    | queue | attach | clearByUpdate | clearByCommand => rfl
    | forget => contradiction

end Slot

theorem perform_state_of_error (tracker : Tracker) {call : Call} {error : Error}
    (h : (tracker.perform (O := O) call).result = .error error) :
    (tracker.perform (O := O) call).state = tracker := by
  rw [perform_eq_visit] at h
  refine Tracker.ext fun entity ↦ ?_
  by_cases he : call.entity = entity
  · subst he
    rw [slot_perform_self, Slot.perform_state_of_error h]
  · exact slot_perform_of_ne tracker he

/-- Whatever state a tracker is in, the phase of an entity alone decides whether a call on it is
refused and with which error, and a call that is refused leaves the whole tracker as it was. -/
theorem refused_by_phase_and_unchanged (tracker : Tracker) :
    (∀ entity payload error, (tracker.queue entity payload).result = .error error ↔
      (tracker.phase? entity = some .attached ∨ tracker.phase? entity = some .cleared) ∧
        error = .alreadyCreated entity) ∧
    (∀ entity error, (tracker.attach (O := O) entity).result = .error error ↔
      ∃ source, tracker.phase? entity = some source ∧ (source = .attached ∨ source = .cleared) ∧
        error = .invalidMove entity source .attached) ∧
    (∀ entity, ClearsWhenAttached entity (tracker.phase? entity)
      (tracker.clearByUpdate (O := O) entity).result) ∧
    (∀ entity, ClearsWhenAttached entity (tracker.phase? entity)
      (tracker.clearByCommand (O := O) entity).result) ∧
    ∀ call error, (tracker.perform (O := O) call).result = .error error →
      (tracker.perform (O := O) call).state = tracker := by
  refine ⟨?_, ?_, ?_, ?_, ?_⟩
  · intro entity payload error
    exact Slot.queue_eq_error_iff
  · intro entity error
    exact Slot.attach_eq_error_iff
  · intro entity
    exact Slot.clearsWhenAttached_clear _ _ _
  · intro entity
    exact Slot.clearsWhenAttached_clear _ _ _
  · intro call error h
    exact perform_state_of_error tracker h

theorem refused_by_phase_and_unchanged_late :
    let tracker := run (perform (O := Object)) ∅ [.queue 7 ⟨1, 5, [171]⟩, .attach 7]
    ((tracker.perform (O := Object) (.queue 7 ⟨2, 9, []⟩)).result = .error (.alreadyCreated 7) ∧
      (tracker.perform (O := Object) (.queue 7 ⟨2, 9, []⟩)).state = tracker) ∧
    (tracker.perform (O := Object) (.clearByUpdate 8)).result = .error (.unknownEntity 8) ∧
      (tracker.perform (O := Object) (.clearByUpdate 8)).state = tracker := by
  intro tracker
  obtain ⟨-, -, -, -, h⟩ := refused_by_phase_and_unchanged (O := Object) tracker
  have hlate : (tracker.perform (O := Object) (.queue 7 ⟨2, 9, []⟩)).result =
      .error (.alreadyCreated 7) := by rfl
  have hunknown : (tracker.perform (O := Object) (.clearByUpdate 8)).result =
      .error (.unknownEntity 8) := by rfl
  exact ⟨⟨hlate, h _ _ hlate⟩, hunknown, h _ _ hunknown⟩

end EntityRpc.Tracker
