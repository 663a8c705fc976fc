import EntityRpc.Object.Store
import EntityRpc.Proofs.Transcript

namespace EntityRpc.Tracker

/-- Calls that are taken from a plan, which has a sequence of calls for each entity. Any sequence
that has calls left may give its first one next, until all are used up. -/
inductive Interleaving : (EntityId → List Call) → List Call → Prop
  | done {plan : EntityId → List Call} (h : ∀ entity, plan entity = []) : Interleaving plan []
  | take {plan : EntityId → List Call} {call : Call} {later calls : List Call}
      (h : plan call.entity = call :: later)
      (rest : Interleaving (Function.update plan call.entity later) calls) :
      Interleaving plan (call :: calls)

theorem Interleaving.filter_eq {plan : EntityId → List Call} {calls : List Call}
    (h : Interleaving plan calls) (entity : EntityId) :
    (calls.filter fun call ↦ call.entity = entity) = plan entity := by
  induction h with
  | done h => exact (h entity).symm
  | @take plan call later calls h rest ih =>
    by_cases he : call.entity = entity
    · subst he
      rw [List.filter_cons_of_pos (by simp), ih, Function.update_self, h]
    · rw [List.filter_cons_of_neg (by simpa using he), ih, Function.update_of_ne (Ne.symm he)]

theorem interleaving_of_filter_eq {plan : EntityId → List Call} {calls : List Call}
    (h : ∀ entity, (calls.filter fun call ↦ call.entity = entity) = plan entity) :
    Interleaving plan calls := by
  induction calls generalizing plan with
  | nil => exact .done fun entity ↦ (h entity).symm
  | cons call calls ih =>
    have hfirst := h call.entity
    rw [List.filter_cons_of_pos (by simp)] at hfirst
    refine .take hfirst.symm (ih fun entity ↦ ?_)
    by_cases he : entity = call.entity
    · subst he
      rw [Function.update_self]
    · rw [Function.update_of_ne he, ← h entity,
        List.filter_cons_of_neg (by simpa using Ne.symm he)]

variable {O σ : Type}

theorem map_call_transcript (perform : σ → Call → Outcome σ (Reply O)) (state : σ)
    (calls : List Call) : (transcript perform state calls).map Exchange.call = calls := by
  induction calls generalizing state with
  | nil => rfl
  | cons call calls ih => rw [transcript, List.map_cons, ih]; rfl

variable [FieldStore O]

theorem transcript_eq_of_entity (tracker : Tracker) {calls : List Call} {entity : EntityId}
    (h : ∀ call ∈ calls, call.entity = entity) :
    transcript (perform (O := O)) tracker calls =
      transcript (Slot.perform (O := O)) (tracker.slot entity) calls := by
  have hcalls : (calls.filter fun call ↦ call.entity = entity) = calls :=
    List.filter_eq_self.2 fun call hcall ↦ by simpa using h call hcall
  have hexchanges : ((transcript (perform (O := O)) tracker calls).filter
      fun exchange ↦ exchange.call.entity = entity) =
        transcript (perform (O := O)) tracker calls := by
    refine List.filter_eq_self.2 fun exchange hexchange ↦ ?_
    have hcall : exchange.call ∈ calls := by
      rw [← map_call_transcript (perform (O := O)) tracker calls]
      exact List.mem_map_of_mem hexchange
    simpa using h exchange.call hcall
  rw [← hexchanges, filter_transcript, hcalls]

variable (calls : List Call) (entity : EntityId)

theorem filter_transcript_alone :
    ((transcript (perform (O := O)) ∅ calls).filter
        fun exchange ↦ exchange.call.entity = entity) =
      transcript (perform (O := O)) ∅ (calls.filter fun call ↦ call.entity = entity) := by
  have h : ∀ call ∈ calls.filter (fun call ↦ call.entity = entity), call.entity = entity := by
    intro call hcall
    simpa using (List.mem_filter.1 hcall).2
  rw [filter_transcript, transcript_eq_of_entity ∅ h]

theorem slot_run_alone :
    (run (perform (O := O)) ∅ calls).slot entity =
      (run (perform (O := O)) ∅ (calls.filter fun call ↦ call.entity = entity)).slot entity := by
  rw [slot_run, slot_run, List.filter_filter]
  simp only [Bool.and_self]

variable {calls}

theorem filter_transcript_eq_of_interleaving {plan : EntityId → List Call} {other : List Call}
    (h : Interleaving plan calls) (h' : Interleaving plan other) :
    ((transcript (perform (O := O)) ∅ calls).filter
        fun exchange ↦ exchange.call.entity = entity) =
      (transcript (perform (O := O)) ∅ other).filter
        fun exchange ↦ exchange.call.entity = entity := by
  rw [filter_transcript_alone, filter_transcript_alone, h.filter_eq, h'.filter_eq]

theorem run_eq_of_interleaving {plan : EntityId → List Call} {other : List Call}
    (h : Interleaving plan calls) (h' : Interleaving plan other) :
    run (perform (O := O)) ∅ calls = run (perform (O := O)) ∅ other := by
  refine Tracker.ext fun entity ↦ ?_
  rw [slot_run, slot_run, h.filter_eq, h'.filter_eq]

/-- The calls on an entity are answered as they are when no other calls are made, and leave the
same to be known of the entity. However the sequences of calls on the entities are interleaved,
each entity gets the same answers, and the tracker ends up the same. -/
theorem entities_do_not_interfere :
    (∀ (calls : List Call) (entity : EntityId),
      let alone := calls.filter fun call ↦ call.entity = entity
      ((transcript (perform (O := O)) ∅ calls).filter
          fun exchange ↦ exchange.call.entity = entity) = transcript (perform (O := O)) ∅ alone ∧
      (run (perform (O := O)) ∅ calls).phase? entity =
        (run (perform (O := O)) ∅ alone).phase? entity ∧
      (run (perform (O := O)) ∅ calls).batch? entity =
        (run (perform (O := O)) ∅ alone).batch? entity ∧
      (run (perform (O := O)) ∅ calls).dataBits entity =
        (run (perform (O := O)) ∅ alone).dataBits entity) ∧
    ∀ (plan : EntityId → List Call) (first second : List Call),
      Interleaving plan first → Interleaving plan second →
      (∀ entity, ((transcript (perform (O := O)) ∅ first).filter
          fun exchange ↦ exchange.call.entity = entity) =
        (transcript (perform (O := O)) ∅ second).filter
          fun exchange ↦ exchange.call.entity = entity) ∧
      run (perform (O := O)) ∅ first = run (perform (O := O)) ∅ second := by
  refine ⟨?_, ?_⟩
  · intro calls entity alone
    have hslot := slot_run_alone (O := O) calls entity
    refine ⟨filter_transcript_alone calls entity, ?_, ?_, ?_⟩
    · rw [phase?, phase?, hslot]
    · rw [batch?, batch?, hslot]
    · rw [dataBits, dataBits, batch?, batch?, hslot]
  · intro plan first second hfirst hsecond
    exact ⟨fun entity ↦ filter_transcript_eq_of_interleaving entity hfirst hsecond,
      run_eq_of_interleaving hfirst hsecond⟩

theorem entities_do_not_interfere_shuffled :
    let plan : EntityId → List Call := fun entity ↦
      if entity = 7 then [.queue 7 ⟨1, 5, [171]⟩, .attach 7, .queue 7 ⟨2, 9, []⟩]
      else if entity = 8 then [.clearByUpdate 8, .attach 8, .clearByCommand 8]
      else []
    let first : List Call := [.queue 7 ⟨1, 5, [171]⟩, .attach 7, .queue 7 ⟨2, 9, []⟩,
      .clearByUpdate 8, .attach 8, .clearByCommand 8]
    let second : List Call := [.clearByUpdate 8, .queue 7 ⟨1, 5, [171]⟩, .attach 8, .attach 7,
      .clearByCommand 8, .queue 7 ⟨2, 9, []⟩]
    Interleaving plan first ∧ Interleaving plan second ∧
      run (perform (O := Object)) ∅ first = run (perform (O := Object)) ∅ second := by
  intro plan first second
  have hplan : ∀ entity, (first.filter fun call ↦ call.entity = entity) = plan entity ∧
      (second.filter fun call ↦ call.entity = entity) = plan entity := by
    intro entity
    by_cases h7 : entity = 7
    · subst h7
      decide
    · by_cases h8 : entity = 8
      · subst h8
        decide
      · simp [first, second, plan, Call.entity, h7, h8, Ne.symm h7, Ne.symm h8]
  have hfirst := interleaving_of_filter_eq fun entity ↦ (hplan entity).1
  have hsecond := interleaving_of_filter_eq fun entity ↦ (hplan entity).2
  exact ⟨hfirst, hsecond, (entities_do_not_interfere.2 plan first second hfirst hsecond).2⟩

end EntityRpc.Tracker
