import EntityRpc.Object.Store
import EntityRpc.Proofs.Transcript
import Mathlib.Algebra.Order.Ring.Int
import Mathlib.Data.Finset.Card
import Mathlib.Data.List.DropRight

namespace EntityRpc

def Batch.dataLength (batch : Batch) : ℕ := (batch.rpcs.map fun payload ↦ payload.data.length).sum

theorem Batch.dataBits_eq (batch : Batch) : batch.dataBits = Int64.ofNat (8 * batch.dataLength) := by
  obtain ⟨rpcs⟩ := batch
  induction rpcs with
  | nil => rfl
  | cons payload rpcs ih =>
    have hlength : dataLength ⟨payload :: rpcs⟩ = payload.data.length + dataLength ⟨rpcs⟩ :=
      List.sum_cons
    calc dataBits ⟨payload :: rpcs⟩ = payload.dataBits + dataBits ⟨rpcs⟩ := List.sum_cons
      _ = Int64.ofNat payload.data.length * Int64.ofNat 8 + Int64.ofNat (8 * dataLength ⟨rpcs⟩) := by
        rw [ih]
        rfl
      _ = Int64.ofNat (8 * dataLength ⟨payload :: rpcs⟩) := by
        rw [hlength, Nat.mul_add, Int64.ofNat_add, Nat.mul_comm 8 payload.data.length,
          Int64.ofNat_mul payload.data.length 8]

/-- Below this bound the number of bits is exact, and does not wrap. -/
theorem Batch.toInt_dataBits {batch : Batch} (h : batch.dataLength < 2 ^ 60) :
    batch.dataBits.toInt = 8 * batch.dataLength := by
  rw [dataBits_eq, Int64.toInt_ofNat_of_lt (by omega)]
  exact Int.natCast_mul 8 batch.dataLength

namespace Tracker

/-- The calls on an entity since it was last forgotten. -/
def sinceForgotten (entity : EntityId) (calls : List Call) : List Call :=
  (calls.filter fun call ↦ call.entity = entity).rtakeWhile fun call ↦ !call.isForget

namespace History

variable (history : List Call)

def fromAttach : List Call := history.dropWhile fun call ↦ !call.isAttach

def queued : Batch := ⟨(history.takeWhile fun call ↦ !call.isAttach).filterMap Call.payload?⟩

def slot : Slot :=
  if history.any Call.isAttach then
    if (fromAttach history).any Call.isClear then some { phase := .cleared }
    else some { phase := .attached, batch := queued history }
  else if history.any Call.isQueue then some { phase := .pending, batch := queued history }
  else none

variable {history}

theorem fromAttach_concat (h : history.any Call.isAttach) (call : Call) :
    fromAttach (history ++ [call]) = fromAttach history ++ [call] := by
  have hne : (history.dropWhile fun call ↦ !call.isAttach).isEmpty = false := by
    simpa using h
  simp only [fromAttach, List.dropWhile_append, hne, Bool.false_eq_true, if_false]

theorem queued_concat_of_attached (h : history.any Call.isAttach) (call : Call) :
    queued (history ++ [call]) = queued history := by
  have hne : (history.takeWhile fun call ↦ !call.isAttach).length ≠ history.length := by
    intro hlen
    have hself := (List.takeWhile_prefix fun call : Call ↦ !call.isAttach).eq_of_length hlen
    rw [List.takeWhile_eq_self_iff] at hself
    obtain ⟨call, hcall, hattach⟩ := List.any_eq_true.1 h
    simpa [hattach] using hself call hcall
  rw [queued, List.takeWhile_append, if_neg hne, queued]

theorem not_isAttach_of_mem (h : history.any Call.isAttach = false) :
    ∀ call ∈ history, (!call.isAttach) = true := by
  intro call hcall
  simp [List.any_eq_false.1 h call hcall]

theorem fromAttach_eq_nil (h : history.any Call.isAttach = false) : fromAttach history = [] :=
  List.dropWhile_eq_nil_iff.2 (not_isAttach_of_mem h)

theorem queued_concat_of_not_attached (h : history.any Call.isAttach = false) (call : Call) :
    queued (history ++ [call]) = call.payload?.elim (queued history) (queued history).push := by
  have hself : (history.takeWhile fun call ↦ !call.isAttach) = history :=
    List.takeWhile_eq_self_iff.2 (not_isAttach_of_mem h)
  rw [queued, queued, List.takeWhile_append_of_pos (not_isAttach_of_mem h), hself,
    List.filterMap_append]
  cases call with
  | queue entity payload => rfl
  | _ => exact congrArg Batch.mk (List.append_nil _)

theorem queued_eq_empty (h : history.any Call.isQueue = false) : queued history = ∅ := by
  rw [List.any_eq_false] at h
  refine congrArg Batch.mk (List.filterMap_eq_nil_iff.2 ?_)
  intro call hcall
  have hmem := (List.takeWhile_prefix _).subset hcall
  simpa [Call.isQueue] using h call hmem

variable {O : Type} [FieldStore O]

theorem slot_concat_of_attached (h : history.any Call.isAttach) {call : Call}
    (hcall : call.isForget = false) :
    slot (history ++ [call]) = ((slot history).perform (O := O) call).state := by
  have hany : (history ++ [call]).any Call.isAttach := by simp [h]
  rw [slot, slot, if_pos hany, if_pos h, fromAttach_concat h, queued_concat_of_attached h,
    List.any_append]
  by_cases hclear : (fromAttach history).any Call.isClear
  · rw [hclear]
    cases call with
    | forget entity => contradiction
    | _ => rfl
  · rw [Bool.not_eq_true] at hclear
    rw [hclear]
    cases call with
    | forget entity => contradiction
    | _ => rfl

theorem slot_concat_of_not_attached (h : history.any Call.isAttach = false) {call : Call}
    (hcall : call.isForget = false) :
    slot (history ++ [call]) = ((slot history).perform (O := O) call).state := by
  have hattach : (history ++ [call]).any Call.isAttach = call.isAttach := by simp [h]
  have hqueue : (history ++ [call]).any Call.isQueue =
      (history.any Call.isQueue || call.isQueue) := by simp
  -- If the call is the first attach, no clear comes after it yet.
  have hclear : (fromAttach (history ++ [call])).any Call.isClear = false := by
    rw [fromAttach, List.dropWhile_append_of_pos (not_isAttach_of_mem h)]
    cases call <;> rfl
  rw [slot, slot, hattach, hqueue, hclear, h, queued_concat_of_not_attached h]
  by_cases hq : history.any Call.isQueue
  · rw [hq]
    cases call with
    | forget entity => contradiction
    | _ => rfl
  · rw [Bool.not_eq_true] at hq
    -- An attach with nothing queued before it makes a record of its own, with an empty batch.
    rw [hq, queued_eq_empty hq]
    cases call with
    | forget entity => contradiction
    | _ => rfl

/-- The slot that belongs to a history takes the step that the call takes. -/
theorem slot_concat (history : List Call) {call : Call} (hcall : call.isForget = false) :
    slot (history ++ [call]) = ((slot history).perform (O := O) call).state := by
  cases h : history.any Call.isAttach with
  | true => exact slot_concat_of_attached h hcall
  | false => exact slot_concat_of_not_attached h hcall

theorem run_eq_slot (calls : List Call) :
    run (Slot.perform (O := O)) none calls =
      slot (calls.rtakeWhile fun call ↦ !call.isForget) := by
  induction calls using List.reverseRecOn with
  | nil => rfl
  | append_singleton calls call ih =>
    rw [run_concat, ih]
    cases hcall : call.isForget with
    | true =>
      rw [List.rtakeWhile_concat_neg _ _ _ (by simp [hcall])]
      cases call with
      | forget entity => rfl
      | _ => contradiction
    | false =>
      rw [List.rtakeWhile_concat_pos _ _ _ (by simp [hcall])]
      exact (slot_concat _ hcall).symm

end History

open History

/-- All that can be asked of a tracker about an entity is told by the entity's history. -/
structure Follows (tracker : Tracker) (entity : EntityId) (history : List Call) : Prop where
  phase_none_iff : tracker.phase? entity = none ↔
    ¬ history.any Call.isQueue ∧ ¬ history.any Call.isAttach
  phase_pending_iff : tracker.phase? entity = some .pending ↔
    history.any Call.isQueue ∧ ¬ history.any Call.isAttach
  phase_attached_iff : tracker.phase? entity = some .attached ↔
    history.any Call.isAttach ∧ ¬ (fromAttach history).any Call.isClear
  phase_cleared_iff : tracker.phase? entity = some .cleared ↔
    (fromAttach history).any Call.isClear
  batch_of_none : tracker.phase? entity = none → tracker.batch? entity = none
  batch_of_held : tracker.phase? entity = some .pending ∨ tracker.phase? entity = some .attached →
    tracker.batch? entity = some (queued history)
  batch_of_cleared : tracker.phase? entity = some .cleared → tracker.batch? entity = some ∅
  dataBits_eq : (tracker.batch? entity).elim 0 Batch.dataLength < 2 ^ 60 →
    (tracker.dataBits entity).toInt = 8 * (tracker.batch? entity).elim 0 Batch.dataLength
  forget_eq : (tracker.forget entity).result = .ok (tracker.batch? entity)

variable {tracker : Tracker} {entity : EntityId} {history : List Call}

theorem toInt_dataBits (h : (tracker.batch? entity).elim 0 Batch.dataLength < 2 ^ 60) :
    (tracker.dataBits entity).toInt = 8 * (tracker.batch? entity).elim 0 Batch.dataLength := by
  rw [dataBits]
  cases hbatch : tracker.batch? entity with
  | none => rfl
  | some batch =>
    rw [hbatch] at h
    exact Batch.toInt_dataBits h

theorem follows_of_slot_eq (h : tracker.slot entity = History.slot history) :
    tracker.Follows entity history := by
  have hphase : tracker.phase? entity = (History.slot history).map Record.phase :=
    congrArg (Option.map Record.phase) h
  have hbatch : tracker.batch? entity = (History.slot history).map Record.batch :=
    congrArg (Option.map Record.batch) h
  cases hattach : history.any Call.isAttach with
  | true =>
    cases hclear : (fromAttach history).any Call.isClear with
    | true | false =>
      simp only [History.slot, hattach, hclear] at hphase hbatch
      refine ⟨?_, ?_, ?_, ?_, ?_, ?_, ?_, toInt_dataBits, rfl⟩ <;>
        simp [hphase, hbatch, hattach, hclear]
  | false =>
    have hclear : (fromAttach history).any Call.isClear = false := by
      rw [fromAttach_eq_nil hattach]
      rfl
    cases hqueue : history.any Call.isQueue with
    | true | false =>
      simp only [History.slot, hattach, hqueue] at hphase hbatch
      refine ⟨?_, ?_, ?_, ?_, ?_, ?_, ?_, toInt_dataBits, rfl⟩ <;>
        simp [hphase, hbatch, hattach, hclear, hqueue]

theorem exists_finset_card_eq_size (tracker : Tracker) :
    ∃ entities : Finset EntityId,
      (∀ entity, entity ∈ entities ↔ tracker.phase? entity ≠ none) ∧
        tracker.size = entities.card := by
  refine ⟨tracker.records.keys.toFinset, ?_, ?_⟩
  · intro entity
    rw [List.mem_toFinset, Std.ExtTreeMap.mem_keys, ← Std.ExtTreeMap.isSome_getElem?_iff_mem,
      phase?, Option.map_eq_none_iff.ne]
    exact Option.isSome_iff_ne_none
  · rw [List.toFinset_card_of_nodup Std.ExtTreeMap.nodup_keys, Std.ExtTreeMap.length_keys]
    rfl

variable {O : Type} [FieldStore O]

/-- After any calls, what a tracker knows of each entity is what the entity's history since it was
last forgotten says, and there are as many records as there are entities in some phase. -/
theorem run_follows_history (calls : List Call) :
    (∀ entity, Follows (run (perform (O := O)) ∅ calls) entity (sinceForgotten entity calls)) ∧
    ∃ entities : Finset EntityId,
      (∀ entity, entity ∈ entities ↔ (run (perform (O := O)) ∅ calls).phase? entity ≠ none) ∧
        (run (perform (O := O)) ∅ calls).size = entities.card := by
  refine ⟨?_, exists_finset_card_eq_size _⟩
  intro entity
  apply follows_of_slot_eq
  rw [slot_run, slot_empty, run_eq_slot]
  rfl

theorem run_follows_history_reused :
    let calls : List Call := [.queue 7 ⟨1, 5, [171]⟩, .attach 7, .forget 7, .clearByUpdate 7,
      .queue 7 ⟨2, 9, [1, 2, 3]⟩, .queue 8 ⟨9, 9, []⟩, .clearByCommand 7, .attach 7,
      .queue 7 ⟨3, 3, []⟩]
    let tracker := run (perform (O := Object)) ∅ calls
    tracker.phase? 7 = some .attached ∧ tracker.batch? 7 = some ⟨[⟨2, 9, [1, 2, 3]⟩]⟩ ∧
      (tracker.dataBits 7).toInt = 24 := by
  intro calls tracker
  have h := (run_follows_history (O := Object) calls).1 7
  have hphase := h.phase_attached_iff.2 ⟨by decide, by decide⟩
  have hbatch := h.batch_of_held (.inr hphase)
  have hlength : (tracker.batch? 7).elim 0 Batch.dataLength = 3 := by
    rw [hbatch]
    decide
  have hbits := h.dataBits_eq (hlength ▸ by decide)
  rw [hlength] at hbits
  exact ⟨hphase, hbatch, hbits⟩

end Tracker

end EntityRpc
