import EntityRpc.Proofs.Batch
import EntityRpc.Proofs.Envelope

namespace EntityRpc

theorem Payload.write_empty (payload : Payload) :
    payload.write (∅ : Object) =
      Object.ofValue offsetField (.varint payload.offset.toUInt64) ++
        Object.ofValue indexField (.varint payload.index.toUInt64) ++
        Object.ofValue dataField (.bytes payload.data) := rfl

theorem Payload.mem_fieldIds_write {payload : Payload} {id : FieldId} :
    id ∈ (payload.write (∅ : Object)).fieldIds ↔
      id = offsetField ∨ id = indexField ∨ id = dataField := by
  simp only [write_empty, Object.mem_fieldIds_append, Object.mem_fieldIds_ofValue, or_assoc]

namespace Batch

theorem foldl_push_eq (rpcs : List Payload) (object : Object) :
    rpcs.foldl (fun object payload ↦ CreationComponent.rpcs.push object payload.write) object =
      object ++ ⟨[], rpcs.map fun payload ↦ (CreationComponent.rpcs.field, payload.write ∅)⟩ := by
  induction rpcs generalizing object with
  | nil => exact (Object.append_empty object).symm
  | cons payload rpcs ih =>
    rw [List.foldl_cons, ih]
    change (object ++ Object.ofChild _ (payload.write ∅)) ++ _ = _
    rw [Object.append_assoc]
    rfl

theorem fields_eq (batch : Batch) :
    (batch.fields : Object) =
      ⟨[], batch.rpcs.map fun payload ↦ (CreationComponent.rpcs.field, payload.write ∅)⟩ := by
  rw [fields, foldl_push_eq]
  exact Object.empty_append _

theorem zero_notMem_fieldIds_fields (batch : Batch) : 0 ∉ (batch.fields : Object).fieldIds := by
  rw [fields_eq, Object.fieldIds_eq, List.map_nil, List.nil_append]
  intro h
  obtain ⟨entry, he, h⟩ := List.mem_flatMap.1 h
  obtain ⟨payload, -, rfl⟩ := List.mem_map.1 he
  rw [List.mem_cons, Payload.mem_fieldIds_write] at h
  have hne : ¬ ((0 : FieldId) = CreationComponent.rpcs.field ∨ (0 : FieldId) = Payload.offsetField ∨
      (0 : FieldId) = Payload.indexField ∨ (0 : FieldId) = Payload.dataField) := by decide
  exact hne h

/-- A batch that is written for the wire is delivered whole: the calls that are read back, by
either reader, are those of the batch, in their order. Otherwise it is refused for a limit
that its component breaks. -/
theorem delivered_or_refused (limits : Limits) (batch : Batch) :
    (∃ output data, (batch.toData (O := Object)).value.encode limits = .ok output ∧
      Block.Data.decode limits output = .ok data ∧
      ofDataStrict data = .ok batch ∧ (ofData data).value = batch) ∨
    ∃ violation, (batch.toData (O := Object)).value.encode limits = .error violation ∧
      violation ∈ (batch.toData (O := Object)).value.envelope.violations limits 0 := by
  cases h : (batch.toData (O := Object)).value.encode limits with
  | ok output =>
    have hdecode := Block.Data.decode_of_encode h batch.zero_notMem_fieldIds_fields
    obtain ⟨hstrict, hlenient⟩ := ofData_toData (O := Object) batch rfl
    exact .inl ⟨output, _, rfl, hdecode, hstrict, hlenient⟩
  | error violation =>
    rw [Block.Data.encode_eq, Object.encode, Object.encodeAt_eq] at h
    exact .inr ⟨violation, rfl, Limits.mem_of_verdict_eq_error h⟩

example : ((Batch.mk [⟨7, 300, [1, 2]⟩, ⟨0, 0, []⟩]).toData (O := Object)).value.encode .standard =
    .ok [8, 129, 78, 19, 19, 11, 9, 8, 7, 16, 172, 2, 26, 2, 1, 2, 11, 6, 8, 0, 16, 0, 26, 0] := by
  cbv

end Batch

end EntityRpc
