import EntityRpc.ExceptLemmas
import EntityRpc.Proofs.FieldStore
import Mathlib.Data.List.Forall2

namespace EntityRpc

open FieldStore LawfulFieldStore

variable {O : Type} [FieldStore O]

namespace Payload

/-- The call was the last to be written into the object, whatever the object held before. -/
def WrittenTo (payload : Payload) (object : O) : Prop := ∃ start : O, object = payload.write start

variable [LawfulFieldStore O] (payload : Payload) (object : O)

theorem u32?_write_offset : u32? (payload.write object) offsetField = some payload.offset := by
  rw [write, u32?_addBytes, u32?_addU32, if_neg (by decide), u32?_addU32, if_pos rfl]

theorem u32?_write_index : u32? (payload.write object) indexField = some payload.index := by
  rw [write, u32?_addBytes, u32?_addU32, if_pos rfl]

theorem bytes?_write_data : bytes? (payload.write object) dataField = some payload.data := by
  rw [write, bytes?_addBytes, if_pos rfl]

theorem u32?_write_of_ne {field : FieldId} (hoffset : field ≠ offsetField)
    (hindex : field ≠ indexField) : u32? (payload.write object) field = u32? object field := by
  rw [write, u32?_addBytes, u32?_addU32, if_neg hindex.symm, u32?_addU32, if_neg hoffset.symm]

theorem bytes?_write_of_ne {field : FieldId} (hdata : field ≠ dataField) :
    bytes? (payload.write object) field = bytes? object field := by
  rw [write, bytes?_addBytes, if_neg hdata.symm, bytes?_addU32, bytes?_addU32]

theorem held_write (field : FieldId) : held (payload.write object) field = held object field := by
  rw [write, held_addBytes, held_addU32, held_addU32]

theorem read_write : read (payload.write object) = payload := by
  rw [read, u32?_write_offset, u32?_write_index, bytes?_write_data]
  rfl

theorem readStrict_write : readStrict (payload.write object) = .ok payload := by
  rw [readStrict, u32?_write_offset, u32?_write_index, bytes?_write_data]
  rfl

variable {payloads : List Payload} {objects : List O}

theorem map_read_of_writtenTo (h : List.Forall₂ WrittenTo payloads objects) :
    objects.map read = payloads := by
  induction h with
  | nil => rfl
  | cons hwritten _ ih =>
    obtain ⟨start, rfl⟩ := hwritten
    rw [List.map_cons, read_write, ih]

theorem readStrict_of_writtenTo (h : List.Forall₂ WrittenTo payloads objects) :
    ∀ object ∈ objects, readStrict object = .ok (read object) := by
  induction h with
  | nil => simp
  | cons hwritten _ ih =>
    obtain ⟨start, rfl⟩ := hwritten
    refine List.forall_mem_cons.2 ⟨?_, ih⟩
    rw [readStrict_write, read_write]

end Payload

namespace Batch

theorem mapM_readStrict {objects : List O}
    (h : ∀ object ∈ objects, Payload.readStrict object = .ok (Payload.read object)) (start : ℕ) :
    ((objects.zipIdx start).mapM fun (object, i) ↦
      (Payload.readStrict object).mapError (ReadError.payload (UInt32.ofNat i))) =
      .ok (objects.map Payload.read) := by
  have hread : ∀ entry ∈ objects.zipIdx start,
      (Payload.readStrict entry.1).mapError (ReadError.payload (UInt32.ofNat entry.2)) =
        .ok (Payload.read entry.1) := by
    intro entry he
    rw [h entry.1 (List.fst_mem_of_mem_zipIdx he)]
    rfl
  rw [mapM_eq_ok hread, ← Function.comp_def Payload.read, ← List.map_map, List.zipIdx_map_fst]

theorem ofDataStrict_eq_ofData {data : Block.Data O} (hid : data.componentId = CreationComponent.id)
    (h : ∀ object ∈ CreationComponent.rpcs.toList data.fields,
      Payload.readStrict object = .ok (Payload.read object)) :
    ofDataStrict data = .ok (ofData data).value := by
  rw [ofDataStrict, if_pos hid, mapM_readStrict h]
  rfl

variable [LawfulFieldStore O]

open Payload (WrittenTo)

theorem forall₂_writtenTo_push {payloads : List Payload} {object : O}
    (h : List.Forall₂ WrittenTo payloads (held object CreationComponent.rpcs.field))
    (payload : Payload) :
    List.Forall₂ WrittenTo (payloads ++ [payload])
      (held (CreationComponent.rpcs.push object payload.write) CreationComponent.rpcs.field) := by
  have hlast : List.Forall₂ WrittenTo [payload]
      [payload.write (fresh object CreationComponent.rpcs.field)] := .cons ⟨_, rfl⟩ .nil
  rw [RepeatedField.push, held_addChild, if_pos rfl]
  exact List.rel_append h hlast

theorem forall₂_writtenTo_foldl_push (rpcs : List Payload) {payloads : List Payload} {object : O}
    (h : List.Forall₂ WrittenTo payloads (held object CreationComponent.rpcs.field)) :
    List.Forall₂ WrittenTo (payloads ++ rpcs)
      (held
        (rpcs.foldl (fun object payload ↦ CreationComponent.rpcs.push object payload.write) object)
        CreationComponent.rpcs.field) := by
  induction rpcs generalizing payloads object with
  | nil => rwa [List.append_nil]
  | cons payload rpcs ih =>
    have hnext := ih (forall₂_writtenTo_push h payload)
    rwa [List.append_assoc, List.singleton_append] at hnext

theorem forall₂_writtenTo_fields (batch : Batch) :
    List.Forall₂ WrittenTo batch.rpcs
      (held (batch.fields : O) CreationComponent.rpcs.field) := by
  have hempty : List.Forall₂ WrittenTo [] (held (empty : O) CreationComponent.rpcs.field) := by
    rw [held_empty]
    exact .nil
  exact forall₂_writtenTo_foldl_push batch.rpcs hempty

theorem length_held_fields (batch : Batch) :
    (held (batch.fields : O) CreationComponent.rpcs.field).length = batch.size :=
  (forall₂_writtenTo_fields batch).length_eq.symm

theorem ofData_toData (batch : Batch)
    (h : children (batch.fields : O) CreationComponent.rpcs.field =
      held (batch.fields : O) CreationComponent.rpcs.field) :
    ofDataStrict (batch.toData (O := O)).value = .ok batch ∧
      (ofData (batch.toData (O := O)).value).value = batch := by
  have hwritten := forall₂_writtenTo_fields (O := O) batch
  rw [← h] at hwritten
  have hvalue : (ofData (batch.toData (O := O)).value).value = batch :=
    congrArg Batch.mk (Payload.map_read_of_writtenTo hwritten)
  refine ⟨?_, hvalue⟩
  rw [ofDataStrict_eq_ofData rfl (Payload.readStrict_of_writtenTo hwritten), hvalue]

end Batch

end EntityRpc
