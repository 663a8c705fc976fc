import EntityRpc.Proofs.Batch
import EntityRpc.Proofs.Walks

namespace EntityRpc

open FieldStore LawfulFieldStore

/-- A lawful store that reaches its children by index. A value that is added changes no count of
children, not even where there are too many to be counted, which the other laws leave open. -/
class IndexedFieldStore (O : Type) [FieldStore O] extends LawfulFieldStore O where
  childCount_addU32 (object : O) (field other : FieldId) (value : UInt32) :
    childCount (addU32 object field value) other = childCount object other
  childCount_addBytes (object : O) (field other : FieldId) (data : Bytes) :
    childCount (addBytes object field data) other = childCount object other
  children_eq (object : O) (field : FieldId) :
    children object field = collectIndexed (childCount object field) (child? object field)

/-- An object that knows how deep it is nested. A child that it hands out is one level down, and so
not the object that a store starts from. -/
structure Leveled where
  level : ℕ := 0
  values : List (FieldId × Value) := []
  children : List (FieldId × Leveled) := []

namespace Leveled

variable (object : Leveled) (field : FieldId)

def flat : Object := { values := object.values }

def childrenAt : List Leveled :=
  object.children.filterMap fun entry ↦ if entry.1 = field then some entry.2 else none

def addChild (fill : Leveled → Leveled) : Leveled :=
  { object with children := object.children ++ [(field, fill { level := object.level + 1 })] }

theorem childrenAt_addChild (other : FieldId) (fill : Leveled → Leveled) :
    (object.addChild field fill).childrenAt other =
      if field = other then object.childrenAt other ++ [fill { level := object.level + 1 }]
      else object.childrenAt other := by
  by_cases h : field = other <;> simp [childrenAt, addChild, h]

instance : FieldStore Leveled where
  empty := {}
  u32? object := object.flat.u32?
  addU32 object field value := { object with values := (object.flat.addU32 field value).values }
  bytes? object := object.flat.bytes?
  addBytes object field data := { object with values := (object.flat.addBytes field data).values }
  addChild := addChild
  child? object field i := (object.childrenAt field)[i.toNat]?
  childCount object field := UInt32.ofNat (object.childrenAt field).length

instance : IndexedFieldStore Leveled where
  held := childrenAt
  fresh object _ := { level := object.level + 1 }
  u32?_empty _ := rfl
  bytes?_empty _ := rfl
  held_empty _ := rfl
  u32?_addU32 object := u32?_addU32 object.flat
  bytes?_addU32 object := bytes?_addU32 object.flat
  held_addU32 _ _ _ _ := rfl
  u32?_addBytes object := u32?_addBytes object.flat
  bytes?_addBytes object := bytes?_addBytes object.flat
  held_addBytes _ _ _ _ := rfl
  u32?_addChild _ _ _ _ := rfl
  bytes?_addChild _ _ _ _ := rfl
  held_addChild := childrenAt_addChild
  childCount_eq _ _ := UInt32.toNat_ofNat_of_lt'
  child?_eq _ _ _ := rfl
  childCount_addU32 _ _ _ _ := rfl
  childCount_addBytes _ _ _ _ := rfl
  children_eq _ _ := rfl

end Leveled

namespace IndexedFieldStore

variable {O : Type} [FieldStore O] [IndexedFieldStore O]

theorem children_eq_held {object : O} {field : FieldId}
    (h : (held object field).length < UInt32.size) :
    children object field = held object field := by
  rw [children_eq, collectIndexed_eq_take _ (child?_eq object field), childCount_eq object field h,
    List.take_length]

end IndexedFieldStore

open IndexedFieldStore

section Calls

variable {O : Type} [FieldStore O] [IndexedFieldStore O]

namespace Payload

variable (payload : Payload) (object : O) (field : FieldId)

theorem child?_write (i : UInt32) :
    child? (payload.write object) field i = child? object field i := by
  rw [child?_eq, child?_eq, held_write]

theorem childCount_write : childCount (payload.write object) field = childCount object field := by
  rw [write, childCount_addBytes, childCount_addU32, childCount_addU32]

theorem children_write : children (payload.write object) field = children object field := by
  have hchild : child? (payload.write object) field = child? object field :=
    funext (child?_write payload object field)
  rw [children_eq, children_eq, childCount_write, hchild]

end Payload

namespace Batch

theorem children_fields {batch : Batch} (h : batch.size < UInt32.size) :
    children (batch.fields : O) CreationComponent.rpcs.field =
      held (batch.fields : O) CreationComponent.rpcs.field := by
  refine children_eq_held ?_
  rw [length_held_fields]
  exact h

/-- A call that is written into an object, whatever the object held before, is read back by
either reader, and nothing else that is read from the object changes. The calls of a batch are
read back from its component, in their order. -/
theorem kept_by_indexed_store (O : Type) [FieldStore O] [IndexedFieldStore O] :
    (∀ (payload : Payload) (object : O),
      Payload.read (payload.write object) = payload ∧
      Payload.readStrict (payload.write object) = .ok payload ∧
      (∀ field, field ≠ 1 → field ≠ 2 → u32? (payload.write object) field = u32? object field) ∧
      (∀ field, field ≠ 3 → bytes? (payload.write object) field = bytes? object field) ∧
      ∀ field,
        held (payload.write object) field = held object field ∧
        childCount (payload.write object) field = childCount object field ∧
        (∀ i, child? (payload.write object) field i = child? object field i) ∧
        children (payload.write object) field = children object field) ∧
    ∀ batch : Batch, batch.size < UInt32.size →
      (ofData (batch.toData (O := O)).value).value = batch ∧
      ofDataStrict (batch.toData (O := O)).value = .ok batch := by
  refine ⟨fun payload object ↦ ?_, fun batch h ↦ ?_⟩
  · refine ⟨payload.read_write object, payload.readStrict_write object, ?_, ?_, fun field ↦ ?_⟩
    · intro field hoffset hindex
      exact payload.u32?_write_of_ne object hoffset hindex
    · intro field hdata
      exact payload.bytes?_write_of_ne object hdata
    · exact ⟨payload.held_write object field, payload.childCount_write object field,
        payload.child?_write object field, payload.children_write object field⟩
  · exact (ofData_toData batch (children_fields h)).symm

theorem kept_by_indexed_store_reused :
    let object : Leveled :=
      addChild (addBytes (addU32 empty 1 9) 3 [4]) 1 fun child ↦ addU32 child 2 5
    let payload : Payload := ⟨7, 300, [1, 2]⟩
    let batch : Batch := ⟨[payload, ⟨0, 0, []⟩, payload]⟩
    Payload.read (payload.write object) = payload ∧
      (children (payload.write object) 1).map Payload.read = [⟨0, 5, []⟩] ∧
      (children (payload.write object) 1).map Leveled.level = [1] ∧
      batch.size < UInt32.size ∧
      (ofData (batch.toData (O := Leveled)).value).value = batch ∧
      ofDataStrict (batch.toData (O := Leveled)).value = .ok batch := by
  intro object payload batch
  obtain ⟨hcall, hbatch⟩ := kept_by_indexed_store Leveled
  obtain ⟨hread, -, -, -, hchildren⟩ := hcall payload object
  obtain ⟨-, -, -, hwalk⟩ := hchildren 1
  have hsize : batch.size < UInt32.size := by decide
  rw [hwalk]
  exact ⟨hread, rfl, rfl, hsize, hbatch batch hsize⟩

end Batch

end Calls

end EntityRpc
