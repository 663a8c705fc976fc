import Std.Data.ExtTreeMap
import EntityRpc.Tracker.Slot

namespace EntityRpc

/-- The calls made on entities before their creation, entity by entity. -/
structure Tracker where
  records : Std.ExtTreeMap EntityId Tracker.Record := ∅

namespace Tracker

instance : EmptyCollection Tracker := ⟨{}⟩

variable (tracker : Tracker) (entity : EntityId)

def slot : Slot := tracker.records[entity]?

def phase? : Option Phase := (tracker.slot entity).map Record.phase

def batch? : Option Batch := (tracker.slot entity).map Record.batch

def dataBits : Int64 := (tracker.batch? entity).elim 0 Batch.dataBits

def size : Nat := tracker.records.size

def isEmpty : Bool := tracker.records.isEmpty

/-- Puts what an operation leaves in an entity's slot back in its place. -/
def visit {α : Type} (operation : Slot → Outcome Slot α) : Outcome Tracker α :=
  let outcome := operation (tracker.slot entity)
  { outcome with state := ⟨tracker.records.alter entity fun _ ↦ outcome.state⟩ }

theorem ext {a b : Tracker} (h : ∀ entity, a.slot entity = b.slot entity) : a = b := by
  cases a
  cases b
  exact congrArg Tracker.mk (Std.ExtTreeMap.ext_getElem? h)

@[simp] theorem slot_empty : (∅ : Tracker).slot entity = none :=
  Std.ExtTreeMap.getElem?_empty

@[simp] theorem slot_visit_self {α : Type} (operation : Slot → Outcome Slot α) :
    (tracker.visit entity operation).state.slot entity =
      (operation (tracker.slot entity)).state :=
  Std.ExtTreeMap.getElem?_alter_self

theorem slot_visit_of_ne {α : Type} {other : EntityId} (h : entity ≠ other)
    (operation : Slot → Outcome Slot α) :
    (tracker.visit entity operation).state.slot other = tracker.slot other := by
  simp [visit, slot, Std.ExtTreeMap.getElem?_alter, h]

def queue (payload : Payload) : Outcome Tracker Unit :=
  tracker.visit entity (·.queue entity payload)

variable {O : Type} [FieldStore O]

def attach : Outcome Tracker (Block.Data O) :=
  tracker.visit entity (·.attach entity)

def clearByUpdate : Outcome Tracker (Block.Update O) :=
  tracker.visit entity (·.clear entity Batch.clearUpdate)

def clearByCommand : Outcome Tracker (Block.Command O) :=
  tracker.visit entity (·.clear entity Batch.clearRequest)

/-- Drops the record of an entity and answers with the calls it still held. -/
def forget : Outcome Tracker (Option Batch) :=
  tracker.visit entity Slot.forget

end Tracker

end EntityRpc
