import EntityRpc.Tracker.Basic

namespace EntityRpc.Tracker

/-- An operation on a tracker and the entity it is for. -/
inductive Call where
  | queue (entity : EntityId) (payload : Payload)
  | attach (entity : EntityId)
  | clearByUpdate (entity : EntityId)
  | clearByCommand (entity : EntityId)
  | forget (entity : EntityId)
deriving DecidableEq, Repr

def Call.entity : Call → EntityId
  | queue entity _ | attach entity | clearByUpdate entity | clearByCommand entity
  | forget entity => entity

inductive Reply (O : Type) where
  | queued
  | attached (data : Block.Data O)
  | clearedByUpdate (update : Block.Update O)
  | clearedByCommand (command : Block.Command O)
  | forgotten (batch : Option Batch)

def Outcome.map {σ α β : Type} (f : α → β) (outcome : Outcome σ α) : Outcome σ β :=
  { outcome with result := outcome.result.map f }

variable {O : Type} [FieldStore O]

def perform (tracker : Tracker) : Call → Outcome Tracker (Reply O)
  | .queue entity payload => (tracker.queue entity payload).map fun _ ↦ .queued
  | .attach entity => (tracker.attach entity).map .attached
  | .clearByUpdate entity => (tracker.clearByUpdate entity).map .clearedByUpdate
  | .clearByCommand entity => (tracker.clearByCommand entity).map .clearedByCommand
  | .forget entity => (tracker.forget entity).map .forgotten

end EntityRpc.Tracker
