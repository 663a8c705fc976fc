import EntityRpc.Block.Basic
import EntityRpc.Object.Decode
import EntityRpc.Object.Store

namespace EntityRpc.Block

namespace Envelope

variable (envelope : Object)

def requireU32 (field : FieldId) : Except DecodeError UInt32 :=
  match envelope.u32? field with
  | some value => .ok value
  | none => .error (.missingEnvelopeField field)

/-- The first child under a field. Later ones are ignored. -/
def requireChild (field : FieldId) : Except DecodeError Object :=
  match (envelope.childrenAt field).head? with
  | some child => .ok child
  | none => .error (.missingEnvelopeField field)

def clearedField (value : UInt64) : Except DecodeError FieldId :=
  match narrow? value with
  | some field => if field = 0 then .error .invalidFieldId else .ok field
  | none => .error .invalidFieldId

/-- All cleared fields in order. One that is no field id spoils the update. -/
def clearedFields : Except DecodeError (List FieldId) :=
  (envelope.varintsAt cleared).mapM clearedField

end Envelope

def Data.ofEnvelope (envelope : Object) : Except DecodeError (Data Object) := do
  let componentId ← Envelope.requireU32 envelope Envelope.componentId
  let fields ← Envelope.requireChild envelope Envelope.fields
  return { componentId, fields }

def Update.ofEnvelope (envelope : Object) : Except DecodeError (Update Object) := do
  let componentId ← Envelope.requireU32 envelope Envelope.componentId
  let cleared ← Envelope.clearedFields envelope
  let fields ← Envelope.requireChild envelope Envelope.fields
  return { componentId, fields, cleared }

def Command.ofEnvelope (envelope : Object) : Except DecodeError (Command Object) := do
  let componentId ← Envelope.requireU32 envelope Envelope.componentId
  let commandIndex ← Envelope.requireU32 envelope Envelope.commandIndex
  let request ← Envelope.requireChild envelope Envelope.request
  return { componentId, commandIndex, request }

variable (limits : Limits) (input : Bytes)

def Data.decode : Except DecodeError (Data Object) := do
  Data.ofEnvelope (← Object.decode limits input)

def Update.decode : Except DecodeError (Update Object) := do
  Update.ofEnvelope (← Object.decode limits input)

def Command.decode : Except DecodeError (Command Object) := do
  Command.ofEnvelope (← Object.decode limits input)

end EntityRpc.Block
