import EntityRpc.Block.Basic
import EntityRpc.Object.Encode

namespace EntityRpc.Block

def encodeNumber (field : FieldId) (number : UInt32) : Bytes :=
  (Frame.varint field number.toUInt64).encode

variable (limits : Limits)

/-- Writes the object that a block carries, which stands one level below the envelope. -/
def encodeEnclosed (field : FieldId) (object : Object) : Except Limits.Violation Bytes := do
  let body ← Object.encodeAt limits 1 object
  (Frame.object field body).encodeWithin limits

def Data.encode (data : Data Object) : Except Limits.Violation Bytes := do
  let fields ← encodeEnclosed limits Envelope.fields data.fields
  return encodeNumber Envelope.componentId data.componentId ++ fields

def Update.encode (update : Update Object) : Except Limits.Violation Bytes := do
  let fields ← encodeEnclosed limits Envelope.fields update.fields
  return encodeNumber Envelope.componentId update.componentId ++
    (update.cleared.flatMap (encodeNumber Envelope.cleared) ++ fields)

def Command.encode (command : Command Object) : Except Limits.Violation Bytes := do
  let request ← encodeEnclosed limits Envelope.request command.request
  return encodeNumber Envelope.componentId command.componentId ++
    (encodeNumber Envelope.commandIndex command.commandIndex ++ request)

end EntityRpc.Block
