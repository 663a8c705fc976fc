import EntityRpc.Object.Basic
import EntityRpc.Wire.Frame

namespace EntityRpc

def Value.frame (field : FieldId) : Value → Frame
  | varint value => .varint field value
  | bytes data => .bytes field data

namespace Object

variable (limits : Limits)

def encodeValues (values : List (FieldId × Value)) : Except Limits.Violation Bytes :=
  List.flatten <$> values.mapM fun (field, value) ↦ (value.frame field).encodeWithin limits

mutual

/-- Writes an object that stands at a given depth: its values, then its children. The limits
are held against each part before it is written, and an object's depth before all that is
in it, so the first part that breaks one is the error. -/
def encodeAt (depth : Nat) : Object → Except Limits.Violation Bytes
  | ⟨values, children⟩ => do
    limits.checkDepth depth
    let head ← encodeValues limits values
    let tail ← encodeChildren (depth + 1) children
    return head ++ tail

def encodeChildren (depth : Nat) :
    List (FieldId × Object) → Except Limits.Violation Bytes
  | [] => .ok []
  | (field, child) :: rest => do
    let body ← encodeAt depth child
    let head ← (Frame.object field body).encodeWithin limits
    let tail ← encodeChildren depth rest
    return head ++ tail

end

/-- The bytes of an object. The length of the whole is not limited. -/
def encode (object : Object) : Except Limits.Violation Bytes := encodeAt limits 0 object

end Object

end EntityRpc
