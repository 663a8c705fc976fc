import EntityRpc.FieldStore
import EntityRpc.Object.Basic

namespace EntityRpc

def narrow? (value : UInt64) : Option UInt32 :=
  if value.toNat < UInt32.size then some value.toUInt32 else none

namespace Object

variable (object : Object) (field : FieldId)

/-- The last varint under a field. One too wide for 32 bits hides the earlier ones. -/
def u32? : Option UInt32 := (object.varintsAt field).getLast?.bind narrow?

def u32s : List UInt32 := (object.varintsAt field).filterMap narrow?

def addU32 (value : UInt32) : Object :=
  object ++ ofValue field (.varint value.toUInt64)

def bytes? : Option Bytes := (object.bytesAt field).getLast?

def addBytes (data : Bytes) : Object :=
  object ++ ofValue field (.bytes data)

def addChild (fill : Object → Object) : Object :=
  object ++ ofChild field (fill ∅)

def child? (i : UInt32) : Option Object := (object.childrenAt field)[i.toNat]?

/-- The number of children under a field, or the largest 32-bit number if there are more. -/
def childCount : UInt32 := UInt32.ofNat (min (object.childrenAt field).length (UInt32.size - 1))

instance : FieldStore Object where
  empty := ∅
  u32? := u32?
  addU32 := addU32
  bytes? := bytes?
  addBytes := addBytes
  addChild := addChild
  child? := child?
  childCount := childCount
  children := childrenAt

end Object

end EntityRpc
