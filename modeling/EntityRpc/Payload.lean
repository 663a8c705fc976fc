import EntityRpc.FieldStore

namespace EntityRpc

/-- One remote procedure call: the object it is made on, given by its offset, the function's
index, and the arguments already in serial form. -/
structure Payload where
  offset : UInt32
  index : UInt32
  data : Bytes
deriving BEq, ReflBEq, LawfulBEq, Repr

namespace Payload

instance : DecidableEq Payload := instDecidableEqOfLawfulBEq

def offsetField : FieldId := 1
def indexField : FieldId := 2
def dataField : FieldId := 3

inductive ReadError where
  | missingField (field : FieldId)
deriving DecidableEq, Repr

def ReadError.message : ReadError → String
  | .missingField field => s!"RPC payload is missing field {field}"

def dataBits (payload : Payload) : Int64 := Int64.ofNat payload.data.length * 8

variable {O : Type} [FieldStore O]

/-- Reads a call, with zero or nothing in place of a missing field. -/
def read (object : O) : Payload where
  offset := (FieldStore.u32? object offsetField).getD 0
  index := (FieldStore.u32? object indexField).getD 0
  data := (FieldStore.bytes? object dataField).getD []

def require {α : Type} (field : FieldId) : Option α → Except ReadError α
  | some value => .ok value
  | none => .error (.missingField field)

def readStrict (object : O) : Except ReadError Payload := do
  let offset ← require offsetField (FieldStore.u32? object offsetField)
  let index ← require indexField (FieldStore.u32? object indexField)
  let data ← require dataField (FieldStore.bytes? object dataField)
  return { offset, index, data }

def write (payload : Payload) (object : O) : O :=
  let object := FieldStore.addU32 object offsetField payload.offset
  let object := FieldStore.addU32 object indexField payload.index
  FieldStore.addBytes object dataField payload.data

end Payload

end EntityRpc
