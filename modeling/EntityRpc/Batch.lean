import EntityRpc.Block.Basic
import EntityRpc.Log
import EntityRpc.Payload

namespace EntityRpc

/-- The calls made on an entity before its creation, in the order they were made. -/
structure Batch where
  rpcs : List Payload := []
deriving BEq, ReflBEq, LawfulBEq, Repr

namespace Batch

instance : DecidableEq Batch := instDecidableEqOfLawfulBEq
instance : EmptyCollection Batch := ⟨{}⟩
instance : Inhabited Batch := ⟨∅⟩

def push (batch : Batch) (payload : Payload) : Batch := ⟨batch.rpcs ++ [payload]⟩

protected def append (first second : Batch) : Batch := ⟨first.rpcs ++ second.rpcs⟩

instance : Append Batch := ⟨Batch.append⟩

def size (batch : Batch) : Nat := batch.rpcs.length

def isEmpty (batch : Batch) : Bool := batch.rpcs.isEmpty

def dataBits (batch : Batch) : Int64 := (batch.rpcs.map Payload.dataBits).sum

inductive ReadError where
  | foreignComponent (expected actual : ComponentId)
  | payload (index : UInt32) (cause : Payload.ReadError)
deriving DecidableEq, Repr

namespace ReadError

def cause? : ReadError → Option Payload.ReadError
  | foreignComponent _ _ => none
  | payload _ cause => some cause

def message : ReadError → String
  | foreignComponent expected actual =>
    s!"expected component {expected} but got component {actual}"
  | payload index cause =>
    let reason := cause.message
    s!"RPC {index} could not be decoded: {reason}"

end ReadError

variable {O : Type} [FieldStore O]

/-- Reads the calls whatever component they come from and whatever fields they lack. -/
def ofData (data : Block.Data O) : Logged Batch :=
  let batch : Batch := ⟨(CreationComponent.rpcs.toList data.fields).map Payload.read⟩
  let foreign :=
    if data.componentId = CreationComponent.id then []
    else [Event.foreignComponent data.componentId]
  { value := batch, events := foreign ++ [.decodedBatch batch.size] }

/-- Reads the calls of the right component, stopping at the first that lacks a field. -/
def ofDataStrict (data : Block.Data O) : Except ReadError Batch :=
  if data.componentId = CreationComponent.id then do
    let rpcs ← (CreationComponent.rpcs.toList data.fields).zipIdx.mapM fun (object, i) ↦
      (Payload.readStrict object).mapError (.payload (UInt32.ofNat i))
    return ⟨rpcs⟩
  else .error (.foreignComponent CreationComponent.id data.componentId)

def fields (batch : Batch) : O :=
  batch.rpcs.foldl (fun object payload ↦ CreationComponent.rpcs.push object payload.write)
    FieldStore.empty

def toData (batch : Batch) : Logged (Block.Data O) where
  value := { componentId := CreationComponent.id, fields := batch.fields }
  events := [.encodedBatch batch.size batch.dataBits]

def clearUpdate : Block.Update O where
  componentId := CreationComponent.id
  fields := FieldStore.empty
  cleared := [CreationComponent.rpcs.field]

def clearRequest : Block.Command O where
  componentId := CreationComponent.id
  commandIndex := CreationComponent.clearCommand
  request := FieldStore.empty

end Batch

end EntityRpc
