import EntityRpc.Ident

namespace EntityRpc

/-- The elements found at 0, 1, 2, …, up to the first that is missing and at most `count`
of them. -/
def collectIndexed {α : Type} (count : UInt32) (element? : UInt32 → Option α) : List α :=
  go count.toNat 0
where
  go : Nat → UInt32 → List α
    | 0, _ => []
    | more + 1, i =>
      match element? i with
      | none => []
      | some a => a :: go more (i + 1)

/-- Field access to a self-describing object, all that the reading and writing of calls
asks of the representation that holds it. -/
class FieldStore (O : Type) where
  empty : O
  u32? : O → FieldId → Option UInt32
  addU32 : O → FieldId → UInt32 → O
  bytes? : O → FieldId → Option Bytes
  addBytes : O → FieldId → Bytes → O
  /-- Appends a child under a field, an empty object on which `fill` then acts. -/
  addChild : O → FieldId → (fill : O → O) → O
  child? : O → FieldId → UInt32 → Option O
  childCount : O → FieldId → UInt32
  children : O → FieldId → List O :=
    fun object field ↦ collectIndexed (childCount object field) (child? object field)

structure RepeatedField where
  field : FieldId
deriving DecidableEq, Repr

namespace RepeatedField

variable {O : Type} [FieldStore O]

def count (list : RepeatedField) (object : O) : UInt32 :=
  FieldStore.childCount object list.field

def get? (list : RepeatedField) (object : O) (i : UInt32) : Option O :=
  FieldStore.child? object list.field i

def toList (list : RepeatedField) (object : O) : List O :=
  FieldStore.children object list.field

def push (list : RepeatedField) (object : O) (fill : O → O) : O :=
  FieldStore.addChild object list.field fill

end RepeatedField

end EntityRpc
