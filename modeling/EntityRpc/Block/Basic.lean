import EntityRpc.Ident

namespace EntityRpc.Block

structure Data (O : Type) where
  componentId : ComponentId
  fields : O
deriving BEq, ReflBEq, LawfulBEq

structure Update (O : Type) where
  componentId : ComponentId
  fields : O
  cleared : List FieldId := []
deriving BEq, ReflBEq, LawfulBEq

structure Command (O : Type) where
  componentId : ComponentId
  commandIndex : CommandIndex
  request : O
deriving BEq, ReflBEq, LawfulBEq

namespace Update

variable {O : Type} (update : Update O) (field : FieldId)

/-- Marks a field as cleared. Marking it again repeats it. -/
def clear : Update O := { update with cleared := update.cleared ++ [field] }

def clears : Bool := update.cleared.contains field

end Update

-- The fields of the object that a block is wrapped in.
namespace Envelope

def componentId : FieldId := 1
def fields : FieldId := 2
def cleared : FieldId := 3
def commandIndex : FieldId := 2
def request : FieldId := 3

end Envelope

end EntityRpc.Block
