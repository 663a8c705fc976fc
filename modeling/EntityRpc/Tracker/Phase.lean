namespace EntityRpc

/-- How far the calls made on an entity before its creation have come. -/
inductive Phase where
  /-- Calls are collected. -/
  | pending
  /-- The calls went out with the request that creates the entity. -/
  | attached
  /-- The calls were cleared again. -/
  | cleared
deriving DecidableEq, Repr

namespace Phase

def next? : Phase → Option Phase
  | pending => some attached
  | attached => some cleared
  | cleared => none

def name : Phase → String
  | pending => "Pending"
  | attached => "Attached"
  | cleared => "Cleared"

instance : ToString Phase := ⟨name⟩

end Phase

end EntityRpc
