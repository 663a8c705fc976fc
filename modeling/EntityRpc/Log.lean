import EntityRpc.CreationComponent
import EntityRpc.Tracker.Phase

namespace EntityRpc

inductive Event where
  | decodedBatch (count : Nat)
  | encodedBatch (count : Nat) (bits : Int64)
  | foreignComponent (id : ComponentId)
  | collecting (entity : EntityId)
  | rejectedCall (entity : EntityId) (offset index : UInt32) (phase : Phase)
  | refusedMove (entity : EntityId) (source target : Phase)
  | moved (entity : EntityId) (source target : Phase)
deriving DecidableEq, Repr

namespace Event

inductive Level where
  | trace
  | debug
  | warn
deriving DecidableEq, Repr

def Level.name : Level → String
  | trace => "TRACE"
  | debug => "DEBUG"
  | warn => "WARN"

def level : Event → Level
  | decodedBatch .. | encodedBatch .. => .trace
  | collecting .. | moved .. => .debug
  | foreignComponent .. | rejectedCall .. | refusedMove .. => .warn

def message : Event → String
  | decodedBatch count => s!"Decoded {count} RPCs on entity creation"
  | encodedBatch count bits => s!"Encoded {count} RPCs on entity creation ({bits} data bits)"
  | foreignComponent id =>
    s!"Decoding component {id} as RpcsOnEntityCreation ({CreationComponent.id})"
  | collecting entity => s!"Entity {entity}: collecting creation-time RPCs"
  | rejectedCall entity offset index phase =>
    s!"Entity {entity}: rejected RPC (offset {offset}, index {index}) in state {phase}"
  | refusedMove entity source target =>
    s!"Entity {entity}: cannot move from {source} to {target}"
  | moved entity source target => s!"Entity {entity}: {source} -> {target}"

end Event

structure Logged (α : Type) where
  value : α
  events : List Event

end EntityRpc
