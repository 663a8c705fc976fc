import EntityRpc.Batch

namespace EntityRpc.Tracker

inductive Error where
  | unknownEntity (entity : EntityId)
  | alreadyCreated (entity : EntityId)
  | invalidMove (entity : EntityId) (source target : Phase)
deriving DecidableEq, Repr

def Error.message : Error → String
  | .unknownEntity entity => s!"no creation-time RPCs tracked for entity {entity}"
  | .alreadyCreated entity => s!"entity {entity} has already been created"
  | .invalidMove entity source target => s!"entity {entity} cannot move from {source} to {target}"

/-- What an operation answers, the state it leaves, and what it reports. -/
structure Outcome (σ α : Type) where
  result : Except Error α
  state : σ
  events : List Event

structure Record where
  phase : Phase := .pending
  batch : Batch := ∅
deriving DecidableEq, Repr

def Record.move (record : Record) (entity : EntityId) (target : Phase) : Outcome Record Unit :=
  if record.phase.next? = some target then
    { result := .ok ()
      state := { record with phase := target }
      events := [.moved entity record.phase target] }
  else
    { result := .error (.invalidMove entity record.phase target)
      state := record
      events := [.refusedMove entity record.phase target] }

abbrev Slot := Option Record

namespace Slot

def queue (slot : Slot) (entity : EntityId) (payload : Payload) : Outcome Slot Unit :=
  let opening := if slot.isNone then [Event.collecting entity] else []
  let record := slot.getD {}
  if record.phase = .pending then
    { result := .ok ()
      state := some { record with batch := record.batch.push payload }
      events := opening }
  else
    { result := .error (.alreadyCreated entity)
      state := some record
      events := opening ++
        [.rejectedCall entity payload.offset payload.index record.phase] }

variable {O : Type} [FieldStore O]

/-- Hands out the calls for the creation of the entity, none if it has no record. They stay
in the record. -/
def attach (slot : Slot) (entity : EntityId) : Outcome Slot (Block.Data O) :=
  let move := (slot.getD {}).move entity .attached
  let block : Logged (Block.Data O) := move.state.batch.toData
  match move.result with
  | .ok () =>
    { result := .ok block.value, state := some move.state, events := move.events ++ block.events }
  | .error e => { result := .error e, state := some move.state, events := move.events }

/-- Drops the calls of an attached record, and answers with the block that does the same
elsewhere. -/
def clear {α : Type} (slot : Slot) (entity : EntityId) (block : α) : Outcome Slot α :=
  match slot with
  | none => { result := .error (.unknownEntity entity), state := none, events := [] }
  | some record =>
    let move := record.move entity .cleared
    match move.result with
    | .ok () =>
      { result := .ok block
        state := some { move.state with batch := ∅ }
        events := move.events }
    | .error e => { result := .error e, state := some move.state, events := move.events }

def forget (slot : Slot) : Outcome Slot (Option Batch) where
  result := .ok (slot.map Record.batch)
  state := none
  events := []

end Slot

end EntityRpc.Tracker
