import EntityRpc.Proofs.History

namespace EntityRpc

namespace Event

def phase? : Event → Option Phase
  | collecting _ => some .pending
  | moved _ _ target => some target
  | decodedBatch .. | encodedBatch .. | foreignComponent .. | rejectedCall .. | refusedMove .. =>
    none

end Event

namespace Tracker

variable {O : Type}

def Exchange.refused (exchange : Exchange O) : Bool :=
  match exchange.result with
  | .error (.alreadyCreated _) | .error (.invalidMove ..) => true
  | .error (.unknownEntity _) | .ok _ => false

structure Step (O : Type) extends Exchange O where
  before : Tracker
  after : Tracker

variable [FieldStore O]

def step (tracker : Tracker) (call : Call) : Step O :=
  { exchange perform tracker call with
    before := tracker
    after := (tracker.perform (O := O) call).state }

namespace Slot

end Slot

section Steps

variable (tracker : Tracker) (call : Call)

end Steps

end Tracker

end EntityRpc
