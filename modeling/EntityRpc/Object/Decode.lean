import EntityRpc.Object.Basic
import EntityRpc.Wire.Frame

namespace EntityRpc.Object

/-- Reads all of `input` as the entries of an object at a given depth. A child is read before
the entries that follow it. -/
def decodeAt (limits : Limits) (depth : Nat) (input : Bytes) : Except DecodeError Object :=
  match limits.checkDepth depth with
  | .error violation => .error (.limit violation)
  | .ok () =>
    if input.isEmpty then .ok ∅
    else
      match _ : Frame.decode limits input with
      | .error e => .error e
      | .ok (.varint field value, rest) =>
        (decodeAt limits depth rest).map (ofValue field (.varint value) ++ ·)
      | .ok (.bytes field data, rest) =>
        (decodeAt limits depth rest).map (ofValue field (.bytes data) ++ ·)
      | .ok (.object field body, rest) => do
        let child ← decodeAt limits (depth + 1) body
        (decodeAt limits depth rest).map (ofChild field child ++ ·)
termination_by input.length
decreasing_by
  all_goals
    have := Frame.decode_length_lt ‹Frame.decode limits input = _›
    simp only [Frame.run] at this
    omega

def decode (limits : Limits) (input : Bytes) : Except DecodeError Object :=
  decodeAt limits 0 input

end EntityRpc.Object
