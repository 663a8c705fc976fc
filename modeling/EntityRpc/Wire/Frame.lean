import EntityRpc.Wire.Tag

namespace EntityRpc

/-- One entry of an object as it stands on the wire. The body of a child object is left
as the bytes that spell it. -/
inductive Frame where
  | varint (field : FieldId) (value : UInt64)
  | bytes (field : FieldId) (data : Bytes)
  | object (field : FieldId) (body : Bytes)
deriving DecidableEq, Repr

namespace Frame

def tag : Frame → Tag
  | varint field _ => ⟨field, .varint⟩
  | bytes field _ => ⟨field, .bytes⟩
  | object field _ => ⟨field, .object⟩

def run : Frame → Bytes
  | varint _ _ => []
  | bytes _ data => data
  | object _ body => body

def encodeRun (run : Bytes) : Bytes := Varint.encode run.length ++ run

def encode (frame : Frame) : Bytes :=
  frame.tag.encode ++
    match frame with
    | varint _ value => Varint.encode value.toNat
    | bytes _ data => encodeRun data
    | object _ body => encodeRun body

def encodeWithin (limits : Limits) (frame : Frame) : Except Limits.Violation Bytes := do
  limits.checkLength frame.run.length
  return frame.encode

/-- Reads a counted run. The count is held against the limit before it is held against
the bytes that are there. -/
def decodeRun (limits : Limits) (bytes : Bytes) : Except DecodeError (Bytes × Bytes) := do
  let (count, rest) ← Varint.decode bytes
  limits.checkLength count.toNat |>.mapError .limit
  let run := rest.take count.toNat
  if run.length < count.toNat then .error .unexpectedEnd
  else .ok (run, rest.drop count.toNat)

def decode (limits : Limits) (input : Bytes) : Except DecodeError (Frame × Bytes) := do
  let (tag, rest) ← Tag.decode input
  match tag.wireType with
  | .varint =>
    let (value, rest) ← Varint.decode rest
    return (varint tag.field value, rest)
  | .bytes =>
    let (data, rest) ← decodeRun limits rest
    return (bytes tag.field data, rest)
  | .object =>
    let (body, rest) ← decodeRun limits rest
    return (object tag.field body, rest)

theorem decodeRun_length_lt {limits : Limits} {input run rest : Bytes}
    (h : decodeRun limits input = .ok (run, rest)) : run.length + rest.length < input.length := by
  obtain ⟨⟨count, tail⟩, hv, h⟩ := bind_eq_ok.1 h
  obtain ⟨_, -, h⟩ := bind_eq_ok.1 h
  have := Varint.decode_length_lt hv
  dsimp only at h
  split at h
  · contradiction
  · obtain ⟨rfl, rfl⟩ := Prod.mk.inj (Except.ok.inj h)
    simp only [List.length_take, List.length_drop]
    omega

theorem decode_length_lt {limits : Limits} {input rest : Bytes} {frame : Frame}
    (h : decode limits input = .ok (frame, rest)) :
    frame.run.length + rest.length < input.length := by
  obtain ⟨⟨tag, tail⟩, ht, h⟩ := bind_eq_ok.1 h
  have := Tag.decode_length_lt ht
  dsimp only at h
  split at h <;>
    obtain ⟨⟨part, tail'⟩, hr, h⟩ := bind_eq_ok.1 h <;>
    obtain ⟨rfl, rfl⟩ := Prod.mk.inj (Except.ok.inj h)
  · have := Varint.decode_length_lt hr
    simp only [run, List.length_nil]
    omega
  all_goals
    have := decodeRun_length_lt hr
    dsimp only [Frame.run]
    omega

end Frame

end EntityRpc
