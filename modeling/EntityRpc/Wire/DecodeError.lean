import EntityRpc.Wire.Limits

namespace EntityRpc

inductive DecodeError where
  | unexpectedEnd
  | varintOverflow
  | invalidWireType (code : UInt8)
  | invalidFieldId
  | limit (violation : Limits.Violation)
  | missingEnvelopeField (field : FieldId)
deriving DecidableEq, Repr

def DecodeError.message : DecodeError → String
  | .unexpectedEnd => "unexpected end of schema bytes"
  | .varintOverflow => "varint overflow"
  | .invalidWireType code => s!"invalid wire type: {code}"
  | .invalidFieldId => "invalid field ID"
  | .limit violation => violation.message
  | .missingEnvelopeField field => s!"wire block is missing envelope field {field}"

end EntityRpc
