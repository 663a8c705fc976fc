import EntityRpc.Wire.Varint

namespace EntityRpc

/-- What follows a tag: a number, a counted blob, or a counted child object. -/
inductive WireType where
  | varint
  | bytes
  | object
deriving DecidableEq, Repr

namespace WireType

def code : WireType → UInt8
  | varint => 0
  | bytes => 2
  | object => 3

def ofCode? : UInt8 → Option WireType
  | 0 => some varint
  | 2 => some bytes
  | 3 => some object
  | _ => none

theorem ofCode?_eq_some_iff {c : UInt8} {w : WireType} : ofCode? c = some w ↔ w.code = c := by
  constructor
  · intro h
    unfold ofCode? at h
    split at h <;> simp_all [code, eq_comm]
  · rintro rfl
    cases w <;> rfl

end WireType

/-- The head of an entry: which field it belongs to and what follows. -/
structure Tag where
  field : FieldId
  wireType : WireType
deriving DecidableEq, Repr

namespace Tag

def shift : Nat := 3

def radix : Nat := 1 <<< shift

def mask : Nat := radix - 1

def toNat (tag : Tag) : Nat := tag.field.toNat * radix + tag.wireType.code.toNat

/-- A number with both an unknown wire type and a field id out of range
is blamed on its wire type. -/
def ofNat (n : Nat) : Except DecodeError Tag :=
  let code := UInt8.ofNat (n % radix)
  let field := n / radix
  match WireType.ofCode? code with
  | none => .error (.invalidWireType code)
  | some wireType =>
    if field = 0 ∨ UInt32.size ≤ field then .error .invalidFieldId
    else .ok ⟨UInt32.ofNat field, wireType⟩

def encode (tag : Tag) : Bytes := Varint.encode tag.toNat

def decode (bytes : Bytes) : Except DecodeError (Tag × Bytes) := do
  let (n, rest) ← Varint.decode bytes
  let tag ← ofNat n.toNat
  return (tag, rest)

theorem decode_length_lt {tag : Tag} {bytes rest : Bytes} (h : decode bytes = .ok (tag, rest)) :
    rest.length < bytes.length := by
  obtain ⟨⟨n, tail⟩, hv, h⟩ := bind_eq_ok.1 h
  obtain ⟨tag, -, h⟩ := bind_eq_ok.1 h
  obtain ⟨-, rfl⟩ := Prod.mk.inj (Except.ok.inj h)
  exact Varint.decode_length_lt hv

end Tag

end EntityRpc
