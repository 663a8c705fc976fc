import EntityRpc.Ident

namespace EntityRpc

/-- How deep objects may nest, the outermost one being at depth 0, and how many bytes
a blob or a child object may take on the wire. -/
structure Limits where
  maxDepth : UInt64
  maxLength : UInt64
deriving DecidableEq, Repr

namespace Limits

def standard : Limits where
  maxDepth := 32
  maxLength := 16 * 1024 * 1024

def widest : Limits where
  maxDepth := 0xffffffffffffffff
  maxLength := 0xffffffffffffffff

inductive Violation where
  | length (len : Nat) (max : UInt64)
  | depth (max : UInt64)
deriving DecidableEq, Repr

def Violation.message : Violation → String
  | .length len max => s!"length {len} exceeds limit of {max} bytes"
  | .depth max => s!"object nesting exceeds depth limit of {max}"

variable (limits : Limits)

def checkLength (len : Nat) : Except Violation Unit :=
  if limits.maxLength.toNat < len then .error (.length len limits.maxLength) else .ok ()

def checkDepth (depth : Nat) : Except Violation Unit :=
  if limits.maxDepth.toNat < depth then .error (.depth limits.maxDepth) else .ok ()

end Limits

end EntityRpc
