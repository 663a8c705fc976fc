import EntityRpc.ExceptLemmas
import EntityRpc.Wire.DecodeError

namespace EntityRpc.Varint

def maxBytes : Nat := 10

/-- The shortest spelling: seven bits a byte, low group first, and the high bit set
on every byte but the last. -/
def encode (n : Nat) : Bytes :=
  if n < 128 then [UInt8.ofNat n] else UInt8.ofNat (n % 128 + 128) :: encode (n / 128)

/-- Reads a spelling of at most `more + 1` bytes and returns what follows it. A byte in the
last place holds a single bit, so the number stays below `2 ^ (7 * more + 1)`. -/
def decodeGroups : Nat → Bytes → Except DecodeError (Nat × Bytes)
  | _, [] => .error .unexpectedEnd
  | 0, byte :: rest => if 1 < byte then .error .varintOverflow else .ok (byte.toNat, rest)
  | more + 1, byte :: rest =>
    if byte < 128 then .ok (byte.toNat, rest)
    else (decodeGroups more rest).map fun (high, rest) ↦ (byte.toNat % 128 + 128 * high, rest)

def decode (bytes : Bytes) : Except DecodeError (UInt64 × Bytes) :=
  (decodeGroups (maxBytes - 1) bytes).map fun (n, rest) ↦ (UInt64.ofNat n, rest)

theorem decodeGroups_length_lt {more n : Nat} {bytes rest : Bytes}
    (h : decodeGroups more bytes = .ok (n, rest)) : rest.length < bytes.length := by
  fun_induction decodeGroups more bytes generalizing n rest with
  | case1 | case2 => contradiction
  | case3 | case4 =>
    obtain ⟨rfl, rfl⟩ := Prod.mk.inj (Except.ok.inj h)
    simp
  | case5 more byte tail hlt ih =>
    obtain ⟨⟨high, rest⟩, hd, hp⟩ := map_eq_ok.1 h
    obtain ⟨-, rfl⟩ := Prod.mk.inj hp
    exact Nat.lt_succ_of_lt (ih hd)

theorem decode_length_lt {n : UInt64} {bytes rest : Bytes} (h : decode bytes = .ok (n, rest)) :
    rest.length < bytes.length := by
  obtain ⟨⟨n, rest⟩, hd, hp⟩ := map_eq_ok.1 h
  obtain ⟨-, rfl⟩ := Prod.mk.inj hp
  exact decodeGroups_length_lt hd

end EntityRpc.Varint
