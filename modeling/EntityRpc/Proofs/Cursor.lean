import EntityRpc.Proofs.Frame
import Mathlib.Data.Nat.Bitwise

namespace EntityRpc

inductive Fault where
  | overflow
  | underflow
  | outOfBounds
  | shiftTooFar
  | bitsLost
deriving DecidableEq, Repr

namespace Word

def add (a b : UInt64) : Except Fault UInt64 :=
  if a.toNat + b.toNat < 2 ^ 64 then .ok (a + b) else .error .overflow

def sub (a b : UInt64) : Except Fault UInt64 :=
  if b ≤ a then .ok (a - b) else .error .underflow

def mul (a b : UInt64) : Except Fault UInt64 :=
  if a.toNat * b.toNat < 2 ^ 64 then .ok (a * b) else .error .overflow

/-- A shift by less than the width of a word that moves no bit out of it. -/
def shiftLeft (a amount : UInt64) : Except Fault UInt64 :=
  if 64 ≤ amount then .error .shiftTooFar
  else if a.toNat * 2 ^ amount.toNat < 2 ^ 64 then .ok (a <<< amount)
  else .error .bitsLost

def shiftRight (a amount : UInt64) : Except Fault UInt64 :=
  if 64 ≤ amount then .error .shiftTooFar else .ok (a >>> amount)

variable {a b : UInt64}

theorem exists_add (h : a.toNat + b.toNat < 2 ^ 64) :
    ∃ c, add a b = .ok c ∧ c.toNat = a.toNat + b.toNat :=
  ⟨a + b, if_pos h, by rw [UInt64.toNat_add, Nat.mod_eq_of_lt h]⟩

theorem exists_sub (h : b.toNat ≤ a.toNat) :
    ∃ c, sub a b = .ok c ∧ c.toNat = a.toNat - b.toNat :=
  have hle : b ≤ a := UInt64.le_iff_toNat_le.2 h
  ⟨a - b, if_pos hle, UInt64.toNat_sub_of_le a b hle⟩

theorem exists_mul (h : a.toNat * b.toNat < 2 ^ 64) :
    ∃ c, mul a b = .ok c ∧ c.toNat = a.toNat * b.toNat :=
  ⟨a * b, if_pos h, by rw [UInt64.toNat_mul, Nat.mod_eq_of_lt h]⟩

theorem exists_shiftLeft (hb : b.toNat < 64) (h : a.toNat * 2 ^ b.toNat < 2 ^ 64) :
    ∃ c, shiftLeft a b = .ok c ∧ c.toNat = a.toNat * 2 ^ b.toNat := by
  have hlt : ¬ 64 ≤ b := by
    rw [UInt64.le_iff_toNat_le]
    exact Nat.not_le.2 hb
  refine ⟨a <<< b, ?_, ?_⟩
  · rw [shiftLeft, if_neg hlt, if_pos h]
  · rw [UInt64.toNat_shiftLeft, Nat.mod_eq_of_lt hb, Nat.shiftLeft_eq, Nat.mod_eq_of_lt h]

theorem toNat_or_of_lt {k : ℕ} (ha : a.toNat < 2 ^ k) (hb : 2 ^ k ∣ b.toNat) :
    (a ||| b).toNat = a.toNat + b.toNat := by
  obtain ⟨high, hhigh⟩ := hb
  have hshift : b.toNat = high <<< k := by rw [hhigh, Nat.shiftLeft_eq, Nat.mul_comm]
  rw [UInt64.toNat_or, Nat.or_comm, hshift, ← Nat.shiftLeft_add_eq_or_of_lt ha, Nat.add_comm]

end Word

def slice (bytes : Bytes) (start stop : UInt64) : Except Fault Bytes :=
  if start ≤ stop ∧ stop.toNat ≤ bytes.length then
    .ok ((bytes.take stop.toNat).drop start.toNat)
  else .error .outOfBounds

theorem slice_eq_ok {bytes : Bytes} {start stop : UInt64} (hstart : start.toNat ≤ stop.toNat)
    (hstop : stop.toNat ≤ bytes.length) :
    slice bytes start stop =
      .ok ((bytes.drop start.toNat).take (stop.toNat - start.toNat)) := by
  rw [slice, if_pos ⟨UInt64.le_iff_toNat_le.2 hstart, hstop⟩, List.drop_take]

def Tag.split (n : UInt64) : Except Fault (Except DecodeError Tag) := do
  let code := (n &&& 7).toUInt8
  match WireType.ofCode? code with
  | none => return .error (.invalidWireType code)
  | some wireType =>
    let field ← Word.shiftRight n 3
    if field = 0 ∨ UInt32.size ≤ field.toNat then return .error .invalidFieldId
    return .ok ⟨field.toUInt32, wireType⟩

theorem Tag.split_eq_ok (n : UInt64) : split n = .ok (ofNat n.toNat) := by
  have hcode : (n &&& 7).toUInt8 = UInt8.ofNat (n.toNat % radix) := by
    rw [← UInt8.toNat_inj, UInt64.toNat_toUInt8, UInt64.toNat_and, UInt8.toNat_ofNat']
    exact congrArg (· % 2 ^ 8) (Nat.and_two_pow_sub_one_eq_mod n.toNat 3)
  have hfield : (n >>> 3).toNat = n.toNat / radix := by
    rw [UInt64.toNat_shiftRight]
    exact Nat.shiftRight_eq_div_pow n.toNat 3
  have hzero : n >>> 3 = 0 ↔ n.toNat / radix = 0 := by
    rw [← UInt64.toNat_inj, hfield]
    rfl
  have hword : (n >>> 3).toUInt32 = UInt32.ofNat (n.toNat / radix) := by
    rw [← UInt32.toNat_inj, UInt64.toNat_toUInt32, hfield, UInt32.toNat_ofNat']
  rw [split, ofNat, hcode]
  cases WireType.ofCode? (UInt8.ofNat (n.toNat % radix)) with
  | none => rfl
  | some wireType =>
    have hshift : Word.shiftRight n 3 = .ok (n >>> 3) := rfl
    simp only [hshift, bind, Except.bind, hzero, hfield, hword]
    split <;> rfl

structure Reader where
  buf : Bytes
  pos : UInt64 := 0

/-- What a call on a reader answers, and the reader it leaves, which has moved on even if the answer
is an error. -/
structure Reading (α : Type) where
  result : Except DecodeError α
  reader : Reader

namespace Reader

def length (reader : Reader) : UInt64 := UInt64.ofNat reader.buf.length

def isDone (reader : Reader) : Bool := reader.length ≤ reader.pos

/-- Takes the position on. To leave the buffer is a fault even if nothing is read out there. -/
def advance (reader : Reader) (count : UInt64) : Except Fault Reader := do
  let pos ← Word.add reader.pos count
  if reader.buf.length < pos.toNat then .error .outOfBounds else .ok { reader with pos }

inductive Pass where
  | done (reading : Reading UInt64)
  | more (value : UInt64) (reader : Reader)

/-- Reads the `i`-th byte of a number. What the bytes before it hold is in `value`. -/
def readGroup (i : ℕ) (value : UInt64) (reader : Reader) : Except Fault Pass :=
  match reader.buf[reader.pos.toNat]? with
  | none => .ok (.done ⟨.error .unexpectedEnd, reader⟩)
  | some byte => do
    let reader ← reader.advance 1
    if i = Varint.maxBytes - 1 ∧ 1 < byte then return .done ⟨.error .varintOverflow, reader⟩
    let amount ← Word.mul 7 (UInt64.ofNat i)
    let group ← Word.shiftLeft (byte &&& 0x7f).toUInt64 amount
    let value := value ||| group
    if byte &&& 0x80 = 0 then return .done ⟨.ok value, reader⟩
    return .more value reader

/-- Reads the bytes of a number from its `i`-th on, of which there are at most `more`. -/
def readGroups : (more i : ℕ) → (value : UInt64) → Reader → Except Fault (Reading UInt64)
  | 0, _, _, reader => .ok ⟨.error .varintOverflow, reader⟩
  | more + 1, i, value, reader => do
    match ← reader.readGroup i value with
    | .done reading => return reading
    | .more value reader => readGroups more (i + 1) value reader

def readVarint (reader : Reader) : Except Fault (Reading UInt64) :=
  readGroups Varint.maxBytes 0 0 reader

def readTag (reader : Reader) : Except Fault (Reading Tag) := do
  let ⟨result, reader⟩ ← reader.readVarint
  match result with
  | .error e => return ⟨.error e, reader⟩
  | .ok n => return ⟨← Tag.split n, reader⟩

def takeRun (limits : Limits) (count : UInt64) (reader : Reader) :
    Except Fault (Reading Bytes) := do
  if limits.maxLength < count then
    return ⟨.error (.limit (.length count.toNat limits.maxLength)), reader⟩
  let remaining ← Word.sub reader.length reader.pos
  if remaining < count then return ⟨.error .unexpectedEnd, reader⟩
  let stop ← Word.add reader.pos count
  let run ← slice reader.buf reader.pos stop
  return ⟨.ok run, ← reader.advance count⟩

def readRun (limits : Limits) (reader : Reader) : Except Fault (Reading Bytes) := do
  let ⟨result, reader⟩ ← reader.readVarint
  match result with
  | .error e => return ⟨.error e, reader⟩
  | .ok count => reader.takeRun limits count

def InBounds (reader : Reader) : Prop := reader.pos.toNat ≤ reader.buf.length

def rest (reader : Reader) : Bytes := reader.buf.drop reader.pos.toNat

/-- The reader after some of the bytes from its position on. -/
structure Moves (before after : Reader) : Prop where
  buf_eq : after.buf = before.buf
  pos_le : before.pos.toNat ≤ after.pos.toNat
  inBounds : after.InBounds

/-- A call that does not fault, keeps the position in the buffer and takes it back nowhere, and
answers what is expected of the bytes from the position on. -/
def Reads {α : Type} (reader : Reader) (call : Except Fault (Reading α))
    (expected : Except DecodeError (α × Bytes)) : Prop :=
  ∃ reading, call = .ok reading ∧ reader.Moves reading.reader ∧
    expected = reading.result.map fun a ↦ (a, reading.reader.rest)

def Pass.Advances (before : Reader) : Pass → Prop
  | .done reading => before.Moves reading.reader
  | .more _ after => before.Moves after ∧ before.pos < after.pos

variable {reader : Reader}

theorem Moves.refl (h : reader.InBounds) : reader.Moves reader := ⟨rfl, le_rfl, h⟩

theorem Moves.trans {middle after : Reader} (h : reader.Moves middle) (h' : middle.Moves after) :
    reader.Moves after :=
  ⟨h'.buf_eq.trans h.buf_eq, h.pos_le.trans h'.pos_le, h'.inBounds⟩

theorem length_rest : reader.rest.length = reader.buf.length - reader.pos.toNat :=
  List.length_drop

theorem Moves.pos_lt {after : Reader} (h : reader.Moves after)
    (hlt : after.rest.length < reader.rest.length) : reader.pos < after.pos := by
  rw [length_rest, length_rest, h.buf_eq] at hlt
  rw [UInt64.lt_iff_toNat_lt]
  omega

theorem Moves.toNat_pos_eq {after : Reader} {count : ℕ} (h : reader.Moves after)
    (hin : reader.InBounds) (hcount : count ≤ reader.rest.length)
    (hrest : after.rest = reader.rest.drop count) :
    after.pos.toNat = reader.pos.toNat + count := by
  have hend : after.pos.toNat ≤ reader.buf.length := h.buf_eq ▸ h.inBounds
  have hlength := congrArg List.length hrest
  replace hin : reader.pos.toNat ≤ reader.buf.length := hin
  rw [length_rest] at hcount
  rw [List.length_drop, length_rest, length_rest, h.buf_eq] at hlength
  omega

theorem toNat_length (hlen : reader.buf.length < 2 ^ 63) :
    reader.length.toNat = reader.buf.length :=
  UInt64.toNat_ofNat_of_lt' (hlen.trans (by decide))

theorem isDone_iff (hlen : reader.buf.length < 2 ^ 63) : reader.isDone ↔ reader.rest = [] := by
  rw [isDone, decide_eq_true_iff, UInt64.le_iff_toNat_le, toNat_length hlen, rest,
    List.drop_eq_nil_iff]

theorem exists_advance {count : UInt64} (hlen : reader.buf.length < 2 ^ 63)
    (h : count.toNat ≤ reader.rest.length) (hin : reader.InBounds) :
    ∃ after, reader.advance count = .ok after ∧ Word.add reader.pos count = .ok after.pos ∧
      after.pos.toNat = reader.pos.toNat + count.toNat ∧ reader.Moves after ∧
      after.rest = reader.rest.drop count.toNat := by
  replace hin : reader.pos.toNat ≤ reader.buf.length := hin
  rw [length_rest] at h
  obtain ⟨pos, hadd, hpos⟩ := Word.exists_add (a := reader.pos) (b := count) (by omega)
  have hend : pos.toNat ≤ reader.buf.length := by omega
  refine ⟨{ reader with pos }, ?_, hadd, hpos, ⟨rfl, by dsimp only; omega, hend⟩, ?_⟩
  · rw [advance, hadd]
    exact if_neg (Nat.not_lt.2 hend)
  · rw [rest, rest, List.drop_drop, hpos]

section Groups

variable {byte : UInt8} {tail : Bytes}

theorem toNat_low_bits (byte : UInt8) : (byte &&& 0x7f).toUInt64.toNat = byte.toNat % 128 := by
  rw [UInt8.toNat_toUInt64, UInt8.toNat_and]
  exact Nat.and_two_pow_sub_one_eq_mod byte.toNat 7

theorem high_bit_eq_zero_iff (byte : UInt8) : byte &&& 0x80 = 0 ↔ byte < 128 := by
  have hbyte := byte.toNat_lt
  rw [← UInt8.toNat_inj, UInt8.toNat_and, UInt8.lt_iff_toNat_lt]
  change byte.toNat &&& 2 ^ 7 = 0 ↔ byte.toNat < 2 ^ 7
  rw [Nat.and_two_pow, Nat.testBit_eq_decide_div_mod_eq]
  by_cases h : byte.toNat < 2 ^ 7
  · simp
    omega
  · simp
    omega

theorem toNat_mod_of_lt (h : byte < 128) : byte.toNat % 128 = byte.toNat :=
  Nat.mod_eq_of_lt (UInt8.lt_iff_toNat_lt.1 h)

variable {i : ℕ} {value : UInt64}

/-- The `i`-th group of seven bits is shifted into its place without loss, and a number that the
groups below it make up leaves that place free. -/
theorem exists_group (hi : i ≤ 9) (hbyte : i = 9 → byte ≤ 1) (value : UInt64) :
    ∃ amount group, Word.mul 7 (UInt64.ofNat i) = .ok amount ∧
      Word.shiftLeft (byte &&& 0x7f).toUInt64 amount = .ok group ∧
      (value.toNat < 2 ^ (7 * i) →
        (value ||| group).toNat = value.toNat + 2 ^ (7 * i) * (byte.toNat % 128)) := by
  have hindex : (UInt64.ofNat i).toNat = i :=
    UInt64.toNat_ofNat_of_lt' (Nat.lt_of_le_of_lt hi (by decide))
  have hseven : (7 : UInt64).toNat = 7 := rfl
  obtain ⟨amount, hmul, hamount⟩ :=
    Word.exists_mul (a := 7) (b := UInt64.ofNat i) (by rw [hindex, hseven]; omega)
  rw [hindex, hseven] at hamount
  have hfit : byte.toNat % 128 * 2 ^ (7 * i) < 2 ^ 64 := by
    by_cases htop : i = 9
    · have hle : byte.toNat ≤ 1 := UInt8.le_iff_toNat_le.1 (hbyte htop)
      rw [htop]
      omega
    · have hpow : 2 ^ (7 * i) ≤ 2 ^ 56 := Nat.pow_le_pow_right (by decide) (by omega)
      have hlow : byte.toNat % 128 < 128 := Nat.mod_lt _ (by decide)
      calc byte.toNat % 128 * 2 ^ (7 * i) ≤ 127 * 2 ^ 56 :=
            Nat.mul_le_mul (Nat.le_of_lt_succ hlow) hpow
        _ < 2 ^ 64 := by decide
  obtain ⟨group, hshift, hgroup⟩ := Word.exists_shiftLeft
    (a := (byte &&& 0x7f).toUInt64) (b := amount) (by omega) (by rwa [toNat_low_bits, hamount])
  rw [toNat_low_bits, hamount, Nat.mul_comm] at hgroup
  refine ⟨amount, group, hmul, hshift, fun hvalue ↦ ?_⟩
  rw [Word.toNat_or_of_lt hvalue ⟨_, hgroup⟩, hgroup]

theorem readGroup_of_rest_nil (hrest : reader.rest = []) (i : ℕ) (value : UInt64) :
    reader.readGroup i value = .ok (.done ⟨.error .unexpectedEnd, reader⟩) := by
  have hbyte : reader.buf[reader.pos.toNat]? = none :=
    List.getElem?_eq_none (List.drop_eq_nil_iff.1 hrest)
  rw [readGroup, hbyte]

theorem readGroup_of_rest_cons (hlen : reader.buf.length < 2 ^ 63) (hin : reader.InBounds)
    (hrest : reader.rest = byte :: tail) :
    ∃ after, reader.Moves after ∧ after.rest = tail ∧ ∀ i value,
      reader.readGroup i value =
        if i = 9 ∧ 1 < byte then .ok (.done ⟨.error .varintOverflow, after⟩)
        else (do
          let amount ← Word.mul 7 (UInt64.ofNat i)
          let group ← Word.shiftLeft (byte &&& 0x7f).toUInt64 amount
          if byte &&& 0x80 = 0 then .ok (.done ⟨.ok (value ||| group), after⟩)
          else .ok (.more (value ||| group) after)) := by
  have hbyte : reader.buf[reader.pos.toNat]? = some byte := by
    rw [← Nat.add_zero reader.pos.toNat, ← List.getElem?_drop]
    exact congrArg (·[0]?) hrest
  have hone : (1 : UInt64).toNat ≤ reader.rest.length := by
    rw [hrest]
    exact Nat.succ_pos _
  obtain ⟨after, hadvance, -, -, hmoves, hdrop⟩ := exists_advance hlen hone hin
  refine ⟨after, hmoves, ?_, ?_⟩
  · rw [hdrop, hrest]
    rfl
  · intro i value
    rw [readGroup, hbyte]
    simp only [hadvance]
    rfl

/-- A pass of the loop, unless the byte is a tenth one that holds too much. -/
theorem exists_readGroup (hlen : reader.buf.length < 2 ^ 63) (hin : reader.InBounds)
    (hrest : reader.rest = byte :: tail) (hi : i ≤ 9) (hbyte : i = 9 → byte ≤ 1)
    (value : UInt64) :
    ∃ (after : Reader) (sum : UInt64), reader.Moves after ∧ after.rest = tail ∧
      (value.toNat < 2 ^ (7 * i) →
        sum.toNat = value.toNat + 2 ^ (7 * i) * (byte.toNat % 128)) ∧
      reader.readGroup i value =
        if byte < 128 then .ok (.done ⟨.ok sum, after⟩) else .ok (.more sum after) := by
  obtain ⟨after, hmoves, htail, hread⟩ := readGroup_of_rest_cons hlen hin hrest
  obtain ⟨amount, group, hmul, hshift, hor⟩ := exists_group hi hbyte value
  refine ⟨after, value ||| group, hmoves, htail, hor, ?_⟩
  have hfit : ¬ (i = 9 ∧ 1 < byte) := fun h ↦ UInt8.not_lt.2 (hbyte h.1) h.2
  rw [hread, if_neg hfit, hmul]
  simp only [bind, Except.bind, hshift, high_bit_eq_zero_iff]

theorem exists_pass (hlen : reader.buf.length < 2 ^ 63) (hin : reader.InBounds) (hi : i ≤ 9)
    (value : UInt64) :
    ∃ pass, reader.readGroup i value = .ok pass ∧ pass.Advances reader := by
  cases hrest : reader.rest with
  | nil => exact ⟨_, readGroup_of_rest_nil hrest i value, .refl hin⟩
  | cons byte tail =>
    by_cases hbyte : i = 9 ∧ 1 < byte
    · obtain ⟨after, hmoves, -, hread⟩ := readGroup_of_rest_cons hlen hin hrest
      rw [hread, if_pos hbyte]
      exact ⟨_, rfl, hmoves⟩
    · have hfit : i = 9 → byte ≤ 1 := fun h ↦ UInt8.not_lt.1 fun hlt ↦ hbyte ⟨h, hlt⟩
      obtain ⟨after, sum, hmoves, rfl, -, hread⟩ :=
        exists_readGroup hlen hin hrest hi hfit value
      rw [hread]
      by_cases hlast : byte < 128
      · rw [if_pos hlast]
        exact ⟨_, rfl, hmoves⟩
      · rw [if_neg hlast]
        have hlt : after.rest.length < reader.rest.length := by
          rw [hrest]
          exact Nat.lt_succ_self _
        exact ⟨_, rfl, hmoves, hmoves.pos_lt hlt⟩

theorem sum_lt (hvalue : value.toNat < 2 ^ (7 * i)) :
    value.toNat + 2 ^ (7 * i) * (byte.toNat % 128) < 2 ^ (7 * (i + 1)) := by
  have hlow : byte.toNat % 128 ≤ 127 := Nat.le_of_lt_succ (Nat.mod_lt _ (by decide))
  calc value.toNat + 2 ^ (7 * i) * (byte.toNat % 128)
      < 2 ^ (7 * i) + 2 ^ (7 * i) * 127 :=
        Nat.add_lt_add_of_lt_of_le hvalue (Nat.mul_le_mul_left _ hlow)
    _ = 2 ^ (7 * (i + 1)) := by
        rw [Nat.mul_succ 7, Nat.pow_add]
        omega

theorem reads_readGroups {more : ℕ} (hi : i + more = 9) (hvalue : value.toNat < 2 ^ (7 * i))
    (hlen : reader.buf.length < 2 ^ 63) (hin : reader.InBounds) :
    reader.Reads (readGroups (more + 1) i value reader)
      ((Varint.decodeGroups more reader.rest).map fun (n, rest) ↦
        (UInt64.ofNat (value.toNat + 2 ^ (7 * i) * n), rest)) := by
  induction more generalizing i value reader with
  | zero =>
    replace hi : i = 9 := hi
    rw [readGroups]
    cases hrest : reader.rest with
    | nil =>
      rw [readGroup_of_rest_nil hrest]
      exact ⟨_, rfl, .refl hin, rfl⟩
    | cons byte tail =>
      rw [Varint.decodeGroups]
      by_cases hbyte : 1 < byte
      · obtain ⟨after, hmoves, -, hread⟩ := readGroup_of_rest_cons hlen hin hrest
        rw [hread, if_pos ⟨hi, hbyte⟩, if_pos hbyte]
        exact ⟨_, rfl, hmoves, rfl⟩
      · have hle : byte ≤ 1 := UInt8.not_lt.1 hbyte
        have hlt : byte < 128 := UInt8.lt_of_le_of_lt hle (by decide)
        obtain ⟨after, sum, hmoves, rfl, hsum, hread⟩ :=
          exists_readGroup hlen hin hrest hi.le (fun _ ↦ hle) value
        rw [hread, if_pos hlt, if_neg hbyte]
        refine ⟨⟨.ok sum, after⟩, rfl, hmoves, ?_⟩
        replace hsum := hsum hvalue
        rw [toNat_mod_of_lt hlt] at hsum
        simp only [Except.map, ← hsum, UInt64.ofNat_toNat]
  | succ more ih =>
    rw [readGroups]
    cases hrest : reader.rest with
    | nil =>
      rw [readGroup_of_rest_nil hrest]
      exact ⟨_, rfl, .refl hin, rfl⟩
    | cons byte tail =>
      have hne : i ≠ 9 := by omega
      obtain ⟨after, sum, hmoves, rfl, hsum, hread⟩ :=
        exists_readGroup hlen hin hrest (by omega) (fun h ↦ absurd h hne) value
      replace hsum := hsum hvalue
      rw [hread, Varint.decodeGroups]
      by_cases hlt : byte < 128
      · rw [if_pos hlt, if_pos hlt]
        refine ⟨⟨.ok sum, after⟩, rfl, hmoves, ?_⟩
        rw [toNat_mod_of_lt hlt] at hsum
        simp only [Except.map, ← hsum, UInt64.ofNat_toNat]
      · rw [if_neg hlt, if_neg hlt]
        have hfree : sum.toNat < 2 ^ (7 * (i + 1)) := hsum ▸ sum_lt hvalue
        obtain ⟨reading, hcall, hreading, hexpected⟩ :=
          ih (by omega) hfree (hmoves.buf_eq ▸ hlen) hmoves.inBounds
        refine ⟨reading, hcall, hmoves.trans hreading, ?_⟩
        rw [← hexpected]
        cases Varint.decodeGroups more after.rest with
        | error e => rfl
        | ok read =>
          have hnumber : value.toNat + 2 ^ (7 * i) * (byte.toNat % 128 + 128 * read.1) =
              sum.toNat + 2 ^ (7 * (i + 1)) * read.1 := by
            rw [hsum, Nat.mul_succ 7, Nat.pow_add, Nat.mul_add, Nat.mul_assoc, Nat.add_assoc]
          simp only [Except.map, hnumber]

end Groups

theorem reads_readVarint (hlen : reader.buf.length < 2 ^ 63) (hin : reader.InBounds) :
    reader.Reads reader.readVarint (Varint.decode reader.rest) := by
  have hfree : (0 : UInt64).toNat < 2 ^ (7 * 0) := by decide
  have h := reads_readGroups (Nat.zero_add 9) hfree hlen hin
  simpa [readVarint, Varint.decode, Varint.maxBytes] using h

theorem reads_readTag (hlen : reader.buf.length < 2 ^ 63) (hin : reader.InBounds) :
    reader.Reads reader.readTag (Tag.decode reader.rest) := by
  obtain ⟨⟨result, after⟩, hcall, hmoves, hexpected⟩ := reads_readVarint hlen hin
  rw [readTag, hcall, Tag.decode, hexpected]
  cases result with
  | error e => exact ⟨_, rfl, hmoves, rfl⟩
  | ok n =>
    refine ⟨⟨Tag.ofNat n.toNat, after⟩, ?_, hmoves, ?_⟩
    · change (Tag.split n >>= _) = _
      rw [Tag.split_eq_ok]
      rfl
    · change (Tag.ofNat n.toNat >>= _) = _
      cases Tag.ofNat n.toNat <;> rfl

theorem reads_takeRun (limits : Limits) (count : UInt64) (hlen : reader.buf.length < 2 ^ 63)
    (hin : reader.InBounds) :
    reader.Reads (reader.takeRun limits count) (do
      limits.checkLength count.toNat |>.mapError .limit
      let run := reader.rest.take count.toNat
      if run.length < count.toNat then .error .unexpectedEnd
      else .ok (run, reader.rest.drop count.toNat)) := by
  replace hin : reader.pos.toNat ≤ reader.buf.length := hin
  rw [takeRun, Limits.checkLength]
  by_cases hlimit : limits.maxLength < count
  · rw [if_pos hlimit, if_pos (UInt64.lt_iff_toNat_lt.1 hlimit)]
    exact ⟨_, rfl, .refl hin, rfl⟩
  rw [if_neg hlimit, if_neg (UInt64.lt_iff_toNat_lt.not.1 hlimit)]
  obtain ⟨remaining, hsub, hremaining⟩ :=
    Word.exists_sub (a := reader.length) (b := reader.pos) (by rwa [toNat_length hlen])
  rw [toNat_length hlen, ← length_rest] at hremaining
  have hshort : (reader.rest.take count.toNat).length < count.toNat ↔ remaining < count := by
    rw [List.length_take, UInt64.lt_iff_toNat_lt]
    omega
  by_cases hcount : remaining < count
  · refine ⟨⟨.error .unexpectedEnd, reader⟩, ?_, .refl hin, ?_⟩
    · rw [hsub]
      exact if_pos hcount
    · exact if_pos (hshort.2 hcount)
  · have hle : count.toNat ≤ reader.rest.length := by
      rw [← hremaining]
      exact UInt64.le_iff_toNat_le.1 (UInt64.not_lt.1 hcount)
    obtain ⟨after, hadvance, hadd, hpos, hmoves, hrest⟩ := exists_advance hlen hle hin
    have hslice : slice reader.buf reader.pos after.pos =
        .ok (reader.rest.take count.toNat) := by
      have hend : after.pos.toNat ≤ reader.buf.length := hmoves.buf_eq ▸ hmoves.inBounds
      rw [slice_eq_ok hmoves.pos_le hend, hpos, Nat.add_sub_cancel_left]
      rfl
    refine ⟨⟨.ok (reader.rest.take count.toNat), after⟩, ?_, hmoves, ?_⟩
    · simp only [hsub, hadd, hslice, hadvance, bind, Except.bind, if_neg hcount]
      rfl
    · rw [← hrest]
      exact if_neg (hshort.not.2 hcount)

theorem reads_readRun (limits : Limits) (hlen : reader.buf.length < 2 ^ 63)
    (hin : reader.InBounds) :
    reader.Reads (reader.readRun limits) (Frame.decodeRun limits reader.rest) := by
  obtain ⟨⟨result, after⟩, hcall, hmoves, hexpected⟩ := reads_readVarint hlen hin
  rw [readRun, hcall, Frame.decodeRun, hexpected]
  cases result with
  | error e => exact ⟨_, rfl, hmoves, rfl⟩
  | ok count =>
    obtain ⟨reading, htake, hafter, hrun⟩ :=
      reads_takeRun limits count (hmoves.buf_eq ▸ hlen) hmoves.inBounds
    exact ⟨reading, htake, hmoves.trans hafter, hrun⟩

end Reader

end EntityRpc
