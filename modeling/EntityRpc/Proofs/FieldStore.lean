import EntityRpc.Batch
import EntityRpc.Object.Store
import Mathlib.Tactic.Common

namespace EntityRpc

open FieldStore

/-- What the operations on an object promise: a read sees the last value that was added under
its field, and the children under a field are kept in the order they were added. -/
class LawfulFieldStore (O : Type) [FieldStore O] where
  /-- The children under a field, however many. -/
  held : O → FieldId → List O
  /-- The child that is handed out to be filled. The laws leave open what it is, and it may differ
  from one object and field to another. -/
  fresh : O → FieldId → O
  u32?_empty (field : FieldId) : u32? (empty : O) field = none
  bytes?_empty (field : FieldId) : bytes? (empty : O) field = none
  held_empty (field : FieldId) : held (empty : O) field = []
  u32?_addU32 (object : O) (field other : FieldId) (value : UInt32) :
    u32? (addU32 object field value) other = if field = other then some value else u32? object other
  bytes?_addU32 (object : O) (field other : FieldId) (value : UInt32) :
    bytes? (addU32 object field value) other = bytes? object other
  held_addU32 (object : O) (field other : FieldId) (value : UInt32) :
    held (addU32 object field value) other = held object other
  u32?_addBytes (object : O) (field other : FieldId) (data : Bytes) :
    u32? (addBytes object field data) other = u32? object other
  bytes?_addBytes (object : O) (field other : FieldId) (data : Bytes) :
    bytes? (addBytes object field data) other =
      if field = other then some data else bytes? object other
  held_addBytes (object : O) (field other : FieldId) (data : Bytes) :
    held (addBytes object field data) other = held object other
  u32?_addChild (object : O) (field other : FieldId) (fill : O → O) :
    u32? (addChild object field fill) other = u32? object other
  bytes?_addChild (object : O) (field other : FieldId) (fill : O → O) :
    bytes? (addChild object field fill) other = bytes? object other
  held_addChild (object : O) (field other : FieldId) (fill : O → O) :
    held (addChild object field fill) other =
      if field = other then held object other ++ [fill (fresh object field)] else held object other
  childCount_eq (object : O) (field : FieldId) (h : (held object field).length < UInt32.size) :
    (childCount object field).toNat = (held object field).length
  child?_eq (object : O) (field : FieldId) (i : UInt32) :
    child? object field i = (held object field)[i.toNat]?

namespace Object

theorem narrow?_toUInt64 (value : UInt32) : narrow? value.toUInt64 = some value := by
  have h : value.toUInt64.toNat < UInt32.size := by
    rw [UInt32.toNat_toUInt64]
    exact value.toNat_lt
  rw [narrow?, if_pos h, UInt32.toUInt32_toUInt64]

theorem narrow?_eq_some_iff {value : UInt64} {number : UInt32} :
    narrow? value = some number ↔ value = number.toUInt64 := by
  constructor
  · intro h
    rw [narrow?] at h
    split at h
    · rename_i hlt
      obtain rfl := Option.some.inj h
      apply UInt64.toNat_inj.1
      rw [UInt32.toNat_toUInt64, UInt64.toNat_toUInt32]
      exact (Nat.mod_eq_of_lt hlt).symm
    · contradiction
  · rintro rfl
    exact narrow?_toUInt64 number

theorem narrow?_eq_none_iff {value : UInt64} :
    narrow? value = none ↔ UInt32.size ≤ value.toNat := by
  rw [narrow?]
  split <;> simp <;> omega

theorem child_at_eq_some_iff {field : FieldId} {entry : FieldId × Object} {child : Object} :
    (if entry.1 = field then some entry.2 else none) = some child ↔ entry = (field, child) := by
  simp [Prod.ext_iff]

variable (object child : Object) (field other : FieldId)

theorem varintsAt_ofValue (value : Value) :
    (ofValue field value).varintsAt other = if field = other then value.varint?.toList else [] := by
  by_cases h : field = other <;> simp [varintsAt, ofValue, List.filterMap, h]
  cases value.varint? <;> rfl

theorem bytesAt_ofValue (value : Value) :
    (ofValue field value).bytesAt other = if field = other then value.bytes?.toList else [] := by
  by_cases h : field = other <;> simp [bytesAt, ofValue, List.filterMap, h]
  cases value.bytes? <;> rfl

theorem childrenAt_ofChild :
    (ofChild field child).childrenAt other = if field = other then [child] else [] := by
  by_cases h : field = other <;> simp [childrenAt, ofChild, h]

theorem varintsAt_ofChild : (ofChild field child).varintsAt other = [] := rfl

theorem bytesAt_ofChild : (ofChild field child).bytesAt other = [] := rfl

theorem childrenAt_ofValue (value : Value) : (ofValue field value).childrenAt other = [] := rfl

theorem u32?_append_ofValue (value : Value) :
    (object ++ ofValue field value).u32? other =
      if field = other then (value.varint?.or (object.varintsAt other).getLast?).bind narrow?
      else object.u32? other := by
  rw [u32?, varintsAt_append, varintsAt_ofValue]
  split
  · cases value.varint? <;> simp
  · rw [List.append_nil, u32?]

theorem bytes?_append_ofValue (value : Value) :
    (object ++ ofValue field value).bytes? other =
      if field = other then value.bytes?.or (object.bytes? other) else object.bytes? other := by
  rw [bytes?, bytesAt_append, bytesAt_ofValue]
  split
  · cases value.bytes? <;> simp [bytes?]
  · rw [List.append_nil, bytes?]

theorem childCount_append_ofValue (value : Value) :
    (object ++ ofValue field value).childCount other = object.childCount other := by
  rw [childCount, childrenAt_append, childrenAt_ofValue, List.append_nil, childCount]

theorem toNat_childCount :
    (object.childCount field).toNat = min (object.childrenAt field).length (UInt32.size - 1) :=
  UInt32.toNat_ofNat_of_lt' (Nat.lt_of_le_of_lt (Nat.min_le_right _ _) (by decide))

instance : LawfulFieldStore Object where
  held := childrenAt
  fresh _ _ := ∅
  u32?_empty _ := rfl
  bytes?_empty _ := rfl
  held_empty _ := rfl
  u32?_addU32 object field other value := by
    change (object ++ ofValue field (.varint value.toUInt64)).u32? other = _
    rw [u32?_append_ofValue]
    congr 1
    exact narrow?_toUInt64 value
  bytes?_addU32 object field other value := by
    change (object ++ ofValue field (.varint value.toUInt64)).bytes? other = _
    rw [bytes?_append_ofValue]
    exact ite_self _
  held_addU32 object field other value := by
    change (object ++ ofValue field (.varint value.toUInt64)).childrenAt other = _
    rw [childrenAt_append, childrenAt_ofValue, List.append_nil]
  u32?_addBytes object field other data := by
    change (object ++ ofValue field (.bytes data)).u32? other = _
    rw [u32?_append_ofValue]
    exact ite_self _
  bytes?_addBytes object field other data :=
    bytes?_append_ofValue object field other (.bytes data)
  held_addBytes object field other data := by
    change (object ++ ofValue field (.bytes data)).childrenAt other = _
    rw [childrenAt_append, childrenAt_ofValue, List.append_nil]
  u32?_addChild object field other fill := by
    change (object ++ ofChild field (fill ∅)).u32? other = _
    rw [u32?, varintsAt_append, varintsAt_ofChild, List.append_nil]
    rfl
  bytes?_addChild object field other fill := by
    change (object ++ ofChild field (fill ∅)).bytes? other = _
    rw [bytes?, bytesAt_append, bytesAt_ofChild, List.append_nil]
    rfl
  held_addChild object field other fill := by
    change (object ++ ofChild field (fill ∅)).childrenAt other = _
    rw [childrenAt_append, childrenAt_ofChild]
    split
    · rfl
    · exact List.append_nil _
  childCount_eq object field h :=
    (toNat_childCount object field).trans (Nat.min_eq_left (Nat.le_pred_of_lt h))
  child?_eq _ _ _ := rfl

end Object

end EntityRpc
