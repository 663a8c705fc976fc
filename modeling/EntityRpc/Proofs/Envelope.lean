import EntityRpc.Block.Decode
import EntityRpc.Block.Encode
import EntityRpc.Proofs.FieldStore
import EntityRpc.Proofs.RoundTrip

namespace EntityRpc.Block

open Limits

/-- The object that a block is wrapped in: numbers under their fields, and one child. -/
def Envelope.pack (numbers : List (FieldId × UInt32)) (field : FieldId) (object : Object) :
    Object where
  values := numbers.map fun (field, number) ↦ (field, .varint number.toUInt64)
  children := [(field, object)]

variable (limits : Limits)

theorem encodeEnclosed_eq (field : FieldId) (object : Object) :
    encodeEnclosed limits field object =
      verdict (object.violations limits 1 ++ limits.lengthViolations object.size)
        (Frame.object field object.bytes).encode := by
  rw [encodeEnclosed, Object.encodeAt_eq]
  refine verdict_bind ?_
  rw [Frame.encodeWithin_eq, ← Object.length_bytes]
  rfl

theorem Envelope.violations_pack (numbers : List (FieldId × UInt32)) (field : FieldId)
    (object : Object) :
    (pack numbers field object).violations limits 0 =
      object.violations limits 1 ++ limits.lengthViolations object.size := by
  have hdepth : limits.depthViolations 0 = [] := depthViolations_eq_nil_iff.2 (Nat.zero_le _)
  have hvalues : Object.valueViolations limits
      (numbers.map fun (field, number) ↦ (field, .varint number.toUInt64)) = [] := by
    rw [Object.valueViolations, List.flatMap_eq_nil_iff]
    intro entry he
    obtain ⟨number, -, rfl⟩ := List.mem_map.1 he
    exact lengthViolations_eq_nil_iff.2 (Nat.zero_le _)
  rw [pack, Object.violations, hdepth, hvalues, Object.childViolations, Object.childViolations,
    List.append_nil]
  rfl

theorem Envelope.bytes_pack (numbers : List (FieldId × UInt32)) (field : FieldId)
    (object : Object) :
    (pack numbers field object).bytes =
      (numbers.flatMap fun (field, number) ↦ encodeNumber field number) ++
        (Frame.object field object.bytes).encode := by
  rw [pack, Object.bytes, Object.valueBytes, List.flatMap_map, Object.childBytes,
    Object.childBytes, List.append_nil]
  rfl

theorem Envelope.encode_pack (numbers : List (FieldId × UInt32)) (field : FieldId)
    (object : Object) :
    (pack numbers field object).encode limits =
      (encodeEnclosed limits field object >>= fun body ↦
        pure ((numbers.flatMap fun (field, number) ↦ encodeNumber field number) ++ body)) := by
  rw [Object.encode, Object.encodeAt_eq, violations_pack, bytes_pack, encodeEnclosed_eq,
    verdict_bind_pure]

variable {limits}

theorem Envelope.mem_fieldIds_pack {id field : FieldId} {numbers : List (FieldId × UInt32)}
    {object : Object} :
    id ∈ (pack numbers field object).fieldIds ↔
      id ∈ numbers.map Prod.fst ∨ id = field ∨ id ∈ object.fieldIds := by
  rw [Object.fieldIds_eq, pack, List.map_map, List.flatMap_singleton, List.mem_append,
    List.mem_cons]
  rfl

/-- The fields of an envelope are not zero, so only the packed object can keep it from being
read back. -/
theorem Envelope.decode_of_encode_pack {numbers : List (FieldId × UInt32)} {field : FieldId}
    {object : Object} {output : Bytes} (hnumbers : ∀ entry ∈ numbers, entry.1 ≠ 0)
    (hfield : field ≠ 0) (h : (pack numbers field object).encode limits = .ok output) :
    Object.decode limits output =
      if 0 ∈ object.fieldIds then .error .invalidFieldId else .ok (pack numbers field object) := by
  have hzero : 0 ∉ numbers.map Prod.fst := by
    intro hmem
    obtain ⟨entry, he, hid⟩ := List.mem_map.1 hmem
    exact hnumbers entry he hid
  have hmem : 0 ∈ (pack numbers field object).fieldIds ↔ 0 ∈ object.fieldIds := by
    rw [mem_fieldIds_pack, or_iff_right hzero, or_iff_right hfield.symm]
  rw [Object.decode_encode h]
  simp only [hmem]

section Reading

variable {numbers : List (FieldId × UInt32)} {field : FieldId} {object : Object}

def Envelope.numbersAt (numbers : List (FieldId × UInt32)) (field : FieldId) : List UInt32 :=
  numbers.filterMap fun (f, number) ↦ if f = field then some number else none

theorem Envelope.numbersAt_cons (other : FieldId) (number : UInt32) :
    numbersAt ((field, number) :: numbers) other =
      if field = other then number :: numbersAt numbers other else numbersAt numbers other := by
  rw [numbersAt, List.filterMap_cons]
  by_cases h : field = other
  · simp only [h, if_true]
    rfl
  · simp only [h, if_false]
    rfl

theorem Envelope.numbersAt_map (field other : FieldId) (numbers : List UInt32) :
    numbersAt (numbers.map fun number ↦ (field, number)) other =
      if field = other then numbers else [] := by
  induction numbers with
  | nil => exact (ite_self _).symm
  | cons number numbers ih =>
    rw [List.map_cons, numbersAt_cons, ih]
    by_cases h : field = other
    · simp only [h, if_true]
    · simp only [h, if_false]

theorem Envelope.varintsAt_pack (other : FieldId) :
    (pack numbers field object).varintsAt other =
      (numbersAt numbers other).map UInt32.toUInt64 := by
  rw [Object.varintsAt, pack, List.filterMap_map, numbersAt, List.map_filterMap]
  congr 1
  funext entry
  by_cases h : entry.1 = other <;> simp [h, Value.varint?]

theorem Envelope.requireU32_pack {other : FieldId} {number : UInt32}
    (h : numbersAt numbers other = [number]) :
    requireU32 (pack numbers field object) other = .ok number := by
  have hread : (pack numbers field object).u32? other = some number := by
    rw [Object.u32?, varintsAt_pack, h]
    exact Object.narrow?_toUInt64 number
  rw [requireU32, hread]

theorem Envelope.requireU32_pack_of_nil {other : FieldId} (h : numbersAt numbers other = []) :
    requireU32 (pack numbers field object) other = .error (.missingEnvelopeField other) := by
  have hread : (pack numbers field object).u32? other = none := by
    rw [Object.u32?, varintsAt_pack, h]
    rfl
  rw [requireU32, hread]

theorem Envelope.childrenAt_pack (other : FieldId) :
    (pack numbers field object).childrenAt other = if field = other then [object] else [] :=
  Object.childrenAt_ofChild object field other

theorem Envelope.requireChild_pack :
    requireChild (pack numbers field object) field = .ok object := by
  rw [requireChild, childrenAt_pack, if_pos rfl]
  rfl

theorem Envelope.requireChild_pack_of_ne {other : FieldId} (h : field ≠ other) :
    requireChild (pack numbers field object) other = .error (.missingEnvelopeField other) := by
  rw [requireChild, childrenAt_pack, if_neg h]
  rfl

def Envelope.IsFieldId (value : UInt64) : Prop := value ≠ 0 ∧ value.toNat < UInt32.size

theorem Envelope.isFieldId_toUInt64 {field : FieldId} : IsFieldId field.toUInt64 ↔ field ≠ 0 := by
  have hlt : field.toUInt64.toNat < UInt32.size := by
    rw [UInt32.toNat_toUInt64]
    exact field.toNat_lt
  have hzero : field.toUInt64 = 0 ↔ field = 0 := by
    rw [← UInt64.toNat_inj, ← UInt32.toNat_inj, UInt32.toNat_toUInt64]
    rfl
  rw [IsFieldId, and_iff_left hlt]
  exact not_congr hzero

theorem Envelope.clearedField_of_isFieldId {value : UInt64} (h : IsFieldId value) :
    clearedField value = .ok value.toUInt32 := by
  obtain ⟨hne, hlt⟩ := h
  have hzero : value.toUInt32 ≠ 0 := by
    intro h0
    have hmod := congrArg UInt32.toNat h0
    rw [UInt64.toNat_toUInt32, Nat.mod_eq_of_lt hlt] at hmod
    exact hne (UInt64.toNat_inj.1 hmod)
  rw [clearedField, narrow?, if_pos hlt]
  exact if_neg hzero

theorem Envelope.clearedField_of_not_isFieldId {value : UInt64} (h : ¬ IsFieldId value) :
    clearedField value = .error .invalidFieldId := by
  rcases Nat.lt_or_ge value.toNat UInt32.size with hlt | hge
  · have hzero : value = 0 := by
      by_contra hne
      exact h ⟨hne, hlt⟩
    subst hzero
    rfl
  · rw [clearedField, Object.narrow?_eq_none_iff.2 hge]

theorem Envelope.mapM_clearedField_of_not_isFieldId {values : List UInt64}
    (h : ∃ value ∈ values, ¬ IsFieldId value) :
    values.mapM clearedField = .error .invalidFieldId := by
  induction values with
  | nil => simp at h
  | cons first values ih =>
    rw [List.mapM_cons]
    by_cases hfirst : IsFieldId first
    · have hlater : ∃ value ∈ values, ¬ IsFieldId value := by simpa [hfirst] using h
      rw [clearedField_of_isFieldId hfirst, ih hlater]
      rfl
    · rw [clearedField_of_not_isFieldId hfirst]
      rfl

theorem Envelope.mapM_clearedField_of_isFieldId {values : List UInt64}
    (h : ∀ value ∈ values, IsFieldId value) :
    values.mapM clearedField = .ok (values.map UInt64.toUInt32) :=
  mapM_eq_ok fun value hmem ↦ clearedField_of_isFieldId (h value hmem)

theorem Envelope.mapM_clearedField (fields : List FieldId) :
    (fields.map UInt32.toUInt64).mapM clearedField =
      if 0 ∈ fields then .error .invalidFieldId else .ok fields := by
  split
  · rename_i hzero
    apply mapM_clearedField_of_not_isFieldId
    exact ⟨0, List.mem_map.2 ⟨0, hzero, rfl⟩, fun h ↦ h.1 rfl⟩
  · rename_i hzero
    have hids : ∀ value ∈ fields.map UInt32.toUInt64, IsFieldId value := by
      intro value hmem
      obtain ⟨field, hfield, rfl⟩ := List.mem_map.1 hmem
      exact isFieldId_toUInt64.2 fun h0 ↦ hzero (h0 ▸ hfield)
    simp [mapM_clearedField_of_isFieldId hids, Function.comp_def]

theorem Envelope.clearedFields_pack {fields : List FieldId} (h : numbersAt numbers cleared = fields) :
    clearedFields (pack numbers field object) =
      if 0 ∈ fields then .error .invalidFieldId else .ok fields := by
  rw [clearedFields, varintsAt_pack, h, mapM_clearedField]

end Reading

def Data.envelope (data : Data Object) : Object :=
  Envelope.pack [(Envelope.componentId, data.componentId)] Envelope.fields data.fields

theorem Data.encode_eq (limits : Limits) (data : Data Object) :
    data.encode limits = data.envelope.encode limits := by
  rw [envelope, Envelope.encode_pack, List.flatMap_singleton]
  rfl

theorem Data.ofEnvelope_envelope (data : Data Object) : ofEnvelope data.envelope = .ok data := by
  rw [ofEnvelope, envelope, Envelope.requireU32_pack rfl, Envelope.requireChild_pack]
  rfl

theorem Data.decode_envelope {data : Data Object} {output : Bytes}
    (h : data.encode limits = .ok output) :
    Object.decode limits output =
      if 0 ∈ data.fields.fieldIds then .error .invalidFieldId else .ok data.envelope := by
  have hnumbers : ∀ entry ∈ [(Envelope.componentId, data.componentId)], entry.1 ≠ 0 := by
    simp [Envelope.componentId]
  rw [encode_eq] at h
  exact Envelope.decode_of_encode_pack hnumbers (by decide) h

theorem Data.decode_encode {data : Data Object} {output : Bytes}
    (h : data.encode limits = .ok output) :
    decode limits output =
      if 0 ∈ data.fields.fieldIds then .error .invalidFieldId else .ok data := by
  rw [decode, decode_envelope h]
  split
  · rfl
  · exact ofEnvelope_envelope data

theorem Data.decode_of_encode {data : Data Object} {output : Bytes}
    (h : data.encode limits = .ok output) (hids : 0 ∉ data.fields.fieldIds) :
    decode limits output = .ok data := by
  rw [decode_encode h, if_neg hids]

def Update.envelope (update : Update Object) : Object :=
  Envelope.pack
    ((Envelope.componentId, update.componentId) ::
      update.cleared.map fun field ↦ (Envelope.cleared, field))
    Envelope.fields update.fields

theorem Update.encode_eq (limits : Limits) (update : Update Object) :
    update.encode limits = update.envelope.encode limits := by
  rw [envelope, Envelope.encode_pack, List.flatMap_cons, List.flatMap_map]
  simp only [List.append_assoc]
  rfl

theorem Update.requireId_envelope (update : Update Object) :
    Envelope.requireU32 update.envelope Envelope.componentId = .ok update.componentId := by
  apply Envelope.requireU32_pack
  rw [Envelope.numbersAt_cons, if_pos rfl, Envelope.numbersAt_map, if_neg (by decide)]

theorem Update.requireFields_envelope (update : Update Object) :
    Envelope.requireChild update.envelope Envelope.fields = .ok update.fields :=
  Envelope.requireChild_pack

theorem Update.clearedFields_envelope (update : Update Object) :
    Envelope.clearedFields update.envelope =
      if 0 ∈ update.cleared then .error .invalidFieldId else .ok update.cleared := by
  apply Envelope.clearedFields_pack
  rw [Envelope.numbersAt_cons, if_neg (by decide), Envelope.numbersAt_map, if_pos rfl]

theorem Update.ofEnvelope_envelope (update : Update Object) :
    ofEnvelope update.envelope =
      if 0 ∈ update.cleared then .error .invalidFieldId else .ok update := by
  rw [ofEnvelope, requireId_envelope, clearedFields_envelope, requireFields_envelope]
  split <;> rfl

theorem Update.decode_envelope {update : Update Object} {output : Bytes}
    (h : update.encode limits = .ok output) :
    Object.decode limits output =
      if 0 ∈ update.fields.fieldIds then .error .invalidFieldId else .ok update.envelope := by
  have hnumbers : ∀ entry ∈ (Envelope.componentId, update.componentId) ::
      update.cleared.map fun field ↦ (Envelope.cleared, field), entry.1 ≠ 0 := by
    simp [Envelope.componentId, Envelope.cleared]
  rw [encode_eq] at h
  exact Envelope.decode_of_encode_pack hnumbers (by decide) h

theorem Update.decode_encode {update : Update Object} {output : Bytes}
    (h : update.encode limits = .ok output) :
    decode limits output =
      if 0 ∈ update.fields.fieldIds ++ update.cleared then .error .invalidFieldId
      else .ok update := by
  rw [decode, decode_envelope h]
  -- An object that is refused hides whether the cleared fields would have been.
  by_cases hfields : 0 ∈ update.fields.fieldIds
  · rw [if_pos hfields, if_pos (List.mem_append_left _ hfields)]
    rfl
  · have hmem : 0 ∈ update.fields.fieldIds ++ update.cleared ↔ 0 ∈ update.cleared := by
      rw [List.mem_append, or_iff_right hfields]
    rw [if_neg hfields]
    simp only [hmem]
    exact ofEnvelope_envelope update

def Command.envelope (command : Command Object) : Object :=
  Envelope.pack
    [(Envelope.componentId, command.componentId), (Envelope.commandIndex, command.commandIndex)]
    Envelope.request command.request

theorem Command.encode_eq (limits : Limits) (command : Command Object) :
    command.encode limits = command.envelope.encode limits := by
  rw [envelope, Envelope.encode_pack, List.flatMap_cons, List.flatMap_singleton]
  simp only [List.append_assoc]
  rfl

theorem Command.ofEnvelope_envelope (command : Command Object) :
    ofEnvelope command.envelope = .ok command := by
  rw [ofEnvelope, envelope, Envelope.requireU32_pack rfl, Envelope.requireU32_pack rfl,
    Envelope.requireChild_pack]
  rfl

theorem Command.decode_envelope {command : Command Object} {output : Bytes}
    (h : command.encode limits = .ok output) :
    Object.decode limits output =
      if 0 ∈ command.request.fieldIds then .error .invalidFieldId else .ok command.envelope := by
  have hnumbers : ∀ entry ∈ [(Envelope.componentId, command.componentId),
      (Envelope.commandIndex, command.commandIndex)], entry.1 ≠ 0 := by
    simp [Envelope.componentId, Envelope.commandIndex]
  rw [encode_eq] at h
  exact Envelope.decode_of_encode_pack hnumbers (by decide) h

theorem Command.decode_encode {command : Command Object} {output : Bytes}
    (h : command.encode limits = .ok output) :
    decode limits output =
      if 0 ∈ command.request.fieldIds then .error .invalidFieldId else .ok command := by
  rw [decode, decode_envelope h]
  split
  · rfl
  · exact ofEnvelope_envelope command

/-- What is written for a block is what is written for an object with its numbers as values and its
object as the only child, errors included. -/
theorem encode_eq_encode_object (limits : Limits) :
    (∀ data : Data Object, data.encode limits =
      Object.encode limits ⟨[(1, .varint data.componentId.toUInt64)], [(2, data.fields)]⟩) ∧
    (∀ update : Update Object, update.encode limits =
      Object.encode limits
        ⟨(1, .varint update.componentId.toUInt64) ::
          update.cleared.map fun field ↦ (3, .varint field.toUInt64), [(2, update.fields)]⟩) ∧
    ∀ command : Command Object, command.encode limits =
      Object.encode limits
        ⟨[(1, .varint command.componentId.toUInt64), (2, .varint command.commandIndex.toUInt64)],
          [(3, command.request)]⟩ := by
  refine ⟨Data.encode_eq limits, ?_, Command.encode_eq limits⟩
  intro update
  rw [Update.encode_eq, Update.envelope, Envelope.pack, List.map_cons, List.map_map]
  rfl

-- The object of a block is already one level deep.
example : (Data.mk 7 (∅ : Object)).encode ⟨0, 3⟩ = .error (.depth 0) := by cbv

end EntityRpc.Block
