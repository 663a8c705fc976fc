import EntityRpc.Proofs.Concatenation
import EntityRpc.Proofs.Envelope

namespace EntityRpc

namespace Object

/-- A number under a field, with no other number under the field after it. -/
def LastVarint (object : Object) (field : FieldId) (value : UInt64) : Prop :=
  ∃ before after, object.values = before ++ (field, .varint value) :: after ∧
    ∀ later, (field, Value.varint later) ∉ after

/-- A child under a field, with no other child under the field before it. -/
def FirstChild (object : Object) (field : FieldId) (child : Object) : Prop :=
  ∃ before after, object.children = before ++ (field, child) :: after ∧
    ∀ earlier, (field, earlier) ∉ before

/-- There is no number under the field, or the last one is too wide for 32 bits. -/
def LacksU32 (object : Object) (field : FieldId) : Prop :=
  (∀ value, (field, Value.varint value) ∉ object.values) ∨
    ∃ value, object.LastVarint field value ∧ UInt32.size ≤ value.toNat

variable {object a b : Object} {field : FieldId}

theorem LastVarint.append_right {value : UInt64} (h : b.LastVarint field value) :
    (a ++ b).LastVarint field value := by
  obtain ⟨before, after, hvalues, hafter⟩ := h
  exact ⟨a.values ++ before, after, by simp [hvalues], hafter⟩

theorem FirstChild.append_left {child : Object} (h : a.FirstChild field child) :
    (a ++ b).FirstChild field child := by
  obtain ⟨before, after, hchildren, hbefore⟩ := h
  exact ⟨before, after ++ b.children, by simp [hchildren], hbefore⟩

theorem varint?_at_eq_some_iff {entry : FieldId × Value} {value : UInt64} :
    (if entry.1 = field then entry.2.varint? else none) = some value ↔
      entry = (field, .varint value) := by
  obtain ⟨id, held⟩ := entry
  by_cases h : id = field <;> cases held <;> simp [h, Value.varint?]

theorem varint?_at_eq_none_iff {entry : FieldId × Value} :
    (if entry.1 = field then entry.2.varint? else none) = none ↔
      ∀ value, entry ≠ (field, .varint value) := by
  rw [Option.eq_none_iff_forall_ne_some]
  simp only [ne_eq, varint?_at_eq_some_iff]

theorem mem_varintsAt_iff {value : UInt64} :
    value ∈ object.varintsAt field ↔ (field, .varint value) ∈ object.values := by
  simp only [varintsAt, List.mem_filterMap, varint?_at_eq_some_iff, exists_eq_right]

theorem getLast?_varintsAt_eq_some_iff {value : UInt64} :
    (object.varintsAt field).getLast? = some value ↔ object.LastVarint field value := by
  -- The last number is the first one that is met on the way back.
  rw [varintsAt, List.getLast?_filterMap, List.findSome?_eq_some_iff]
  simp only [varint?_at_eq_some_iff, varint?_at_eq_none_iff]
  constructor
  · rintro ⟨later, entry, earlier, hreverse, rfl, hlater⟩
    refine ⟨earlier.reverse, later.reverse, ?_, ?_⟩
    · simpa using congrArg List.reverse hreverse
    · intro value hmem
      exact hlater _ (List.mem_reverse.1 hmem) value rfl
  · rintro ⟨before, after, hvalues, hafter⟩
    refine ⟨after.reverse, _, before.reverse, by simp [hvalues], rfl, ?_⟩
    intro entry hmem value hentry
    exact hafter value (hentry ▸ List.mem_reverse.1 hmem)

theorem u32?_eq_some_iff {number : UInt32} :
    object.u32? field = some number ↔ object.LastVarint field number.toUInt64 := by
  simp [u32?, Option.bind_eq_some_iff, getLast?_varintsAt_eq_some_iff, narrow?_eq_some_iff]

theorem u32?_eq_none_iff : object.u32? field = none ↔ object.LacksU32 field := by
  rw [u32?, LacksU32]
  cases hlast : (object.varintsAt field).getLast? with
  | none =>
    have hnone : object.varintsAt field = [] := List.getLast?_eq_none_iff.1 hlast
    have hempty (value : UInt64) : (field, Value.varint value) ∉ object.values := by
      rw [← mem_varintsAt_iff, hnone]
      exact List.not_mem_nil
    simp [hempty]
  | some value =>
    have hmem : (field, .varint value) ∈ object.values :=
      mem_varintsAt_iff.1 (List.mem_of_getLast? hlast)
    simp only [← getLast?_varintsAt_eq_some_iff, hlast]
    constructor
    · intro hwide
      exact .inr ⟨value, rfl, narrow?_eq_none_iff.1 hwide⟩
    · rintro (hnone | ⟨_, hvalue, hwide⟩)
      · exact absurd hmem (hnone value)
      · obtain rfl := Option.some.inj hvalue
        exact narrow?_eq_none_iff.2 hwide

theorem child_at_eq_none_iff {entry : FieldId × Object} :
    (if entry.1 = field then some entry.2 else none) = none ↔
      ∀ child, entry ≠ (field, child) := by
  rw [Option.eq_none_iff_forall_ne_some]
  simp only [ne_eq, child_at_eq_some_iff]

theorem head?_childrenAt_eq_some_iff {child : Object} :
    (object.childrenAt field).head? = some child ↔ object.FirstChild field child := by
  rw [childrenAt, List.head?_filterMap, List.findSome?_eq_some_iff]
  simp only [child_at_eq_some_iff, child_at_eq_none_iff]
  constructor
  · rintro ⟨before, entry, after, hchildren, rfl, hbefore⟩
    refine ⟨before, after, hchildren, ?_⟩
    intro earlier hmem
    exact hbefore _ hmem earlier rfl
  · rintro ⟨before, after, hchildren, hbefore⟩
    refine ⟨before, _, after, hchildren, rfl, ?_⟩
    intro entry hmem earlier hentry
    exact hbefore earlier (hentry ▸ hmem)

theorem head?_childrenAt_eq_none_iff :
    (object.childrenAt field).head? = none ↔ ∀ child, (field, child) ∉ object.children := by
  rw [childrenAt, List.head?_filterMap, List.findSome?_eq_none_iff]
  simp only [child_at_eq_none_iff]
  constructor
  · intro h child hmem
    exact h _ hmem child rfl
  · intro h entry hmem child hentry
    exact h child (hentry ▸ hmem)

end Object

namespace Block

namespace Envelope

variable {envelope : Object} {field : FieldId}

theorem requireU32_eq_ok_iff {number : UInt32} :
    requireU32 envelope field = .ok number ↔ envelope.LastVarint field number.toUInt64 := by
  rw [← Object.u32?_eq_some_iff, requireU32]
  cases envelope.u32? field <;> simp

theorem requireU32_eq_error_iff {e : DecodeError} :
    requireU32 envelope field = .error e ↔
      envelope.LacksU32 field ∧ e = .missingEnvelopeField field := by
  rw [← Object.u32?_eq_none_iff, requireU32]
  cases envelope.u32? field <;> simp [eq_comm]

theorem requireChild_eq_ok_iff {child : Object} :
    requireChild envelope field = .ok child ↔ envelope.FirstChild field child := by
  rw [← Object.head?_childrenAt_eq_some_iff, requireChild]
  cases (envelope.childrenAt field).head? <;> simp

theorem requireChild_eq_error_iff {e : DecodeError} :
    requireChild envelope field = .error e ↔
      (∀ child, (field, child) ∉ envelope.children) ∧ e = .missingEnvelopeField field := by
  rw [← Object.head?_childrenAt_eq_none_iff, requireChild]
  cases (envelope.childrenAt field).head? <;> simp [eq_comm]

theorem clearedFields_eq_error_iff {e : DecodeError} :
    clearedFields envelope = .error e ↔
      (∃ value, (cleared, Value.varint value) ∈ envelope.values ∧ ¬ IsFieldId value) ∧
        e = .invalidFieldId := by
  simp only [← Object.mem_varintsAt_iff, clearedFields]
  by_cases h : ∃ value ∈ envelope.varintsAt cleared, ¬ IsFieldId value
  · simp [mapM_clearedField_of_not_isFieldId h, h, eq_comm]
  · have hall : ∀ value ∈ envelope.varintsAt cleared, IsFieldId value := by simpa using h
    simp [mapM_clearedField_of_isFieldId hall, h]

theorem clearedFields_eq_ok_iff {fields : List FieldId} :
    clearedFields envelope = .ok fields ↔
      (∀ value, (cleared, Value.varint value) ∈ envelope.values → IsFieldId value) ∧
        envelope.varintsAt cleared = fields.map UInt32.toUInt64 := by
  simp only [← Object.mem_varintsAt_iff, clearedFields]
  constructor
  · intro h
    have hall : ∀ value ∈ envelope.varintsAt cleared, IsFieldId value := by
      by_contra hsome
      rw [mapM_clearedField_of_not_isFieldId (by simpa using hsome)] at h
      contradiction
    rw [mapM_clearedField_of_isFieldId hall] at h
    obtain rfl := Except.ok.inj h
    refine ⟨hall, ?_⟩
    rw [List.map_map, List.map_congr_left, List.map_id]
    intro value hmem
    exact (Object.narrow?_eq_some_iff.1 (if_pos (hall value hmem).2)).symm
  · rintro ⟨hall, hvalues⟩
    rw [mapM_clearedField_of_isFieldId hall, hvalues]
    simp [Function.comp_def]

theorem exists_map_toUInt64_eq
    (h : ∀ value, (cleared, Value.varint value) ∈ envelope.values → IsFieldId value) :
    ∃ fields : List FieldId, envelope.varintsAt cleared = fields.map UInt32.toUInt64 := by
  cases hfields : clearedFields envelope with
  | error e =>
    obtain ⟨⟨value, hmem, hvalue⟩, -⟩ := clearedFields_eq_error_iff.1 hfields
    exact absurd (h value hmem) hvalue
  | ok fields => exact ⟨fields, (clearedFields_eq_ok_iff.1 hfields).2⟩

end Envelope

open Envelope (IsFieldId)

inductive Data.ReadsAs (envelope : Object) : Except DecodeError (Data Object) → Prop
  | noId : envelope.LacksU32 Envelope.componentId →
      ReadsAs envelope (.error (.missingEnvelopeField Envelope.componentId))
  | noFields {id : ComponentId} :
      envelope.LastVarint Envelope.componentId id.toUInt64 →
      (∀ child, (Envelope.fields, child) ∉ envelope.children) →
      ReadsAs envelope (.error (.missingEnvelopeField Envelope.fields))
  | data {id : ComponentId} {fields : Object} :
      envelope.LastVarint Envelope.componentId id.toUInt64 →
      envelope.FirstChild Envelope.fields fields →
      ReadsAs envelope (.ok ⟨id, fields⟩)

theorem Data.ofEnvelope_eq_iff {envelope : Object} {result : Except DecodeError (Data Object)} :
    ofEnvelope envelope = result ↔ ReadsAs envelope result := by
  simp only [ofEnvelope, bind_eq_iff, Envelope.requireU32_eq_ok_iff,
    Envelope.requireU32_eq_error_iff, Envelope.requireChild_eq_ok_iff,
    Envelope.requireChild_eq_error_iff]
  constructor
  · intro h
    rcases h with ⟨_, ⟨hlacks, rfl⟩, rfl⟩ | ⟨id, hid, h⟩
    · exact .noId hlacks
    rcases h with ⟨_, ⟨hnone, rfl⟩, rfl⟩ | ⟨fields, hfields, rfl⟩
    · exact .noFields hid hnone
    · exact .data hid hfields
  · intro h
    cases h with
    | noId hlacks => exact .inl ⟨_, ⟨hlacks, rfl⟩, rfl⟩
    | noFields hid hnone => exact .inr ⟨_, hid, .inl ⟨_, ⟨hnone, rfl⟩, rfl⟩⟩
    | data hid hfields => exact .inr ⟨_, hid, .inr ⟨_, hfields, rfl⟩⟩

/-- What the reader of an update makes of an envelope. The cleared fields are looked at before the
object is asked for. -/
inductive Update.ReadsAs (envelope : Object) : Except DecodeError (Update Object) → Prop
  | noId : envelope.LacksU32 Envelope.componentId →
      ReadsAs envelope (.error (.missingEnvelopeField Envelope.componentId))
  | notFieldId {id : ComponentId} {value : UInt64} :
      envelope.LastVarint Envelope.componentId id.toUInt64 →
      (Envelope.cleared, .varint value) ∈ envelope.values → ¬ IsFieldId value →
      ReadsAs envelope (.error .invalidFieldId)
  | noFields {id : ComponentId} :
      envelope.LastVarint Envelope.componentId id.toUInt64 →
      (∀ value, (Envelope.cleared, .varint value) ∈ envelope.values → IsFieldId value) →
      (∀ child, (Envelope.fields, child) ∉ envelope.children) →
      ReadsAs envelope (.error (.missingEnvelopeField Envelope.fields))
  | update {id : ComponentId} {cleared : List FieldId} {fields : Object} :
      envelope.LastVarint Envelope.componentId id.toUInt64 →
      (∀ value, (Envelope.cleared, .varint value) ∈ envelope.values → IsFieldId value) →
      envelope.varintsAt Envelope.cleared = cleared.map UInt32.toUInt64 →
      envelope.FirstChild Envelope.fields fields →
      ReadsAs envelope (.ok ⟨id, fields, cleared⟩)

theorem Update.ofEnvelope_eq_iff {envelope : Object}
    {result : Except DecodeError (Update Object)} :
    ofEnvelope envelope = result ↔ ReadsAs envelope result := by
  simp only [ofEnvelope, bind_eq_iff, Envelope.requireU32_eq_ok_iff,
    Envelope.requireU32_eq_error_iff, Envelope.clearedFields_eq_ok_iff,
    Envelope.clearedFields_eq_error_iff, Envelope.requireChild_eq_ok_iff,
    Envelope.requireChild_eq_error_iff]
  constructor
  · intro h
    rcases h with ⟨_, ⟨hlacks, rfl⟩, rfl⟩ | ⟨id, hid, h⟩
    · exact .noId hlacks
    rcases h with ⟨_, ⟨⟨value, hmem, hvalue⟩, rfl⟩, rfl⟩ | ⟨cleared, ⟨hall, hcleared⟩, h⟩
    · exact .notFieldId hid hmem hvalue
    rcases h with ⟨_, ⟨hnone, rfl⟩, rfl⟩ | ⟨fields, hfields, rfl⟩
    · exact .noFields hid hall hnone
    · exact .update hid hall hcleared hfields
  · intro h
    cases h with
    | noId hlacks => exact .inl ⟨_, ⟨hlacks, rfl⟩, rfl⟩
    | notFieldId hid hmem hvalue => exact .inr ⟨_, hid, .inl ⟨_, ⟨⟨_, hmem, hvalue⟩, rfl⟩, rfl⟩⟩
    | noFields hid hall hnone =>
      -- The cleared fields have been read by then, although nothing is made of them.
      obtain ⟨cleared, hcleared⟩ := Envelope.exists_map_toUInt64_eq hall
      exact .inr ⟨_, hid, .inr ⟨cleared, ⟨hall, hcleared⟩, .inl ⟨_, ⟨hnone, rfl⟩, rfl⟩⟩⟩
    | update hid hall hcleared hfields =>
      exact .inr ⟨_, hid, .inr ⟨_, ⟨hall, hcleared⟩, .inr ⟨_, hfields, rfl⟩⟩⟩

inductive Command.ReadsAs (envelope : Object) : Except DecodeError (Command Object) → Prop
  | noId : envelope.LacksU32 Envelope.componentId →
      ReadsAs envelope (.error (.missingEnvelopeField Envelope.componentId))
  | noIndex {id : ComponentId} :
      envelope.LastVarint Envelope.componentId id.toUInt64 →
      envelope.LacksU32 Envelope.commandIndex →
      ReadsAs envelope (.error (.missingEnvelopeField Envelope.commandIndex))
  | noRequest {id : ComponentId} {index : CommandIndex} :
      envelope.LastVarint Envelope.componentId id.toUInt64 →
      envelope.LastVarint Envelope.commandIndex index.toUInt64 →
      (∀ child, (Envelope.request, child) ∉ envelope.children) →
      ReadsAs envelope (.error (.missingEnvelopeField Envelope.request))
  | command {id : ComponentId} {index : CommandIndex} {request : Object} :
      envelope.LastVarint Envelope.componentId id.toUInt64 →
      envelope.LastVarint Envelope.commandIndex index.toUInt64 →
      envelope.FirstChild Envelope.request request →
      ReadsAs envelope (.ok ⟨id, index, request⟩)

theorem Command.ofEnvelope_eq_iff {envelope : Object}
    {result : Except DecodeError (Command Object)} :
    ofEnvelope envelope = result ↔ ReadsAs envelope result := by
  simp only [ofEnvelope, bind_eq_iff, Envelope.requireU32_eq_ok_iff,
    Envelope.requireU32_eq_error_iff, Envelope.requireChild_eq_ok_iff,
    Envelope.requireChild_eq_error_iff]
  constructor
  · intro h
    rcases h with ⟨_, ⟨hlacks, rfl⟩, rfl⟩ | ⟨id, hid, h⟩
    · exact .noId hlacks
    rcases h with ⟨_, ⟨hlacks, rfl⟩, rfl⟩ | ⟨index, hindex, h⟩
    · exact .noIndex hid hlacks
    rcases h with ⟨_, ⟨hnone, rfl⟩, rfl⟩ | ⟨request, hrequest, rfl⟩
    · exact .noRequest hid hindex hnone
    · exact .command hid hindex hrequest
  · intro h
    cases h with
    | noId hlacks => exact .inl ⟨_, ⟨hlacks, rfl⟩, rfl⟩
    | noIndex hid hlacks => exact .inr ⟨_, hid, .inl ⟨_, ⟨hlacks, rfl⟩, rfl⟩⟩
    | noRequest hid hindex hnone =>
      exact .inr ⟨_, hid, .inr ⟨_, hindex, .inl ⟨_, ⟨hnone, rfl⟩, rfl⟩⟩⟩
    | command hid hindex hrequest =>
      exact .inr ⟨_, hid, .inr ⟨_, hindex, .inr ⟨_, hrequest, rfl⟩⟩⟩

variable {limits : Limits}

/-- Two envelopes in a row are one, with the id of the second and the object of the first. -/
theorem Data.ofEnvelope_append {a b : Object} {first second : Data Object}
    (ha : ofEnvelope a = .ok first) (hb : ofEnvelope b = .ok second) :
    ofEnvelope (a ++ b) = .ok ⟨second.componentId, first.fields⟩ := by
  cases ofEnvelope_eq_iff.1 ha with
  | data _ hfields =>
    cases ofEnvelope_eq_iff.1 hb with
    | data hid _ => exact ofEnvelope_eq_iff.2 (.data hid.append_right hfields.append_left)

theorem Data.decode_append_of_encode {first second : Data Object} {output output' : Bytes}
    (h : first.encode limits = .ok output) (h' : second.encode limits = .ok output') :
    decode limits (output ++ output') =
      if 0 ∈ first.fields.fieldIds ++ second.fields.fieldIds then .error .invalidFieldId
      else .ok ⟨second.componentId, first.fields⟩ := by
  by_cases hfirst : 0 ∈ first.fields.fieldIds
  · have hdecode : Object.decode limits output = .error .invalidFieldId := by
      rw [decode_envelope h, if_pos hfirst]
    rw [decode, Object.decode_append_of_error hdecode (by simp),
      if_pos (List.mem_append_left _ hfirst)]
    rfl
  · have hdecode : Object.decode limits output = .ok first.envelope := by
      rw [decode_envelope h, if_neg hfirst]
    have hmem : 0 ∈ first.fields.fieldIds ++ second.fields.fieldIds ↔
        0 ∈ second.fields.fieldIds := by simp [hfirst]
    rw [decode, Object.decode_append hdecode, decode_envelope h']
    simp only [hmem]
    split
    · rfl
    · exact ofEnvelope_append (ofEnvelope_envelope first) (ofEnvelope_envelope second)

/-- Bytes that are no object give each reader of a block the same error. From an object each makes
what its rules say and nothing else. Two written blocks of component data in a row are read as one,
with the id of the second and the object of the first, unless a field id in them is zero. -/
theorem decode_reads_envelope (limits : Limits) :
    (∀ input e, Object.decode limits input = .error e →
      Data.decode limits input = .error e ∧ Update.decode limits input = .error e ∧
        Command.decode limits input = .error e) ∧
    (∀ input envelope, Object.decode limits input = .ok envelope →
      (∀ result, Data.decode limits input = result ↔ Data.ReadsAs envelope result) ∧
      (∀ result, Update.decode limits input = result ↔ Update.ReadsAs envelope result) ∧
      ∀ result, Command.decode limits input = result ↔ Command.ReadsAs envelope result) ∧
    ∀ (first second : Data Object) (output output' : Bytes),
      first.encode limits = .ok output → second.encode limits = .ok output' →
      Data.decode limits (output ++ output') =
        if 0 ∈ first.fields.fieldIds ++ second.fields.fieldIds then .error .invalidFieldId
        else .ok ⟨second.componentId, first.fields⟩ := by
  refine ⟨?_, ?_, ?_⟩
  · intro input e h
    simp only [Data.decode, Update.decode, Command.decode, h]
    exact ⟨rfl, rfl, rfl⟩
  · intro input envelope h
    simp only [Data.decode, Update.decode, Command.decode, h]
    exact ⟨fun _ ↦ Data.ofEnvelope_eq_iff, fun _ ↦ Update.ofEnvelope_eq_iff,
      fun _ ↦ Command.ofEnvelope_eq_iff⟩
  · intro first second output output' h h'
    exact Data.decode_append_of_encode h h'

theorem decode_reads_envelope_repeated :
    let input : Bytes := [8, 7, 18, 1, 9, 19, 0, 24, 4, 8, 9, 19, 2, 40, 5, 24, 1]
    let envelope : Object :=
      ⟨[(1, .varint 7), (2, .bytes [9]), (3, .varint 4), (1, .varint 9), (3, .varint 1)],
        [(2, ∅), (2, ⟨[(5, .varint 5)], []⟩)]⟩
    (Object.decode .standard [8] = .error .unexpectedEnd ∧
      Update.decode .standard [8] = .error .unexpectedEnd) ∧
    (Object.decode .standard input = .ok envelope ∧
      Update.ReadsAs envelope (.ok ⟨9, ∅, [4, 1]⟩) ∧
      Update.decode .standard input = .ok ⟨9, ∅, [4, 1]⟩) ∧
    (Data.mk 7 (⟨[(5, .varint 5)], []⟩ : Object)).encode .standard = .ok [8, 7, 19, 2, 40, 5] ∧
      (Data.mk 8 (∅ : Object)).encode .standard = .ok [8, 8, 19, 0] ∧
      Data.decode .standard ([8, 7, 19, 2, 40, 5] ++ [8, 8, 19, 0]) =
        .ok ⟨8, ⟨[(5, .varint 5)], []⟩⟩ := by
  intro input envelope
  obtain ⟨herror, hok, happend⟩ := decode_reads_envelope .standard
  have hend : Object.decode .standard [8] = .error .unexpectedEnd := by cbv
  have h : Object.decode .standard input = .ok envelope := by cbv
  have hreads : Update.ReadsAs envelope (.ok ⟨9, ∅, [4, 1]⟩) := by
    refine .update ⟨[(1, .varint 7), (2, .bytes [9]), (3, .varint 4)], [(3, .varint 1)], rfl, ?_⟩
      ?_ rfl ⟨[], _, rfl, ?_⟩
    · simp [Envelope.componentId]
    · simp [envelope, Envelope.cleared, IsFieldId, UInt32.size]
    · simp
  have hfirst : (Data.mk 7 (⟨[(5, .varint 5)], []⟩ : Object)).encode .standard =
      .ok [8, 7, 19, 2, 40, 5] := by cbv
  have hsecond : (Data.mk 8 (∅ : Object)).encode .standard = .ok [8, 8, 19, 0] := by cbv
  exact ⟨⟨hend, (herror _ _ hend).2.1⟩, ⟨h, hreads, ((hok _ _ h).2.1 _).2 hreads⟩, hfirst, hsecond,
    happend _ _ _ _ hfirst hsecond⟩

theorem concatenated_zero_refused :
    let first : Data Object := ⟨7, (∅ : Object).addU32 0 5⟩
    let second : Data Object := ⟨8, ∅⟩
    first.encode .standard = .ok [8, 7, 19, 2, 0, 5] ∧
      second.encode .standard = .ok [8, 8, 19, 0] ∧
      Data.decode .standard ([8, 7, 19, 2, 0, 5] ++ [8, 8, 19, 0]) = .error .invalidFieldId ∧
      Data.decode .standard ([8, 7, 19, 2, 0, 5] ++ [8, 8, 19, 0]) ≠
        .ok ⟨second.componentId, first.fields⟩ := by
  intro first second
  have h : Data.decode .standard ([8, 7, 19, 2, 0, 5] ++ [8, 8, 19, 0]) =
      .error .invalidFieldId := by cbv
  refine ⟨by cbv, by cbv, h, ?_⟩
  rw [h]
  simp

end Block

end EntityRpc
