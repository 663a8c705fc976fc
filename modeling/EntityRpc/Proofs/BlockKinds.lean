import EntityRpc.Proofs.Envelope

namespace EntityRpc.Block

theorem Data.ofEnvelope_command (command : Command Object) :
    ofEnvelope command.envelope = .error (.missingEnvelopeField Envelope.fields) := by
  rw [ofEnvelope, Command.envelope, Envelope.requireU32_pack rfl,
    Envelope.requireChild_pack_of_ne (by decide)]
  rfl

theorem Update.ofEnvelope_command (command : Command Object) :
    ofEnvelope command.envelope = .error (.missingEnvelopeField Envelope.fields) := by
  -- The request stands under the field of the cleared ids, but it is no number.
  rw [ofEnvelope, Command.envelope, Envelope.requireU32_pack rfl, Envelope.clearedFields_pack rfl,
    Envelope.requireChild_pack_of_ne (by decide)]
  rfl

theorem Command.ofEnvelope_data (data : Data Object) :
    ofEnvelope data.envelope = .error (.missingEnvelopeField Envelope.commandIndex) := by
  rw [ofEnvelope, Data.envelope, Envelope.requireU32_pack rfl, Envelope.requireU32_pack_of_nil rfl]
  rfl

theorem Update.ofEnvelope_data (data : Data Object) :
    ofEnvelope data.envelope = .ok ⟨data.componentId, data.fields, []⟩ := by
  rw [ofEnvelope, Data.envelope, Envelope.requireU32_pack rfl, Envelope.clearedFields_pack rfl,
    Envelope.requireChild_pack]
  rfl

theorem Command.ofEnvelope_update (update : Update Object) :
    ofEnvelope update.envelope = .error (.missingEnvelopeField Envelope.commandIndex) := by
  have hindex : Envelope.requireU32 update.envelope Envelope.commandIndex =
      .error (.missingEnvelopeField Envelope.commandIndex) := by
    apply Envelope.requireU32_pack_of_nil
    rw [Envelope.numbersAt_cons, if_neg (by decide), Envelope.numbersAt_map, if_neg (by decide)]
  rw [ofEnvelope, Update.requireId_envelope, hindex]
  rfl

theorem Data.ofEnvelope_update (update : Update Object) :
    ofEnvelope update.envelope = .ok ⟨update.componentId, update.fields⟩ := by
  rw [ofEnvelope, Update.requireId_envelope, Update.requireFields_envelope]
  rfl

/-- What is written for a command is refused by the readers of data and of updates, and what is
written for these is refused by the reader of commands. Data are read as an update that clears
nothing, and an update as the data it carries, whatever it clears. -/
theorem kinds_told_apart (limits : Limits) :
    (∀ (command : Command Object) (output : Bytes), command.encode limits = .ok output →
      (∀ id ∈ command.request.fieldIds, id ≠ 0) →
      Data.decode limits output = .error (.missingEnvelopeField 2) ∧
      Update.decode limits output = .error (.missingEnvelopeField 2)) ∧
    (∀ (data : Data Object) (output : Bytes), data.encode limits = .ok output →
      (∀ id ∈ data.fields.fieldIds, id ≠ 0) →
      Command.decode limits output = .error (.missingEnvelopeField 2) ∧
      Update.decode limits output = .ok ⟨data.componentId, data.fields, []⟩) ∧
    ∀ (update : Update Object) (output : Bytes), update.encode limits = .ok output →
      (∀ id ∈ update.fields.fieldIds, id ≠ 0) →
      Command.decode limits output = .error (.missingEnvelopeField 2) ∧
      Data.decode limits output = .ok ⟨update.componentId, update.fields⟩ := by
  refine ⟨?_, ?_, ?_⟩
  · intro command output h hids
    have henvelope := Command.decode_envelope h
    rw [if_neg fun hzero ↦ hids 0 hzero rfl] at henvelope
    rw [Data.decode, Update.decode, henvelope]
    exact ⟨Data.ofEnvelope_command command, Update.ofEnvelope_command command⟩
  · intro data output h hids
    have henvelope := Data.decode_envelope h
    rw [if_neg fun hzero ↦ hids 0 hzero rfl] at henvelope
    rw [Command.decode, Update.decode, henvelope]
    exact ⟨Command.ofEnvelope_data data, Update.ofEnvelope_data data⟩
  · intro update output h hids
    have henvelope := Update.decode_envelope h
    rw [if_neg fun hzero ↦ hids 0 hzero rfl] at henvelope
    rw [Command.decode, Data.decode, henvelope]
    exact ⟨Command.ofEnvelope_update update, Data.ofEnvelope_update update⟩

theorem kinds_told_apart_nested :
    let object : Object := ⟨[(2, .varint 5)], [(3, ∅)]⟩
    (Command.mk 7 1 object).encode .standard = .ok [8, 7, 16, 1, 27, 4, 16, 5, 27, 0] ∧
      Data.decode .standard [8, 7, 16, 1, 27, 4, 16, 5, 27, 0] = .error (.missingEnvelopeField 2) ∧
      Update.decode .standard [8, 7, 16, 1, 27, 4, 16, 5, 27, 0] =
        .error (.missingEnvelopeField 2) ∧
    (Data.mk 7 object).encode .standard = .ok [8, 7, 19, 4, 16, 5, 27, 0] ∧
      Command.decode .standard [8, 7, 19, 4, 16, 5, 27, 0] = .error (.missingEnvelopeField 2) ∧
      Update.decode .standard [8, 7, 19, 4, 16, 5, 27, 0] = .ok ⟨7, object, []⟩ ∧
    (Update.mk 7 object [0, 9]).encode .standard =
        .ok [8, 7, 24, 0, 24, 9, 19, 4, 16, 5, 27, 0] ∧
      Command.decode .standard [8, 7, 24, 0, 24, 9, 19, 4, 16, 5, 27, 0] =
        .error (.missingEnvelopeField 2) ∧
      Data.decode .standard [8, 7, 24, 0, 24, 9, 19, 4, 16, 5, 27, 0] = .ok ⟨7, object⟩ := by
  intro object
  have hids : ∀ id ∈ object.fieldIds, id ≠ 0 := by
    change ∀ id ∈ ([2, 3] : List FieldId), id ≠ 0
    simp
  have hcommand : (Command.mk 7 1 object).encode .standard =
      .ok [8, 7, 16, 1, 27, 4, 16, 5, 27, 0] := by cbv
  have hdata : (Data.mk 7 object).encode .standard = .ok [8, 7, 19, 4, 16, 5, 27, 0] := by cbv
  have hupdate : (Update.mk 7 object [0, 9]).encode .standard =
      .ok [8, 7, 24, 0, 24, 9, 19, 4, 16, 5, 27, 0] := by cbv
  obtain ⟨command, data, update⟩ := kinds_told_apart .standard
  obtain ⟨hcommandData, hcommandUpdate⟩ := command _ _ hcommand hids
  obtain ⟨hdataCommand, hdataUpdate⟩ := data _ _ hdata hids
  obtain ⟨hupdateCommand, hupdateData⟩ := update _ _ hupdate hids
  exact ⟨hcommand, hcommandData, hcommandUpdate, hdata, hdataCommand, hdataUpdate, hupdate,
    hupdateCommand, hupdateData⟩

end EntityRpc.Block
