import EntityRpc.Proofs.Envelope

namespace EntityRpc.Block

structure AcceptedUnlessZero {α : Type} (ids : List FieldId) (read : Except DecodeError α) :
    Prop where
  accepted_iff : (∃ a, read = .ok a) ↔ ∀ id ∈ ids, id ≠ 0
  refused : (∃ id ∈ ids, id = 0) → read = .error .invalidFieldId

theorem acceptedUnlessZero_of_eq {α : Type} {ids : List FieldId} {read : Except DecodeError α}
    {a : α} (h : read = if 0 ∈ ids then .error .invalidFieldId else .ok a) :
    AcceptedUnlessZero ids read := by
  by_cases hzero : 0 ∈ ids
  · rw [if_pos hzero] at h
    refine ⟨⟨?_, ?_⟩, fun _ ↦ h⟩
    · rintro ⟨b, hb⟩
      rw [h] at hb
      contradiction
    · intro hall
      exact absurd rfl (hall 0 hzero)
  · rw [if_neg hzero] at h
    refine ⟨⟨?_, fun _ ↦ ⟨a, h⟩⟩, ?_⟩
    · rintro - id hid rfl
      exact hzero hid
    · rintro ⟨id, hid, rfl⟩
      exact absurd hid hzero

/-- What a writer accepts, the reader of the same kind accepts under the same limits exactly if
no field id is zero at any depth of the object, nor among the cleared fields of an update. -/
theorem accepted_unless_zero_of_encode (limits : Limits) :
    (∀ (object : Object) (output : Bytes), object.encode limits = .ok output →
      AcceptedUnlessZero object.fieldIds (Object.decode limits output)) ∧
    (∀ (data : Data Object) (output : Bytes), data.encode limits = .ok output →
      AcceptedUnlessZero data.fields.fieldIds (Data.decode limits output)) ∧
    (∀ (update : Update Object) (output : Bytes), update.encode limits = .ok output →
      AcceptedUnlessZero (update.fields.fieldIds ++ update.cleared)
        (Update.decode limits output)) ∧
    ∀ (command : Command Object) (output : Bytes), command.encode limits = .ok output →
      AcceptedUnlessZero command.request.fieldIds (Command.decode limits output) := by
  refine ⟨?_, ?_, ?_, ?_⟩
  · intro object output h
    exact acceptedUnlessZero_of_eq (Object.decode_encode h)
  · intro data output h
    exact acceptedUnlessZero_of_eq (Data.decode_encode h)
  · intro update output h
    exact acceptedUnlessZero_of_eq (Update.decode_encode h)
  · intro command output h
    exact acceptedUnlessZero_of_eq (Command.decode_encode h)

theorem accepted_unless_zero_of_encode_update :
    (Update.mk 9985 (⟨[(6, .varint 300)], []⟩ : Object) [4, 1, 4]).encode .standard =
        .ok [8, 129, 78, 24, 4, 24, 1, 24, 4, 19, 3, 48, 172, 2] ∧
      (∃ update, Update.decode .standard [8, 129, 78, 24, 4, 24, 1, 24, 4, 19, 3, 48, 172, 2] =
        .ok update) := by
  have h : (Update.mk 9985 (⟨[(6, .varint 300)], []⟩ : Object) [4, 1, 4]).encode .standard =
      .ok [8, 129, 78, 24, 4, 24, 1, 24, 4, 19, 3, 48, 172, 2] := by cbv
  have hids : ∀ id ∈ ([6, 4, 1, 4] : List FieldId), id ≠ 0 := by simp
  exact ⟨h, ((accepted_unless_zero_of_encode .standard).2.2.1 _ _ h).accepted_iff.2 hids⟩

theorem zero_written_and_refused :
    (((∅ : Object).addU32 0 5).encode .standard = .ok [0, 5] ∧
      ¬ ∃ object, Object.decode .standard [0, 5] = .ok object) ∧
    (((Update.mk 9985 (∅ : Object) []).clear 0).encode .standard =
        .ok [8, 129, 78, 24, 0, 19, 0] ∧
      ¬ ∃ update, Update.decode .standard [8, 129, 78, 24, 0, 19, 0] = .ok update) := by
  have hobject : Object.decode .standard [0, 5] = .error .invalidFieldId := by cbv
  have hupdate : Update.decode .standard [8, 129, 78, 24, 0, 19, 0] = .error .invalidFieldId := by
    cbv
  refine ⟨⟨by cbv, ?_⟩, by cbv, ?_⟩
  · rintro ⟨object, h⟩
    rw [hobject] at h
    contradiction
  · rintro ⟨update, h⟩
    rw [hupdate] at h
    contradiction

/-- A block that is written reads back as that block, the cleared fields of an update in their
order and with their repetitions, if no field id in it is zero. -/
theorem decode_encode_of_ids_ne_zero (limits : Limits) :
    (∀ (data : Data Object) (output : Bytes), data.encode limits = .ok output →
      (∀ id ∈ data.fields.fieldIds, id ≠ 0) → Data.decode limits output = .ok data) ∧
    (∀ (update : Update Object) (output : Bytes), update.encode limits = .ok output →
      (∀ id ∈ update.fields.fieldIds, id ≠ 0) → (∀ id ∈ update.cleared, id ≠ 0) →
      Update.decode limits output = .ok update) ∧
    ∀ (command : Command Object) (output : Bytes), command.encode limits = .ok output →
      (∀ id ∈ command.request.fieldIds, id ≠ 0) → Command.decode limits output = .ok command := by
  refine ⟨?_, ?_, ?_⟩
  · intro data output h hids
    rw [Data.decode_encode h, if_neg fun hzero ↦ hids 0 hzero rfl]
  · intro update output h hids hcleared
    have hall : 0 ∉ update.fields.fieldIds ++ update.cleared := by
      rw [List.mem_append]
      rintro (hzero | hzero)
      · exact hids 0 hzero rfl
      · exact hcleared 0 hzero rfl
    rw [Update.decode_encode h, if_neg hall]
  · intro command output h hids
    rw [Command.decode_encode h, if_neg fun hzero ↦ hids 0 hzero rfl]

theorem decode_encode_of_ids_ne_zero_nested :
    (Data.mk 7 (⟨[(1, .bytes [9])], [(2, ⟨[(5, .varint 5)], []⟩)]⟩ : Object)).encode .standard =
        .ok [8, 7, 19, 7, 10, 1, 9, 19, 2, 40, 5] ∧
      Data.decode .standard [8, 7, 19, 7, 10, 1, 9, 19, 2, 40, 5] =
        .ok ⟨7, ⟨[(1, .bytes [9])], [(2, ⟨[(5, .varint 5)], []⟩)]⟩⟩ ∧
    (Update.mk 9985 (∅ : Object) [4, 1, 4]).encode .standard =
        .ok [8, 129, 78, 24, 4, 24, 1, 24, 4, 19, 0] ∧
      Update.decode .standard [8, 129, 78, 24, 4, 24, 1, 24, 4, 19, 0] =
        .ok ⟨9985, ∅, [4, 1, 4]⟩ ∧
    (Command.mk 9985 1 (⟨[(6, .varint 300)], []⟩ : Object)).encode .standard =
        .ok [8, 129, 78, 16, 1, 27, 3, 48, 172, 2] ∧
      Command.decode .standard [8, 129, 78, 16, 1, 27, 3, 48, 172, 2] =
        .ok ⟨9985, 1, ⟨[(6, .varint 300)], []⟩⟩ := by
  have hdata : (Data.mk 7 (⟨[(1, .bytes [9])], [(2, ⟨[(5, .varint 5)], []⟩)]⟩ : Object)).encode
      .standard = .ok [8, 7, 19, 7, 10, 1, 9, 19, 2, 40, 5] := by cbv
  have hupdate : (Update.mk 9985 (∅ : Object) [4, 1, 4]).encode .standard =
      .ok [8, 129, 78, 24, 4, 24, 1, 24, 4, 19, 0] := by cbv
  have hcommand : (Command.mk 9985 1 (⟨[(6, .varint 300)], []⟩ : Object)).encode .standard =
      .ok [8, 129, 78, 16, 1, 27, 3, 48, 172, 2] := by cbv
  have hids : ∀ id ∈ ([1, 2, 5] : List FieldId), id ≠ 0 := by simp
  have hcleared : ∀ id ∈ ([4, 1, 4] : List FieldId), id ≠ 0 := by simp
  have hrequest : ∀ id ∈ ([6] : List FieldId), id ≠ 0 := by simp
  obtain ⟨data, update, command⟩ := decode_encode_of_ids_ne_zero .standard
  exact ⟨hdata, data _ _ hdata hids, hupdate,
    update _ _ hupdate (fun _ h ↦ absurd h List.not_mem_nil) hcleared, hcommand,
    command _ _ hcommand hrequest⟩

end EntityRpc.Block
