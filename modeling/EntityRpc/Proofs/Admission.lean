import EntityRpc.Proofs.Delivery
import EntityRpc.Proofs.Outcome

namespace EntityRpc

open Varint (width)

namespace Value

variable {field : FieldId}

theorem size_frame_varint (h : Tag.toNat ⟨field, .varint⟩ < 128) (value : UInt64) :
    (frame field (varint value)).size = 1 + width value.toNat :=
  Tag.entrySize_of_lt h value.toNat 0

theorem size_frame_bytes (h : Tag.toNat ⟨field, .bytes⟩ < 128) (data : Bytes) :
    (frame field (bytes data)).size = 1 + width data.length + data.length :=
  Tag.entrySize_of_lt h data.length data.length

end Value

namespace Block

variable {limits : Limits}

/-- Within the object of a block no length is left to check once its own is. -/
theorem Data.fits_envelope_iff {data : Data Object} :
    data.envelope.Fits limits 0 ↔
      1 + data.fields.height ≤ limits.maxDepth.toNat ∧
        data.fields.size ≤ limits.maxLength.toNat := by
  rw [Object.Fits, envelope, Envelope.violations_pack, List.append_eq_nil_iff,
    Limits.lengthViolations_eq_nil_iff]
  constructor
  · rintro ⟨hfits, hsize⟩
    exact ⟨Object.depth_add_height_le_of_fits hfits, hsize⟩
  · rintro ⟨hheight, hsize⟩
    exact ⟨Object.fits_of_size_le hsize hheight, hsize⟩

theorem Data.encode_eq_ok_iff {data : Data Object} {output : Bytes} :
    data.encode limits = .ok output ↔
      (1 + data.fields.height ≤ limits.maxDepth.toNat ∧
        data.fields.size ≤ limits.maxLength.toNat) ∧ data.envelope.bytes = output := by
  rw [encode_eq, Object.encode, Object.encodeAt_eq_ok_iff, fits_envelope_iff]

theorem Data.size_envelope (data : Data Object) :
    data.envelope.size =
      1 + width data.componentId.toNat + 1 + width data.fields.size + data.fields.size := by
  change (Object.ofValue Envelope.componentId (.varint data.componentId.toUInt64) ++
    Object.ofChild Envelope.fields data.fields).size = _
  rw [Object.size_append, Object.size_ofValue, Object.size_ofChild,
    Value.size_frame_varint (by decide), Tag.entrySize_of_lt (by decide), UInt32.toNat_toUInt64]
  omega

end Block

namespace Payload

/-- The bytes of the object of a call: three tags of one byte each, the two numbers, and the data
after their length. -/
def encodedSize (payload : Payload) : ℕ :=
  3 + width payload.offset.toNat + width payload.index.toNat + width payload.data.length +
    payload.data.length

theorem size_write (payload : Payload) :
    (payload.write (∅ : Object)).size = payload.encodedSize := by
  rw [write_empty, Object.size_append, Object.size_append, Object.size_ofValue,
    Object.size_ofValue, Object.size_ofValue, Value.size_frame_varint (by decide),
    Value.size_frame_varint (by decide), Value.size_frame_bytes (by decide),
    UInt32.toNat_toUInt64, UInt32.toNat_toUInt64, encodedSize]
  omega

theorem height_write (payload : Payload) : (payload.write (∅ : Object)).height = 0 := by
  simp only [write_empty, Object.height_append, Object.height_ofValue, Nat.max_self]

end Payload

namespace Batch

/-- The bytes of the object of all calls: for each call a tag of one byte, and its object after the
length of the object. -/
def encodedSize (batch : Batch) : ℕ :=
  (batch.rpcs.map fun payload ↦ 1 + width payload.encodedSize + payload.encodedSize).sum

theorem size_fields (batch : Batch) : (batch.fields : Object).size = batch.encodedSize := by
  have htag : Tag.toNat ⟨CreationComponent.rpcs.field, .object⟩ < 128 := by decide
  rw [fields_eq, Object.size, Object.childSize_eq, List.map_map, encodedSize]
  simp only [Function.comp_def, Tag.entrySize_of_lt htag, Payload.size_write]
  exact Nat.zero_add _

theorem height_fields (batch : Batch) : (batch.fields : Object).height = min batch.size 1 := by
  rw [fields_eq, Object.height, size]
  induction batch.rpcs with
  | nil => rfl
  | cons payload rpcs ih =>
    rw [List.map_cons, Object.childHeight, ih, Payload.height_write, List.length_cons]
    omega

theorem one_add_height_fields_le_iff {batch : Batch} {depth : ℕ} :
    1 + (batch.fields : Object).height ≤ depth ↔ 1 ≤ depth ∧ (batch.rpcs ≠ [] → 2 ≤ depth) := by
  rw [height_fields, size]
  cases batch.rpcs with
  | nil => simp
  | cons payload rpcs =>
    simp only [List.length_cons, ne_eq, reduceCtorEq, not_false_eq_true, forall_const]
    omega

theorem encode_toData_eq_ok_iff {limits : Limits} {batch : Batch} {output : Bytes} :
    (batch.toData (O := Object)).value.encode limits = .ok output ↔
      (1 ≤ limits.maxDepth.toNat ∧ (batch.rpcs ≠ [] → 2 ≤ limits.maxDepth.toNat) ∧
        batch.encodedSize ≤ limits.maxLength.toNat) ∧
        (batch.toData (O := Object)).value.envelope.bytes = output := by
  rw [Block.Data.encode_eq_ok_iff, ← and_assoc (a := 1 ≤ _), ← one_add_height_fields_le_iff,
    ← size_fields]
  rfl

theorem size_envelope_toData (batch : Batch) :
    (batch.toData (O := Object)).value.envelope.size =
      1 + width 9985 + 1 + width batch.encodedSize + batch.encodedSize := by
  rw [Block.Data.size_envelope, ← size_fields]
  rfl

/-- A batch is written exactly if objects may nest deep enough for its calls and the object of all
its calls is no longer than allowed, and then the number of bytes is known beforehand. The width of
a number in these sizes is the length of its shortest spelling. -/
theorem encode_toData_iff_encodedSize_le (limits : Limits) (batch : Batch) :
    (∀ n : UInt64, IsLeast
      {len | ∃ s : Varint.Spelling, s.number = n.toNat ∧ s.bytes.length = len}
      (width n.toNat)) ∧
    ((∃ output, (batch.toData (O := Object)).value.encode limits = .ok output) ↔
      1 ≤ limits.maxDepth.toNat ∧ (batch.rpcs ≠ [] → 2 ≤ limits.maxDepth.toNat) ∧
        batch.encodedSize ≤ limits.maxLength.toNat) ∧
    ∀ output, (batch.toData (O := Object)).value.encode limits = .ok output →
      output.length =
        1 + width 9985 + 1 + width batch.encodedSize + batch.encodedSize := by
  refine ⟨Varint.isLeast_width, ?_, ?_⟩
  · constructor
    · rintro ⟨output, h⟩
      exact (encode_toData_eq_ok_iff.1 h).1
    · intro h
      exact ⟨_, encode_toData_eq_ok_iff.2 ⟨h, rfl⟩⟩
  · intro output h
    obtain ⟨-, rfl⟩ := encode_toData_eq_ok_iff.1 h
    rw [Object.length_bytes, size_envelope_toData]

theorem encode_toData_iff_encodedSize_le_tight :
    let batch : Batch := ⟨[⟨7, 300, List.replicate 128 0⟩, ⟨0, 0, []⟩]⟩
    batch.encodedSize = 147 ∧
    (∃ output, (batch.toData (O := Object)).value.encode ⟨2, 147⟩ = .ok output ∧
      output.length = 153) ∧
    (¬ ∃ output, (batch.toData (O := Object)).value.encode ⟨2, 146⟩ = .ok output) ∧
    (¬ ∃ output, (batch.toData (O := Object)).value.encode ⟨1, 147⟩ = .ok output) := by
  intro batch
  have hsize : batch.encodedSize = 147 := by decide +kernel
  refine ⟨hsize, ?_, ?_, ?_⟩
  · obtain ⟨-, hadmitted, hlength⟩ := encode_toData_iff_encodedSize_le ⟨2, 147⟩ batch
    obtain ⟨output, h⟩ := hadmitted.2 ⟨by decide, fun _ ↦ by decide, hsize.le⟩
    refine ⟨output, h, ?_⟩
    rw [hlength output h, hsize]
    decide
  · rw [(encode_toData_iff_encodedSize_le ⟨2, 146⟩ batch).2.1, hsize]
    decide
  · rw [(encode_toData_iff_encodedSize_le ⟨1, 147⟩ batch).2.1]
    decide

end Batch

end EntityRpc
