import EntityRpc.Proofs.Layout
import EntityRpc.Proofs.RoundTrip

namespace EntityRpc

namespace Layout

variable {limits : Limits} {depth : ℕ}

theorem toObject_varint (head : Head .varint) (value : Varint.Spelling) (rest : Layout) :
    (varint head value rest).toObject =
      .ofValue head.field (.varint (UInt64.ofNat value.number)) ++ rest.toObject := rfl

theorem toObject_bytes (head : Head .bytes) (count : Varint.Spelling) (data : Bytes)
    (rest : Layout) :
    (bytes head count data rest).toObject = .ofValue head.field (.bytes data) ++ rest.toObject :=
  rfl

theorem toObject_object (head : Head .object) (count : Varint.Spelling) (body rest : Layout) :
    (object head count body rest).toObject =
      .ofChild head.field body.toObject ++ rest.toObject := rfl

theorem entrySize_le {wireType : WireType} (head : Head wireType) (count : Varint.Spelling)
    {number run len : ℕ} (hnumber : number ≤ count.number) (hrun : run ≤ len) :
    Tag.entrySize ⟨head.field, wireType⟩ number run ≤
      head.bytes.length + (count.bytes.length + len) := by
  have hhead : Varint.width (Tag.mk head.field wireType).toNat ≤ head.bytes.length := by
    rw [← head.number_eq]
    exact head.width_number_le
  have hcount : Varint.width number ≤ count.bytes.length :=
    (Varint.width_mono hnumber).trans count.width_number_le
  exact Nat.add_le_add hhead (Nat.add_le_add hcount hrun)

theorem size_toObject_le (layout : Layout) (h : layout.WellFormed limits depth) :
    layout.toObject.size ≤ layout.flatten.length := by
  induction layout generalizing depth with
  | nil => exact le_rfl
  | varint head value rest ih =>
    have hvalue : (UInt64.ofNat value.number).toNat ≤ value.number :=
      (UInt64.toNat_ofNat_of_lt' value.number_lt).le
    have hentry : (Frame.varint head.field (UInt64.ofNat value.number)).size ≤
        head.bytes.length + (value.bytes.length + 0) := entrySize_le head value hvalue le_rfl
    have hrest := ih h
    rw [toObject_varint, Object.size_append, Object.size_ofValue, Value.frame]
    simp only [flatten, List.length_append]
    omega
  | bytes head count data rest ih =>
    obtain ⟨-, hlen, hwf⟩ := h
    have hentry : (Frame.bytes head.field data).size ≤
        head.bytes.length + (count.bytes.length + data.length) :=
      entrySize_le head count hlen.le le_rfl
    have hrest := ih hwf
    rw [toObject_bytes, Object.size_append, Object.size_ofValue, Value.frame]
    simp only [flatten, List.length_append]
    omega
  | object head count body rest ihb ih =>
    obtain ⟨-, hlen, -, hbody, hwf⟩ := h
    have hsize := ihb hbody
    have hentry := entrySize_le head count (hsize.trans hlen.le) hsize
    have hrest := ih hwf
    rw [toObject_object, Object.size_append, Object.size_ofChild]
    simp only [flatten, List.length_append]
    omega

theorem fits_toObject (layout : Layout) (hdepth : depth ≤ limits.maxDepth.toNat)
    (h : layout.WellFormed limits depth) : layout.toObject.Fits limits depth := by
  induction layout generalizing depth with
  | nil => exact Object.fits_empty.2 hdepth
  | varint head value rest ih =>
    rw [toObject_varint]
    exact Object.fits_append.2 ⟨Object.fits_ofValue.2 ⟨hdepth, Nat.zero_le _⟩, ih hdepth h⟩
  | bytes head count data rest ih =>
    obtain ⟨hcount, hlen, hrest⟩ := h
    rw [toObject_bytes]
    exact Object.fits_append.2
      ⟨Object.fits_ofValue.2 ⟨hdepth, hlen.trans_le hcount⟩, ih hdepth hrest⟩
  | object head count body rest ihb ih =>
    obtain ⟨hcount, hlen, hinner, hbody, hrest⟩ := h
    have hsize : body.toObject.size ≤ limits.maxLength.toNat :=
      (size_toObject_le body hbody).trans (hlen.trans_le hcount)
    rw [toObject_object]
    exact Object.fits_append.2
      ⟨Object.fits_ofChild.2 ⟨hdepth, ihb hinner hbody, hsize⟩, ih hdepth hrest⟩

theorem zero_notMem_fieldIds_toObject (layout : Layout) : 0 ∉ layout.toObject.fieldIds := by
  induction layout with
  | nil => exact List.not_mem_nil
  | varint head value rest ih =>
    rw [toObject_varint, Object.mem_fieldIds_append, Object.mem_fieldIds_ofValue]
    exact not_or.2 ⟨head.field_ne_zero.symm, ih⟩
  | bytes head count data rest ih =>
    rw [toObject_bytes, Object.mem_fieldIds_append, Object.mem_fieldIds_ofValue]
    exact not_or.2 ⟨head.field_ne_zero.symm, ih⟩
  | object head count body rest ihb ih =>
    rw [toObject_object, Object.mem_fieldIds_append, Object.mem_fieldIds_ofChild]
    exact not_or.2 ⟨not_or.2 ⟨head.field_ne_zero.symm, ihb⟩, ih⟩

end Layout

namespace Object

variable {limits : Limits}

/-- Whatever the reader accepts can be written again under the same limits, in no more bytes
than were read, and reads back the same. -/
theorem exists_encode_of_decode {input : Bytes} {object : Object}
    (h : decode limits input = .ok object) :
    ∃ output, object.encode limits = .ok output ∧ output.length ≤ input.length ∧
      decode limits output = .ok object := by
  obtain ⟨layout, rfl, hwf, rfl⟩ := Layout.exists_of_decodeAt h
  have hencode : layout.toObject.encode limits = .ok layout.toObject.bytes :=
    encodeAt_eq_ok_iff.2 ⟨layout.fits_toObject (Nat.zero_le _) hwf, rfl⟩
  refine ⟨layout.toObject.bytes, hencode, ?_, ?_⟩
  · rw [length_bytes]
    exact layout.size_toObject_le hwf
  · exact decode_of_encode hencode layout.zero_notMem_fieldIds_toObject

theorem exists_encode_of_decode_padded :
    decode .standard [147, 0, 130, 0, 40, 5, 8, 172, 130, 0] =
      .ok ⟨[(1, .varint 300)], [(2, ⟨[(5, .varint 5)], []⟩)]⟩ ∧
    ∃ output,
      encode .standard ⟨[(1, .varint 300)], [(2, ⟨[(5, .varint 5)], []⟩)]⟩ = .ok output ∧
      output.length ≤ 10 ∧
      decode .standard output = .ok ⟨[(1, .varint 300)], [(2, ⟨[(5, .varint 5)], []⟩)]⟩ := by
  have h : decode .standard [147, 0, 130, 0, 40, 5, 8, 172, 130, 0] =
      .ok ⟨[(1, .varint 300)], [(2, ⟨[(5, .varint 5)], []⟩)]⟩ := by cbv
  exact ⟨h, exists_encode_of_decode h⟩

end Object

end EntityRpc
