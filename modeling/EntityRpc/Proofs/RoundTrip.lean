import EntityRpc.Proofs.Decoding
import EntityRpc.Proofs.Encoding

namespace EntityRpc.Object

/-- Every object is built up entry by entry from the last one back, the values all coming
before the children. -/
theorem entries_induction {motive : Object → Prop} (empty : motive ∅)
    (value : ∀ field value object, motive object → motive (ofValue field value ++ object))
    (child : ∀ field child object, object.values = [] → motive child → motive object →
      motive (ofChild field child ++ object)) (object : Object) : motive object := by
  refine @Object.rec motive (fun children ↦ motive ⟨[], children⟩) (fun entry ↦ motive entry.2)
    ?_ empty ?_ (fun _ _ h ↦ h) object
  · intro values children h
    induction values with
    | nil => exact h
    | cons entry values ih => exact value entry.1 entry.2 ⟨values, children⟩ ih
  · intro entry rest hentry hrest
    exact child entry.1 entry.2 ⟨[], rest⟩ rfl hentry hrest

mutual

/-- The field ids that occur in an object, at any depth. -/
def fieldIds : Object → List FieldId
  | ⟨values, children⟩ => values.map Prod.fst ++ childFieldIds children

def childFieldIds : List (FieldId × Object) → List FieldId
  | [] => []
  | (field, child) :: rest => field :: (child.fieldIds ++ childFieldIds rest)

end

theorem childFieldIds_eq (children : List (FieldId × Object)) :
    childFieldIds children = children.flatMap fun entry ↦ entry.1 :: entry.2.fieldIds := by
  induction children with
  | nil => rfl
  | cons entry rest ih => rw [childFieldIds, ih, List.flatMap_cons, List.cons_append]

theorem fieldIds_eq (object : Object) :
    object.fieldIds = object.values.map Prod.fst ++
      object.children.flatMap fun entry ↦ entry.1 :: entry.2.fieldIds := by
  obtain ⟨values, children⟩ := object
  rw [fieldIds, childFieldIds_eq]

theorem mem_fieldIds_append {id : FieldId} {a b : Object} :
    id ∈ (a ++ b).fieldIds ↔ id ∈ a.fieldIds ∨ id ∈ b.fieldIds := by
  rw [fieldIds_eq, fieldIds_eq a, fieldIds_eq b, values_append, children_append, List.map_append,
    List.flatMap_append]
  simp only [List.mem_append]
  tauto

theorem mem_fieldIds_ofValue {id field : FieldId} {value : Value} :
    id ∈ (ofValue field value).fieldIds ↔ id = field := by
  rw [fieldIds_eq]
  simp [ofValue]

theorem mem_fieldIds_ofChild {id field : FieldId} {child : Object} :
    id ∈ (ofChild field child).fieldIds ↔ id = field ∨ id ∈ child.fieldIds := by
  rw [fieldIds_eq]
  simp [ofChild]

variable {limits : Limits} {depth : ℕ}

theorem decodeAt_encode_append (h : depth ≤ limits.maxDepth.toNat) (frame : Frame)
    (hlen : frame.run.length ≤ limits.maxLength.toNat) (rest : Bytes) :
    decodeAt limits depth (frame.encode ++ rest) =
      if frame.tag.field = 0 then .error .invalidFieldId
      else (do
        let entry ← ofFrame limits depth frame
        (decodeAt limits depth rest).map (entry ++ ·)) := by
  split
  · rename_i hfield
    have hne : frame.encode ++ rest ≠ [] := List.append_ne_nil_of_left_ne_nil frame.encode_ne_nil _
    rw [decodeAt_of_ne_nil h hne, frame.decode_encode_zero hfield]
    rfl
  · rename_i hfield
    exact decodeAt_of_frame h (frame.decode_encode hlen hfield rest)

theorem decodeAt_bytes (object : Object) (h : object.Fits limits depth) :
    decodeAt limits depth object.bytes =
      if 0 ∈ object.fieldIds then .error .invalidFieldId else .ok object := by
  induction object using entries_induction generalizing depth with
  | empty => exact decodeAt_nil (fits_empty.1 h)
  | value field value object ih =>
    obtain ⟨hvalue, hrest⟩ := fits_append.1 h
    obtain ⟨hdepth, hlen⟩ := fits_ofValue.1 hvalue
    have htag : (value.frame field).tag.field = field := by cases value <;> rfl
    have hentry : ofFrame limits depth (value.frame field) = .ok (ofValue field value) := by
      cases value <;> rfl
    rw [bytes_value_append, decodeAt_encode_append hdepth _ hlen, htag, hentry, ih hrest]
    simp only [mem_fieldIds_append, mem_fieldIds_ofValue, @eq_comm FieldId 0 field]
    by_cases hfield : field = 0
    · simp only [hfield, true_or, if_true]
    · by_cases hzero : 0 ∈ object.fieldIds
      · simp only [hfield, hzero, or_true, if_true, if_false]
        rfl
      · simp only [hfield, hzero, or_self, if_false]
        rfl
  | child field child object hvalues ihc ih =>
    obtain ⟨hchild, hrest⟩ := fits_append.1 h
    obtain ⟨hdepth, hfits, hsize⟩ := fits_ofChild.1 hchild
    have hlen : child.bytes.length ≤ limits.maxLength.toNat := by rwa [length_bytes]
    rw [bytes_child_append field child hvalues,
      decodeAt_encode_append hdepth (.object field child.bytes) hlen, ofFrame, ihc hfits, ih hrest]
    simp only [mem_fieldIds_append, mem_fieldIds_ofChild, @eq_comm FieldId 0 field, Frame.tag]
    by_cases hfield : field = 0
    · simp only [hfield, true_or, if_true]
    · by_cases hinner : 0 ∈ child.fieldIds
      · simp only [hfield, hinner, or_true, true_or, if_true, if_false]
        rfl
      · by_cases hzero : 0 ∈ object.fieldIds
        · simp only [hfield, hinner, hzero, or_true, if_true, if_false]
          rfl
        · simp only [hfield, hinner, hzero, or_self, if_false]
          rfl

theorem decode_encode {object : Object} {output : Bytes} (h : object.encode limits = .ok output) :
    decode limits output =
      if 0 ∈ object.fieldIds then .error .invalidFieldId else .ok object := by
  obtain ⟨hfits, rfl⟩ := encodeAt_eq_ok_iff.1 h
  exact decodeAt_bytes object hfits

theorem decode_of_encode {object : Object} {output : Bytes}
    (h : object.encode limits = .ok output) (hids : 0 ∉ object.fieldIds) :
    decode limits output = .ok object := by
  rw [decode_encode h, if_neg hids]

theorem decode_of_encode_zero {object : Object} {output : Bytes}
    (h : object.encode limits = .ok output) (hzero : 0 ∈ object.fieldIds) :
    decode limits output = .error .invalidFieldId := by
  rw [decode_encode h, if_pos hzero]

/-- What is written for an object reads back as that object exactly if no field id in it is
zero, at any depth, and a zero field id is what the reader reports otherwise. -/
theorem decode_encode_iff_fieldIds_ne_zero {object : Object} {output : Bytes}
    (h : object.encode limits = .ok output) :
    (decode limits output = .ok object ↔ ∀ id ∈ object.fieldIds, id ≠ 0) ∧
    ((∃ id ∈ object.fieldIds, id = 0) → decode limits output = .error .invalidFieldId) := by
  refine ⟨⟨?_, ?_⟩, ?_⟩
  · intro hdecode id hid hzero
    rw [decode_of_encode_zero h (hzero ▸ hid)] at hdecode
    contradiction
  · intro hall
    exact decode_of_encode h fun hzero ↦ hall 0 hzero rfl
  · intro ⟨id, hid, hzero⟩
    exact decode_of_encode_zero h (hzero ▸ hid)

theorem decode_encode_nested :
    (encode .standard ⟨[(1, .varint 300), (70, .bytes [1, 2])], [(2, ⟨[(5, .varint 5)], []⟩)]⟩ =
        .ok [8, 172, 2, 178, 4, 2, 1, 2, 19, 2, 40, 5] ∧
      decode .standard [8, 172, 2, 178, 4, 2, 1, 2, 19, 2, 40, 5] =
        .ok ⟨[(1, .varint 300), (70, .bytes [1, 2])], [(2, ⟨[(5, .varint 5)], []⟩)]⟩) ∧
    (encode .standard ⟨[(1, .varint 300)], [(2, ⟨[(0, .varint 5)], []⟩)]⟩ =
        .ok [8, 172, 2, 19, 2, 0, 5] ∧
      decode .standard [8, 172, 2, 19, 2, 0, 5] = .error .invalidFieldId) := by
  have h : encode .standard
      ⟨[(1, .varint 300), (70, .bytes [1, 2])], [(2, ⟨[(5, .varint 5)], []⟩)]⟩ =
        .ok [8, 172, 2, 178, 4, 2, 1, 2, 19, 2, 40, 5] := by cbv
  have hzero : encode .standard ⟨[(1, .varint 300)], [(2, ⟨[(0, .varint 5)], []⟩)]⟩ =
      .ok [8, 172, 2, 19, 2, 0, 5] := by cbv
  have hids : ∀ id ∈ ([1, 70, 2, 5] : List FieldId), id ≠ 0 := by simp
  exact ⟨⟨h, (decode_encode_iff_fieldIds_ne_zero h).1.2 hids⟩,
    hzero, (decode_encode_iff_fieldIds_ne_zero hzero).2 ⟨0, by decide, rfl⟩⟩

end EntityRpc.Object
