import EntityRpc.Object.Store
import EntityRpc.Proofs.Encoding

namespace EntityRpc

theorem Value.frame_inj {field field' : FieldId} {value value' : Value}
    (h : value.frame field = value'.frame field') : field = field' ∧ value = value' := by
  cases value <;> cases value' <;> simp_all [frame]

theorem Value.frame_ne_object (field field' : FieldId) (value : Value) (body : Bytes) :
    value.frame field ≠ .object field' body := by
  cases value <;> exact Frame.noConfusion

namespace Object

theorem childBytes_ne_value_append (children : List (FieldId × Object)) (field : FieldId)
    (value : Value) (rest : Bytes) : childBytes children ≠ (value.frame field).encode ++ rest := by
  intro h
  cases children with
  | nil => exact Frame.encode_ne_nil _ (List.append_eq_nil_iff.1 h.symm).1
  | cons entry children =>
    rw [childBytes] at h
    exact Value.frame_ne_object _ _ _ _ (Frame.encode_append_inj h).1.symm

theorem valueBytes_cons (entry : FieldId × Value) (values : List (FieldId × Value)) :
    valueBytes (entry :: values) = (entry.2.frame entry.1).encode ++ valueBytes values :=
  List.flatMap_cons

theorem valueBytes_append_inj {values values' : List (FieldId × Value)}
    {children children' : List (FieldId × Object)}
    (h : valueBytes values ++ childBytes children = valueBytes values' ++ childBytes children') :
    values = values' ∧ childBytes children = childBytes children' := by
  induction values generalizing values' with
  | nil =>
    cases values' with
    | nil => exact ⟨rfl, h⟩
    | cons entry' values' =>
      rw [valueBytes_cons, List.append_assoc] at h
      exact (childBytes_ne_value_append _ _ _ _ h).elim
  | cons entry values ih =>
    rw [valueBytes_cons, List.append_assoc] at h
    cases values' with
    | nil => exact (childBytes_ne_value_append _ _ _ _ h.symm).elim
    | cons entry' values' =>
      rw [valueBytes_cons, List.append_assoc] at h
      obtain ⟨hframe, h⟩ := Frame.encode_append_inj h
      obtain ⟨hfield, hvalue⟩ := Value.frame_inj hframe
      obtain ⟨rfl, hchildren⟩ := ih h
      exact ⟨by rw [Prod.ext hfield hvalue], hchildren⟩

mutual

theorem eq_of_bytes_eq : ∀ {a b : Object}, a.bytes = b.bytes → a = b
  | ⟨_, _⟩, ⟨_, _⟩, h => by
    rw [bytes, bytes] at h
    obtain ⟨hvalues, hchildren⟩ := valueBytes_append_inj h
    rw [hvalues, eq_of_childBytes_eq hchildren]

theorem eq_of_childBytes_eq : ∀ {a b : List (FieldId × Object)}, childBytes a = childBytes b → a = b
  | [], [], _ => rfl
  | (_, _) :: _, (_, _) :: _, h => by
    rw [childBytes, childBytes] at h
    obtain ⟨hframe, hrest⟩ := Frame.encode_append_inj h
    obtain ⟨hfield, hbody⟩ := Frame.object.inj hframe
    rw [hfield, eq_of_bytes_eq hbody, eq_of_childBytes_eq hrest]
  | [], (_, _) :: _, h => by
    rw [childBytes, childBytes] at h
    exact absurd (List.append_eq_nil_iff.1 h.symm).1 (Frame.encode_ne_nil _)
  | (_, _) :: _, [], h => by
    rw [childBytes, childBytes] at h
    exact absurd (List.append_eq_nil_iff.1 h).1 (Frame.encode_ne_nil _)

end

/-- Bytes that were written, under whatever limits, were written for one object only. -/
theorem eq_of_encode_eq {limits limits' : Limits} {object object' : Object} {output : Bytes}
    (h : object.encode limits = .ok output) (h' : object'.encode limits' = .ok output) :
    object = object' := by
  obtain ⟨-, hbytes⟩ := encodeAt_eq_ok_iff.1 h
  obtain ⟨-, hbytes'⟩ := encodeAt_eq_ok_iff.1 h'
  exact eq_of_bytes_eq (hbytes.trans hbytes'.symm)

theorem eq_of_encode_eq_reordered :
    let object := ((∅ : Object).addChild 2 fun child ↦ child.addU32 0 5).addU32 1 300
    let object' : Object := ⟨[(1, .varint 300)], [(2, ⟨[(0, .varint 5)], []⟩)]⟩
    object.encode .standard = .ok [8, 172, 2, 19, 2, 0, 5] ∧
      object'.encode .widest = .ok [8, 172, 2, 19, 2, 0, 5] ∧ object = object' := by
  intro object object'
  have h : object.encode .standard = .ok [8, 172, 2, 19, 2, 0, 5] := by cbv
  have h' : object'.encode .widest = .ok [8, 172, 2, 19, 2, 0, 5] := by cbv
  exact ⟨h, h', eq_of_encode_eq h h'⟩

end Object

end EntityRpc
