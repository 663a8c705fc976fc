import EntityRpc.Proofs.Batch

namespace EntityRpc

open FieldStore

variable {O : Type} [FieldStore O]

namespace Payload

def missing (object : O) : List FieldId :=
  (if (u32? object offsetField).isNone then [offsetField] else []) ++
    (if (u32? object indexField).isNone then [indexField] else []) ++
    if (bytes? object dataField).isNone then [dataField] else []

variable {object : O}

theorem readStrict_eq (object : O) :
    readStrict object =
      match missing object with
      | [] => .ok (read object)
      | field :: _ => .error (.missingField field) := by
  rw [readStrict, read, missing]
  cases u32? object offsetField with
  | none => rfl
  | some offset =>
    cases u32? object indexField with
    | none => rfl
    | some index =>
      cases bytes? object dataField with
      | none => rfl
      | some data => rfl

theorem readStrict_eq_ok_iff {payload : Payload} :
    readStrict object = .ok payload ↔ missing object = [] ∧ read object = payload := by
  rw [readStrict_eq]
  cases missing object with
  | nil => simp
  | cons field rest => simp

theorem readStrict_eq_error_iff {e : ReadError} :
    readStrict object = .error e ↔
      ∃ field, (missing object).head? = some field ∧ .missingField field = e := by
  rw [readStrict_eq]
  cases missing object with
  | nil => simp
  | cons field rest => simp

end Payload

namespace Batch

open Payload (missing)

/-- The first object that lacks a field of a call has `i` others before it, and `field` is the
first one that it lacks. -/
def FirstFault (objects : List O) (i : ℕ) (field : FieldId) : Prop :=
  ∃ before object after, objects = before ++ object :: after ∧ before.length = i ∧
    (∀ earlier ∈ before, missing earlier = []) ∧ (missing object).head? = some field

theorem FirstFault.lt_length {objects : List O} {i : ℕ} {field : FieldId}
    (h : FirstFault objects i field) : i < objects.length := by
  obtain ⟨before, object, after, rfl, rfl, -, -⟩ := h
  simp

theorem missing_eq_nil_of_zipIdx {objects : List O} {start : ℕ}
    (h : ∀ entry ∈ objects.zipIdx start, ∃ payload,
      (Payload.readStrict entry.1).mapError (ReadError.payload (UInt32.ofNat entry.2)) =
        .ok payload) :
    ∀ object ∈ objects, missing object = [] := by
  intro object hmem
  rw [← List.zipIdx_map_fst start objects] at hmem
  obtain ⟨entry, hentry, rfl⟩ := List.mem_map.1 hmem
  obtain ⟨payload, hread⟩ := h entry hentry
  exact (Payload.readStrict_eq_ok_iff.1 (mapError_eq_ok.1 hread)).1

theorem mapM_readStrict_eq_error_iff (objects : List O) {e : ReadError} :
    (objects.zipIdx.mapM fun (object, i) ↦
      (Payload.readStrict object).mapError (ReadError.payload (UInt32.ofNat i))) = .error e ↔
      ∃ i field, FirstFault objects i field ∧
        .payload (UInt32.ofNat i) (.missingField field) = e := by
  rw [mapM_eq_error_iff]
  constructor
  · rintro ⟨before, entry, after, hsplit, hbefore, hentry⟩
    obtain ⟨earlier, rest, rfl, rfl, hrest⟩ := List.zipIdx_eq_append_iff.1 hsplit
    obtain ⟨object, later, rfl, rfl, -⟩ := List.zipIdx_eq_cons_iff.1 hrest.symm
    obtain ⟨cause, hcause, rfl⟩ := mapError_eq_error.1 hentry
    obtain ⟨field, hfirst, rfl⟩ := Payload.readStrict_eq_error_iff.1 hcause
    refine ⟨earlier.length, field, ?_, by rw [Nat.zero_add]⟩
    exact ⟨earlier, object, later, rfl, rfl, missing_eq_nil_of_zipIdx hbefore, hfirst⟩
  · rintro ⟨i, field, ⟨before, object, after, rfl, rfl, hbefore, hfirst⟩, rfl⟩
    refine ⟨before.zipIdx, (object, before.length), after.zipIdx (before.length + 1), ?_, ?_, ?_⟩
    · rw [List.zipIdx_append, List.zipIdx_cons, Nat.zero_add]
    · intro entry hmem
      have hnone := hbefore entry.1 (List.fst_mem_of_mem_zipIdx hmem)
      exact ⟨_, mapError_eq_ok.2 (Payload.readStrict_eq_ok_iff.2 ⟨hnone, rfl⟩)⟩
    · exact mapError_eq_error.2 ⟨_, Payload.readStrict_eq_error_iff.2 ⟨field, hfirst, rfl⟩, rfl⟩

variable {data : Block.Data O}

theorem ofDataStrict_eq_error_iff (hid : data.componentId = CreationComponent.id)
    {e : ReadError} :
    ofDataStrict data = .error e ↔
      ∃ i field, FirstFault (CreationComponent.rpcs.toList data.fields) i field ∧
        .payload (UInt32.ofNat i) (.missingField field) = e := by
  rw [ofDataStrict, if_pos hid, bind_eq_iff, ← mapM_readStrict_eq_error_iff]
  constructor
  · rintro (⟨e', h, he⟩ | ⟨rpcs, -, h⟩)
    · exact h.trans (congrArg _ (Except.error.inj he))
    · contradiction
  · intro h
    exact .inl ⟨e, h, rfl⟩

theorem ofDataStrict_eq_ok_iff (hid : data.componentId = CreationComponent.id) {batch : Batch} :
    ofDataStrict data = .ok batch ↔
      (∀ object ∈ CreationComponent.rpcs.toList data.fields, missing object = []) ∧
        (ofData data).value = batch := by
  have hread (hnone : ∀ object ∈ CreationComponent.rpcs.toList data.fields, missing object = []) :
      ofDataStrict data = .ok (ofData data).value := by
    apply ofDataStrict_eq_ofData hid
    intro object hmem
    exact Payload.readStrict_eq_ok_iff.2 ⟨hnone object hmem, rfl⟩
  constructor
  · intro h
    have hrpcs := h
    rw [ofDataStrict, if_pos hid] at hrpcs
    obtain ⟨rpcs, hrpcs, -⟩ := bind_eq_ok.1 hrpcs
    have hnone := missing_eq_nil_of_zipIdx (exists_ok_of_mapM_eq_ok hrpcs)
    rw [hread hnone] at h
    exact ⟨hnone, Except.ok.inj h⟩
  · rintro ⟨hnone, rfl⟩
    exact hread hnone

theorem ofDataStrict_of_foreign (hid : data.componentId ≠ CreationComponent.id) :
    ofDataStrict data = .error (.foreignComponent CreationComponent.id data.componentId) := by
  rw [ofDataStrict, if_neg hid]

/-- The lenient reader makes a call of every object, with zero or nothing in the place of what it
lacks, whatever the component. The strict reader refuses another component, and of the right one
it refuses the first object that lacks a field, with its position and the first field it lacks.
Otherwise it reads what the lenient reader does. -/
theorem strict_reader_refines_lenient (data : Block.Data O)
    (h : (children data.fields 1).length ≤ UInt32.size) :
    ((ofData data).value.rpcs.length = (children data.fields 1).length ∧
      ∀ (i : ℕ) (object : O), (children data.fields 1)[i]? = some object →
        (ofData data).value.rpcs[i]? =
          some ⟨(u32? object 1).getD 0, (u32? object 2).getD 0, (bytes? object 3).getD []⟩) ∧
    (ofDataStrict data = .error (.foreignComponent 9985 data.componentId) ↔
      data.componentId ≠ 9985) ∧
    (data.componentId = 9985 →
      (∀ e, ofDataStrict data = .error e ↔
        ∃ (i : UInt32) (field : FieldId), FirstFault (children data.fields 1) i.toNat field ∧
          .payload i (.missingField field) = e) ∧
      ∀ batch, ofDataStrict data = .ok batch ↔
        (∀ object ∈ children data.fields 1, missing object = []) ∧ (ofData data).value = batch) := by
  refine ⟨⟨List.length_map _, ?_⟩, ⟨?_, ofDataStrict_of_foreign⟩, ?_⟩
  · intro i object hobject
    change ((children data.fields 1).map Payload.read)[i]? = _
    rw [List.getElem?_map, hobject]
    rfl
  · intro hforeign hid
    obtain ⟨i, field, -, he⟩ := (ofDataStrict_eq_error_iff hid).1 hforeign
    contradiction
  · intro hid
    refine ⟨fun e ↦ ?_, fun batch ↦ ofDataStrict_eq_ok_iff hid⟩
    rw [ofDataStrict_eq_error_iff hid]
    constructor
    · rintro ⟨i, field, hfault, rfl⟩
      -- There are no more objects than positions that can be told apart.
      have hi : (UInt32.ofNat i).toNat = i :=
        UInt32.toNat_ofNat_of_lt' (Nat.lt_of_lt_of_le hfault.lt_length h)
      exact ⟨UInt32.ofNat i, field, hi.symm ▸ hfault, rfl⟩
    · rintro ⟨i, field, hfault, rfl⟩
      exact ⟨i.toNat, field, hfault, by rw [UInt32.ofNat_toNat]⟩

theorem strict_reader_refines_lenient_wide :
    let first : Object := ⟨[(1, .varint 7), (2, .varint 300), (3, .bytes [9])], []⟩
    let wide : Object := ⟨[(1, .varint 4294967296), (3, .bytes [])], []⟩
    let data : Block.Data Object := ⟨9985, ⟨[], [(1, first), (2, ∅), (1, wide), (1, ∅)]⟩⟩
    let whole : Block.Data Object := ⟨9985, ⟨[], [(1, first), (2, ∅)]⟩⟩
    let foreign : Block.Data Object := ⟨9984, data.fields⟩
    (children data.fields 1).length ≤ UInt32.size ∧
      (ofData data).value.rpcs.length = 3 ∧
      (ofData data).value.rpcs[1]? = some ⟨0, 0, []⟩ ∧
      FirstFault (children data.fields 1) 1 1 ∧
      ofDataStrict data = .error (.payload 1 (.missingField 1)) ∧
      ofDataStrict whole = .ok ⟨[⟨7, 300, [9]⟩]⟩ ∧
      ofDataStrict foreign = .error (.foreignComponent 9985 9984) := by
  intro first wide data whole foreign
  have hlength : (children data.fields 1).length ≤ UInt32.size := by decide
  have hfirst : ∀ object ∈ [first], missing object = [] := List.forall_mem_singleton.2 rfl
  have hfault : FirstFault (children data.fields 1) 1 1 :=
    ⟨[first], wide, [∅], rfl, rfl, hfirst, rfl⟩
  obtain ⟨⟨hsize, hread⟩, -, hstrict⟩ := strict_reader_refines_lenient data hlength
  obtain ⟨-, -, hwhole⟩ := strict_reader_refines_lenient whole (by decide)
  obtain ⟨-, hforeign, -⟩ := strict_reader_refines_lenient foreign hlength
  exact ⟨hlength, hsize, hread 1 wide rfl, hfault, ((hstrict rfl).1 _).2 ⟨1, 1, hfault, rfl⟩,
    ((hwhole rfl).2 _).2 ⟨hfirst, rfl⟩, hforeign.2 (by decide)⟩

end Batch

end EntityRpc
