import EntityRpc.Proofs.EnvelopeReading

namespace EntityRpc

namespace Object

/-- The same numbers under each of some fields, and the same children under each of others. -/
structure AgreeOn (numbers children : List FieldId) (a b : Object) : Prop where
  varintsAt_eq : ∀ field ∈ numbers, a.varintsAt field = b.varintsAt field
  childrenAt_eq : ∀ field ∈ children, a.childrenAt field = b.childrenAt field

/-- No number under any of some fields, and no child under any of others. -/
structure FreeOf (numbers children : List FieldId) (object : Object) : Prop where
  varint_notMem : ∀ field ∈ numbers, ∀ value, (field, Value.varint value) ∉ object.values
  child_notMem : ∀ field ∈ children, ∀ child, (field, child) ∉ object.children

variable {numbers children : List FieldId} {unknown : Object} {field : FieldId}

theorem FreeOf.varintsAt_eq_nil (h : unknown.FreeOf numbers children) (hfield : field ∈ numbers) :
    unknown.varintsAt field = [] := by
  rw [List.eq_nil_iff_forall_not_mem]
  intro value hmem
  exact h.varint_notMem field hfield value (mem_varintsAt_iff.1 hmem)

theorem FreeOf.childrenAt_eq_nil (h : unknown.FreeOf numbers children)
    (hfield : field ∈ children) : unknown.childrenAt field = [] := by
  apply List.head?_eq_none_iff.1
  exact head?_childrenAt_eq_none_iff.2 (h.child_notMem field hfield)

theorem FreeOf.agreeOn_insert (h : unknown.FreeOf numbers children) (before after : Object) :
    AgreeOn numbers children (before ++ (unknown ++ after)) (before ++ after) where
  varintsAt_eq field hfield := by
    rw [varintsAt_append, varintsAt_append, h.varintsAt_eq_nil hfield, List.nil_append,
      varintsAt_append]
  childrenAt_eq field hfield := by
    rw [childrenAt_append, childrenAt_append, h.childrenAt_eq_nil hfield, List.nil_append,
      childrenAt_append]

/-- A reading that depends on no more than the numbers under some fields and the children under
others is the same without the bytes of entries that are neither, wherever these stand. -/
theorem decode_insert_bind {α : Type} {limits : Limits} {before inserted : Bytes}
    {known unknown : Object} (hbefore : decode limits before = .ok known)
    (hinserted : decode limits inserted = .ok unknown) (hfree : unknown.FreeOf numbers children)
    {read : Object → Except DecodeError α}
    (hread : ∀ {a b}, AgreeOn numbers children a b → read a = read b) (after : Bytes) :
    (decode limits (before ++ inserted ++ after) >>= read) =
      (decode limits (before ++ after) >>= read) := by
  rw [List.append_assoc, decode_append hbefore, decode_append hinserted, decode_append hbefore]
  cases decode limits after with
  | error e => rfl
  | ok later => exact hread (hfree.agreeOn_insert known later)

end Object

namespace Block

open Object (AgreeOn)

namespace Envelope

variable {a b : Object} {field : FieldId}

theorem requireU32_congr (h : a.varintsAt field = b.varintsAt field) :
    requireU32 a field = requireU32 b field := by
  rw [requireU32, requireU32, Object.u32?, Object.u32?, h]

theorem requireChild_congr (h : a.childrenAt field = b.childrenAt field) :
    requireChild a field = requireChild b field := by
  rw [requireChild, requireChild, h]

theorem clearedFields_congr (h : a.varintsAt cleared = b.varintsAt cleared) :
    clearedFields a = clearedFields b := by
  rw [clearedFields, clearedFields, h]

end Envelope

variable {a b : Object}

theorem Data.ofEnvelope_congr (h : AgreeOn [Envelope.componentId] [Envelope.fields] a b) :
    ofEnvelope a = ofEnvelope b := by
  have hid := Envelope.requireU32_congr (h.varintsAt_eq Envelope.componentId (by simp))
  have hfields := Envelope.requireChild_congr (h.childrenAt_eq Envelope.fields (by simp))
  rw [ofEnvelope, ofEnvelope, hid, hfields]

theorem Update.ofEnvelope_congr
    (h : AgreeOn [Envelope.componentId, Envelope.cleared] [Envelope.fields] a b) :
    ofEnvelope a = ofEnvelope b := by
  have hid := Envelope.requireU32_congr (h.varintsAt_eq Envelope.componentId (by simp))
  have hcleared := Envelope.clearedFields_congr (h.varintsAt_eq Envelope.cleared (by simp))
  have hfields := Envelope.requireChild_congr (h.childrenAt_eq Envelope.fields (by simp))
  rw [ofEnvelope, ofEnvelope, hid, hcleared, hfields]

theorem Command.ofEnvelope_congr
    (h : AgreeOn [Envelope.componentId, Envelope.commandIndex] [Envelope.request] a b) :
    ofEnvelope a = ofEnvelope b := by
  have hid := Envelope.requireU32_congr (h.varintsAt_eq Envelope.componentId (by simp))
  have hindex := Envelope.requireU32_congr (h.varintsAt_eq Envelope.commandIndex (by simp))
  have hrequest := Envelope.requireChild_congr (h.childrenAt_eq Envelope.request (by simp))
  rw [ofEnvelope, ofEnvelope, hid, hindex, hrequest]

/-- Entries that hold nothing a reader of blocks asks for change nothing about what it makes of the
bytes, wherever among the entries they stand and whatever comes after them. -/
theorem decode_insert_unknown {limits : Limits} {before inserted : Bytes} {known unknown : Object}
    (hbefore : Object.decode limits before = .ok known)
    (hinserted : Object.decode limits inserted = .ok unknown) (after : Bytes) :
    (unknown.FreeOf [1] [2] →
      Data.decode limits (before ++ inserted ++ after) = Data.decode limits (before ++ after)) ∧
    (unknown.FreeOf [1, 3] [2] →
      Update.decode limits (before ++ inserted ++ after) =
        Update.decode limits (before ++ after)) ∧
    (unknown.FreeOf [1, 2] [3] →
      Command.decode limits (before ++ inserted ++ after) =
        Command.decode limits (before ++ after)) := by
  refine ⟨?_, ?_, ?_⟩
  · intro hfree
    exact Object.decode_insert_bind hbefore hinserted hfree Data.ofEnvelope_congr after
  · intro hfree
    exact Object.decode_insert_bind hbefore hinserted hfree Update.ofEnvelope_congr after
  · intro hfree
    exact Object.decode_insert_bind hbefore hinserted hfree Command.ofEnvelope_congr after

theorem decode_insert_unknown_reused :
    let inserted : Bytes := [10, 1, 9, 16, 6, 11, 2, 8, 5, 26, 0, 27, 0]
    let unknown : Object :=
      ⟨[(1, .bytes [9]), (2, .varint 6), (3, .bytes [])],
        [(1, ⟨[(1, .varint 5)], []⟩), (3, ∅)]⟩
    let other : Object := ⟨[(3, .varint 0)], [(2, ∅)]⟩
    Object.decode .standard [8, 7] = .ok ⟨[(1, .varint 7)], []⟩ ∧
    (Object.decode .standard inserted = .ok unknown ∧
      unknown.FreeOf [1] [2] ∧ unknown.FreeOf [1, 3] [2] ∧
      Data.decode .standard ([8, 7] ++ inserted ++ [19, 0]) = .ok ⟨7, ∅⟩ ∧
      Update.decode .standard ([8, 7] ++ inserted ++ [24, 4, 19, 0]) = .ok ⟨7, ∅, [4]⟩ ∧
      Update.decode .standard ([8, 7] ++ inserted ++ [24, 4, 19]) = .error .unexpectedEnd) ∧
    (Object.decode .standard [19, 0, 24, 0] = .ok other ∧ other.FreeOf [1, 2] [3] ∧
      Command.decode .standard ([8, 7] ++ [19, 0, 24, 0] ++ [16, 1, 27, 0]) =
        .ok ⟨7, 1, ∅⟩) := by
  intro inserted unknown other
  have hbefore : Object.decode .standard [8, 7] = .ok ⟨[(1, .varint 7)], []⟩ := by cbv
  have hinserted : Object.decode .standard inserted = .ok unknown := by cbv
  have hother : Object.decode .standard [19, 0, 24, 0] = .ok other := by cbv
  have hdata : unknown.FreeOf [1] [2] := ⟨by simp [unknown], by simp [unknown]⟩
  have hupdate : unknown.FreeOf [1, 3] [2] := ⟨by simp [unknown], by simp [unknown]⟩
  have hcommand : other.FreeOf [1, 2] [3] := ⟨by simp [other], by simp [other]⟩
  have hdataRest : Object.decode .standard ([8, 7] ++ [19, 0]) =
      .ok ⟨[(1, .varint 7)], [(2, ∅)]⟩ := by cbv
  have hupdateRest : Object.decode .standard ([8, 7] ++ [24, 4, 19, 0]) =
      .ok ⟨[(1, .varint 7), (3, .varint 4)], [(2, ∅)]⟩ := by cbv
  have hcutRest : Object.decode .standard ([8, 7] ++ [24, 4, 19]) = .error .unexpectedEnd := by cbv
  have hcommandRest : Object.decode .standard ([8, 7] ++ [16, 1, 27, 0]) =
      .ok ⟨[(1, .varint 7), (2, .varint 1)], [(3, ∅)]⟩ := by cbv
  refine ⟨hbefore, ⟨hinserted, hdata, hupdate, ?_, ?_, ?_⟩, hother, hcommand, ?_⟩
  · rw [(decode_insert_unknown hbefore hinserted _).1 hdata, Data.decode, hdataRest]
    rfl
  · rw [(decode_insert_unknown hbefore hinserted _).2.1 hupdate, Update.decode, hupdateRest]
    rfl
  · rw [(decode_insert_unknown hbefore hinserted _).2.1 hupdate, Update.decode, hcutRest]
    rfl
  · rw [(decode_insert_unknown hbefore hother _).2.2 hcommand, Command.decode, hcommandRest]
    rfl

end Block

end EntityRpc
