import EntityRpc.Object.Encode
import EntityRpc.Proofs.Frame

namespace EntityRpc

open Limits

namespace Object

def valueBytes (values : List (FieldId × Value)) : Bytes :=
  values.flatMap fun (field, value) ↦ (value.frame field).encode

mutual

/-- The bytes of an object whatever the limits. -/
def bytes : Object → Bytes
  | ⟨values, children⟩ => valueBytes values ++ childBytes children

def childBytes : List (FieldId × Object) → Bytes
  | [] => []
  | (field, child) :: rest => (Frame.object field child.bytes).encode ++ childBytes rest

end

def valueSize (values : List (FieldId × Value)) : ℕ :=
  (values.map fun (field, value) ↦ (value.frame field).size).sum

mutual

def size : Object → ℕ
  | ⟨values, children⟩ => valueSize values + childSize children

def childSize : List (FieldId × Object) → ℕ
  | [] => 0
  | (field, child) :: rest =>
    Tag.entrySize ⟨field, .object⟩ child.size child.size + childSize rest

end

theorem length_valueBytes (values : List (FieldId × Value)) :
    (valueBytes values).length = valueSize values := by
  simp only [valueBytes, valueSize, List.length_flatMap, Frame.length_encode]

mutual

theorem length_bytes : ∀ object : Object, object.bytes.length = object.size
  | ⟨values, children⟩ => by
    rw [bytes, size, List.length_append, length_valueBytes, length_childBytes children]

theorem length_childBytes : ∀ children, (childBytes children).length = childSize children
  | [] => rfl
  | (field, child) :: rest => by
    rw [childBytes, childSize, List.length_append, Frame.length_encode, length_childBytes rest,
      ← length_bytes child]
    rfl

end

theorem childSize_eq (children : List (FieldId × Object)) :
    childSize children =
      (children.map fun entry ↦ Tag.entrySize ⟨entry.1, .object⟩ entry.2.size entry.2.size).sum := by
  induction children with
  | nil => rfl
  | cons entry rest ih => rw [childSize, ih, List.map_cons, List.sum_cons]

theorem size_append (a b : Object) : (a ++ b).size = a.size + b.size := by
  obtain ⟨values, children⟩ := a
  obtain ⟨values', children'⟩ := b
  change valueSize (values ++ values') + childSize (children ++ children') = _
  rw [size, size, valueSize, List.map_append, List.sum_append, childSize_eq, List.map_append,
    List.sum_append, ← childSize_eq, ← childSize_eq, Nat.add_add_add_comm]
  rfl

theorem size_ofValue (field : FieldId) (value : Value) :
    (ofValue field value).size = (value.frame field).size := by
  rw [ofValue, size]
  simp [valueSize, childSize]

theorem size_ofChild (field : FieldId) (child : Object) :
    (ofChild field child).size = Tag.entrySize ⟨field, .object⟩ child.size child.size := by
  rw [ofChild, size]
  simp [valueSize, childSize]

section Violations

variable (limits : Limits)

def valueViolations (values : List (FieldId × Value)) : List Violation :=
  values.flatMap fun (field, value) ↦ limits.lengthViolations (value.frame field).run.length

mutual

/-- All that keeps an object at a given depth from being written, in the order in which it
would be found. -/
def violations (depth : ℕ) : Object → List Violation
  | ⟨values, children⟩ =>
    limits.depthViolations depth ++
      (valueViolations limits values ++ childViolations (depth + 1) children)

def childViolations (depth : ℕ) : List (FieldId × Object) → List Violation
  | [] => []
  | (_, child) :: rest =>
    child.violations depth ++ (limits.lengthViolations child.size ++ childViolations depth rest)

end

theorem childViolations_eq (depth : ℕ) (children : List (FieldId × Object)) :
    childViolations limits depth children =
      children.flatMap fun entry ↦
        entry.2.violations limits depth ++ limits.lengthViolations entry.2.size := by
  induction children with
  | nil => rfl
  | cons entry children ih => rw [childViolations, ih, List.flatMap_cons, List.append_assoc]

theorem encodeValues_eq (values : List (FieldId × Value)) :
    encodeValues limits values = verdict (valueViolations limits values) (valueBytes values) := by
  have h : values.mapM (fun (field, value) ↦ (value.frame field).encodeWithin limits) =
      verdict (valueViolations limits values)
        (values.map fun (field, value) ↦ (value.frame field).encode) :=
    mapM_verdict (fun (field, value) ↦ (value.frame field).encodeWithin_eq limits) values
  rw [encodeValues, h, verdict_map]
  rfl

mutual

theorem encodeAt_eq (depth : ℕ) : ∀ object : Object,
    object.encodeAt limits depth = verdict (object.violations limits depth) object.bytes
  | ⟨values, children⟩ => by
    rw [encodeAt, violations, bytes, checkDepth_eq, encodeValues_eq]
    refine verdict_bind (verdict_bind ?_)
    rw [encodeChildren_eq (depth + 1) children]
    exact verdict_bind_pure _

theorem encodeChildren_eq (depth : ℕ) : ∀ children,
    encodeChildren limits depth children =
      verdict (childViolations limits depth children) (childBytes children)
  | [] => rfl
  | (field, child) :: rest => by
    rw [encodeChildren, childViolations, childBytes, encodeAt_eq depth child]
    refine verdict_bind ?_
    rw [Frame.encodeWithin_eq, ← length_bytes]
    refine verdict_bind ?_
    rw [encodeChildren_eq depth rest]
    exact verdict_bind_pure _

end

end Violations

def Fits (limits : Limits) (depth : ℕ) (object : Object) : Prop :=
  object.violations limits depth = []

variable {limits : Limits} {depth : ℕ}

theorem encodeAt_eq_ok_iff {object : Object} {output : Bytes} :
    object.encodeAt limits depth = .ok output ↔
      object.Fits limits depth ∧ object.bytes = output := by
  rw [encodeAt_eq, verdict_eq_ok_iff, Fits]

theorem childViolations_eq_nil_iff {children : List (FieldId × Object)} :
    childViolations limits depth children = [] ↔
      ∀ entry ∈ children, entry.2.Fits limits depth ∧ entry.2.size ≤ limits.maxLength.toNat := by
  rw [childViolations_eq, List.flatMap_eq_nil_iff]
  simp only [List.append_eq_nil_iff, lengthViolations_eq_nil_iff, Fits]

theorem fits_iff {object : Object} :
    object.Fits limits depth ↔
      depth ≤ limits.maxDepth.toNat ∧
      (∀ entry ∈ object.values,
        (entry.2.frame entry.1).run.length ≤ limits.maxLength.toNat) ∧
      ∀ entry ∈ object.children,
        entry.2.Fits limits (depth + 1) ∧ entry.2.size ≤ limits.maxLength.toNat := by
  obtain ⟨values, children⟩ := object
  rw [Fits, violations, List.append_eq_nil_iff, List.append_eq_nil_iff,
    depthViolations_eq_nil_iff, childViolations_eq_nil_iff, valueViolations,
    List.flatMap_eq_nil_iff]
  simp only [lengthViolations_eq_nil_iff]

theorem fits_empty : (∅ : Object).Fits limits depth ↔ depth ≤ limits.maxDepth.toNat := by
  rw [fits_iff]
  simp

theorem fits_append {a b : Object} :
    (a ++ b).Fits limits depth ↔ a.Fits limits depth ∧ b.Fits limits depth := by
  rw [fits_iff, @fits_iff _ _ a, @fits_iff _ _ b, values_append, children_append,
    List.forall_mem_append, List.forall_mem_append]
  tauto

theorem fits_ofValue {field : FieldId} {value : Value} :
    (ofValue field value).Fits limits depth ↔
      depth ≤ limits.maxDepth.toNat ∧
        (value.frame field).run.length ≤ limits.maxLength.toNat := by
  rw [fits_iff]
  simp [ofValue]

theorem fits_ofChild {field : FieldId} {child : Object} :
    (ofChild field child).Fits limits depth ↔
      depth ≤ limits.maxDepth.toNat ∧ child.Fits limits (depth + 1) ∧
        child.size ≤ limits.maxLength.toNat := by
  rw [fits_iff]
  simp [ofChild]

theorem bytes_value_append (field : FieldId) (value : Value) (object : Object) :
    (ofValue field value ++ object).bytes = (value.frame field).encode ++ object.bytes := by
  obtain ⟨values, children⟩ := object
  change (valueBytes ((field, value) :: values)) ++ childBytes children = _
  rw [valueBytes, List.flatMap_cons, List.append_assoc]
  rfl

theorem bytes_child_append (field : FieldId) (child : Object) {object : Object}
    (h : object.values = []) :
    (ofChild field child ++ object).bytes =
      (Frame.object field child.bytes).encode ++ object.bytes := by
  obtain ⟨values, children⟩ := object
  obtain rfl : values = [] := h
  rfl

end Object

end EntityRpc
