import EntityRpc.Proofs.Normalisation

namespace EntityRpc

namespace Object

mutual

/-- The levels of children below an object. -/
def height : Object → ℕ
  | ⟨_, children⟩ => childHeight children

def childHeight : List (FieldId × Object) → ℕ
  | [] => 0
  | (_, child) :: rest => max (child.height + 1) (childHeight rest)

end

theorem childHeight_append (a b : List (FieldId × Object)) :
    childHeight (a ++ b) = max (childHeight a) (childHeight b) := by
  induction a with
  | nil => exact (Nat.zero_max _).symm
  | cons entry a ih => rw [List.cons_append, childHeight, childHeight, ih, Nat.max_assoc]

theorem height_eq (object : Object) : object.height = childHeight object.children := by
  cases object
  rw [height]

theorem height_empty : (∅ : Object).height = 0 := by
  rw [height_eq, children_empty, childHeight]

theorem height_append (a b : Object) : (a ++ b).height = max a.height b.height := by
  rw [height_eq, height_eq a, height_eq b, children_append, childHeight_append]

theorem height_ofValue (field : FieldId) (value : Value) : (ofValue field value).height = 0 := by
  rw [ofValue, height, childHeight]

theorem height_ofChild (field : FieldId) (child : Object) :
    (ofChild field child).height = child.height + 1 := by
  rw [ofChild, height, childHeight, childHeight, Nat.max_zero]

end Object

namespace Layout

open Object

theorem two_mul_height_le_length (layout : Layout) :
    2 * layout.toObject.height ≤ layout.flatten.length := by
  induction layout with
  | nil => exact (congrArg (2 * ·) height_empty).le
  | varint head value rest ih =>
    rw [toObject_varint, height_append, height_ofValue, Nat.zero_max, flatten]
    simp only [List.length_append]
    omega
  | bytes head count data rest ih =>
    rw [toObject_bytes, height_append, height_ofValue, Nat.zero_max, flatten]
    simp only [List.length_append]
    omega
  | object head count body rest ihb ih =>
    -- A level costs two bytes at the least, the tag of the child and its length.
    rw [toObject_object, height_append, height_ofChild, flatten]
    simp only [List.length_append, Varint.Spelling.length_bytes]
    omega

theorem depth_add_height_le {limits : Limits} {depth : ℕ} (layout : Layout)
    (hdepth : depth ≤ limits.maxDepth.toNat) (h : layout.WellFormed limits depth) :
    depth + layout.toObject.height ≤ limits.maxDepth.toNat := by
  induction layout generalizing depth with
  | nil => exact hdepth
  | varint head value rest ih =>
    rw [toObject_varint, height_append, height_ofValue, Nat.zero_max]
    exact ih hdepth h
  | bytes head count data rest ih =>
    rw [toObject_bytes, height_append, height_ofValue, Nat.zero_max]
    exact ih hdepth h.2.2
  | object head count body rest ihb ih =>
    obtain ⟨-, -, hinner, hbody, hrest⟩ := h
    have hchild := ihb hinner hbody
    have hlater := ih hdepth hrest
    rw [toObject_object, height_append, height_ofChild]
    omega

end Layout

theorem Object.height_le_of_decode {limits : Limits} {input : Bytes} {object : Object}
    (h : decode limits input = .ok object) :
    object.height ≤ input.length / 2 ∧ object.height ≤ limits.maxDepth.toNat := by
  obtain ⟨layout, rfl, hwf, rfl⟩ := Layout.exists_of_decodeAt h
  have hbytes := layout.two_mul_height_le_length
  have hdepth := layout.depth_add_height_le (Nat.zero_le _) hwf
  omega

end EntityRpc
