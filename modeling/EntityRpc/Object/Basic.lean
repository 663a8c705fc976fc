import EntityRpc.Ident

namespace EntityRpc

inductive Value where
  | varint (value : UInt64)
  | bytes (data : Bytes)
deriving BEq, ReflBEq, LawfulBEq, Repr

instance : DecidableEq Value := instDecidableEqOfLawfulBEq

namespace Value

def varint? : Value → Option UInt64
  | varint value => some value
  | bytes _ => none

def bytes? : Value → Option Bytes
  | varint _ => none
  | bytes data => some data

end Value

/-- A schema object: values and child objects under field ids, each in the order they were
added. A field may occur any number of times. -/
structure Object where
  values : List (FieldId × Value) := []
  children : List (FieldId × Object) := []

namespace Object

instance : EmptyCollection Object := ⟨{}⟩
instance : Inhabited Object := ⟨∅⟩

def isEmpty (object : Object) : Bool := object.values.isEmpty && object.children.isEmpty

protected def append (first second : Object) : Object where
  values := first.values ++ second.values
  children := first.children ++ second.children

instance : Append Object := ⟨Object.append⟩

@[simp] theorem values_empty : (∅ : Object).values = [] := rfl

@[simp] theorem children_empty : (∅ : Object).children = [] := rfl

@[simp] theorem values_append (a b : Object) : (a ++ b).values = a.values ++ b.values := rfl

@[simp] theorem children_append (a b : Object) :
    (a ++ b).children = a.children ++ b.children := rfl

theorem ext {a b : Object} (hv : a.values = b.values) (hc : a.children = b.children) : a = b := by
  cases a
  cases b
  exact congr (congrArg Object.mk hv) hc

@[simp] theorem empty_append (a : Object) : ∅ ++ a = a := ext rfl rfl

@[simp] theorem append_empty (a : Object) : a ++ ∅ = a :=
  ext (List.append_nil _) (List.append_nil _)

theorem append_assoc (a b c : Object) : a ++ b ++ c = a ++ (b ++ c) :=
  ext (List.append_assoc ..) (List.append_assoc ..)

def ofValue (field : FieldId) (value : Value) : Object := { values := [(field, value)] }

def ofChild (field : FieldId) (child : Object) : Object := { children := [(field, child)] }

mutual

protected def beq : Object → Object → Bool
  | ⟨values, children⟩, ⟨values', children'⟩ =>
    values == values' && beqChildren children children'

def beqChildren : List (FieldId × Object) → List (FieldId × Object) → Bool
  | [], [] => true
  | (field, child) :: rest, (field', child') :: rest' =>
    field == field' && child.beq child' && beqChildren rest rest'
  | _, _ => false

end

instance : BEq Object := ⟨Object.beq⟩

mutual

theorem eq_of_beq : ∀ {a b : Object}, a.beq b → a = b
  | ⟨_, _⟩, ⟨_, _⟩, h => by
    simp only [Object.beq, Bool.and_eq_true, beq_iff_eq] at h
    rw [h.1, eq_of_beqChildren h.2]

theorem eq_of_beqChildren : ∀ {a b : List (FieldId × Object)}, beqChildren a b → a = b
  | [], [], _ => rfl
  | (_, _) :: _, (_, _) :: _, h => by
    simp only [beqChildren, Bool.and_eq_true, beq_iff_eq] at h
    rw [h.1.1, eq_of_beq h.1.2, eq_of_beqChildren h.2]
  | [], _ :: _, h | _ :: _, [], h => by simp [beqChildren] at h

end

mutual

theorem beq_refl : ∀ a : Object, a.beq a
  | ⟨_, children⟩ => by simp [Object.beq, beqChildren_refl children]

theorem beqChildren_refl : ∀ a : List (FieldId × Object), beqChildren a a
  | [] => rfl
  | (_, child) :: rest => by simp [beqChildren, beq_refl child, beqChildren_refl rest]

end

instance : LawfulBEq Object where
  eq_of_beq := eq_of_beq
  rfl := beq_refl _

instance : DecidableEq Object := instDecidableEqOfLawfulBEq

variable (object : Object) (field : FieldId)

def varintsAt : List UInt64 :=
  object.values.filterMap fun (f, value) ↦ if f = field then value.varint? else none

def bytesAt : List Bytes :=
  object.values.filterMap fun (f, value) ↦ if f = field then value.bytes? else none

def childrenAt : List Object :=
  object.children.filterMap fun (f, child) ↦ if f = field then some child else none

@[simp] theorem varintsAt_append (a b : Object) :
    (a ++ b).varintsAt field = a.varintsAt field ++ b.varintsAt field :=
  List.filterMap_append

@[simp] theorem bytesAt_append (a b : Object) :
    (a ++ b).bytesAt field = a.bytesAt field ++ b.bytesAt field :=
  List.filterMap_append

@[simp] theorem childrenAt_append (a b : Object) :
    (a ++ b).childrenAt field = a.childrenAt field ++ b.childrenAt field :=
  List.filterMap_append

end Object

end EntityRpc
