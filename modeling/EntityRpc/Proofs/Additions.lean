import EntityRpc.Proofs.FieldStore

namespace EntityRpc

open FieldStore LawfulFieldStore

/-- A call that adds to an object. A child is filled by calls of its own. -/
inductive Addition where
  | u32 (field : FieldId) (value : UInt32)
  | bytes (field : FieldId) (data : Bytes)
  | child (field : FieldId) (content : List Addition)

namespace Addition

section Calls

variable {O : Type} [FieldStore O]

mutual

def addTo : Addition → O → O
  | u32 field value, object => addU32 object field value
  | bytes field data, object => addBytes object field data
  | child field content, object => addChild object field (addAll content)

def addAll : List Addition → O → O
  | [], object => object
  | addition :: later, object => addAll later (addition.addTo object)

end

end Calls

def u32At? (field : FieldId) : Addition → Option UInt32
  | u32 f value => if f = field then some value else none
  | bytes .. | child .. => none

def bytesAt? (field : FieldId) : Addition → Option Bytes
  | bytes f data => if f = field then some data else none
  | u32 .. | child .. => none

def childAt? (field : FieldId) : Addition → Option (List Addition)
  | child f content => if f = field then some content else none
  | u32 .. | bytes .. => none

def child? : Addition → Option (FieldId × List Addition)
  | child field content => some (field, content)
  | u32 .. | bytes .. => none

def isValue : Addition → Bool
  | u32 .. | bytes .. => true
  | child .. => false

mutual

/-- Two lists of calls that add the same values in the same order, and children under the same
fields in the same order, each with contents that are alike in turn. -/
inductive Alike : List Addition → List Addition → Prop
  | mk {first second : List Addition} (values : first.filter isValue = second.filter isValue)
      (children : AlikeChildren (first.filterMap child?) (second.filterMap child?)) :
      Alike first second

inductive AlikeChildren : List (FieldId × List Addition) → List (FieldId × List Addition) → Prop
  | nil : AlikeChildren [] []
  | cons {field : FieldId} {first second : List Addition}
      {firsts seconds : List (FieldId × List Addition)} (content : Alike first second)
      (later : AlikeChildren firsts seconds) :
      AlikeChildren ((field, first) :: firsts) ((field, second) :: seconds)

end

theorem induction_on_children {P : List Addition → Prop}
    (h : ∀ additions, (∀ field content, child field content ∈ additions → P content) → P additions)
    (additions : List Addition) : P additions := by
  refine h additions fun field content hmem ↦ ?_
  have hsize := List.sizeOf_lt_of_mem hmem
  exact induction_on_children h content
termination_by sizeOf additions
decreasing_by
  simp only [child.sizeOf_spec] at hsize
  omega

section Runs

variable {O α : Type} [FieldStore O]

/-- A read on which the last call that bears on it decides. -/
theorem read_addAll (read : O → Option α) {added? : Addition → Option α}
    (h : ∀ addition object, read (addition.addTo object) = (added? addition).or (read object))
    (additions : List Addition) (object : O) :
    read (addAll additions object) = (additions.filterMap added?).getLast?.or (read object) := by
  induction additions generalizing object with
  | nil => rfl
  | cons addition later ih =>
    rw [addAll, ih, h]
    cases hadded : added? addition with
    | none => rw [List.filterMap_cons_none hadded, Option.none_or]
    | some a =>
      rw [List.filterMap_cons_some hadded, List.getLast?_cons]
      cases (later.filterMap added?).getLast? <;> rfl

theorem list_addAll (list : O → List α) {added? : Addition → Option α}
    (h : ∀ addition object, list (addition.addTo object) = list object ++ (added? addition).toList)
    (additions : List Addition) (object : O) :
    list (addAll additions object) = list object ++ additions.filterMap added? := by
  induction additions generalizing object with
  | nil => exact (List.append_nil _).symm
  | cons addition later ih =>
    rw [addAll, ih, h, List.append_assoc]
    cases hadded : added? addition with
    | none => rw [List.filterMap_cons_none hadded]; rfl
    | some a => rw [List.filterMap_cons_some hadded]; rfl

variable [LawfulFieldStore O]

theorem u32?_addTo (field : FieldId) (addition : Addition) (object : O) :
    u32? (addition.addTo object) field = (addition.u32At? field).or (u32? object field) := by
  cases addition with
  | u32 f value =>
    rw [addTo, u32?_addU32, u32At?]
    split <;> rfl
  | bytes f data => exact u32?_addBytes object f field data
  | child f content => exact u32?_addChild object f field (addAll content)

theorem bytes?_addTo (field : FieldId) (addition : Addition) (object : O) :
    bytes? (addition.addTo object) field = (addition.bytesAt? field).or (bytes? object field) := by
  cases addition with
  | u32 f value => exact bytes?_addU32 object f field value
  | bytes f data =>
    rw [addTo, bytes?_addBytes, bytesAt?]
    split <;> rfl
  | child f content => exact bytes?_addChild object f field (addAll content)

theorem u32?_addAll (field : FieldId) (additions : List Addition) (object : O) :
    u32? (addAll additions object) field =
      (additions.filterMap (u32At? field)).getLast?.or (u32? object field) :=
  read_addAll (u32? · field) (u32?_addTo field) additions object

theorem bytes?_addAll (field : FieldId) (additions : List Addition) (object : O) :
    bytes? (addAll additions object) field =
      (additions.filterMap (bytesAt? field)).getLast?.or (bytes? object field) :=
  read_addAll (bytes? · field) (bytes?_addTo field) additions object

end Runs

def value? : Addition → Option (FieldId × Value)
  | u32 field value => some (field, .varint value.toUInt64)
  | bytes field data => some (field, .bytes data)
  | child .. => none

def ofValue : FieldId × Value → Addition
  | (field, .varint value) => u32 field value.toUInt32
  | (field, .bytes data) => bytes field data

theorem ofValue_of_value? {addition : Addition} {entry : FieldId × Value}
    (h : addition.value? = some entry) : ofValue entry = addition := by
  cases addition with
  | u32 field value =>
    obtain rfl := Option.some.inj h
    rw [ofValue, UInt32.toUInt32_toUInt64]
  | bytes field data =>
    obtain rfl := Option.some.inj h
    rfl
  | child => contradiction

theorem filter_isValue_eq (additions : List Addition) :
    additions.filter isValue = (additions.filterMap value?).map ofValue := by
  induction additions with
  | nil => rfl
  | cons addition later ih =>
    cases hvalue : addition.value? with
    | none =>
      cases addition with
      | child => exact ih
      | u32 | bytes => contradiction
    | some entry =>
      have hpos : addition.isValue := by
        cases addition with
        | u32 | bytes => rfl
        | child => contradiction
      rw [List.filter_cons_of_pos hpos, List.filterMap_cons_some hvalue, List.map_cons, ih,
        ofValue_of_value? hvalue]

theorem filterMap_value?_filter (additions : List Addition) :
    (additions.filter isValue).filterMap value? = additions.filterMap value? := by
  rw [List.filterMap_filter]
  refine congrArg (List.filterMap · additions) (funext fun addition ↦ ?_)
  cases addition <;> rfl

/-- Calls that add the same entries add the same values, since no two of them come to one entry. -/
theorem filterMap_value?_eq_iff {first second : List Addition} :
    first.filterMap value? = second.filterMap value? ↔
      first.filter isValue = second.filter isValue := by
  constructor
  · intro h
    rw [filter_isValue_eq, filter_isValue_eq, h]
  · intro h
    rw [← filterMap_value?_filter, h, filterMap_value?_filter]

end Addition

namespace Object

theorem u32s_append (a b : Object) (field : FieldId) :
    (a ++ b).u32s field = a.u32s field ++ b.u32s field := by
  rw [u32s, varintsAt_append, List.filterMap_append]
  rfl

theorem u32s_ofValue (field other : FieldId) (value : Value) :
    (ofValue field value).u32s other =
      if field = other then (value.varint?.bind narrow?).toList else [] := by
  rw [u32s, varintsAt_ofValue]
  split
  · cases value.varint? with
    | none => rfl
    | some number => cases h : narrow? number <;> simp [h]
  · rfl

end Object

namespace Addition

def content (additions : List Addition) : Object := addAll additions ∅

section Objects

variable (addition : Addition) (object : Object)

theorem values_addTo :
    (addition.addTo object).values = object.values ++ addition.value?.toList := by
  cases addition <;> rfl

theorem children_addTo :
    (addition.addTo object).children = object.children ++
      (addition.child?.map fun entry ↦ (entry.1, content entry.2)).toList := by
  cases addition <;> rfl

theorem childrenAt_addTo (field : FieldId) :
    (addition.addTo object).childrenAt field = object.childrenAt field ++
      ((addition.childAt? field).map content).toList := by
  cases addition with
  | u32 f value => exact (held_addU32 object f field value).trans (List.append_nil _).symm
  | bytes f data => exact (held_addBytes object f field data).trans (List.append_nil _).symm
  | child f additions =>
    refine (held_addChild object f field (addAll additions)).trans ?_
    rw [childAt?]
    split
    · rfl
    · exact (List.append_nil _).symm

theorem u32s_addTo (field : FieldId) :
    (addition.addTo object).u32s field = object.u32s field ++ (addition.u32At? field).toList := by
  cases addition with
  | u32 f value =>
    refine (Object.u32s_append object _ field).trans (congrArg (object.u32s field ++ ·) ?_)
    rw [Object.u32s_ofValue, u32At?]
    split
    · exact congrArg Option.toList (Object.narrow?_toUInt64 value)
    · rfl
  | bytes f data =>
    refine (Object.u32s_append object _ field).trans (congrArg (object.u32s field ++ ·) ?_)
    rw [Object.u32s_ofValue]
    exact ite_self _
  | child f content => exact Object.u32s_append object _ field

variable (additions : List Addition)

theorem values_addAll :
    (addAll additions object).values = object.values ++ additions.filterMap value? :=
  list_addAll Object.values values_addTo additions object

theorem children_addAll :
    (addAll additions object).children = object.children ++
      (additions.filterMap child?).map fun entry ↦ (entry.1, content entry.2) := by
  rw [List.map_filterMap]
  exact list_addAll Object.children children_addTo additions object

theorem childrenAt_addAll (field : FieldId) :
    (addAll additions object).childrenAt field =
      object.childrenAt field ++ (additions.filterMap (childAt? field)).map content := by
  rw [List.map_filterMap]
  exact list_addAll (Object.childrenAt · field)
    (fun addition object ↦ childrenAt_addTo addition object field) additions object

theorem u32s_addAll (field : FieldId) :
    (addAll additions object).u32s field =
      object.u32s field ++ additions.filterMap (u32At? field) :=
  list_addAll (Object.u32s · field) (fun addition object ↦ u32s_addTo addition object field)
    additions object

end Objects

section Alike

variable {first second : List Addition}

theorem addAll_eq_iff (object : Object) :
    addAll first object = addAll second object ↔
      first.filter isValue = second.filter isValue ∧
        ((first.filterMap child?).map fun entry ↦ (entry.1, content entry.2)) =
          (second.filterMap child?).map fun entry ↦ (entry.1, content entry.2) := by
  rw [← filterMap_value?_eq_iff]
  constructor
  · intro h
    have hvalues := congrArg Object.values h
    have hchildren := congrArg Object.children h
    rw [values_addAll, values_addAll] at hvalues
    rw [children_addAll, children_addAll] at hchildren
    exact ⟨List.append_cancel_left hvalues, List.append_cancel_left hchildren⟩
  · rintro ⟨hvalues, hchildren⟩
    apply Object.ext
    · rw [values_addAll, values_addAll, hvalues]
    · rw [children_addAll, children_addAll, hchildren]

mutual

theorem Alike.addAll_eq : ∀ {first second : List Addition}, Alike first second →
    ∀ object : Object, addAll first object = addAll second object
  | _, _, .mk values children, object =>
    (addAll_eq_iff object).2 ⟨values, children.map_content_eq⟩

theorem AlikeChildren.map_content_eq : ∀ {firsts seconds : List (FieldId × List Addition)},
    AlikeChildren firsts seconds →
      (firsts.map fun entry ↦ (entry.1, content entry.2)) =
        seconds.map fun entry ↦ (entry.1, content entry.2)
  | _, _, .nil => rfl
  | _, _, .cons alike later => by
    rw [List.map_cons, List.map_cons, later.map_content_eq]
    exact congrArg (fun object ↦ (_, object) :: _) (alike.addAll_eq ∅)

end

theorem alikeChildren_of_map_content_eq {firsts seconds : List (FieldId × List Addition)}
    (ih : ∀ field additions, (field, additions) ∈ firsts → ∀ other,
      content additions = content other → Alike additions other)
    (h : (firsts.map fun entry ↦ (entry.1, content entry.2)) =
      seconds.map fun entry ↦ (entry.1, content entry.2)) :
    AlikeChildren firsts seconds := by
  induction firsts generalizing seconds with
  | nil =>
    obtain rfl := List.map_eq_nil_iff.1 h.symm
    exact .nil
  | cons entry firsts ihl =>
    cases seconds with
    | nil => simp at h
    | cons other seconds =>
      obtain ⟨field, additions⟩ := entry
      obtain ⟨field', additions'⟩ := other
      obtain ⟨hentry, hlater⟩ := List.cons.inj h
      obtain ⟨rfl, hcontent⟩ := Prod.mk.inj hentry
      refine .cons (ih field additions List.mem_cons_self additions' hcontent) (ihl ?_ hlater)
      intro field additions hmem
      exact ih field additions (List.mem_cons_of_mem _ hmem)

theorem alike_of_content_eq (first : List Addition) :
    ∀ second, content first = content second → Alike first second := by
  induction first using induction_on_children with
  | h first ih =>
    intro second h
    obtain ⟨hvalues, hchildren⟩ := (addAll_eq_iff ∅).1 h
    refine .mk hvalues (alikeChildren_of_map_content_eq ?_ hchildren)
    intro field additions hmem
    obtain ⟨addition, haddition, hchild⟩ := List.mem_filterMap.1 hmem
    cases addition with
    | child f content =>
      obtain ⟨rfl, rfl⟩ := Prod.mk.inj (Option.some.inj hchild)
      exact ih _ _ haddition
    | u32 | bytes => contradiction

end Alike

/-- Whatever an object held, it afterwards holds what calls added to it. Of the numbers and of the
blobs under a field the last one added is read, and what the object held before only if none was
added. Children and numbers are listed after those that were there. Two lists of calls make the same
object exactly if they are alike. -/
theorem recorded_by_object (object : Object) (additions : List Addition) :
    (∀ field,
      u32? (addAll additions object) field =
        (additions.filterMap (u32At? field)).getLast?.or (u32? object field) ∧
      bytes? (addAll additions object) field =
        (additions.filterMap (bytesAt? field)).getLast?.or (bytes? object field) ∧
      children (addAll additions object) field =
        children object field ++ (additions.filterMap (childAt? field)).map content ∧
      (addAll additions object).u32s field =
        object.u32s field ++ additions.filterMap (u32At? field)) ∧
    ∀ other, addAll additions object = addAll other object ↔ Alike additions other := by
  refine ⟨?_, ?_⟩
  · intro field
    exact ⟨u32?_addAll field additions object, bytes?_addAll field additions object,
      childrenAt_addAll object additions field, u32s_addAll object additions field⟩
  · intro other
    constructor
    · intro h
      exact alike_of_content_eq additions other ((addAll_eq_iff ∅).2 ((addAll_eq_iff object).1 h))
    · intro h
      exact h.addAll_eq object

-- A number too wide to be read hides nothing that is added after it, and values and children under
-- one field stay apart.
example :
    let object : Object := .ofValue 1 (.varint 4294967296)
    let additions := [child 1 [bytes 1 [7]], u32 1 5, bytes 1 [8, 9], child 1 []]
    u32? object 1 = none ∧ u32? (addAll additions object) 1 = some 5 ∧
      bytes? (addAll additions object) 1 = some [8, 9] ∧
      (children (addAll additions object) 1).map (bytes? · 1) = [some [7], none] := by
  decide

end Addition

end EntityRpc
