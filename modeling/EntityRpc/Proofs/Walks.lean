import EntityRpc.Proofs.FieldStore

namespace EntityRpc

open FieldStore

section Indexed

variable {α : Type}

/-- A walk holds the elements at 0, 1, 2, …, and ends where it has `count` of them or where the next
one is missing, whichever comes first. -/
structure IsWalk (count : ℕ) (element? : UInt32 → Option α) (walk : List α) : Prop where
  length_le : walk.length ≤ count
  element : ∀ i a, walk[i]? = some a → element? (UInt32.ofNat i) = some a
  ends : walk.length = count ∨ element? (UInt32.ofNat walk.length) = none

variable {count : ℕ} {element? : UInt32 → Option α} {a : α} {walk : List α}

theorem isWalk_zero_iff : IsWalk 0 element? walk ↔ walk = [] := by
  constructor
  · intro h
    exact List.eq_nil_of_length_eq_zero (Nat.le_zero.1 h.length_le)
  · rintro rfl
    exact ⟨Nat.le_refl 0, by simp, .inl rfl⟩

theorem isWalk_nil_iff : IsWalk (count + 1) element? [] ↔ element? 0 = none := by
  constructor
  · intro h
    rcases h.ends with hcount | hnone
    · contradiction
    · exact hnone
  · intro h
    exact ⟨Nat.zero_le _, by simp, .inr h⟩

theorem isWalk_cons_iff :
    IsWalk (count + 1) element? (a :: walk) ↔
      element? 0 = some a ∧ IsWalk count (fun i ↦ element? (i + 1)) walk := by
  have hnext (i : ℕ) : UInt32.ofNat i + 1 = UInt32.ofNat (i + 1) := (UInt32.ofNat_add i 1).symm
  constructor
  · intro h
    refine ⟨h.element 0 a rfl, Nat.le_of_succ_le_succ h.length_le, ?_, ?_⟩
    · intro i b hb
      rw [hnext]
      exact h.element (i + 1) b hb
    · rw [hnext]
      exact h.ends.imp_left Nat.succ.inj
  · rintro ⟨hfirst, h⟩
    refine ⟨Nat.succ_le_succ h.length_le, ?_, ?_⟩
    · intro i b hb
      cases i with
      | zero => exact hfirst.trans hb
      | succ i =>
        rw [← hnext]
        exact h.element i b hb
    · rw [List.length_cons, ← hnext]
      exact h.ends.imp_left (congrArg Nat.succ)

theorem collectIndexed_go_next (element? : UInt32 → Option α) (count : ℕ) (i : UInt32) :
    collectIndexed.go element? count (i + 1) =
      collectIndexed.go (fun i ↦ element? (i + 1)) count i := by
  induction count generalizing i with
  | zero => rfl
  | succ count ih =>
    rw [collectIndexed.go, collectIndexed.go]
    cases element? (i + 1) with
    | none => rfl
    | some a => exact congrArg (a :: ·) (ih (i + 1))

theorem collectIndexed_go_eq_iff :
    collectIndexed.go element? count 0 = walk ↔ IsWalk count element? walk := by
  induction count generalizing element? walk with
  | zero => rw [isWalk_zero_iff, collectIndexed.go, eq_comm]
  | succ count ih =>
    have hgo := collectIndexed_go_next element? count 0
    rw [collectIndexed.go]
    cases hfirst : element? 0 with
    | none =>
      cases walk with
      | nil => simp [isWalk_nil_iff, hfirst]
      | cons b walk => simp [isWalk_cons_iff, hfirst]
    | some a =>
      cases walk with
      | nil => simp [isWalk_nil_iff, hfirst]
      | cons b walk =>
        rw [isWalk_cons_iff, ← ih, ← hgo, hfirst]
        simp

theorem collectIndexed_eq_iff {count : UInt32} :
    collectIndexed count element? = walk ↔ IsWalk count.toNat element? walk :=
  collectIndexed_go_eq_iff

theorem collectIndexed_eq_take {l : List α} (count : UInt32)
    (h : ∀ i, element? i = l[i.toNat]?) : collectIndexed count element? = l.take count.toNat := by
  have hindex {i : ℕ} (hi : i ≤ count.toNat) : (UInt32.ofNat i).toNat = i :=
    UInt32.toNat_ofNat_of_lt' (Nat.lt_of_le_of_lt hi count.toNat_lt)
  refine collectIndexed_eq_iff.2 ⟨List.length_take_le _ _, ?_, ?_⟩
  · intro i a ha
    obtain ⟨hi, -⟩ := List.getElem?_eq_some_iff.1 ha
    rw [List.length_take] at hi
    rw [h, hindex (by omega), ← ha, List.getElem?_take_of_lt (by omega)]
  · rw [h, hindex (List.length_take_le _ _), List.length_take, List.getElem?_eq_none_iff]
    omega

end Indexed

/-- A store that walks its children the interface's own way, whatever way it has itself. -/
abbrev FieldStore.walkingByIndex (O : Type) [FieldStore O] : FieldStore O where
  empty := empty
  u32? := u32?
  addU32 := addU32
  bytes? := bytes?
  addBytes := addBytes
  addChild := addChild
  child? := child?
  childCount := childCount

namespace Object

/-- A child under a field that has `i` others under the field before it. -/
def NthChild (object : Object) (field : FieldId) (i : ℕ) (child : Object) : Prop :=
  ∃ before after, object.children = before ++ (field, child) :: after ∧
    (before.countP fun entry ↦ entry.1 = field) = i

variable {object : Object} {field : FieldId}

theorem length_filterMap_at (entries : List (FieldId × Object)) (field : FieldId) :
    (entries.filterMap fun (f, child) ↦ if f = field then some child else none).length =
      entries.countP fun entry ↦ entry.1 = field := by
  rw [List.length_filterMap_eq_countP]
  refine List.countP_congr ?_
  intro entry _
  by_cases h : entry.1 = field <;> simp [h]

theorem length_childrenAt (object : Object) (field : FieldId) :
    (object.childrenAt field).length = object.children.countP fun entry ↦ entry.1 = field :=
  length_filterMap_at object.children field

theorem getElem?_childrenAt_eq_some_iff {i : ℕ} {child : Object} :
    (object.childrenAt field)[i]? = some child ↔ object.NthChild field i child := by
  constructor
  · intro h
    obtain ⟨hi, hchild⟩ := List.getElem?_eq_some_iff.1 h
    have hsplit : object.childrenAt field =
        (object.childrenAt field).take i ++ child :: (object.childrenAt field).drop (i + 1) := by
      rw [← hchild, ← List.drop_eq_getElem_cons hi, List.take_append_drop]
    -- The entries up to the child are cut where the walk has `i` children, and then again at the
    -- child itself, as entries under other fields may come between.
    obtain ⟨earlier, rest, hentries, htake, hrest⟩ := List.filterMap_eq_append_iff.1 hsplit
    obtain ⟨between, entry, after, rfl, hbetween, hentry, -⟩ := List.filterMap_eq_cons_iff.1 hrest
    obtain rfl : entry = (field, child) := child_at_eq_some_iff.1 hentry
    refine ⟨earlier ++ between, after, by rw [hentries, List.append_assoc], ?_⟩
    have hnone : (between.filterMap fun (f, child) ↦ if f = field then some child else none) = [] :=
      List.filterMap_eq_nil_iff.2 hbetween
    rw [← length_filterMap_at, List.filterMap_append, hnone, List.append_nil, htake,
      List.length_take_of_le (Nat.le_of_lt hi)]
  · rintro ⟨before, after, hchildren, rfl⟩
    rw [childrenAt, hchildren, List.filterMap_append, ← length_filterMap_at,
      List.getElem?_append_right (Nat.le_refl _)]
    simp

theorem walkingByIndex_children_eq (object : Object) (field : FieldId) :
    (walkingByIndex Object).children object field =
      (object.childrenAt field).take (min (object.childrenAt field).length (UInt32.size - 1)) := by
  rw [← toNat_childCount]
  exact collectIndexed_eq_take _ fun _ ↦ rfl

end Object

namespace FieldStore

/-- An object's walk visits all children under a field in the order they were added, and the
children by index are those of the walk. The interface's own walk over the object stops only at the
largest number that a count can be. Over any store, whatever its counts and its gaps, that walk
gives the children at 0, 1, 2, …, up to the first that is missing or the number it is told. -/
theorem walk_agrees_with_index :
    (∀ (object : Object) (field : FieldId),
      let stored := object.children.countP fun entry ↦ entry.1 = field
      let walk := children object field
      (walk.length = stored ∧
        ∀ i child, walk[i]? = some child ↔ object.NthChild field i child) ∧
      (childCount object field).toNat = min stored (UInt32.size - 1) ∧
      (∀ i : UInt32, child? object field i = walk[i.toNat]? ∧
        (child? object field i = none ↔ stored ≤ i.toNat)) ∧
      (walkingByIndex Object).children object field = walk.take (min stored (UInt32.size - 1)) ∧
      (stored < UInt32.size → (walkingByIndex Object).children object field = walk)) ∧
    ∀ (O : Type) [FieldStore O] (object : O) (field : FieldId) (walk : List O),
      (walkingByIndex O).children object field = walk ↔
        IsWalk (childCount object field).toNat (child? object field) walk := by
  refine ⟨?_, ?_⟩
  · intro object field stored walk
    have hstored : walk.length = stored := Object.length_childrenAt object field
    have hindexed := Object.walkingByIndex_children_eq object field
    rw [Object.length_childrenAt] at hindexed
    refine ⟨⟨hstored, ?_⟩, ?_, ?_, hindexed, ?_⟩
    · intro i child
      exact Object.getElem?_childrenAt_eq_some_iff
    · rw [← hstored]
      exact Object.toNat_childCount object field
    · intro i
      refine ⟨rfl, ?_⟩
      rw [← hstored]
      exact List.getElem?_eq_none_iff
    · intro hlt
      have hmin : min stored (UInt32.size - 1) = walk.length := by
        rw [hstored]
        exact Nat.min_eq_left (Nat.le_pred_of_lt hlt)
      rw [hindexed]
      exact (congrArg (List.take · walk) hmin).trans (List.take_length)
  · intro O _ object field walk
    exact collectIndexed_eq_iff

theorem walk_agrees_with_index_interleaved :
    let a : Object := .ofValue 5 (.varint 1)
    let b : Object := .ofValue 5 (.varint 2)
    let object : Object := ⟨[(1, .bytes [7])], [(1, a), (2, ∅), (1, b), (2, b), (1, a)]⟩
    ((object.children.countP fun entry ↦ entry.1 = 1) < UInt32.size ∧
      (walkingByIndex Object).children object 1 = [a, b, a] ∧
      child? object 1 3 = none) ∧
    let gap : FieldStore Object := { (inferInstance : FieldStore Object) with
      childCount := fun _ _ ↦ 9
      child? := fun object field i ↦ if i = 2 then none else object.child? field i }
    (@walkingByIndex Object gap).children object 1 = [a, b] := by
  intro a b object
  obtain ⟨hobject, hany⟩ := walk_agrees_with_index
  obtain ⟨-, -, hchild, -, hindexed⟩ := hobject object 1
  have hlt : (object.children.countP fun entry ↦ entry.1 = 1) < UInt32.size := by decide
  refine ⟨⟨hlt, hindexed hlt, (hchild 3).2.2 (by decide)⟩, ?_⟩
  intro gap
  refine (@hany Object gap object 1 [a, b]).2 ⟨by decide, ?_, .inr rfl⟩
  intro i child h
  match i with
  | 0 | 1 => exact h
  | i + 2 => simp at h

end FieldStore

end EntityRpc
