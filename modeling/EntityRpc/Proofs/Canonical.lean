import EntityRpc.Proofs.Injectivity
import EntityRpc.Proofs.Normalisation

namespace EntityRpc

open Varint (Spelling)

namespace Head

variable {wireType wireType' : WireType}

theorem wireType_eq {head : Head wireType} {head' : Head wireType'} {a b : Bytes}
    (h : head.bytes ++ a = head'.bytes ++ b) : wireType = wireType' := by
  obtain ⟨hspelling, -⟩ := Spelling.append_inj h
  have hcode : wireType.code.toNat = wireType'.code.toNat := by
    rw [← head.code_eq, ← head'.code_eq, hspelling]
  exact WireType.code_injective (UInt8.toNat_inj.1 hcode)

theorem append_inj {head head' : Head wireType} {a b : Bytes}
    (h : head.bytes ++ a = head'.bytes ++ b) : head = head' ∧ a = b := by
  obtain ⟨hspelling, hrest⟩ := Spelling.append_inj h
  refine ⟨?_, hrest⟩
  cases head
  cases head'
  simp_all

theorem bytes_ne_nil (head : Head wireType) : head.bytes ≠ [] :=
  List.append_ne_nil_of_right_ne_nil _ (List.cons_ne_nil _ _)

theorem bytes_eq_encode {head : Head wireType} (h : head.Shortest) :
    head.bytes = (Tag.mk head.field wireType).encode := by
  rw [Spelling.shortest_iff.1 h, head.number_eq]
  rfl

end Head

theorem exists_shortest {n : ℕ} (h : n < 2 ^ 64) :
    ∃ s : Spelling, s.bytes = Varint.encode n ∧ s.number = n ∧ s.Shortest := by
  obtain ⟨s, hs, rfl⟩ := Varint.exists_spelling h
  exact ⟨s, hs, rfl, Spelling.shortest_iff.2 hs⟩

theorem exists_shortest_head {field : FieldId} (wireType : WireType) (hfield : field ≠ 0) :
    ∃ head : Head wireType, head.field = field ∧
      head.bytes = (Tag.mk field wireType).encode ∧ head.Shortest := by
  obtain ⟨s, hs, hnumber, hshort⟩ := exists_shortest (Tag.toNat_lt ⟨field, wireType⟩)
  obtain ⟨head, rfl, rfl⟩ := exists_head hnumber hfield
  exact ⟨head, rfl, hs, hshort⟩

namespace Layout

def Counted : Layout → Prop
  | nil => True
  | varint _ _ rest => rest.Counted
  | bytes _ count data rest => data.length = count.number ∧ rest.Counted
  | object _ count body rest =>
    body.flatten.length = count.number ∧ body.Counted ∧ rest.Counted

/-- Every number is in its shortest spelling, and no value comes after a child of the
same object. -/
def Canonical : Layout → Prop
  | nil => True
  | varint head value rest => head.Shortest ∧ value.Shortest ∧ rest.Canonical
  | bytes head count _ rest => head.Shortest ∧ count.Shortest ∧ rest.Canonical
  | object head count body rest =>
    head.Shortest ∧ count.Shortest ∧ body.Canonical ∧ rest.values = [] ∧ rest.Canonical

theorem counted_of_wellFormed {limits : Limits} {depth : ℕ} (layout : Layout)
    (h : layout.WellFormed limits depth) : layout.Counted := by
  induction layout generalizing depth with
  | nil => trivial
  | varint head value rest ih => exact ih h
  | bytes head count data rest ih => exact ⟨h.2.1, ih h.2.2⟩
  | object head count body rest ihb ih =>
    obtain ⟨-, hlen, -, hbody, hrest⟩ := h
    exact ⟨hlen, ihb hbody, ih hrest⟩

/-- Bytes are laid out in one way at most. -/
theorem eq_of_flatten_eq {a b : Layout} (ha : a.Counted) (hb : b.Counted)
    (h : a.flatten = b.flatten) : a = b := by
  induction a generalizing b with
  | nil =>
    cases b with
    | nil => rfl
    | varint head | bytes head | object head =>
      exact (head.bytes_ne_nil (List.append_eq_nil_iff.1 h.symm).1).elim
  | varint head value rest ih =>
    cases b with
    | nil => exact (head.bytes_ne_nil (List.append_eq_nil_iff.1 h).1).elim
    | varint head' value' rest' =>
      obtain ⟨rfl, hvalue⟩ := Head.append_inj h
      obtain ⟨rfl, hrest⟩ := Spelling.append_inj hvalue
      rw [@ih rest' ha hb hrest]
    | bytes | object =>
      exact WireType.noConfusion (Head.wireType_eq h)
  | bytes head count data rest ih =>
    cases b with
    | nil => exact (head.bytes_ne_nil (List.append_eq_nil_iff.1 h).1).elim
    | bytes head' count' data' rest' =>
      obtain ⟨rfl, hcount⟩ := Head.append_inj h
      obtain ⟨rfl, hrun⟩ := Spelling.append_inj hcount
      obtain ⟨rfl, hrest⟩ := List.append_inj hrun (ha.1.trans hb.1.symm)
      rw [ih ha.2 hb.2 hrest]
    | varint | object =>
      exact WireType.noConfusion (Head.wireType_eq h)
  | object head count body rest ihb ih =>
    cases b with
    | nil => exact (head.bytes_ne_nil (List.append_eq_nil_iff.1 h).1).elim
    | object head' count' body' rest' =>
      obtain ⟨rfl, hcount⟩ := Head.append_inj h
      obtain ⟨rfl, hrun⟩ := Spelling.append_inj hcount
      obtain ⟨hbody, hrest⟩ := List.append_inj hrun (ha.1.trans hb.1.symm)
      rw [ihb ha.2.1 hb.2.1 hbody, ih ha.2.2 hb.2.2 hrest]
    | varint | bytes =>
      exact WireType.noConfusion (Head.wireType_eq h)

theorem bytes_toObject {layout : Layout} (hcounted : layout.Counted) (h : layout.Canonical) :
    layout.toObject.bytes = layout.flatten := by
  induction layout with
  | nil => rfl
  | varint head value rest ih =>
    obtain ⟨hhead, hvalue, hrest⟩ := h
    have hnumber : (UInt64.ofNat value.number).toNat = value.number :=
      UInt64.toNat_ofNat_of_lt' value.number_lt
    rw [toObject_varint, Object.bytes_value_append, ih hcounted hrest, Frame.encode_eq, flatten,
      Head.bytes_eq_encode hhead, Spelling.shortest_iff.1 hvalue]
    simp [Value.frame, Frame.tag, Frame.number, Frame.run, hnumber]
  | bytes head count data rest ih =>
    obtain ⟨hlen, hcounted⟩ := hcounted
    obtain ⟨hhead, hcount, hrest⟩ := h
    rw [toObject_bytes, Object.bytes_value_append, ih hcounted hrest, Frame.encode_eq, flatten,
      Head.bytes_eq_encode hhead, Spelling.shortest_iff.1 hcount, ← hlen]
    simp [Value.frame, Frame.tag, Frame.number, Frame.run]
  | object head count body rest ihb ih =>
    obtain ⟨hlen, hinner, hcounted⟩ := hcounted
    obtain ⟨hhead, hcount, hbody, hvalues, hrest⟩ := h
    rw [toObject_object, Object.bytes_child_append _ _ hvalues, ihb hinner hbody,
      ih hcounted hrest, Frame.encode_eq, flatten, Head.bytes_eq_encode hhead,
      Spelling.shortest_iff.1 hcount, ← hlen]
    simp [Frame.tag, Frame.number, Frame.run]

theorem exists_canonical {limits : Limits} {depth : ℕ} {object : Object}
    (h : object.Fits limits depth) (hids : 0 ∉ object.fieldIds) :
    ∃ layout : Layout, layout.toObject = object ∧ layout.flatten = object.bytes ∧
      layout.Counted ∧ layout.Canonical := by
  induction object using Object.entries_induction generalizing depth with
  | empty => exact ⟨nil, rfl, rfl, trivial, trivial⟩
  | value field value object ih =>
    obtain ⟨hvalue, hfits⟩ := Object.fits_append.1 h
    obtain ⟨-, hlen⟩ := Object.fits_ofValue.1 hvalue
    rw [Object.mem_fieldIds_append, Object.mem_fieldIds_ofValue, not_or] at hids
    obtain ⟨rest, rfl, hrest, hcounted, hcanonical⟩ := ih hfits hids.2
    obtain ⟨count, hcount, hnumber, hcountShort⟩ := exists_shortest (Frame.number_lt hlen)
    rw [Object.bytes_value_append, ← hrest, Frame.encode_eq, ← hcount]
    cases value with
    | varint value =>
      obtain ⟨head, rfl, hhead, hheadShort⟩ := exists_shortest_head .varint (Ne.symm hids.1)
      refine ⟨varint head count rest, ?_, ?_, hcounted, hheadShort, hcountShort, hcanonical⟩
      · rw [toObject_varint, hnumber]
        simp [Value.frame, Frame.number]
      · simp [flatten, hhead, Value.frame, Frame.tag, Frame.run]
    | bytes data =>
      obtain ⟨head, rfl, hhead, hheadShort⟩ := exists_shortest_head .bytes (Ne.symm hids.1)
      refine ⟨bytes head count data rest, rfl, ?_, ⟨hnumber.symm, hcounted⟩, hheadShort,
        hcountShort, hcanonical⟩
      simp [flatten, hhead, Value.frame, Frame.tag, Frame.run]
  | child field child object hvalues ihc ih =>
    obtain ⟨hchild, hfits⟩ := Object.fits_append.1 h
    obtain ⟨-, hinner, hsize⟩ := Object.fits_ofChild.1 hchild
    rw [Object.mem_fieldIds_append, Object.mem_fieldIds_ofChild, not_or, not_or] at hids
    obtain ⟨body, rfl, hbody, hbodyCounted, hbodyCanonical⟩ := ihc hinner hids.1.2
    obtain ⟨rest, rfl, hrest, hcounted, hcanonical⟩ := ih hfits hids.2
    obtain ⟨head, rfl, hhead, hheadShort⟩ := exists_shortest_head .object (Ne.symm hids.1.1)
    rw [← Object.length_bytes, ← hbody] at hsize
    obtain ⟨count, hcount, hnumber, hcountShort⟩ :=
      exists_shortest (hsize.trans_lt limits.maxLength.toNat_lt)
    refine ⟨object head count body rest, rfl, ?_, ⟨hnumber.symm, hbodyCounted, hcounted⟩,
      hheadShort, hcountShort, hbodyCanonical, hvalues, hcanonical⟩
    rw [Object.bytes_child_append _ _ hvalues, ← hrest, ← hbody, Frame.encode_eq]
    simp [flatten, hhead, hcount, Frame.tag, Frame.number, Frame.run]

end Layout

/-- Bytes that are laid out canonically at every level. -/
def CanonicalBytes (input : Bytes) : Prop :=
  ∃ layout : Layout, layout.flatten = input ∧ layout.Counted ∧ layout.Canonical

namespace Object

variable {limits : Limits}

/-- A field id of zero is written like any other, but no layout has one. -/
theorem canonicalBytes_bytes_iff {depth : ℕ} {object : Object} (h : object.Fits limits depth) :
    CanonicalBytes object.bytes ↔ 0 ∉ object.fieldIds := by
  constructor
  · rintro ⟨layout, hlaid, hcounted, hcanonical⟩
    have hbytes : layout.toObject.bytes = object.bytes :=
      (Layout.bytes_toObject hcounted hcanonical).trans hlaid
    rw [← eq_of_bytes_eq hbytes]
    exact layout.zero_notMem_fieldIds_toObject
  · intro hids
    obtain ⟨layout, -, hlaid, hcounted, hcanonical⟩ := Layout.exists_canonical h hids
    exact ⟨layout, hlaid, hcounted, hcanonical⟩

/-- An object is written back as the bytes it was read from exactly if these are canonical. -/
theorem encode_eq_input_iff_canonical {input : Bytes} {object : Object}
    (h : decode limits input = .ok object) :
    object.encode limits = .ok input ↔ CanonicalBytes input := by
  obtain ⟨layout, hflatten, hwf, rfl⟩ := Layout.exists_of_decodeAt h
  have hfits : layout.toObject.Fits limits 0 := layout.fits_toObject (Nat.zero_le _) hwf
  constructor
  · intro hencode
    obtain ⟨-, hbytes⟩ := encodeAt_eq_ok_iff.1 hencode
    rw [← hbytes, canonicalBytes_bytes_iff hfits]
    exact layout.zero_notMem_fieldIds_toObject
  · rintro ⟨canonical, hlaid, hcounted, hcanonical⟩
    obtain rfl : canonical = layout := Layout.eq_of_flatten_eq hcounted
      (layout.counted_of_wellFormed hwf) (hlaid.trans hflatten.symm)
    exact encodeAt_eq_ok_iff.2 ⟨hfits, (Layout.bytes_toObject hcounted hcanonical).trans hlaid⟩

theorem encode_eq_input_iff_canonical_padded :
    let object : Object := ⟨[(1, .varint 300)], [(2, ⟨[(5, .varint 5)], []⟩)]⟩
    let input : Bytes := [8, 172, 2, 19, 2, 40, 5]
    let padded : Bytes := [147, 0, 130, 0, 40, 5, 8, 172, 130, 0]
    (decode .standard input = .ok object ∧ CanonicalBytes input) ∧
      decode .standard padded = .ok object ∧ ¬ CanonicalBytes padded := by
  intro object input padded
  have hinput : decode .standard input = .ok object := by cbv
  have hpadded : decode .standard padded = .ok object := by cbv
  have hencode : object.encode .standard = .ok input := by cbv
  refine ⟨⟨hinput, (encode_eq_input_iff_canonical hinput).1 hencode⟩, hpadded, ?_⟩
  intro hcanonical
  have hsame := (encode_eq_input_iff_canonical hpadded).2 hcanonical
  rw [hencode] at hsame
  exact absurd (Except.ok.inj hsame) (by decide)

end Object

end EntityRpc
