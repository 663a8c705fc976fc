import EntityRpc.Proofs.Decoding

namespace EntityRpc

open Varint (Spelling)

/-- A spelling of a tag: the wire type stands in the low three bits, and the field id in the
thirty-two above them. It is not zero. -/
structure Head (wireType : WireType) extends Spelling where
  code_eq : toSpelling.number % 8 = wireType.code.toNat
  one_le : 1 ≤ toSpelling.number / 8
  le_max : toSpelling.number / 8 ≤ 2 ^ 32 - 1

namespace Head

variable {wireType : WireType} (head : Head wireType)

def field : FieldId := UInt32.ofNat (head.number / 8)

theorem toNat_field : head.field.toNat = head.number / 8 :=
  UInt32.toNat_ofNat_of_lt' (Nat.lt_of_le_pred (by decide) head.le_max)

theorem field_ne_zero : head.field ≠ 0 := by
  intro h
  have hzero : head.field.toNat = 0 := congrArg UInt32.toNat h
  have := head.one_le
  rw [toNat_field] at hzero
  omega

theorem number_eq : head.number = (Tag.mk head.field wireType).toNat := by
  rw [Tag.toNat_eq, toNat_field, ← head.code_eq]
  omega

end Head

theorem exists_head {s : Spelling} {field : FieldId} {wireType : WireType}
    (h : s.number = (Tag.mk field wireType).toNat) (hfield : field ≠ 0) :
    ∃ head : Head wireType, head.toSpelling = s ∧ head.field = field := by
  replace h : s.number = field.toNat * 8 + wireType.code.toNat := h
  have hcode := Tag.code_lt wireType
  have hlt := field.toNat_lt
  have hpos : field.toNat ≠ 0 := fun h0 ↦ hfield (UInt32.toNat_inj.1 h0)
  have hdiv : s.number / 8 = field.toNat := by omega
  have hmod : s.number % 8 = wireType.code.toNat := by omega
  refine ⟨⟨s, hmod, by omega, by omega⟩, rfl, ?_⟩
  rw [Head.field, hdiv, UInt32.ofNat_toNat]

/-- The entries of an object as they may stand on the wire, each with the spellings of its
tag and of the number that follows: a value, or the length of what comes next. -/
inductive Layout where
  | nil
  | varint (head : Head .varint) (value : Spelling) (rest : Layout)
  | bytes (head : Head .bytes) (count : Spelling) (data : Bytes) (rest : Layout)
  | object (head : Head .object) (count : Spelling) (body rest : Layout)

namespace Layout

def flatten : Layout → Bytes
  | nil => []
  | varint head value rest => head.bytes ++ (value.bytes ++ rest.flatten)
  | bytes head count data rest => head.bytes ++ (count.bytes ++ (data ++ rest.flatten))
  | object head count body rest =>
    head.bytes ++ (count.bytes ++ (body.flatten ++ rest.flatten))

def values : Layout → List (FieldId × Value)
  | nil => []
  | varint head value rest => (head.field, .varint (UInt64.ofNat value.number)) :: rest.values
  | bytes head _ data rest => (head.field, .bytes data) :: rest.values
  | object _ _ _ rest => rest.values

def children : Layout → List (FieldId × Object)
  | nil => []
  | varint _ _ rest | bytes _ _ _ rest => rest.children
  | object head _ body rest => (head.field, ⟨body.values, body.children⟩) :: rest.children

/-- Counts that are kept, and limits that are not passed, in entries at a given depth. -/
def WellFormed (limits : Limits) : ℕ → Layout → Prop
  | _, nil => True
  | depth, varint _ _ rest => rest.WellFormed limits depth
  | depth, bytes _ count data rest =>
    count.number ≤ limits.maxLength.toNat ∧ data.length = count.number ∧
      rest.WellFormed limits depth
  | depth, object _ count body rest =>
    count.number ≤ limits.maxLength.toNat ∧ body.flatten.length = count.number ∧
      depth + 1 ≤ limits.maxDepth.toNat ∧ body.WellFormed limits (depth + 1) ∧
      rest.WellFormed limits depth

def toObject (layout : Layout) : Object := ⟨layout.values, layout.children⟩

variable {limits : Limits} {depth : ℕ}

theorem decodeAt_flatten (layout : Layout) (hdepth : depth ≤ limits.maxDepth.toNat)
    (h : layout.WellFormed limits depth) :
    Object.decodeAt limits depth layout.flatten = .ok layout.toObject := by
  induction layout generalizing depth with
  | nil => exact Object.decodeAt_nil hdepth
  | varint head value rest ih =>
    have hvalue : value.number = (UInt64.ofNat value.number).toNat :=
      (UInt64.toNat_ofNat_of_lt' value.number_lt).symm
    refine Object.decodeAt_eq_ok_iff.2 ⟨hdepth, .inr
      ⟨.varint head.field (UInt64.ofNat value.number), rest.flatten, _, _, ?_, rfl,
        ih hdepth h, rfl⟩⟩
    exact Frame.decode_eq_ok_iff.2
      ⟨head.toSpelling, value, rfl, head.number_eq, head.field_ne_zero, hvalue, Nat.zero_le _⟩
  | bytes head count data rest ih =>
    obtain ⟨hcount, hlen, hrest⟩ := h
    refine Object.decodeAt_eq_ok_iff.2 ⟨hdepth, .inr
      ⟨.bytes head.field data, rest.flatten, _, _, ?_, rfl, ih hdepth hrest, rfl⟩⟩
    exact Frame.decode_eq_ok_iff.2
      ⟨head.toSpelling, count, rfl, head.number_eq, head.field_ne_zero, hlen.symm,
        hlen.trans_le hcount⟩
  | object head count body rest ihb ih =>
    obtain ⟨hcount, hlen, hinner, hbody, hrest⟩ := h
    refine Object.decodeAt_eq_ok_iff.2 ⟨hdepth, .inr
      ⟨.object head.field body.flatten, rest.flatten, _, _, ?_,
        map_eq_ok.2 ⟨body.toObject, ihb hinner hbody, rfl⟩, ih hdepth hrest, rfl⟩⟩
    exact Frame.decode_eq_ok_iff.2
      ⟨head.toSpelling, count, rfl, head.number_eq, head.field_ne_zero, hlen.symm,
        hlen.trans_le hcount⟩

theorem exists_of_decodeAt {input : Bytes} {object : Object}
    (h : Object.decodeAt limits depth input = .ok object) :
    ∃ layout : Layout, layout.flatten = input ∧ layout.WellFormed limits depth ∧
      layout.toObject = object := by
  induction hn : input.length using Nat.strong_induction_on generalizing input depth object with
  | _ n ih =>
  obtain ⟨hdepth, h⟩ := Object.decodeAt_eq_ok_iff.1 h
  rcases h with ⟨rfl, rfl⟩ | ⟨frame, tail, entry, object', hf, hentry, htail, rfl⟩
  · exact ⟨nil, rfl, trivial, rfl⟩
  · have hlt : frame.run.length + tail.length < n := hn ▸ Frame.decode_length_lt hf
    have hrun : frame.run.length < n := (Nat.le_add_right _ _).trans_lt hlt
    obtain ⟨s, count, rfl, hs, hfield, hcount, hlen⟩ := Frame.decode_eq_ok_iff.1 hf
    obtain ⟨rest, rfl, hrest, rfl⟩ := ih tail.length ((Nat.le_add_left _ _).trans_lt hlt) htail rfl
    cases frame with
    | varint field value =>
      obtain rfl := Except.ok.inj hentry
      obtain ⟨head, rfl, rfl⟩ := exists_head hs hfield
      have hvalue : UInt64.ofNat count.number = value := by
        rw [hcount]
        exact UInt64.ofNat_toNat
      subst hvalue
      exact ⟨varint head count rest, rfl, hrest, rfl⟩
    | bytes field data =>
      obtain rfl := Except.ok.inj hentry
      obtain ⟨head, rfl, rfl⟩ := exists_head hs hfield
      exact ⟨bytes head count data rest, rfl, ⟨hcount.trans_le hlen, hcount.symm, hrest⟩, rfl⟩
    | object field run =>
      obtain ⟨child, hchild, rfl⟩ := map_eq_ok.1 hentry
      obtain ⟨head, rfl, rfl⟩ := exists_head hs hfield
      have hinner := (Object.decodeAt_eq_ok_iff.1 hchild).1
      obtain ⟨body, rfl, hbody, rfl⟩ := ih run.length hrun hchild rfl
      exact ⟨object head count body rest, rfl,
        ⟨hcount.trans_le hlen, hcount.symm, hinner, hbody, hrest⟩, rfl⟩

/-- The reader accepts exactly the bytes that have a layout within the limits, and returns
the entries of that layout. -/
theorem decode_eq_ok_iff_exists_layout {input : Bytes} {object : Object} :
    Object.decode limits input = .ok object ↔
      ∃ layout : Layout, input = layout.flatten ∧ layout.WellFormed limits 0 ∧
        object.values = layout.values ∧ object.children = layout.children := by
  constructor
  · intro h
    obtain ⟨layout, rfl, hwf, rfl⟩ := exists_of_decodeAt h
    exact ⟨layout, rfl, hwf, rfl, rfl⟩
  · intro ⟨layout, hinput, hwf, hvalues, hchildren⟩
    have hobject : object = layout.toObject := Object.ext hvalues hchildren
    rw [hinput, hobject]
    exact decodeAt_flatten layout (Nat.zero_le _) hwf

end Layout

end EntityRpc
