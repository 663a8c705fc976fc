import EntityRpc.Proofs.Canonical
import EntityRpc.Proofs.Concatenation

namespace EntityRpc

namespace Layout

protected def append : Layout → Layout → Layout
  | nil, later => later
  | varint head value rest, later => varint head value (rest.append later)
  | bytes head count data rest, later => bytes head count data (rest.append later)
  | object head count body rest, later => object head count body (rest.append later)

instance : Append Layout := ⟨Layout.append⟩

section Append

variable (head : Head .varint) (blob : Head .bytes) (child : Head .object)
variable (count : Varint.Spelling) (data : Bytes) (body rest later : Layout)

@[simp] theorem nil_append : nil ++ later = later := rfl

@[simp] theorem varint_append :
    varint head count rest ++ later = varint head count (rest ++ later) := rfl

@[simp] theorem bytes_append :
    bytes blob count data rest ++ later = bytes blob count data (rest ++ later) := rfl

@[simp] theorem object_append :
    object child count body rest ++ later = object child count body (rest ++ later) := rfl

end Append

theorem flatten_append (first second : Layout) :
    (first ++ second).flatten = first.flatten ++ second.flatten := by
  induction first with
  | nil => rfl
  | varint head value rest ih => simp [flatten, ih]
  | bytes head count data rest ih => simp [flatten, ih]
  | object head count body rest _ ih => simp [flatten, ih]

theorem wellFormed_append {limits : Limits} {depth : ℕ} {first second : Layout} :
    (first ++ second).WellFormed limits depth ↔
      first.WellFormed limits depth ∧ second.WellFormed limits depth := by
  induction first with
  | nil => simp [WellFormed]
  | varint head value rest ih => simpa [WellFormed] using ih
  | bytes head count data rest ih => simp [WellFormed, ih, and_assoc]
  | object head count body rest _ ih => simp [WellFormed, ih, and_assoc]

def tails : Layout → List Layout
  | nil => [nil]
  | varint head value rest => varint head value rest :: rest.tails
  | bytes head count data rest => bytes head count data rest :: rest.tails
  | object head count body rest => object head count body rest :: rest.tails

theorem mem_tails_self (layout : Layout) : layout ∈ layout.tails := by
  cases layout <;> simp [tails]

theorem mem_tails_append (first second : Layout) : second ∈ (first ++ second).tails := by
  induction first with
  | nil => exact mem_tails_self second
  | varint head value rest ih => simp [tails, ih]
  | bytes head count data rest ih => simp [tails, ih]
  | object head count body rest _ ih => simp [tails, ih]

theorem exists_append_of_mem_tails {layout tail : Layout} (h : tail ∈ layout.tails) :
    ∃ first, first ++ tail = layout := by
  induction layout with
  | nil => exact ⟨nil, List.mem_singleton.1 h⟩
  | varint head value rest ih =>
    rcases List.mem_cons.1 h with rfl | h
    · exact ⟨nil, rfl⟩
    · obtain ⟨first, rfl⟩ := ih h
      exact ⟨varint head value first, rfl⟩
  | bytes head count data rest ih =>
    rcases List.mem_cons.1 h with rfl | h
    · exact ⟨nil, rfl⟩
    · obtain ⟨first, rfl⟩ := ih h
      exact ⟨bytes head count data first, rfl⟩
  | object head count body rest _ ih =>
    rcases List.mem_cons.1 h with rfl | h
    · exact ⟨nil, rfl⟩
    · obtain ⟨first, rfl⟩ := ih h
      exact ⟨object head count body first, rfl⟩

end Layout

/-- The cut between two parts is not within an entry of the object itself: the second part starts
with one of these entries, or is what remains after the last. -/
def CutBetweenEntries (first second : Bytes) : Prop :=
  ∃ layout : Layout, layout.flatten = first ++ second ∧ layout.Counted ∧
    ∃ tail ∈ layout.tails, tail.flatten = second

namespace Object

variable {limits : Limits} {first second : Bytes}

theorem decode_of_append {object : Object} (h : decode limits (first ++ second) = .ok object) :
    decode limits first = .error .unexpectedEnd ∨
      ∃ part later, decode limits first = .ok part ∧ decode limits second = .ok later ∧
        object = part ++ later := by
  rcases decodeAt_append limits 0 first second with hend | happend
  · exact .inl hend
  · right
    rw [decode, happend] at h
    obtain ⟨part, hpart, h⟩ := bind_eq_ok.1 h
    obtain ⟨later, hlater, rfl⟩ := map_eq_ok.1 h
    exact ⟨part, later, hpart, hlater, rfl⟩

theorem cutBetweenEntries_of_decode {part later : Object} (hfirst : decode limits first = .ok part)
    (hsecond : decode limits second = .ok later) : CutBetweenEntries first second := by
  obtain ⟨front, rfl, hfront, -⟩ := Layout.exists_of_decodeAt hfirst
  obtain ⟨tail, rfl, htail, -⟩ := Layout.exists_of_decodeAt hsecond
  refine ⟨front ++ tail, Layout.flatten_append front tail, ?_, tail, ?_, rfl⟩
  · exact Layout.counted_of_wellFormed _ (Layout.wellFormed_append.2 ⟨hfront, htail⟩)
  · exact Layout.mem_tails_append front tail

theorem exists_decode_of_cutBetweenEntries {object : Object}
    (h : decode limits (first ++ second) = .ok object) (hcut : CutBetweenEntries first second) :
    ∃ part, decode limits first = .ok part := by
  obtain ⟨layout, hflatten, hcounted, tail, htail, rfl⟩ := hcut
  -- The bytes are laid out in one way only, so the limits are kept by the layout that is cut.
  obtain ⟨whole, hwhole, hwf, -⟩ := Layout.exists_of_decodeAt h
  obtain rfl : whole = layout := Layout.eq_of_flatten_eq (Layout.counted_of_wellFormed _ hwf)
    hcounted (hwhole.trans hflatten.symm)
  obtain ⟨front, rfl⟩ := Layout.exists_append_of_mem_tails htail
  rw [Layout.flatten_append] at hflatten
  obtain rfl := List.append_cancel_right hflatten
  exact ⟨front.toObject, front.decodeAt_flatten (Nat.zero_le _) (Layout.wellFormed_append.1 hwf).1⟩

/-- Of bytes that can be read, a first part either ends too early or gives the first of the
entries, and the latter exactly if it is cut off between two entries. Any other error in a first
part is the error of the whole. -/
theorem decode_truncated (limits : Limits) (first second : Bytes) :
    (∀ object, decode limits (first ++ second) = .ok object →
      (decode limits first = .error .unexpectedEnd ∨
        ∃ part, decode limits first = .ok part ∧ part.values <+: object.values ∧
          part.children <+: object.children) ∧
      ((∃ part, decode limits first = .ok part) ↔ CutBetweenEntries first second)) ∧
    ∀ e, decode limits first = .error e → e ≠ .unexpectedEnd →
      decode limits (first ++ second) = .error e := by
  constructor
  · intro object h
    refine ⟨?_, ?_, exists_decode_of_cutBetweenEntries h⟩
    · rcases decode_of_append h with hend | ⟨part, later, hpart, -, rfl⟩
      · exact .inl hend
      · exact .inr ⟨part, hpart, List.prefix_append _ _, List.prefix_append _ _⟩
    · rintro ⟨part, hpart⟩
      rcases decode_of_append h with hend | ⟨_, later, -, hlater, -⟩
      · rw [hend] at hpart
        contradiction
      · exact cutBetweenEntries_of_decode hpart hlater
  · intro e he hne
    exact decode_append_of_error he hne second

theorem decode_truncated_nested :
    let object : Object := ⟨[(1, .varint 7)], [(2, ⟨[(5, .varint 5)], []⟩)]⟩
    decode .standard ([19, 2, 40] ++ [5, 8, 7]) = .ok object ∧
      decode .standard [19, 2, 40] = .error .unexpectedEnd ∧
      ¬ CutBetweenEntries [19, 2, 40] [5, 8, 7] ∧
      decode .standard [19, 2, 40, 5] = .ok ⟨[], [(2, ⟨[(5, .varint 5)], []⟩)]⟩ ∧
      CutBetweenEntries [19, 2, 40, 5] [8, 7] ∧
      decode .standard ([8, 7, 9] ++ [5]) = .error (.invalidWireType 1) := by
  intro object
  have h : decode .standard ([19, 2, 40] ++ [5, 8, 7]) = .ok object := by cbv
  have hend : decode .standard [19, 2, 40] = .error .unexpectedEnd := by cbv
  have hcut : decode .standard [19, 2, 40, 5] = .ok ⟨[], [(2, ⟨[(5, .varint 5)], []⟩)]⟩ := by cbv
  have hwire : decode .standard [8, 7, 9] = .error (.invalidWireType 1) := by cbv
  refine ⟨h, hend, ?_, hcut, ?_, (decode_truncated _ _ _).2 _ hwire (by simp)⟩
  · intro hbetween
    obtain ⟨part, hpart⟩ := ((decode_truncated _ _ _).1 _ h).2.2 hbetween
    rw [hend] at hpart
    contradiction
  · exact ((decode_truncated .standard [19, 2, 40, 5] [8, 7]).1 object h).2.1 ⟨_, hcut⟩

end Object

end EntityRpc
