import EntityRpc.Proofs.Decoding

namespace EntityRpc

variable {α β : Type}

/-- Bytes that are added to the input are left over after the reading, and change nothing about an
error. Only a reading that ran out of bytes may go on. -/
def Streaming (read : Bytes → Except DecodeError (α × Bytes)) : Prop :=
  ∀ input more, read input = .error .unexpectedEnd ∨
    read (input ++ more) = (read input).map fun (a, rest) ↦ (a, rest ++ more)

namespace Streaming

theorem pure (a : α) : Streaming fun input ↦ .ok (a, input) := fun _ _ ↦ .inr rfl

theorem after (check : Except DecodeError α) {read : α → Bytes → Except DecodeError (β × Bytes)}
    (h : ∀ a, Streaming (read a)) : Streaming fun input ↦ check >>= fun a ↦ read a input := by
  intro input more
  cases check with
  | error e => exact .inr rfl
  | ok a => exact h a input more

theorem bind {read : Bytes → Except DecodeError (α × Bytes)}
    {next : α → Bytes → Except DecodeError (β × Bytes)} (hread : Streaming read)
    (hnext : ∀ a, Streaming (next a)) :
    Streaming fun input ↦ read input >>= fun (a, rest) ↦ next a rest := by
  intro input more
  rcases hread input more with hend | hmore
  · left
    simp only [hend]
    rfl
  · cases hinput : read input with
    | error e =>
      right
      simp only [hmore, hinput]
      rfl
    | ok result =>
      simp only [hmore, hinput]
      exact hnext result.1 result.2 more

theorem map {read : Bytes → Except DecodeError (α × Bytes)} (h : Streaming read) (f : α → β) :
    Streaming fun input ↦ (read input).map fun (a, rest) ↦ (f a, rest) := by
  intro input more
  rcases h input more with hend | hmore
  · left
    simp only [hend]
    rfl
  · right
    simp only [hmore]
    cases read input <;> rfl

end Streaming

namespace Varint

theorem streaming_decodeGroups (more : ℕ) : Streaming (decodeGroups more) := by
  intro input rest
  fun_induction decodeGroups more input with
  | case1 => exact .inl rfl
  | case2 byte tail hlt =>
    right
    rw [List.cons_append, decodeGroups, if_pos hlt]
    rfl
  | case3 byte tail hle =>
    right
    rw [List.cons_append, decodeGroups, if_neg hle]
    rfl
  | case4 more byte tail hlt =>
    right
    rw [List.cons_append, decodeGroups, if_pos hlt]
    rfl
  | case5 more byte tail hge ih =>
    rcases ih with hend | hmore
    · left
      rw [hend]
      rfl
    · right
      rw [List.cons_append, decodeGroups, if_neg hge, hmore]
      cases decodeGroups more tail <;> rfl

theorem streaming_decode : Streaming decode := (streaming_decodeGroups _).map UInt64.ofNat

end Varint

theorem Tag.streaming_decode : Streaming decode :=
  Varint.streaming_decode.bind fun n ↦ .after (ofNat n.toNat) .pure

namespace Frame

theorem streaming_takeRun (count : ℕ) :
    Streaming fun input ↦
      if (input.take count).length < count then .error .unexpectedEnd
      else .ok (input.take count, input.drop count) := by
  intro input more
  by_cases h : (input.take count).length < count
  · exact .inl (if_pos h)
  · have hle : count ≤ input.length := by
      rw [List.length_take] at h
      omega
    right
    simp only [List.take_append_of_le_length hle, List.drop_append_of_le_length hle, if_neg h]
    rfl

theorem streaming_decodeRun (limits : Limits) : Streaming (decodeRun limits) :=
  Varint.streaming_decode.bind fun count ↦
    .after ((limits.checkLength count.toNat).mapError .limit) fun _ ↦ streaming_takeRun count.toNat

theorem streaming_decodeBody (limits : Limits) (tag : Tag) : Streaming (decodeBody limits tag) := by
  obtain ⟨field, wireType⟩ := tag
  cases wireType with
  | varint => exact Varint.streaming_decode.bind fun value ↦ .pure (varint field value)
  | bytes => exact (streaming_decodeRun limits).bind fun data ↦ .pure (bytes field data)
  | object => exact (streaming_decodeRun limits).bind fun body ↦ .pure (object field body)

theorem streaming_decode (limits : Limits) : Streaming (decode limits) :=
  Tag.streaming_decode.bind (streaming_decodeBody limits)

end Frame

namespace Object

/-- Two parts are read one after the other, unless the first part ends within an entry. -/
theorem decodeAt_append (limits : Limits) (depth : ℕ) (first second : Bytes) :
    decodeAt limits depth first = .error .unexpectedEnd ∨
    decodeAt limits depth (first ++ second) =
      (do
        let object ← decodeAt limits depth first
        (decodeAt limits depth second).map (object ++ ·)) := by
  induction hn : first.length using Nat.strong_induction_on generalizing first with
  | _ n ih =>
  rcases Nat.lt_or_ge limits.maxDepth.toNat depth with hdeep | hdepth
  · right
    simp only [decodeAt_of_lt hdeep]
    rfl
  rcases eq_or_ne first [] with rfl | hne
  · right
    rw [decodeAt_nil hdepth, List.nil_append]
    exact (map_empty_append _).symm
  rcases Frame.streaming_decode limits first second with hend | hmore
  · left
    simp only [decodeAt_of_ne_nil hdepth hne, hend]
    rfl
  cases hframe : Frame.decode limits first with
  | error e =>
    have hne' : first ++ second ≠ [] := List.append_ne_nil_of_left_ne_nil hne second
    right
    simp only [decodeAt_of_ne_nil hdepth hne, decodeAt_of_ne_nil hdepth hne', hmore, hframe]
    rfl
  | ok read =>
    obtain ⟨frame, rest⟩ := read
    rw [hframe] at hmore
    rw [decodeAt_of_frame hdepth hframe, decodeAt_of_frame hdepth hmore]
    cases ofFrame limits depth frame with
    | error e => exact .inr rfl
    | ok entry =>
      -- The entry is the same in both readings, and the first part has become shorter by it.
      have hlt : rest.length < n :=
        hn ▸ (Nat.le_add_left _ _).trans_lt (Frame.decode_length_lt hframe)
      rcases ih rest.length hlt rest rfl with hend | hrest
      · left
        simp only [bind, Except.bind, hend]
        rfl
      · right
        simp only [bind, Except.bind, hrest]
        cases decodeAt limits depth rest with
        | error e => rfl
        | ok object => exact map_append_map_append entry object _

variable {limits : Limits}

theorem decode_append {first : Bytes} {object : Object} (h : decode limits first = .ok object)
    (second : Bytes) :
    decode limits (first ++ second) = (decode limits second).map (object ++ ·) := by
  rcases decodeAt_append limits 0 first second with hend | happend
  · rw [decode, hend] at h
    contradiction
  · rw [decode] at h
    rw [decode, happend, h]
    rfl

theorem decode_append_of_error {first : Bytes} {e : DecodeError}
    (h : decode limits first = .error e) (he : e ≠ .unexpectedEnd) (second : Bytes) :
    decode limits (first ++ second) = .error e := by
  rw [decode] at h
  rcases decodeAt_append limits 0 first second with hend | happend
  · rw [h] at hend
    exact absurd (Except.error.inj hend) he
  · rw [decode, happend, h]
    rfl

/-- The bytes of an object followed by other bytes are read as the entries of the object followed
by those of the other bytes, or with the error that the other bytes have by themselves. -/
theorem decode_concatenation {first second : Bytes} {object : Object}
    (h : decode limits first = .ok object) :
    (∀ later, decode limits second = .ok later →
      decode limits (first ++ second) =
        .ok ⟨object.values ++ later.values, object.children ++ later.children⟩) ∧
    ∀ e, decode limits second = .error e → decode limits (first ++ second) = .error e := by
  constructor
  · intro later hlater
    rw [decode_append h, hlater]
    rfl
  · intro e he
    rw [decode_append h, he]
    rfl

theorem decode_concatenation_interleaved :
    let first : Bytes := [19, 2, 40, 5, 8, 7]
    let object : Object := ⟨[(1, .varint 7)], [(2, ⟨[(5, .varint 5)], []⟩)]⟩
    decode ⟨1, 4⟩ first = .ok object ∧
      decode ⟨1, 4⟩ (first ++ [18, 1, 9, 147, 0, 0]) =
        .ok ⟨[(1, .varint 7), (2, .bytes [9])], [(2, ⟨[(5, .varint 5)], []⟩), (2, ∅)]⟩ ∧
      decode ⟨1, 4⟩ (first ++ [8, 1, 19, 5]) = .error (.limit (.length 5 4)) := by
  intro first object
  have h : decode ⟨1, 4⟩ first = .ok object := by cbv
  have hsecond : decode ⟨1, 4⟩ [18, 1, 9, 147, 0, 0] = .ok ⟨[(2, .bytes [9])], [(2, ∅)]⟩ := by cbv
  have herror : decode ⟨1, 4⟩ [8, 1, 19, 5] = .error (.limit (.length 5 4)) := by cbv
  exact ⟨h, (decode_concatenation h).1 _ hsecond, (decode_concatenation h).2 _ herror⟩

end Object

end EntityRpc
