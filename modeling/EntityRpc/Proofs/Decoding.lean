import EntityRpc.Object.Decode
import EntityRpc.Proofs.Frame

namespace EntityRpc.Object

variable {limits : Limits} {depth : ℕ} {input rest : Bytes}

def ofFrame (limits : Limits) (depth : ℕ) : Frame → Except DecodeError Object
  | .varint field value => .ok (ofValue field (.varint value))
  | .bytes field data => .ok (ofValue field (.bytes data))
  | .object field body => (decodeAt limits (depth + 1) body).map (ofChild field)

theorem decodeAt_of_lt (h : limits.maxDepth.toNat < depth) (input : Bytes) :
    decodeAt limits depth input = .error (.limit (.depth limits.maxDepth)) := by
  rw [decodeAt, Limits.checkDepth, if_pos h]

theorem decodeAt_nil (h : depth ≤ limits.maxDepth.toNat) :
    decodeAt limits depth [] = .ok ∅ := by
  rw [decodeAt, Limits.checkDepth_eq_ok_iff.2 h]
  rfl

theorem decodeAt_of_ne_nil (h : depth ≤ limits.maxDepth.toNat) (hne : input ≠ []) :
    decodeAt limits depth input =
      (do
        let (frame, rest) ← Frame.decode limits input
        let entry ← ofFrame limits depth frame
        (decodeAt limits depth rest).map (entry ++ ·)) := by
  have hempty : input.isEmpty = false := by simpa using hne
  rw [decodeAt, Limits.checkDepth_eq_ok_iff.2 h]
  simp only [hempty, Bool.false_eq_true, if_false]
  split
  · rename_i e hf
    rw [hf]
    rfl
  · rename_i field value rest hf
    rw [hf]
    rfl
  · rename_i field data rest hf
    rw [hf]
    rfl
  · rename_i field body rest hf
    rw [hf]
    cases hbody : decodeAt limits (depth + 1) body with
    | error e => simp only [bind, Except.bind, ofFrame, hbody, Except.map]
    | ok child => simp only [bind, Except.bind, ofFrame, hbody, Except.map]

theorem decodeAt_of_frame (h : depth ≤ limits.maxDepth.toNat) {frame : Frame}
    (hf : Frame.decode limits input = .ok (frame, rest)) :
    decodeAt limits depth input =
      (do
        let entry ← ofFrame limits depth frame
        (decodeAt limits depth rest).map (entry ++ ·)) := by
  have hne : input ≠ [] := List.ne_nil_of_length_pos (Nat.zero_lt_of_lt (Frame.decode_length_lt hf))
  rw [decodeAt_of_ne_nil h hne, hf]
  rfl

theorem decodeAt_eq_ok_iff {object : Object} :
    decodeAt limits depth input = .ok object ↔
      depth ≤ limits.maxDepth.toNat ∧
      (input = [] ∧ object = ∅ ∨
        ∃ frame rest entry tail, Frame.decode limits input = .ok (frame, rest) ∧
          ofFrame limits depth frame = .ok entry ∧
          decodeAt limits depth rest = .ok tail ∧ object = entry ++ tail) := by
  constructor
  · intro h
    have hdepth : depth ≤ limits.maxDepth.toNat := by
      by_contra hlt
      rw [decodeAt_of_lt (Nat.not_le.1 hlt)] at h
      contradiction
    refine ⟨hdepth, ?_⟩
    by_cases hne : input = []
    · subst hne
      rw [decodeAt_nil hdepth] at h
      exact .inl ⟨rfl, (Except.ok.inj h).symm⟩
    · cases hf : Frame.decode limits input with
      | error e =>
        rw [decodeAt_of_ne_nil hdepth hne, hf] at h
        contradiction
      | ok read =>
        obtain ⟨frame, rest⟩ := read
        rw [decodeAt_of_frame hdepth hf] at h
        obtain ⟨entry, he, h⟩ := bind_eq_ok.1 h
        obtain ⟨tail, ht, h⟩ := map_eq_ok.1 h
        exact .inr ⟨frame, rest, entry, tail, rfl, he, ht, h.symm⟩
  · intro ⟨hdepth, h⟩
    rcases h with ⟨rfl, rfl⟩ | ⟨frame, rest, entry, tail, hf, he, ht, rfl⟩
    · exact decodeAt_nil hdepth
    · rw [decodeAt_of_frame hdepth hf]
      exact bind_eq_ok.2 ⟨entry, he, map_eq_ok.2 ⟨tail, ht, rfl⟩⟩

theorem map_empty_append (result : Except DecodeError Object) : result.map (∅ ++ ·) = result := by
  cases result with
  | error e => rfl
  | ok a => exact congrArg Except.ok (empty_append a)

theorem map_append_map_append (a b : Object) (result : Except DecodeError Object) :
    (result.map (b ++ ·)).map (a ++ ·) = result.map (a ++ b ++ ·) := by
  cases result with
  | error e => rfl
  | ok c => exact congrArg Except.ok (append_assoc a b c).symm

end EntityRpc.Object
