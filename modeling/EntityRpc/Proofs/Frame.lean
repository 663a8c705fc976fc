import EntityRpc.Proofs.Limits
import EntityRpc.Proofs.Varint
import EntityRpc.Wire.Frame

namespace EntityRpc

open Varint (Spelling)

theorem WireType.code_injective : Function.Injective WireType.code := by
  intro a b h
  have hcode := ofCode?_eq_some_iff.2 h
  rw [ofCode?_eq_some_iff.2 rfl] at hcode
  exact (Option.some.inj hcode).symm

namespace Tag

theorem code_lt (wireType : WireType) : wireType.code.toNat < 8 := by
  cases wireType <;> decide

theorem toNat_eq (tag : Tag) : tag.toNat = tag.field.toNat * 8 + tag.wireType.code.toNat := rfl

theorem toNat_lt (tag : Tag) : tag.toNat < 2 ^ 64 := by
  have hf := tag.field.toNat_lt
  have hc := code_lt tag.wireType
  rw [toNat_eq]
  omega

theorem toNat_injective : Function.Injective toNat := by
  rintro ⟨field, wireType⟩ ⟨field', wireType'⟩ h
  have hcode := code_lt wireType
  have hcode' := code_lt wireType'
  simp only [toNat_eq] at h
  have hfield : field = field' := UInt32.toNat_inj.1 (by omega)
  have hwire : wireType = wireType' := WireType.code_injective (UInt8.toNat_inj.1 (by omega))
  rw [hfield, hwire]

def entrySize (tag : Tag) (number run : ℕ) : ℕ :=
  Varint.width tag.toNat + (Varint.width number + run)

theorem entrySize_of_lt {tag : Tag} (h : tag.toNat < 128) (number run : ℕ) :
    tag.entrySize number run = 1 + Varint.width number + run := by
  rw [entrySize, Varint.width_of_lt h, Nat.add_assoc]

theorem ofNat_toNat (tag : Tag) :
    ofNat tag.toNat = if tag.field = 0 then .error .invalidFieldId else .ok tag := by
  have hc := code_lt tag.wireType
  have hmod : tag.toNat % radix = tag.wireType.code.toNat := by
    change (tag.field.toNat * 8 + tag.wireType.code.toNat) % 8 = _
    omega
  have hdiv : tag.toNat / radix = tag.field.toNat := by
    change (tag.field.toNat * 8 + tag.wireType.code.toNat) / 8 = _
    omega
  have hcode : WireType.ofCode? tag.wireType.code = some tag.wireType :=
    WireType.ofCode?_eq_some_iff.2 rfl
  have hfield : (tag.field.toNat = 0 ∨ UInt32.size ≤ tag.field.toNat) ↔ tag.field = 0 := by
    rw [← UInt32.toNat_inj]
    have := tag.field.toNat_lt
    change _ ∨ 2 ^ 32 ≤ _ ↔ tag.field.toNat = 0
    omega
  simp only [ofNat, hmod, hdiv, UInt8.ofNat_toNat, hcode, hfield, UInt32.ofNat_toNat]

theorem ofNat_eq_ok_iff {n : ℕ} {tag : Tag} :
    ofNat n = .ok tag ↔ n = tag.toNat ∧ tag.field ≠ 0 := by
  constructor
  · intro h
    dsimp only [ofNat] at h
    split at h
    · contradiction
    · rename_i wireType hcode
      split at h
      · contradiction
      · rename_i hfield
        obtain rfl := Except.ok.inj h
        have hc : wireType.code.toNat = n % 8 := by
          rw [WireType.ofCode?_eq_some_iff.1 hcode]
          exact UInt8.toNat_ofNat_of_lt' ((Nat.mod_lt n (by decide)).trans (by decide))
        have hf : (UInt32.ofNat (n / 8)).toNat = n / 8 :=
          UInt32.toNat_ofNat_of_lt' (Nat.not_le.1 fun h ↦ hfield (.inr h))
        refine ⟨?_, fun h0 ↦ hfield (.inl ?_)⟩
        · change n = (UInt32.ofNat (n / 8)).toNat * 8 + wireType.code.toNat
          rw [hf, hc]
          omega
        · exact hf.symm.trans (congrArg UInt32.toNat h0)
  · rintro ⟨rfl, hfield⟩
    rw [ofNat_toNat, if_neg hfield]

theorem decode_eq_ok_iff {bytes rest : Bytes} {tag : Tag} :
    decode bytes = .ok (tag, rest) ↔
      ∃ s : Spelling, bytes = s.bytes ++ rest ∧ s.number = tag.toNat ∧ tag.field ≠ 0 := by
  constructor
  · intro h
    obtain ⟨⟨n, tail⟩, hv, h⟩ := bind_eq_ok.1 h
    obtain ⟨tag', ht, h⟩ := bind_eq_ok.1 h
    obtain ⟨rfl, rfl⟩ := Prod.mk.inj (Except.ok.inj h)
    obtain ⟨s, hs, hn⟩ := Varint.decode_eq_ok_iff.1 hv
    obtain ⟨ht, hf⟩ := ofNat_eq_ok_iff.1 ht
    exact ⟨s, hs, hn.trans ht, hf⟩
  · rintro ⟨s, hs, hn, hf⟩
    have hnum : (UInt64.ofNat s.number).toNat = s.number := UInt64.toNat_ofNat_of_lt' s.number_lt
    refine bind_eq_ok.2 ⟨(UInt64.ofNat s.number, rest), ?_, bind_eq_ok.2 ⟨tag, ?_, rfl⟩⟩
    · exact Varint.decode_eq_ok_iff.2 ⟨s, hs, hnum.symm⟩
    · exact ofNat_eq_ok_iff.2 ⟨hnum.trans hn, hf⟩

theorem decode_encode_zero {tag : Tag} (h : tag.field = 0) (rest : Bytes) :
    decode (tag.encode ++ rest) = .error .invalidFieldId := by
  have hnum : (UInt64.ofNat tag.toNat).toNat = tag.toNat := UInt64.toNat_ofNat_of_lt' tag.toNat_lt
  have hv := Varint.decode_encode (UInt64.ofNat tag.toNat) rest
  rw [hnum] at hv
  rw [decode, encode, hv]
  change (ofNat (UInt64.ofNat tag.toNat).toNat >>= _) = _
  rw [hnum, ofNat_toNat, if_pos h]
  rfl

end Tag

namespace Frame

/-- The number that stands after the tag: a value, or the length of the run. -/
def number : Frame → ℕ
  | varint _ value => value.toNat
  | bytes _ data => data.length
  | object _ body => body.length

theorem encode_eq (frame : Frame) :
    frame.encode = frame.tag.encode ++ (Varint.encode frame.number ++ frame.run) := by
  cases frame with
  | varint field value => simp [encode, number, run]
  | bytes field data => rfl
  | object field body => rfl

theorem length_run (frame : Frame) :
    frame.run.length = if frame.tag.wireType = .varint then 0 else frame.number := by
  cases frame <;> rfl

theorem eq_of_parts {a b : Frame} (htag : a.tag = b.tag) (hnumber : a.number = b.number)
    (hrun : a.run = b.run) : a = b := by
  cases a <;> cases b <;> simp_all [tag, number, run, UInt64.toNat_inj]

theorem encode_append_inj {a b : Frame} {rest rest' : Bytes}
    (h : a.encode ++ rest = b.encode ++ rest') : a = b ∧ rest = rest' := by
  simp only [encode_eq, Tag.encode, List.append_assoc] at h
  obtain ⟨htag, h⟩ := Varint.encode_append_inj h
  obtain ⟨hnumber, h⟩ := Varint.encode_append_inj h
  replace htag : a.tag = b.tag := Tag.toNat_injective htag
  have hlen : a.run.length = b.run.length := by rw [length_run, length_run, htag, hnumber]
  obtain ⟨hrun, hrest⟩ := List.append_inj h hlen
  exact ⟨eq_of_parts htag hnumber hrun, hrest⟩

def size (frame : Frame) : ℕ := frame.tag.entrySize frame.number frame.run.length

theorem length_encode (frame : Frame) : frame.encode.length = frame.size := by
  rw [encode_eq, List.length_append, List.length_append, Tag.encode, Varint.length_encode,
    Varint.length_encode]
  rfl

theorem encode_ne_nil (frame : Frame) : frame.encode ≠ [] := by
  have hpos : 0 < frame.encode.length := by
    rw [length_encode]
    exact Nat.add_pos_left (Nat.succ_pos _) _
  exact List.ne_nil_of_length_pos hpos

theorem encodeWithin_eq (limits : Limits) (frame : Frame) :
    frame.encodeWithin limits =
      Limits.verdict (limits.lengthViolations frame.run.length) frame.encode := by
  rw [encodeWithin, Limits.checkLength_eq]
  exact Limits.verdict_bind_pure _

def decodeBody (limits : Limits) (tag : Tag) (input : Bytes) :
    Except DecodeError (Frame × Bytes) :=
  match tag.wireType with
  | .varint => do
    let (value, rest) ← Varint.decode input
    return (varint tag.field value, rest)
  | .bytes => do
    let (data, rest) ← decodeRun limits input
    return (bytes tag.field data, rest)
  | .object => do
    let (body, rest) ← decodeRun limits input
    return (object tag.field body, rest)

theorem decode_eq_bind (limits : Limits) (input : Bytes) :
    decode limits input = (do
      let (tag, rest) ← Tag.decode input
      decodeBody limits tag rest) := rfl

variable {limits : Limits}

theorem decodeRun_eq_ok_iff {input run rest : Bytes} :
    decodeRun limits input = .ok (run, rest) ↔
      ∃ s : Spelling, input = s.bytes ++ (run ++ rest) ∧ s.number = run.length ∧
        run.length ≤ limits.maxLength.toNat := by
  constructor
  · intro h
    obtain ⟨⟨count, tail⟩, hv, h⟩ := bind_eq_ok.1 h
    obtain ⟨_, hl, hr⟩ := bind_eq_ok.1 h
    obtain ⟨s, rfl, hn⟩ := Varint.decode_eq_ok_iff.1 hv
    have hle : count.toNat ≤ limits.maxLength.toNat := by
      cases hc : limits.checkLength count.toNat with
      | error e => simp [hc, Except.mapError] at hl
      | ok _ => exact Limits.checkLength_eq_ok_iff.1 hc
    dsimp only at hr
    split at hr
    · contradiction
    · rename_i hlen
      obtain ⟨rfl, rfl⟩ := Prod.mk.inj (Except.ok.inj hr)
      have hrun : (tail.take count.toNat).length = count.toNat :=
        Nat.le_antisymm (List.length_take_le _ _) (Nat.not_lt.1 hlen)
      exact ⟨s, by rw [List.take_append_drop], hn.trans hrun.symm, hrun.le.trans hle⟩
  · rintro ⟨s, rfl, hn, hle⟩
    have hnum : (UInt64.ofNat run.length).toNat = run.length :=
      UInt64.toNat_ofNat_of_lt' (hn ▸ s.number_lt)
    refine bind_eq_ok.2 ⟨(UInt64.ofNat run.length, run ++ rest), ?_, bind_eq_ok.2 ⟨(), ?_, ?_⟩⟩
    · exact Varint.decode_eq_ok_iff.2 ⟨s, rfl, hn.trans hnum.symm⟩
    · rw [hnum, Limits.checkLength_eq_ok_iff.2 hle]
      rfl
    · dsimp only
      rw [hnum, List.take_left, List.drop_left, if_neg (Nat.lt_irrefl _)]

/-- A frame is read exactly from a spelling of its tag, a spelling of its number and its run. -/
theorem decode_eq_ok_iff {input rest : Bytes} {frame : Frame} :
    decode limits input = .ok (frame, rest) ↔
      ∃ head count : Spelling,
        input = head.bytes ++ (count.bytes ++ (frame.run ++ rest)) ∧
        head.number = frame.tag.toNat ∧ frame.tag.field ≠ 0 ∧ count.number = frame.number ∧
        frame.run.length ≤ limits.maxLength.toNat := by
  constructor
  · intro h
    obtain ⟨⟨⟨field, wireType⟩, tail⟩, ht, h⟩ := bind_eq_ok.1 h
    obtain ⟨head, rfl, hhead, hfield⟩ := Tag.decode_eq_ok_iff.1 ht
    cases wireType with
    | varint =>
      obtain ⟨⟨value, tail'⟩, hv, h⟩ := bind_eq_ok.1 h
      obtain ⟨rfl, rfl⟩ := Prod.mk.inj (Except.ok.inj h)
      obtain ⟨count, rfl, hn⟩ := Varint.decode_eq_ok_iff.1 hv
      exact ⟨head, count, rfl, hhead, hfield, hn, Nat.zero_le _⟩
    | bytes | object =>
      obtain ⟨⟨run, tail'⟩, hr, h⟩ := bind_eq_ok.1 h
      obtain ⟨rfl, rfl⟩ := Prod.mk.inj (Except.ok.inj h)
      obtain ⟨count, rfl, hn, hle⟩ := decodeRun_eq_ok_iff.1 hr
      exact ⟨head, count, rfl, hhead, hfield, hn, hle⟩
  · rintro ⟨head, count, rfl, hhead, hfield, hn, hle⟩
    refine bind_eq_ok.2 ⟨_, Tag.decode_eq_ok_iff.2 ⟨head, rfl, hhead, hfield⟩, ?_⟩
    cases frame with
    | varint field value =>
      exact bind_eq_ok.2 ⟨(value, rest), Varint.decode_eq_ok_iff.2 ⟨count, rfl, hn⟩, rfl⟩
    | bytes field data =>
      exact bind_eq_ok.2 ⟨(data, rest), decodeRun_eq_ok_iff.2 ⟨count, rfl, hn, hle⟩, rfl⟩
    | object field body =>
      exact bind_eq_ok.2 ⟨(body, rest), decodeRun_eq_ok_iff.2 ⟨count, rfl, hn, hle⟩, rfl⟩

theorem number_lt {frame : Frame} (h : frame.run.length ≤ limits.maxLength.toNat) :
    frame.number < 2 ^ 64 := by
  cases frame with
  | varint field value => exact value.toNat_lt
  | bytes field data => exact h.trans_lt limits.maxLength.toNat_lt
  | object field body => exact h.trans_lt limits.maxLength.toNat_lt

theorem decode_encode (frame : Frame) (h : frame.run.length ≤ limits.maxLength.toNat)
    (hfield : frame.tag.field ≠ 0) (rest : Bytes) :
    decode limits (frame.encode ++ rest) = .ok (frame, rest) := by
  obtain ⟨head, hhead, hn⟩ := Varint.exists_spelling frame.tag.toNat_lt
  obtain ⟨count, hcount, hm⟩ := Varint.exists_spelling (number_lt h)
  refine decode_eq_ok_iff.2 ⟨head, count, ?_, hn, hfield, hm, h⟩
  rw [encode_eq, hhead, hcount, Tag.encode, List.append_assoc, List.append_assoc]

theorem decode_encode_zero (frame : Frame) (hfield : frame.tag.field = 0) (rest : Bytes) :
    decode limits (frame.encode ++ rest) = .error .invalidFieldId := by
  rw [encode_eq, List.append_assoc, decode, Tag.decode_encode_zero hfield]
  rfl

end Frame

end EntityRpc
