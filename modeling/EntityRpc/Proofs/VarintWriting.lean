import EntityRpc.Proofs.Cursor

namespace EntityRpc

namespace Varint

theorem toNat_shiftRight_seven (value : UInt64) : (value >>> 7).toNat = value.toNat / 128 := by
  rw [UInt64.toNat_shiftRight]
  exact Nat.shiftRight_eq_div_pow value.toNat 7

/-- Writes a number at the end of a buffer, with the operations of a word. -/
def write (buf : Bytes) (value : UInt64) : Bytes :=
  if value < 0x80 then buf ++ [value.toUInt8]
  else write (buf ++ [(value.toUInt8 &&& 0x7f) ||| 0x80]) (value >>> 7)
termination_by value.toNat
decreasing_by
  have hge : ¬ value.toNat < 128 := UInt64.lt_iff_toNat_lt.not.1 ‹_›
  rw [toNat_shiftRight_seven]
  omega

theorem toUInt8_eq_ofNat (value : UInt64) : value.toUInt8 = UInt8.ofNat value.toNat := by
  rw [← UInt8.toNat_inj, UInt64.toNat_toUInt8, UInt8.toNat_ofNat']

theorem low_bits_or_high_bit (value : UInt64) :
    (value.toUInt8 &&& 0x7f) ||| 0x80 = UInt8.ofNat (value.toNat % 128 + 128) := by
  have hlow : (value.toUInt8 &&& 0x7f).toNat = value.toNat % 128 := by
    rw [UInt8.toNat_and, UInt64.toNat_toUInt8]
    calc value.toNat % 2 ^ 8 &&& 2 ^ 7 - 1 = value.toNat % 2 ^ 8 % 2 ^ 7 :=
          Nat.and_two_pow_sub_one_eq_mod _ 7
      _ = value.toNat % 128 := by omega
  have hlt : value.toNat % 128 < 2 ^ 7 := Nat.mod_lt _ (by decide)
  have hor : (value.toUInt8 &&& 0x7f ||| 0x80).toNat = 128 + value.toNat % 128 := by
    rw [UInt8.toNat_or, hlow, Nat.or_comm]
    exact (Nat.two_pow_add_eq_or_of_lt hlt 1).symm
  rw [← UInt8.toNat_inj, hor, UInt8.toNat_ofNat']
  omega

theorem write_eq (buf : Bytes) (value : UInt64) : write buf value = buf ++ encode value.toNat := by
  fun_induction write buf value with
  | case1 buf value h =>
    have hlt : value.toNat < 128 := UInt64.lt_iff_toNat_lt.1 h
    rw [encode, if_pos hlt, toUInt8_eq_ofNat]
  | case2 buf value h ih =>
    have hge : ¬ value.toNat < 128 := UInt64.lt_iff_toNat_lt.not.1 h
    have hencode : encode value.toNat =
        UInt8.ofNat (value.toNat % 128 + 128) :: encode (value.toNat / 128) := by
      rw [encode, if_neg hge]
    rw [ih, toNat_shiftRight_seven, low_bits_or_high_bit, hencode, List.append_assoc,
      List.singleton_append]

theorem length_encode_le (value : UInt64) : (encode value.toNat).length ≤ 10 := by
  obtain ⟨s, hbytes, -⟩ := exists_spelling value.toNat_lt
  rw [← hbytes, Spelling.length_bytes]
  exact Nat.succ_le_succ s.length_init_le

theorem length_encode_le_of_decode {value : UInt64} {bytes rest : Bytes}
    (h : decode bytes = .ok (value, rest)) : (encode value.toNat).length ≤ bytes.length := by
  obtain ⟨s, rfl, hnumber⟩ := decode_eq_ok_iff.1 h
  rw [length_encode, ← hnumber, List.length_append]
  exact Nat.le_add_right_of_le s.width_number_le

end Varint

namespace Reader

theorem readVarint_of_rest_eq {reader : Reader} (hlen : reader.buf.length < 2 ^ 63)
    (hin : reader.InBounds) {value : UInt64} {rest : Bytes}
    (h : reader.rest = Varint.encode value.toNat ++ rest) :
    ∃ after, reader.readVarint = .ok ⟨.ok value, after⟩ ∧ after.buf = reader.buf ∧
      after.pos.toNat = reader.pos.toNat + (Varint.encode value.toNat).length := by
  obtain ⟨⟨result, after⟩, hcall, hmoves, hread⟩ := reads_readVarint hlen hin
  rw [h, Varint.decode_encode] at hread
  obtain ⟨number, hresult, hnumber⟩ := map_eq_ok.1 hread.symm
  obtain ⟨rfl, hrest⟩ := Prod.mk.inj hnumber
  obtain rfl : result = .ok number := hresult
  refine ⟨after, hcall, hmoves.buf_eq, hmoves.toNat_pos_eq hin ?_ ?_⟩
  · rw [h, List.length_append]
    exact Nat.le_add_right _ _
  · rw [h, List.drop_left]
    exact hrest

theorem readVarint_append {before rest : Bytes} {value : UInt64}
    (hlen : (before ++ (Varint.encode value.toNat ++ rest)).length < 2 ^ 63) :
    readVarint ⟨before ++ (Varint.encode value.toNat ++ rest), UInt64.ofNat before.length⟩ =
      .ok ⟨.ok value, ⟨before ++ (Varint.encode value.toNat ++ rest),
        UInt64.ofNat (before.length + (Varint.encode value.toNat).length)⟩⟩ := by
  have hle : before.length + (Varint.encode value.toNat).length ≤
      (before ++ (Varint.encode value.toNat ++ rest)).length := by
    rw [List.length_append, List.length_append]
    omega
  have hstart : (UInt64.ofNat before.length).toNat = before.length :=
    UInt64.toNat_ofNat_of_lt' (by change _ < 2 ^ 64; omega)
  have hend : (UInt64.ofNat (before.length + (Varint.encode value.toNat).length)).toNat =
      before.length + (Varint.encode value.toNat).length :=
    UInt64.toNat_ofNat_of_lt' (by change _ < 2 ^ 64; omega)
  let reader : Reader :=
    ⟨before ++ (Varint.encode value.toNat ++ rest), UInt64.ofNat before.length⟩
  have hbuf : reader.buf.length < 2 ^ 63 := hlen
  have hin : reader.InBounds := by
    change (UInt64.ofNat before.length).toNat ≤ _
    rw [hstart]
    exact (Nat.le_add_right _ _).trans hle
  have hrest : reader.rest = Varint.encode value.toNat ++ rest := by
    change List.drop (UInt64.ofNat before.length).toNat _ = _
    rw [hstart, List.drop_left]
  obtain ⟨⟨buf, pos⟩, hcall, rfl, hpos⟩ := readVarint_of_rest_eq hbuf hin hrest
  obtain rfl : pos = UInt64.ofNat (before.length + (Varint.encode value.toNat).length) := by
    rw [← UInt64.toNat_inj, hend, ← hstart]
    exact hpos
  exact hcall

end Reader

namespace Varint

/-- A number that is written is read back, whatever follows it and wherever it starts, and reading
moves on by as many bytes as were written. There are ten of them at most, and no fewer bytes are
read as this number. The same holds of words that are written into a buffer, of fewer than `2 ^ 63`
bytes, and read through a position in it. -/
theorem read_back_in_least_bytes (value : UInt64) :
    (∀ before rest,
      let buf := before ++ encode value.toNat ++ rest
      decode (buf.drop before.length) =
        .ok (value, buf.drop (before.length + (encode value.toNat).length))) ∧
    (∀ before, write before value = before ++ encode value.toNat) ∧
    (∀ before rest, (write before value ++ rest).length < 2 ^ 63 →
      Reader.readVarint ⟨write before value ++ rest, UInt64.ofNat before.length⟩ =
        .ok ⟨.ok value, ⟨write before value ++ rest,
          UInt64.ofNat (before.length + (encode value.toNat).length)⟩⟩) ∧
    (encode value.toNat).length ≤ 10 ∧
    IsLeast {len | ∃ bytes rest, decode bytes = .ok (value, rest) ∧ bytes.length = len}
      (encode value.toNat).length := by
  refine ⟨?_, fun before ↦ write_eq before value, ?_, length_encode_le value,
    ⟨encode value.toNat, [], ?_, rfl⟩, ?_⟩
  · intro before rest buf
    have hend : buf.drop (before.length + (encode value.toNat).length) = rest := by
      rw [← List.length_append, List.drop_left]
    rw [hend, ← decode_encode value rest]
    simp only [buf, List.append_assoc, List.drop_left]
  · intro before rest hlen
    rw [write_eq, List.append_assoc] at hlen ⊢
    exact Reader.readVarint_append hlen
  · have h := decode_encode value []
    rwa [List.append_nil] at h
  · rintro len ⟨bytes, rest, h, rfl⟩
    exact length_encode_le_of_decode h

theorem read_back_in_least_bytes_largest :
    let value : UInt64 := 18446744073709551615
    let buf := write [7] value ++ [255]
    buf.length < 2 ^ 63 ∧ (encode value.toNat).length = 10 ∧
      Reader.readVarint ⟨buf, 1⟩ = .ok ⟨.ok value, ⟨buf, 11⟩⟩ := by
  intro value buf
  obtain ⟨-, hwrite, hread, -, -⟩ := read_back_in_least_bytes value
  have hencode : (encode value.toNat).length = 10 := by cbv
  have hlen : buf.length < 2 ^ 63 := by
    rw [List.length_append, hwrite, List.length_append, hencode]
    decide
  have h := hread [7] [255] hlen
  rw [hencode] at h
  exact ⟨hlen, hencode, h⟩

end Varint

end EntityRpc
