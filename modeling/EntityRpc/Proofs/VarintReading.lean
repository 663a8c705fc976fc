import EntityRpc.Proofs.Cursor
import Mathlib.Data.Nat.Digits.Lemmas

namespace EntityRpc

namespace Varint

variable {bytes : Bytes} {n : ℕ}

theorem number_eq_sum (bytes : Bytes) :
    number bytes = (bytes.mapIdx fun i byte ↦ byte.toNat % 128 * 2 ^ (7 * i)).sum := by
  have hgroups : ((bytes.map fun byte ↦ byte.toNat % 128).mapIdx fun i group ↦ group * 128 ^ i) =
      bytes.mapIdx fun i byte ↦ byte.toNat % 128 * 2 ^ (7 * i) := by
    apply List.ext_getElem
    · simp
    · intro i _ _
      simp [Nat.pow_mul]
  rw [number, Nat.ofDigits_eq_sum_mapIdx, hgroups]

/-- How many bytes there are up to the first without its high bit, that one included. -/
def extent (bytes : Bytes) : Option ℕ := (bytes.findIdx? (· < 128)).map (· + 1)

theorem extent_cons (byte : UInt8) (bytes : Bytes) :
    extent (byte :: bytes) = if byte < 128 then some 1 else (extent bytes).map (· + 1) := by
  rw [extent, List.findIdx?_cons, extent]
  by_cases h : byte < 128 <;> simp [h]

theorem extent_eq_some_iff :
    extent bytes = some n ↔
      ∃ init last rest, bytes = init ++ last :: rest ∧ (∀ byte ∈ init, 128 ≤ byte) ∧
        last < 128 ∧ n = init.length + 1 := by
  constructor
  · intro h
    obtain ⟨i, hfirst, rfl⟩ := Option.map_eq_some_iff.1 h
    obtain ⟨hi, hlast, hinit⟩ := List.findIdx?_eq_some_iff_getElem.1 hfirst
    refine ⟨bytes.take i, bytes[i], bytes.drop (i + 1), ?_, ?_, of_decide_eq_true hlast, ?_⟩
    · rw [← List.drop_eq_getElem_cons hi, List.take_append_drop]
    · intro byte hbyte
      obtain ⟨j, hj, rfl⟩ := List.mem_take_iff_getElem.1 hbyte
      have hge := hinit j (by omega)
      simpa using hge
    · rw [List.length_take_of_le hi.le]
  · rintro ⟨init, last, rest, rfl, hinit, hlast, rfl⟩
    induction init with
    | nil => rw [List.nil_append, extent_cons, if_pos hlast, List.length_nil]
    | cons byte init ih =>
      obtain ⟨hbyte, hinit⟩ := List.forall_mem_cons.1 hinit
      rw [List.cons_append, extent_cons, if_neg (UInt8.not_lt.2 hbyte), ih hinit]
      rfl

/-- A number takes up the first `n` of the bytes, all that there are up to the first without its
high bit. There are ten at most, and a tenth holds a single bit. -/
structure FitsIn (bytes : Bytes) (n : ℕ) : Prop where
  extent_eq : extent bytes = some n
  le_ten : n ≤ 10
  tenth_le : n = 10 → ∃ tenth, bytes[9]? = some tenth ∧ tenth ≤ 1

theorem getElem?_nine {init : Bytes} (h : init.length = 9) (last : UInt8) (rest : Bytes) :
    (init ++ last :: rest)[9]? = some last := by
  simp [h]

theorem fitsIn_iff_exists_spelling :
    FitsIn bytes n ↔
      ∃ (s : Spelling) (rest : Bytes), bytes = s.bytes ++ rest ∧ n = s.bytes.length := by
  constructor
  · rintro ⟨hextent, hle, htenth⟩
    obtain ⟨init, last, rest, rfl, hinit, hlast, rfl⟩ := extent_eq_some_iff.1 hextent
    have htop : init.length = 9 → last ≤ 1 := by
      intro h
      obtain ⟨tenth, hget, hone⟩ := htenth (congrArg Nat.succ h)
      rw [getElem?_nine h] at hget
      rwa [Option.some.inj hget]
    let s : Spelling := ⟨init, last, hinit, hlast, Nat.le_of_succ_le_succ hle, htop⟩
    exact ⟨s, rest, (s.bytes_append rest).symm, s.length_bytes.symm⟩
  · rintro ⟨s, rest, rfl, rfl⟩
    rw [s.bytes_append, s.length_bytes]
    refine ⟨?_, Nat.succ_le_succ s.length_init_le, ?_⟩
    · exact extent_eq_some_iff.2 ⟨s.init, s.last, rest, rfl, s.continued, s.ended, rfl⟩
    · intro h
      have hinit : s.init.length = 9 := Nat.succ.inj h
      exact ⟨s.last, getElem?_nine hinit s.last rest, s.tenth_le hinit⟩

theorem decode_of_fitsIn (h : FitsIn bytes n) :
    ∃ value, decode bytes = .ok (value, bytes.drop n) ∧ value.toNat = number (bytes.take n) := by
  obtain ⟨s, rest, rfl, rfl⟩ := fitsIn_iff_exists_spelling.1 h
  have hvalue : (UInt64.ofNat s.number).toNat = s.number := UInt64.toNat_ofNat_of_lt' s.number_lt
  rw [List.drop_left, List.take_left]
  exact ⟨UInt64.ofNat s.number, decode_eq_ok_iff.2 ⟨s, rfl, hvalue.symm⟩, hvalue⟩

theorem exists_decode_iff_exists_fitsIn :
    (∃ read, decode bytes = .ok read) ↔ ∃ n, FitsIn bytes n := by
  constructor
  · rintro ⟨⟨value, rest⟩, h⟩
    obtain ⟨s, hbytes, -⟩ := decode_eq_ok_iff.1 h
    exact ⟨s.bytes.length, fitsIn_iff_exists_spelling.2 ⟨s, rest, hbytes, rfl⟩⟩
  · rintro ⟨n, h⟩
    obtain ⟨value, hdecode, -⟩ := decode_of_fitsIn h
    exact ⟨_, hdecode⟩

section Refusals

variable {more : ℕ}

theorem eq_of_decodeGroups_eq_error {e : DecodeError} (h : decodeGroups more bytes = .error e) :
    e = .unexpectedEnd ∨ e = .varintOverflow := by
  fun_induction decodeGroups more bytes with
  | case1 => exact .inl (Except.error.inj h).symm
  | case2 => exact .inr (Except.error.inj h).symm
  | case3 | case4 => contradiction
  | case5 more byte tail hge ih => exact ih (map_eq_error.1 h)

theorem decodeGroups_eq_unexpectedEnd_iff :
    decodeGroups more bytes = .error .unexpectedEnd ↔
      bytes.length ≤ more ∧ ∀ byte ∈ bytes, 128 ≤ byte := by
  fun_induction decodeGroups more bytes with
  | case1 | case2 | case3 => simp
  | case4 more byte tail hlt =>
    have hge : ¬ 128 ≤ byte := UInt8.not_le.2 hlt
    simp [hge]
  | case5 more byte tail hge ih =>
    have hge : 128 ≤ byte := UInt8.not_lt.1 hge
    rw [map_eq_error, ih, List.length_cons, Nat.succ_le_succ_iff, List.forall_mem_cons]
    simp only [hge, true_and]

theorem decodeGroups_eq_varintOverflow_iff :
    decodeGroups more bytes = .error .varintOverflow ↔
      (∀ byte ∈ bytes.take more, 128 ≤ byte) ∧ ∃ last, bytes[more]? = some last ∧ 1 < last := by
  fun_induction decodeGroups more bytes with
  | case1 => simp
  | case2 byte tail hgt => simp [hgt]
  | case3 byte tail hle => simpa using hle
  | case4 more byte tail hlt =>
    have hge : ¬ 128 ≤ byte := UInt8.not_le.2 hlt
    simp [hge]
  | case5 more byte tail hge ih =>
    have hge : 128 ≤ byte := UInt8.not_lt.1 hge
    rw [map_eq_error, ih, List.take_succ_cons, List.forall_mem_cons, List.getElem?_cons_succ]
    simp only [hge, true_and]

end Refusals

end Varint

namespace Reader

variable {reader : Reader}

/-- What the loop over the bytes of a number comes to in `count` passes at most, from the `i`-th
byte on. -/
def passes : (count i : ℕ) → (value : UInt64) → Reader → Except Fault Pass
  | 0, _, value, reader => .ok (.more value reader)
  | count + 1, i, value, reader => do
    match ← reader.readGroup i value with
    | .done reading => return .done reading
    | .more value reader => passes count (i + 1) value reader

def Pass.answer : Pass → Reading UInt64
  | .done reading => reading
  | .more _ reader => ⟨.error .varintOverflow, reader⟩

theorem readGroups_eq_map_passes (count i : ℕ) (value : UInt64) (reader : Reader) :
    readGroups count i value reader = (passes count i value reader).map Pass.answer := by
  induction count generalizing i value reader with
  | zero => rfl
  | succ count ih =>
    rw [readGroups, passes]
    cases reader.readGroup i value with
    | error fault => rfl
    | ok pass =>
      cases pass with
      | done reading => rfl
      | more value reader => exact ih (i + 1) value reader

theorem inBounds_of_rest_ne_nil (h : reader.rest ≠ []) : reader.InBounds := by
  have hlt : reader.pos.toNat < reader.buf.length :=
    Nat.lt_of_not_le (List.drop_eq_nil_iff.not.1 h)
  exact hlt.le

section Loop

variable (hlen : reader.buf.length < 2 ^ 63)
include hlen

/-- The tenth pass ends the loop, for a tenth byte that is not refused has no high bit. -/
theorem exists_readGroup_nine_done (value : UInt64) :
    ∃ reading, reader.readGroup 9 value = .ok (.done reading) := by
  cases hrest : reader.rest with
  | nil => exact ⟨_, readGroup_of_rest_nil hrest 9 value⟩
  | cons byte tail =>
    have hin : reader.InBounds := inBounds_of_rest_ne_nil (by simp [hrest])
    by_cases hbyte : 1 < byte
    · obtain ⟨after, -, -, hread⟩ := readGroup_of_rest_cons hlen hin hrest
      rw [hread, if_pos ⟨rfl, hbyte⟩]
      exact ⟨_, rfl⟩
    · have hle : byte ≤ 1 := UInt8.not_lt.1 hbyte
      obtain ⟨after, sum, -, -, -, hread⟩ :=
        exists_readGroup hlen hin hrest le_rfl (fun _ ↦ hle) value
      rw [hread, if_pos (UInt8.lt_of_le_of_lt hle (by decide))]
      exact ⟨_, rfl⟩

theorem exists_passes_done {count i : ℕ} (hi : i + count = 9) (value : UInt64) :
    ∃ reading, passes (count + 1) i value reader = .ok (.done reading) := by
  -- On the passes that are left: with one more pass made and one fewer left, the last of them still
  -- reads the tenth byte.
  induction count generalizing i value reader with
  | zero =>
    obtain rfl : i = 9 := hi
    obtain ⟨reading, hpass⟩ := exists_readGroup_nine_done hlen value
    rw [passes, hpass]
    exact ⟨reading, rfl⟩
  | succ count ih =>
    rw [passes]
    by_cases hrest : reader.rest = []
    · rw [readGroup_of_rest_nil hrest]
      exact ⟨_, rfl⟩
    · have hle : i ≤ 9 := by omega
      obtain ⟨pass, hpass, hadvances⟩ :=
        exists_pass hlen (inBounds_of_rest_ne_nil hrest) hle value
      rw [hpass]
      cases pass with
      | done reading => exact ⟨reading, rfl⟩
      | more sum after => exact ih (hadvances.1.buf_eq ▸ hlen) (by omega) sum

end Loop

theorem readVarint_of_rest_nil (hrest : reader.rest = []) :
    reader.readVarint = .ok ⟨.error .unexpectedEnd, reader⟩ := by
  rw [readVarint, Varint.maxBytes, readGroups, readGroup_of_rest_nil hrest]
  rfl

section Reading

variable {reading : Reading UInt64} (hlen : reader.buf.length < 2 ^ 63)
  (hcall : reader.readVarint = .ok reading)
include hlen hcall

theorem moves_of_readVarint (hin : reader.InBounds) :
    reader.Moves reading.reader ∧
      Varint.decode reader.rest = reading.result.map fun value ↦ (value, reading.reader.rest) := by
  obtain ⟨answered, hanswered, hmoves, hexpected⟩ := reads_readVarint hlen hin
  rw [hcall] at hanswered
  obtain rfl := Except.ok.inj hanswered
  exact ⟨hmoves, hexpected⟩

theorem result_of_readVarint :
    reading.reader.buf = reader.buf ∧
      reading.result = (Varint.decode reader.rest).map Prod.fst := by
  by_cases hrest : reader.rest = []
  · rw [readVarint_of_rest_nil hrest] at hcall
    obtain rfl := Except.ok.inj hcall
    rw [hrest]
    exact ⟨rfl, rfl⟩
  · obtain ⟨hmoves, hexpected⟩ := moves_of_readVarint hlen hcall (inBounds_of_rest_ne_nil hrest)
    rw [hexpected]
    refine ⟨hmoves.buf_eq, ?_⟩
    cases reading.result <;> rfl

theorem toNat_pos_of_fitsIn {n : ℕ} (hfits : Varint.FitsIn reader.rest n) :
    reading.reader.pos.toNat = reader.pos.toNat + n := by
  obtain ⟨value, hdecode, -⟩ := Varint.decode_of_fitsIn hfits
  obtain ⟨s, rest, hrest, rfl⟩ := Varint.fitsIn_iff_exists_spelling.1 hfits
  have hle : s.bytes.length ≤ reader.rest.length := by
    rw [hrest, List.length_append]
    exact Nat.le_add_right _ _
  have hin : reader.InBounds := by
    apply inBounds_of_rest_ne_nil
    rw [hrest, s.bytes_append]
    simp
  obtain ⟨hmoves, hexpected⟩ := moves_of_readVarint hlen hcall hin
  rw [hdecode] at hexpected
  obtain ⟨number, -, hread⟩ := map_eq_ok.1 hexpected.symm
  exact hmoves.toNat_pos_eq hin hle (Prod.mk.inj hread).2

end Reading

end Reader

namespace Varint

/-- What is read from bytes, whichever they are. A number is read if and only if it fits in the
bytes up to the first without its high bit. It is then the sum of their groups of seven bits, each
in its place, and what follows them is left. Otherwise there are fewer than ten bytes and all of
them have the high bit, or nine have it and the tenth is more than one. The same is read through a
position in a buffer, of fewer than `2 ^ 63` bytes, and the position moves on by as many bytes as
the number takes up. One of the passes of the loop always ends it, so the answer for a loop that has
made all of them is never given. -/
theorem exits_partition_inputs (bytes : Bytes) :
    ((∃ read, decode bytes = .ok read) ↔ ∃ n, FitsIn bytes n) ∧
    (∀ n, FitsIn bytes n →
      let sum := ((bytes.take n).mapIdx fun i byte ↦ byte.toNat % 128 * 2 ^ (7 * i)).sum
      sum < 2 ^ 64 ∧
        ∃ value, decode bytes = .ok (value, bytes.drop n) ∧ value.toNat = sum) ∧
    (∀ e, decode bytes = .error e → e = .unexpectedEnd ∨ e = .varintOverflow) ∧
    (decode bytes = .error .unexpectedEnd ↔ bytes.length < 10 ∧ ∀ byte ∈ bytes, 128 ≤ byte) ∧
    (decode bytes = .error .varintOverflow ↔
      (∀ byte ∈ bytes.take 9, 128 ≤ byte) ∧ ∃ tenth, bytes[9]? = some tenth ∧ 1 < tenth) ∧
    ∀ reader : Reader, reader.rest = bytes → reader.buf.length < 2 ^ 63 →
      reader.readVarint = (reader.passes maxBytes 0 0).map Reader.Pass.answer ∧
      ∃ reading, reader.passes maxBytes 0 0 = .ok (.done reading) ∧
        reader.readVarint = .ok reading ∧ reading.reader.buf = reader.buf ∧
        reading.result = (decode bytes).map Prod.fst ∧
        ∀ n, FitsIn bytes n → reading.reader.pos.toNat = reader.pos.toNat + n := by
  refine ⟨exists_decode_iff_exists_fitsIn, ?_, ?_, ?_, ?_, ?_⟩
  · intro n hfits sum
    obtain ⟨value, hdecode, hvalue⟩ := decode_of_fitsIn hfits
    have hsum : value.toNat = sum := hvalue.trans (number_eq_sum _)
    exact ⟨hsum ▸ value.toNat_lt, value, hdecode, hsum⟩
  · intro e h
    exact eq_of_decodeGroups_eq_error (map_eq_error.1 h)
  · rw [decode, map_eq_error, Nat.lt_succ_iff]
    exact decodeGroups_eq_unexpectedEnd_iff
  · rw [decode, map_eq_error]
    exact decodeGroups_eq_varintOverflow_iff
  · rintro reader rfl hlen
    have hloop := Reader.readGroups_eq_map_passes maxBytes 0 0 reader
    obtain ⟨reading, hdone⟩ := Reader.exists_passes_done hlen (Nat.zero_add 9) 0
    have hcall : reader.readVarint = .ok reading := hloop.trans (congrArg _ hdone)
    obtain ⟨hbuf, hresult⟩ := Reader.result_of_readVarint hlen hcall
    exact ⟨hloop, reading, hdone, hcall, hbuf, hresult,
      fun n hfits ↦ Reader.toNat_pos_of_fitsIn hlen hcall hfits⟩

theorem exits_partition_inputs_tenth :
    let bytes (tenth : UInt8) : Bytes := List.replicate 9 128 ++ [tenth, 255]
    let reader (tenth : UInt8) : Reader := ⟨7 :: bytes tenth, 1⟩
    FitsIn (bytes 1) 10 ∧
      (∃ reading, (reader 1).readVarint = .ok reading ∧
        reading.result = .ok 9223372036854775808 ∧ reading.reader.pos.toNat = 11) ∧
      ∃ reading, (reader 2).readVarint = .ok reading ∧
        reading.result = .error .varintOverflow := by
  intro bytes reader
  have hfits : FitsIn (bytes 1) 10 := ⟨by decide, by decide, fun _ ↦ ⟨1, rfl, by decide⟩⟩
  obtain ⟨-, hok, -, -, -, hreader⟩ := exits_partition_inputs (bytes 1)
  obtain ⟨-, value, hdecode, hvalue⟩ := hok 10 hfits
  obtain ⟨-, reading, -, hcall, -, hresult, hpos⟩ := hreader (reader 1) rfl (by decide)
  obtain ⟨-, -, -, -, hoverflow, hreader'⟩ := exits_partition_inputs (bytes 2)
  obtain ⟨-, reading', -, hcall', -, hresult', -⟩ := hreader' (reader 2) rfl (by decide)
  have hnine : ∀ byte ∈ (bytes 2).take 9, 128 ≤ byte := by
    intro byte hbyte
    have hbyte : byte ∈ List.replicate 9 128 := hbyte
    obtain rfl := List.eq_of_mem_replicate hbyte
    exact UInt8.le_refl 128
  have hrefused : decode (bytes 2) = .error .varintOverflow :=
    hoverflow.2 ⟨hnine, 2, rfl, by decide⟩
  refine ⟨hfits, ⟨reading, hcall, ?_, hpos 10 hfits⟩, reading', hcall', ?_⟩
  · have hnumber : value = 9223372036854775808 := by
      rw [← UInt64.toNat_inj, hvalue]
      decide +kernel
    rw [hresult, hdecode, hnumber]
    rfl
  · rw [hresult', hrefused]
    rfl

end Varint

end EntityRpc
