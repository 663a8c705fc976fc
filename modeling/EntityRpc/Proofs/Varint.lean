import EntityRpc.Wire.Varint
import Mathlib.Data.Nat.Digits.Defs
import Mathlib.Data.Nat.Log

namespace EntityRpc.Varint

/-- The number that groups of seven bits make up, low group first. -/
def number (bytes : Bytes) : ℕ := Nat.ofDigits 128 (bytes.map fun byte ↦ byte.toNat % 128)

theorem number_cons (byte : UInt8) (bytes : Bytes) :
    number (byte :: bytes) = byte.toNat % 128 + 128 * number bytes := Nat.ofDigits_cons

theorem number_singleton {byte : UInt8} (h : byte < 128) : number [byte] = byte.toNat := by
  have hb : byte.toNat < 128 := UInt8.lt_iff_toNat_lt.1 h
  rw [number, List.map_singleton, Nat.ofDigits_singleton, Nat.mod_eq_of_lt hb]

theorem number_append (a b : Bytes) : number (a ++ b) = number a + 128 ^ a.length * number b := by
  rw [number, List.map_append, Nat.ofDigits_append, List.length_map]
  rfl

theorem number_lt (bytes : Bytes) : number bytes < 128 ^ bytes.length := by
  have h := Nat.ofDigits_lt_base_pow_length (b := 128)
    (l := bytes.map fun byte ↦ byte.toNat % 128) (by decide) (fun digit hd ↦ ?_)
  · simpa only [number, List.length_map] using h
  · obtain ⟨byte, -, rfl⟩ := List.mem_map.1 hd
    exact Nat.mod_lt _ (by decide)

/-- A spelling of a 64-bit number, the shortest or not: the high bit is set on every byte but
the last, and there are at most ten bytes, of which the tenth holds a single bit. -/
structure Spelling where
  init : Bytes
  last : UInt8
  continued : ∀ byte ∈ init, 128 ≤ byte
  ended : last < 128
  length_init_le : init.length ≤ 9
  tenth_le : init.length = 9 → last ≤ 1

namespace Spelling

variable (s : Spelling)

def bytes : Bytes := s.init ++ [s.last]

def number : ℕ := Varint.number s.bytes

theorem length_bytes : s.bytes.length = s.init.length + 1 := List.length_append

theorem bytes_append (rest : Bytes) : s.bytes ++ rest = s.init ++ s.last :: rest := by
  rw [bytes, List.append_assoc, List.singleton_append]

theorem number_eq : s.number = Varint.number s.init + 128 ^ s.init.length * s.last.toNat := by
  rw [number, bytes, number_append, number_singleton s.ended]

theorem number_lt : s.number < 2 ^ 64 := by
  by_cases h : s.init.length = 9
  · have hlast : s.last.toNat ≤ 1 := UInt8.le_iff_toNat_le.1 (s.tenth_le h)
    have hinit := Varint.number_lt s.init
    rw [number_eq]
    rw [h] at hinit ⊢
    omega
  · have hlen : s.bytes.length ≤ 9 := by
      have := s.length_init_le
      rw [length_bytes]
      omega
    calc s.number < 128 ^ s.bytes.length := Varint.number_lt s.bytes
      _ ≤ 128 ^ 9 := Nat.pow_le_pow_right (by decide) hlen
      _ ≤ 2 ^ 64 := by decide

end Spelling

theorem decodeGroups_append {init : Bytes} {last : UInt8} (hinit : ∀ byte ∈ init, 128 ≤ byte)
    (hlast : last < 128) (rest : Bytes) {more : ℕ} (hlen : init.length ≤ more)
    (htop : init.length = more → last ≤ 1) :
    decodeGroups more (init ++ last :: rest) = .ok (number (init ++ [last]), rest) := by
  induction init generalizing more with
  | nil =>
    rw [List.nil_append, List.nil_append, number_singleton hlast]
    cases more with
    | zero => rw [decodeGroups, if_neg (UInt8.not_lt.2 (htop rfl))]
    | succ more => rw [decodeGroups, if_pos hlast]
  | cons byte init ih =>
    cases more with
    | zero => simp at hlen
    | succ more =>
      have hbyte : ¬ byte < 128 := UInt8.not_lt.2 (hinit byte List.mem_cons_self)
      have h : decodeGroups more (init ++ last :: rest) = .ok (number (init ++ [last]), rest) :=
        ih (fun b hb ↦ hinit b (List.mem_cons_of_mem _ hb)) (Nat.le_of_succ_le_succ hlen)
          (fun he ↦ htop (congrArg Nat.succ he))
      rw [List.cons_append, decodeGroups, if_neg hbyte, h, List.cons_append, number_cons]
      rfl

theorem exists_groups_of_decodeGroups {more n : ℕ} {bytes rest : Bytes}
    (h : decodeGroups more bytes = .ok (n, rest)) :
    ∃ init last, bytes = init ++ last :: rest ∧ n = number (init ++ [last]) ∧
      (∀ byte ∈ init, 128 ≤ byte) ∧ last < 128 ∧ init.length ≤ more ∧
      (init.length = more → last ≤ 1) := by
  fun_induction decodeGroups more bytes generalizing n rest with
  | case1 | case2 => contradiction
  | case3 byte tail hle =>
    obtain ⟨rfl, rfl⟩ := Prod.mk.inj (Except.ok.inj h)
    have hle : byte ≤ 1 := UInt8.not_lt.1 hle
    have hlt : byte < 128 := UInt8.lt_of_le_of_lt hle (by decide)
    exact ⟨[], byte, rfl, (number_singleton hlt).symm, by simp, hlt, le_rfl, fun _ ↦ hle⟩
  | case4 more byte tail hlt =>
    obtain ⟨rfl, rfl⟩ := Prod.mk.inj (Except.ok.inj h)
    exact ⟨[], byte, rfl, (number_singleton hlt).symm, by simp, hlt, Nat.zero_le _,
      fun he ↦ absurd he (Nat.succ_ne_zero more).symm⟩
  | case5 more byte tail hge ih =>
    obtain ⟨⟨high, rest⟩, hd, hp⟩ := map_eq_ok.1 h
    obtain ⟨rfl, rfl⟩ := Prod.mk.inj hp
    obtain ⟨init, last, rfl, rfl, hinit, hlast, hlen, htop⟩ := ih hd
    refine ⟨byte :: init, last, rfl, (number_cons _ _).symm, ?_, hlast,
      Nat.succ_le_succ hlen, fun he ↦ htop (Nat.succ.inj he)⟩
    exact List.forall_mem_cons.2 ⟨UInt8.not_lt.1 hge, hinit⟩

theorem decode_eq_ok_iff {bytes rest : Bytes} {n : UInt64} :
    decode bytes = .ok (n, rest) ↔
      ∃ s : Spelling, bytes = s.bytes ++ rest ∧ s.number = n.toNat := by
  constructor
  · intro h
    obtain ⟨⟨m, tail⟩, hd, hp⟩ := map_eq_ok.1 h
    obtain ⟨rfl, rfl⟩ := Prod.mk.inj hp
    obtain ⟨init, last, rfl, rfl, hinit, hlast, hlen, htop⟩ := exists_groups_of_decodeGroups hd
    let s : Spelling := ⟨init, last, hinit, hlast, hlen, htop⟩
    refine ⟨s, (s.bytes_append tail).symm, ?_⟩
    exact (UInt64.toNat_ofNat_of_lt s.number_lt).symm
  · rintro ⟨s, rfl, hn⟩
    refine map_eq_ok.2 ⟨(s.number, rest), ?_, ?_⟩
    · rw [s.bytes_append]
      exact decodeGroups_append s.continued s.ended rest s.length_init_le s.tenth_le
    · simp only [hn, UInt64.ofNat_toNat]

theorem decodeGroups_encode (n : ℕ) (rest : Bytes) {more : ℕ} (h : n < 2 ^ (7 * more + 1)) :
    decodeGroups more (encode n ++ rest) = .ok (n, rest) := by
  fun_induction encode n generalizing more with
  | case1 n hlt =>
    have hn : (UInt8.ofNat n).toNat = n := UInt8.toNat_ofNat_of_lt' (hlt.trans (by decide))
    cases more with
    | zero =>
      have hle : ¬ 1 < UInt8.ofNat n := by
        rw [UInt8.lt_iff_toNat_lt, hn]
        exact Nat.not_lt.2 (Nat.le_of_lt_succ h)
      rw [List.singleton_append, decodeGroups, if_neg hle, hn]
    | succ more =>
      have hlt' : UInt8.ofNat n < 128 := UInt8.lt_iff_toNat_lt.2 (by rwa [hn])
      rw [List.singleton_append, decodeGroups, if_pos hlt', hn]
  | case2 n hge ih =>
    have hn : (UInt8.ofNat (n % 128 + 128)).toNat = n % 128 + 128 :=
      UInt8.toNat_ofNat_of_lt' (by change _ < 256; omega)
    cases more with
    | zero => omega
    | succ more =>
      have hge' : ¬ UInt8.ofNat (n % 128 + 128) < 128 := by
        rw [UInt8.lt_iff_toNat_lt, hn]
        exact Nat.not_lt.2 (Nat.le_add_left 128 _)
      have hdiv : n / 128 < 2 ^ (7 * more + 1) := by
        rw [Nat.div_lt_iff_lt_mul (by decide)]
        calc n < 2 ^ (7 * (more + 1) + 1) := h
          _ = 2 ^ (7 * more + 1) * 128 := by rw [Nat.mul_succ, Nat.add_right_comm, Nat.pow_add]
      have hsum : (n % 128 + 128) % 128 + 128 * (n / 128) = n := by omega
      rw [List.cons_append, decodeGroups, if_neg hge', ih hdiv]
      simp only [Except.map, hn, hsum]

theorem decode_encode (n : UInt64) (rest : Bytes) :
    decode (encode n.toNat ++ rest) = .ok (n, rest) := by
  rw [decode, decodeGroups_encode n.toNat rest n.toNat_lt]
  change Except.ok (UInt64.ofNat n.toNat, rest) = _
  rw [UInt64.ofNat_toNat]

theorem encode_append_inj {m n : ℕ} {a b : Bytes} (h : encode m ++ a = encode n ++ b) :
    m = n ∧ a = b := by
  -- Both are read in as many groups as the larger of them could need.
  have hm : m < 2 ^ (7 * (m + n) + 1) :=
    Nat.lt_two_pow_self.trans_le (Nat.pow_le_pow_right (by decide) (by omega))
  have hn : n < 2 ^ (7 * (m + n) + 1) :=
    Nat.lt_two_pow_self.trans_le (Nat.pow_le_pow_right (by decide) (by omega))
  have hread := decodeGroups_encode m a hm
  rw [h, decodeGroups_encode n b hn] at hread
  obtain ⟨hnumber, hrest⟩ := Prod.mk.inj (Except.ok.inj hread)
  exact ⟨hnumber.symm, hrest.symm⟩

theorem exists_spelling {n : ℕ} (h : n < 2 ^ 64) :
    ∃ s : Spelling, s.bytes = encode n ∧ s.number = n := by
  have hn : (UInt64.ofNat n).toNat = n := UInt64.toNat_ofNat_of_lt' h
  obtain ⟨s, hs, hnum⟩ := decode_eq_ok_iff.1 (decode_encode (UInt64.ofNat n) [])
  rw [hn] at hs hnum
  exact ⟨s, List.append_cancel_right hs.symm, hnum⟩

theorem Spelling.append_inj {s t : Spelling} {a b : Bytes} (h : s.bytes ++ a = t.bytes ++ b) :
    s = t ∧ a = b := by
  have hs : decode (s.bytes ++ a) = .ok (UInt64.ofNat s.number, a) :=
    decode_eq_ok_iff.2 ⟨s, rfl, (UInt64.toNat_ofNat_of_lt' s.number_lt).symm⟩
  have ht : decode (t.bytes ++ b) = .ok (UInt64.ofNat t.number, b) :=
    decode_eq_ok_iff.2 ⟨t, rfl, (UInt64.toNat_ofNat_of_lt' t.number_lt).symm⟩
  rw [h, ht] at hs
  obtain ⟨-, rfl⟩ := Prod.mk.inj (Except.ok.inj hs)
  have hbytes : s.init ++ [s.last] = t.init ++ [t.last] := List.append_cancel_right h
  obtain ⟨hinit, hlast⟩ := List.append_inj' hbytes rfl
  cases s
  cases t
  simp_all

/-- The number of bytes in the shortest spelling of a number. -/
def width (n : ℕ) : ℕ := Nat.log 128 n + 1

theorem width_of_lt {n : ℕ} (h : n < 128) : width n = 1 := by
  rw [width, Nat.log_of_lt h]

theorem width_mono {m n : ℕ} (h : m ≤ n) : width m ≤ width n :=
  Nat.succ_le_succ (Nat.log_mono_right h)

theorem length_encode (n : ℕ) : (encode n).length = width n := by
  fun_induction encode n with
  | case1 n hlt => rw [width_of_lt hlt, List.length_singleton]
  | case2 n hge ih =>
    rw [List.length_cons, ih, width, width,
      Nat.log_of_one_lt_of_le (by decide : 1 < 128) (Nat.not_lt.1 hge)]

theorem encode_number_append {init : Bytes} {last : UInt8} (hinit : ∀ byte ∈ init, 128 ≤ byte)
    (hlast : last < 128) (h : last = 0 → init = []) :
    encode (number (init ++ [last])) = init ++ [last] := by
  induction init with
  | nil =>
    have hlt : last.toNat < 128 := UInt8.lt_iff_toNat_lt.1 hlast
    rw [List.nil_append, number_singleton hlast, encode, if_pos hlt, UInt8.ofNat_toNat]
  | cons byte init ih =>
    obtain ⟨hbyte, hinit⟩ := List.forall_mem_cons.1 hinit
    have hne : last ≠ 0 := fun h0 ↦ List.cons_ne_nil _ _ (h h0)
    have hhigh : 0 < number (init ++ [last]) := by
      rw [number_append, number_singleton hlast]
      have hpos : 0 < last.toNat := Nat.pos_of_ne_zero fun h0 ↦ hne (UInt8.toNat_inj.1 h0)
      exact Nat.add_pos_right _ (Nat.mul_pos (Nat.pow_pos (by decide)) hpos)
    have hge : 128 ≤ byte.toNat := UInt8.le_iff_toNat_le.1 hbyte
    have hlt : byte.toNat < 256 := byte.toNat_lt
    have hlow : (byte.toNat % 128 + 128 * number (init ++ [last])) % 128 + 128 = byte.toNat := by
      omega
    have hdiv : (byte.toNat % 128 + 128 * number (init ++ [last])) / 128 =
        number (init ++ [last]) := by omega
    rw [List.cons_append, number_cons, encode, if_neg (by omega), hlow, hdiv, UInt8.ofNat_toNat,
      ih hinit fun h0 ↦ absurd h0 hne]

/-- No byte of the spelling is there for nothing: the last is not zero, unless it is alone. -/
def Spelling.Shortest (s : Spelling) : Prop := s.last = 0 → s.init = []

theorem Spelling.shortest_iff {s : Spelling} : s.Shortest ↔ s.bytes = encode s.number := by
  constructor
  · intro h
    exact (encode_number_append s.continued s.ended h).symm
  · intro h hlast
    -- Without its last byte the spelling would have room for the number.
    by_contra hinit
    have hlen : s.init.length ≠ 0 := fun h0 ↦ hinit (List.eq_nil_of_length_eq_zero h0)
    have hnumber : s.number < 128 ^ s.init.length := by
      rw [number_eq, hlast]
      exact Varint.number_lt s.init
    have hlog : Nat.log 128 s.number < s.init.length := Nat.log_lt_of_lt_pow' hlen hnumber
    have hbytes := congrArg List.length h
    rw [length_bytes, length_encode, width] at hbytes
    omega

theorem Spelling.width_number_le (s : Spelling) : width s.number ≤ s.bytes.length :=
  Nat.log_lt_of_lt_pow' (by rw [length_bytes]; exact Nat.succ_ne_zero _)
    (Varint.number_lt s.bytes)

theorem isLeast_width (n : UInt64) :
    IsLeast {len | ∃ s : Spelling, s.number = n.toNat ∧ s.bytes.length = len} (width n.toNat) := by
  constructor
  · obtain ⟨s, hbytes, hnumber⟩ := exists_spelling n.toNat_lt
    refine ⟨s, hnumber, ?_⟩
    rw [hbytes, length_encode]
  · rintro len ⟨s, hnumber, rfl⟩
    rw [← hnumber]
    exact s.width_number_le

end EntityRpc.Varint
