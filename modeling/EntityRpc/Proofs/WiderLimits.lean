import EntityRpc.Block.Decode
import EntityRpc.Proofs.Decoding

namespace EntityRpc

variable {α β : Type}

/-- A reading under narrow limits is the one under wider limits, unless one of the narrow limits
ended it. -/
inductive CutOff (limits : Limits) : (narrow wide : Except DecodeError α) → Prop
  | same (result : Except DecodeError α) : CutOff limits result result
  | length {len : ℕ} (wide : Except DecodeError α) (h : limits.maxLength.toNat < len) :
      CutOff limits (.error (.limit (.length len limits.maxLength))) wide
  | depth (wide : Except DecodeError α) :
      CutOff limits (.error (.limit (.depth limits.maxDepth))) wide

namespace CutOff

variable {limits : Limits} {x y : Except DecodeError α}

theorem bind {f g : α → Except DecodeError β} (h : CutOff limits x y)
    (hfg : ∀ a, y = .ok a → CutOff limits (f a) (g a)) : CutOff limits (x >>= f) (y >>= g) := by
  cases h with
  | same =>
    cases x with
    | error e => exact .same _
    | ok a => exact hfg a rfl
  | length _ hlen => exact .length _ hlen
  | depth => exact .depth _

theorem map (h : CutOff limits x y) (f : α → β) : CutOff limits (x.map f) (y.map f) := by
  cases h with
  | same => exact .same _
  | length _ hlen => exact .length _ hlen
  | depth => exact .depth _

end CutOff

variable {narrow wide : Limits}

theorem Limits.cutOff_checkLength (hlength : narrow.maxLength ≤ wide.maxLength) (len : ℕ) :
    CutOff narrow ((narrow.checkLength len).mapError .limit)
      ((wide.checkLength len).mapError .limit) := by
  by_cases h : narrow.maxLength.toNat < len
  · rw [checkLength, if_pos h]
    exact .length _ h
  · have hnarrow : len ≤ narrow.maxLength.toNat := Nat.not_lt.1 h
    have hwide : len ≤ wide.maxLength.toNat := hnarrow.trans (UInt64.le_iff_toNat_le.1 hlength)
    rw [checkLength_eq_ok_iff.2 hnarrow, checkLength_eq_ok_iff.2 hwide]
    exact .same _

namespace Frame

theorem cutOff_decodeRun (hlength : narrow.maxLength ≤ wide.maxLength) (input : Bytes) :
    CutOff narrow (decodeRun narrow input) (decodeRun wide input) := by
  refine CutOff.bind (.same _) fun count _ ↦ ?_
  exact (Limits.cutOff_checkLength hlength _).bind fun _ _ ↦ .same _

theorem cutOff_decode (hlength : narrow.maxLength ≤ wide.maxLength) (input : Bytes) :
    CutOff narrow (decode narrow input) (decode wide input) := by
  refine CutOff.bind (.same _) ?_
  rintro ⟨⟨field, wireType⟩, rest⟩ -
  cases wireType with
  | varint => exact .same _
  | bytes | object => exact (cutOff_decodeRun hlength rest).bind fun _ _ ↦ .same _

end Frame

namespace Object

variable (hdepth : narrow.maxDepth ≤ wide.maxDepth) (hlength : narrow.maxLength ≤ wide.maxLength)

include hdepth hlength

theorem cutOff_decodeAt (depth : ℕ) (input : Bytes) :
    CutOff narrow (decodeAt narrow depth input) (decodeAt wide depth input) := by
  induction hn : input.length using Nat.strong_induction_on generalizing input depth with
  | _ n ih =>
  by_cases hnarrow : depth ≤ narrow.maxDepth.toNat
  · have hwide : depth ≤ wide.maxDepth.toNat := hnarrow.trans (UInt64.le_iff_toNat_le.1 hdepth)
    by_cases hne : input = []
    · rw [hne, decodeAt_nil hnarrow, decodeAt_nil hwide]
      exact .same _
    · rw [decodeAt_of_ne_nil hnarrow hne, decodeAt_of_ne_nil hwide hne]
      refine (Frame.cutOff_decode hlength input).bind ?_
      rintro ⟨frame, rest⟩ hframe
      have hlt : frame.run.length + rest.length < n := hn ▸ Frame.decode_length_lt hframe
      have hrest := ih rest.length (by omega) depth rest rfl
      have hentry : CutOff narrow (ofFrame narrow depth frame) (ofFrame wide depth frame) := by
        cases frame with
        | varint | bytes => exact .same _
        | object field body =>
          have hbody : body.length < n := (Nat.le_add_right _ _).trans_lt hlt
          exact (ih body.length hbody (depth + 1) body rfl).map _
      exact hentry.bind fun _ _ ↦ hrest.map _
  · rw [decodeAt_of_lt (Nat.not_le.1 hnarrow)]
    exact .depth _

end Object

namespace Block

/-- Reading bytes under narrower limits gives what it gives under wider ones, be it a value or an
error, or a limit that is narrower is exceeded and reported. -/
theorem decode_cutOff_of_wider_limits (hdepth : narrow.maxDepth ≤ wide.maxDepth)
    (hlength : narrow.maxLength ≤ wide.maxLength) (input : Bytes) :
    CutOff narrow (Object.decode narrow input) (Object.decode wide input) ∧
    CutOff narrow (Data.decode narrow input) (Data.decode wide input) ∧
    CutOff narrow (Update.decode narrow input) (Update.decode wide input) ∧
    CutOff narrow (Command.decode narrow input) (Command.decode wide input) := by
  have h : CutOff narrow (Object.decode narrow input) (Object.decode wide input) :=
    Object.cutOff_decodeAt hdepth hlength 0 input
  exact ⟨h, h.bind fun _ _ ↦ .same _, h.bind fun _ _ ↦ .same _, h.bind fun _ _ ↦ .same _⟩

theorem decode_cutOff_of_wider_limits_nested :
    let narrow : Limits := ⟨1, 3⟩
    (narrow.maxDepth ≤ Limits.standard.maxDepth ∧
      narrow.maxLength ≤ Limits.standard.maxLength) ∧
    Object.decode narrow [19, 2, 19, 0] = .error (.limit (.depth 1)) ∧
    Object.decode .standard [19, 2, 19, 0] = .ok ⟨[], [(2, ⟨[], [(2, ⟨[], []⟩)]⟩)]⟩ ∧
    CutOff narrow (Object.decode narrow [19, 2, 19, 0])
      (Object.decode .standard [19, 2, 19, 0]) := by
  intro narrow
  have hdepth : narrow.maxDepth ≤ Limits.standard.maxDepth := by decide
  have hlength : narrow.maxLength ≤ Limits.standard.maxLength := by decide
  exact ⟨⟨hdepth, hlength⟩, by cbv, by cbv,
    (decode_cutOff_of_wider_limits hdepth hlength [19, 2, 19, 0]).1⟩

end Block

end EntityRpc
