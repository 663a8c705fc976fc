import EntityRpc.Wire.Limits
import Mathlib.Tactic.Common

namespace EntityRpc.Limits

def lengthViolations (limits : Limits) (len : ℕ) : List Violation :=
  if limits.maxLength.toNat < len then [.length len limits.maxLength] else []

def depthViolations (limits : Limits) (depth : ℕ) : List Violation :=
  if limits.maxDepth.toNat < depth then [.depth limits.maxDepth] else []

variable {α β : Type} {limits : Limits}

theorem lengthViolations_eq_nil_iff {len : ℕ} :
    limits.lengthViolations len = [] ↔ len ≤ limits.maxLength.toNat := by
  unfold lengthViolations
  split <;> simp <;> omega

theorem depthViolations_eq_nil_iff {depth : ℕ} :
    limits.depthViolations depth = [] ↔ depth ≤ limits.maxDepth.toNat := by
  unfold depthViolations
  split <;> simp <;> omega

/-- The first violation is the error, and without one there is a result. -/
def verdict (violations : List Violation) (result : α) : Except Violation α :=
  match violations with
  | [] => .ok result
  | violation :: _ => .error violation

theorem checkLength_eq (len : ℕ) :
    limits.checkLength len = verdict (limits.lengthViolations len) () := by
  unfold checkLength lengthViolations
  split <;> rfl

theorem checkDepth_eq (depth : ℕ) :
    limits.checkDepth depth = verdict (limits.depthViolations depth) () := by
  unfold checkDepth depthViolations
  split <;> rfl

theorem verdict_bind {first second : List Violation} {a : α} {b : β}
    {next : α → Except Violation β} (h : next a = verdict second b) :
    verdict first a >>= next = verdict (first ++ second) b := by
  cases first with
  | nil => exact h
  | cons violation first => rfl

theorem verdict_map {violations : List Violation} {a : α} (f : α → β) :
    f <$> verdict violations a = verdict violations (f a) := by
  cases violations <;> rfl

theorem verdict_bind_pure {violations : List Violation} {a : α} (f : α → β) :
    (verdict violations a >>= fun a ↦ pure (f a)) = verdict violations (f a) := by
  cases violations <;> rfl

theorem mapM_verdict {write : α → Except Violation β} {violations : α → List Violation}
    {result : α → β} (h : ∀ a, write a = verdict (violations a) (result a)) (l : List α) :
    l.mapM write = verdict (l.flatMap violations) (l.map result) := by
  induction l with
  | nil => rfl
  | cons a l ih =>
    rw [List.mapM_cons, h, ih]
    exact verdict_bind (verdict_bind_pure _)

theorem verdict_eq_ok_iff {violations : List Violation} {a b : α} :
    verdict violations a = .ok b ↔ violations = [] ∧ a = b := by
  cases violations <;> simp [verdict]

theorem checkLength_eq_ok_iff {len : ℕ} :
    limits.checkLength len = .ok () ↔ len ≤ limits.maxLength.toNat := by
  rw [checkLength_eq, verdict_eq_ok_iff, lengthViolations_eq_nil_iff, and_iff_left rfl]

theorem checkDepth_eq_ok_iff {depth : ℕ} :
    limits.checkDepth depth = .ok () ↔ depth ≤ limits.maxDepth.toNat := by
  rw [checkDepth_eq, verdict_eq_ok_iff, depthViolations_eq_nil_iff, and_iff_left rfl]

theorem mem_of_verdict_eq_error {violations : List Violation} {a : α} {violation : Violation}
    (h : verdict violations a = .error violation) : violation ∈ violations := by
  cases violations with
  | nil => contradiction
  | cons first rest =>
    obtain rfl := Except.error.inj h
    exact List.mem_cons_self

end EntityRpc.Limits
