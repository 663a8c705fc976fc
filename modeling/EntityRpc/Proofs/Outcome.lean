import EntityRpc.Proofs.Canonical
import EntityRpc.Proofs.Height

namespace EntityRpc.Object

open Limits

variable {limits : Limits} {depth : ℕ}

theorem depth_add_height_le_of_fits {object : Object} (h : object.Fits limits depth) :
    depth + object.height ≤ limits.maxDepth.toNat := by
  induction object using entries_induction generalizing depth with
  | empty =>
    rw [height_empty]
    exact fits_empty.1 h
  | value field value object ih =>
    obtain ⟨-, hrest⟩ := fits_append.1 h
    rw [height_append, height_ofValue, Nat.zero_max]
    exact ih hrest
  | child field child object hvalues ihc ih =>
    obtain ⟨hchild, hrest⟩ := fits_append.1 h
    obtain ⟨-, hfits, -⟩ := fits_ofChild.1 hchild
    have hinner := ihc hfits
    have hlater := ih hrest
    rw [height_append, height_ofChild]
    omega

theorem fits_of_size_le {object : Object} (hsize : object.size ≤ limits.maxLength.toNat)
    (hheight : depth + object.height ≤ limits.maxDepth.toNat) : object.Fits limits depth := by
  -- What stands in an object is shorter than the object, so inside it only the depth is left.
  induction object using entries_induction generalizing depth with
  | empty => exact fits_empty.2 ((Nat.le_add_right _ _).trans hheight)
  | value field value object ih =>
    rw [size_append, size_ofValue, Frame.size, Tag.entrySize] at hsize
    rw [height_append, height_ofValue, Nat.zero_max] at hheight
    apply fits_append.2
    refine ⟨fits_ofValue.2 ⟨?_, ?_⟩, ih ?_ hheight⟩ <;> omega
  | child field child object hvalues ihc ih =>
    rw [size_append, size_ofChild, Tag.entrySize] at hsize
    rw [height_append, height_ofChild] at hheight
    apply fits_append.2
    refine ⟨fits_ofChild.2 ⟨?_, ihc ?_ ?_, ?_⟩, ih ?_ ?_⟩ <;> omega

-- The blob is found before the child that holds it, and before the child that is too deep.
example : encode ⟨1, 3⟩ ⟨[], [(1, ⟨[(2, .bytes [0, 0, 0, 0])], []⟩), (1, ⟨[], [(1, ∅)]⟩)]⟩ =
    .error (.length 4 3) := by cbv

end EntityRpc.Object
