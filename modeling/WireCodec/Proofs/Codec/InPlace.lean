import Mathlib.Data.List.Permutation
import WireCodec.Proofs.Codec.Determined
import WireCodec.Proofs.Codec.RoundTrip
import WireCodec.Proofs.Wire.Discipline

/-! # Decoding in place

A message is decoded where it stands in a larger byte string. What comes of
it, and how many bytes are passed, is what comes of its bytes by themselves:
what stands before them and behind the limit does not matter, at whatever
level and whether decoding succeeds or fails.
-/

namespace WireCodec

namespace Cursor

theorem view_eq_extract (input : Bytes) (offset stop depth : Nat) :
    view input ⟨offset, stop, depth⟩ = (input.extract offset stop).toList := by
  simp only [view, Array.toList_extract, List.extract_eq_take_drop, List.drop_take]

theorem view_extract (input : Bytes) {offset stop : Nat} (hstop : stop ≤ input.size)
    (depth : Nat) :
    view (input.extract offset stop) ⟨0, stop - offset, depth⟩ =
      (input.extract offset stop).toList := by
  have hsize : (input.extract offset stop).size = stop - offset := by
    rw [Array.size_extract, Nat.min_eq_left hstop]
  rw [view_eq_extract, ← hsize, Array.extract_size]

end Cursor

variable (set : PlanSet)

/-- The number of levels that is left is a matter of the depth. -/
theorem uniform_readMessage (plan : MessagePlan) : (readMessage set plan).Uniform := by
  intro depth bytes
  have hwithin : (readMessageWithin set (nestingLimit - depth) plan).Uniform :=
    uniform_readMessageWithin (nestingLimit - depth) plan
  refine .advance (Nat.zero_le _) (hwithin depth bytes) ?_
  rintro input cursor - rfl -
  rfl

/-- Reading a message between two places of a byte string is reading it from
the slice between them, with the cursor that much further on in the end. Byte
strings with the same slice have the same result. -/
theorem readMessage_in_place (plan : MessagePlan) {input : Bytes} {offset stop : Nat}
    (hoffset : offset ≤ stop) (hstop : stop ≤ input.size) (depth : Nat) :
    ∃ (outcome : Except DecodeError Record) (count : Nat), count ≤ stop - offset ∧
      (readMessage set plan).ending input ⟨offset, stop, depth⟩ =
        (outcome, ⟨offset + count, stop, depth⟩) ∧
      (readMessage set plan).ending (input.extract offset stop) ⟨0, stop - offset, depth⟩ =
        (outcome, ⟨count, stop - offset, depth⟩) ∧
      ∀ other : Bytes, stop ≤ other.size →
        (∀ i, offset ≤ i → i < stop → other[i]? = input[i]?) →
        (readMessage set plan).ending other ⟨offset, stop, depth⟩ =
          (readMessage set plan).ending input ⟨offset, stop, depth⟩ := by
  obtain ⟨outcome, count, hcount, hread⟩ :=
    (uniform_readMessage set plan).exists_ending depth (input.extract offset stop).toList
  have hsize : (input.extract offset stop).size = stop - offset := by
    rw [Array.size_extract, Nat.min_eq_left hstop]
  have hinput := hread input ⟨offset, stop, depth⟩ ⟨hoffset, hstop⟩ rfl
    (Cursor.view_eq_extract input offset stop depth)
  rw [Array.length_toList, hsize] at hcount
  refine ⟨outcome, count, hcount, hinput, ?_, ?_⟩
  · have hslice := hread (input.extract offset stop) ⟨0, stop - offset, depth⟩
      ⟨Nat.zero_le _, Nat.le_of_eq hsize.symm⟩ rfl (Cursor.view_extract input hstop depth)
    simpa only [Cursor.forward, Nat.zero_add] using hslice
  · intro other hother hagree
    have hsame : other.extract offset stop = input.extract offset stop := by
      apply Array.ext_getElem?
      intro i
      rw [Array.getElem?_extract, Array.getElem?_extract, Nat.min_eq_left hother,
        Nat.min_eq_left hstop]
      split
      next hi => exact hagree _ (Nat.le_add_right _ _) (by omega)
      next => rfl
    rw [hinput]
    exact hread other ⟨offset, stop, depth⟩ ⟨hoffset, hother⟩ rfl
      (hsame ▸ Cursor.view_eq_extract other offset stop depth)

/-- A nested node that says to be longer than what is left before the limit,
although not longer than the byte string. -/
theorem readMessage_in_place_node :
    (readMessage nodePlans nodePlan).ending #[255, 34, 3, 8, 0, 255] ⟨1, 5, 3⟩ =
        (.error .unexpectedEof, ⟨3, 5, 3⟩) ∧
      (readMessage nodePlans nodePlan).ending #[34, 3, 8, 0] ⟨0, 4, 3⟩ =
        (.error .unexpectedEof, ⟨2, 4, 3⟩) ∧
      (readMessage nodePlans nodePlan).ending #[0, 34, 3, 8, 0, 8, 0] ⟨1, 5, 3⟩ =
        (.error .unexpectedEof, ⟨3, 5, 3⟩) := by
  have hinput : (readMessage nodePlans nodePlan).ending #[255, 34, 3, 8, 0, 255] ⟨1, 5, 3⟩ =
      (.error .unexpectedEof, ⟨3, 5, 3⟩) := by cbv
  obtain ⟨outcome, count, -, hplace, hslice, hother⟩ :=
    @readMessage_in_place nodePlans nodePlan #[255, 34, 3, 8, 0, 255] 1 5 (by decide)
      (by decide) 3
  rw [hinput] at hplace
  obtain ⟨rfl, hcursor⟩ := Prod.mk.inj hplace
  obtain rfl : count = 2 := by
    have hoffset := congrArg Cursor.offset hcursor
    simp only at hoffset
    omega
  refine ⟨hinput, hslice, (hother _ (by decide) ?_).trans hinput⟩
  intro i hfirst hlast
  obtain rfl | rfl | rfl | rfl : i = 1 ∨ i = 2 ∨ i = 3 ∨ i = 4 := by omega
  all_goals rfl

end WireCodec
