import WireCodec.Proofs.Floating.Singles
import WireCodec.Proofs.Json.Floats
import WireCodec.Proofs.Value.Sorted

/-! # Texts of JSON values

What is relied on of the texts that JSON values are printed as. A text with
fewer than 128 open containers is read as the value that it was printed for,
but for the last bits of doubles, and a text with more of them is refused.
-/

namespace WireCodec

/-- What a number has to be for its text to be one. -/
def JsonNumber.Printable : JsonNumber → Prop
  | unsigned _ => True
  | negative n => n < 0
  | double x => x.isFinite = true

namespace Json

mutual

/-- How many containers are open at once in the text of a value. -/
def nesting : Json → Nat
  | .null | .bool _ | .number _ | .string _ => 0
  | .array items => itemsNesting items + 1
  | .object members => membersNesting members + 1

/-- How many containers are open at once in the items of an array. -/
def itemsNesting : List Json → Nat
  | [] => 0
  | item :: rest => max item.nesting (itemsNesting rest)

/-- How many containers are open at once in the members of an object. -/
def membersNesting : List (String × Json) → Nat
  | [] => 0
  | (_, value) :: rest => max value.nesting (membersNesting rest)

end

theorem itemsNesting_le_iff {items : List Json} {bound : Nat} :
    itemsNesting items ≤ bound ↔ ∀ item ∈ items, item.nesting ≤ bound := by
  induction items with
  | nil => simp [itemsNesting]
  | cons item rest ih => rw [itemsNesting, Nat.max_le, ih, List.forall_mem_cons]

theorem membersNesting_le_iff {members : List (String × Json)} {bound : Nat} :
    membersNesting members ≤ bound ↔ ∀ member ∈ members, member.2.nesting ≤ bound := by
  induction members with
  | nil => simp [membersNesting]
  | cons member rest ih => rw [membersNesting, Nat.max_le, ih, List.forall_mem_cons]

/-- Values with a text: the numbers in them are printable and the members of
their objects are in order. -/
inductive Printable : Json → Prop where
  | null : Printable .null
  | bool (b : Bool) : Printable (.bool b)
  | number {n : JsonNumber} (h : n.Printable) : Printable (.number n)
  | string (s : String) : Printable (.string s)
  | array {items : List Json} (h : ∀ item ∈ items, Printable item) : Printable (.array items)
  | object {members : List (String × Json)} (hincreasing : Sorted.Increasing members)
      (h : ∀ member ∈ members, Printable member.2) : Printable (.object members)

theorem increasing_mapMembers {members : List (String × Json)} (h : Sorted.Increasing members)
    (f : Binary64 → Binary64) : Sorted.Increasing (mapMembers f members) := by
  rw [mapMembers_eq_map]
  exact List.pairwise_map.mpr h

end Json

/-- What is relied on of the texts of JSON values, where `reread x` is the
double that the text of a double `x` is read as. Digits may be read in double
precision, so that doubles need not come back as they were, but only those
that are very small or very large may lose more than their last bits. -/
structure JsonText.Lawful [JsonText] (reread : Binary64 → Binary64) : Prop where
  parse?_print {json : Json} (h : json.Printable) (hnesting : json.nesting < 128)
    (layout : JsonLayout) : parse? (print layout json) = some (json.mapDoubles reread)
  parse?_deep {json : Json} (h : json.Printable) (hnesting : 128 ≤ json.nesting)
    (layout : JsonLayout) : parse? (print layout json) = none
  near {x : Binary64} (h : x.Moderate) : x.Near (reread x)

end WireCodec
