import Mathlib.Algebra.Order.BigOperators.Group.List
import Mathlib.Algebra.Order.Ring.Nat
import WireCodec.Proofs.Value.Sorted
import WireCodec.Value.Basic

/-! # Values in a message

All single values that a message is made of: those of its fields, the items of
lists, the keys and values of maps, and what is nested in them. Lists and maps
do not count themselves. The weight of values is their number and the bytes of
the texts among them; of two values of a field or of a map key, a message
keeps only the later one, and so it weighs at most what was put into it.
-/

namespace WireCodec

mutual

/-- The values that the value of a field is made of. -/
def Value.constituents : Value → List Value
  | .message fields => .message fields :: Record.constituents fields
  | .list items => Value.itemConstituents items
  | .map entries => Value.entryConstituents entries
  | value => [value]

/-- The values that a message is made of. -/
def Record.constituents : List (String × Value) → List Value
  | [] => []
  | (_, value) :: rest => value.constituents ++ Record.constituents rest

/-- The values that items of a list are made of. -/
def Value.itemConstituents : List Value → List Value
  | [] => []
  | item :: rest => item.constituents ++ Value.itemConstituents rest

/-- The values that entries of a map are made of, the keys among them. -/
def Value.entryConstituents : List (MapKey × Value) → List Value
  | [] => []
  | (key, value) :: rest =>
    .ofMapKey key :: (value.constituents ++ Value.entryConstituents rest)

end

/-- The number of bytes of a string or a byte string. The symbol of an enum
stands for a number and is no text. -/
def Value.textLength : Value → Nat
  | .string s => s.utf8ByteSize
  | .bytes b => b.size
  | _ => 0

/-- The number of values, and the bytes of the texts among them. -/
def Value.weigh (values : List Value) : Nat := values.length + (values.map textLength).sum

namespace Value

@[simp]
theorem weigh_nil : weigh [] = 0 := rfl

@[simp]
theorem weigh_cons (value : Value) (rest : List Value) :
    weigh (value :: rest) = 1 + value.textLength + weigh rest := by
  simp only [weigh, List.length_cons, List.map_cons, List.sum_cons]
  omega

@[simp]
theorem weigh_append (first second : List Value) :
    weigh (first ++ second) = weigh first + weigh second := by
  simp only [weigh, List.length_append, List.map_append, List.sum_append]
  omega

/-- What a value of a field weighs with all that is nested in it. -/
def weight (value : Value) : Nat := weigh value.constituents

/-- What an entry of a map weighs. -/
def entryWeight (entry : MapKey × Value) : Nat := (ofMapKey entry.1).weight + entry.2.weight

end Value

/-- What a message weighs with all that is nested in it. -/
def Record.weight (record : Record) : Nat := Value.weigh (Record.constituents record)

namespace Value

theorem weight_ofMapKey (key : MapKey) : (ofMapKey key).weight = 1 + (ofMapKey key).textLength := by
  cases key <;> simp [ofMapKey, weight, constituents]

theorem weight_ofScalar (type : ScalarType) (x : type.Carrier) :
    (ofScalar type x).weight = 1 + (ofScalar type x).textLength := by
  cases type <;> simp [ofScalar, weight, constituents]

theorem weight_enum (symbol : String) : (enum symbol).weight = 1 := by
  simp [weight, constituents, textLength]

theorem weight_message (fields : Record) : (message fields).weight = 1 + Record.weight fields := by
  simp [weight, constituents, Record.weight, textLength]

theorem weight_list (items : List Value) : (list items).weight = (items.map weight).sum := by
  rw [weight, constituents]
  induction items with
  | nil => rfl
  | cons item rest ih =>
      rw [itemConstituents, weigh_append, ih, List.map_cons, List.sum_cons]
      rfl

theorem weight_map (entries : List (MapKey × Value)) :
    (map entries).weight = (entries.map entryWeight).sum := by
  rw [weight, constituents]
  induction entries with
  | nil => rfl
  | cons entry rest ih =>
      obtain ⟨key, value⟩ := entry
      have hentry : entryWeight (key, value) =
          1 + (ofMapKey key).textLength + weigh value.constituents :=
        congrArg (· + value.weight) (weight_ofMapKey key)
      rw [entryConstituents, weigh_cons, weigh_append, ih, List.map_cons, List.sum_cons, hentry]
      omega

end Value

namespace Sorted

variable {κ α : Type} [Ord κ]

theorem sum_insert_le (key : κ) (value : α) (pairs : List (κ × α)) (weight : κ × α → Nat) :
    ((insert key value pairs).map weight).sum ≤ (pairs.map weight).sum + weight (key, value) := by
  induction pairs with
  | nil => simp [insert]
  | cons head rest ih =>
      obtain ⟨other, old⟩ := head
      unfold insert
      split <;> simp only [List.map_cons, List.sum_cons] <;> omega

variable [Std.TransOrd κ] [Std.LawfulEqOrd κ] [BEq κ] [LawfulBEq κ]

/-- An association that is inserted takes the place of that of its key. -/
theorem sum_insert {key : κ} {value : α} {pairs : List (κ × α)} (h : Increasing pairs)
    (weight : κ × α → Nat) :
    ((insert key value pairs).map weight).sum +
        ((find? key pairs).elim 0 fun old => weight (key, old)) =
      (pairs.map weight).sum + weight (key, value) := by
  induction pairs with
  | nil => simp [insert, find?]
  | cons head rest ih =>
      obtain ⟨other, old⟩ := head
      obtain ⟨hother, hrest⟩ := increasing_cons.mp h
      unfold insert find?
      cases hcompare : compare key other with
      | lt =>
          -- the key is before all others
          have hnone : find? key rest = none := by
            cases hfound : find? key rest with
            | none => rfl
            | some found =>
                have hlt := Std.TransCmp.lt_trans hcompare (hother _ (mem_of_find? hfound))
                exact absurd rfl (ne_of_compare_eq_lt hlt)
          have hne : (key == other) = false :=
            beq_eq_false_iff_ne.mpr (ne_of_compare_eq_lt hcompare)
          simp only [hnone, hne, List.map_cons, List.sum_cons, Bool.false_eq_true, if_false,
            Option.elim_none]
          omega
      | eq =>
          obtain rfl := Std.LawfulEqCmp.eq_of_compare hcompare
          simp only [beq_self_eq_true, if_true, List.map_cons, List.sum_cons, Option.elim_some]
          omega
      | gt =>
          have hne : (key == other) = false :=
            beq_eq_false_iff_ne.mpr (ne_of_compare_eq_lt (Std.OrientedCmp.lt_of_gt hcompare)).symm
          have hinsert := ih hrest
          simp only [hne, List.map_cons, List.sum_cons, Bool.false_eq_true, if_false] at hinsert ⊢
          omega

end Sorted

namespace Record

theorem weight_eq_sum (record : Record) :
    weight record = (record.map fun pair => pair.2.weight).sum := by
  rw [weight]
  induction record with
  | nil => rfl
  | cons pair rest ih =>
      obtain ⟨name, value⟩ := pair
      rw [constituents, Value.weigh_append, ih, List.map_cons, List.sum_cons]
      rfl

variable {record : Record} (h : Sorted.Increasing record)
include h

/-- A field that is assigned gives its new value for its old one. -/
theorem weight_assign (name : String) (value : Value) :
    weight (assign record name value) + (value? record name).elim 0 Value.weight =
      weight record + value.weight := by
  rw [weight_eq_sum, weight_eq_sum]
  exact Sorted.sum_insert h _

theorem weight_assign_le (name : String) (value : Value) :
    weight (assign record name value) ≤ weight record + value.weight :=
  weight_assign h name value ▸ Nat.le_add_right _ _

theorem weight_appendItem_le (name : String) (item : Value) :
    weight (appendItem record name item) ≤ weight record + item.weight := by
  unfold appendItem
  split
  next items hitems =>
    have hassign := weight_assign h name (.list (items ++ [item]))
    rw [hitems, Option.elim_some, Value.weight_list, Value.weight_list, List.map_append,
      List.sum_append, List.map_singleton, List.sum_singleton] at hassign
    omega
  next =>
    have hassign := weight_assign_le h name (.list [item])
    rwa [Value.weight_list, List.map_singleton, List.sum_singleton] at hassign

theorem weight_putEntry_le (name : String) (key : MapKey) (value : Value) :
    weight (putEntry record name key value) ≤ weight record + Value.entryWeight (key, value) := by
  unfold putEntry
  split
  next entries hentries =>
    have hassign := weight_assign h name (.map (Sorted.insert key value entries))
    have hinsert := Sorted.sum_insert_le key value entries Value.entryWeight
    rw [hentries, Option.elim_some, Value.weight_map, Value.weight_map] at hassign
    omega
  next =>
    have hassign := weight_assign_le h name (.map [(key, value)])
    rwa [Value.weight_map, List.map_singleton, List.sum_singleton] at hassign

omit h in
/-- Two fields of a message weigh no more than all of them. -/
theorem weight_add_le {first second : String} (hne : first ≠ second) {value other : Value}
    (hfirst : value? record first = some value) (hsecond : value? record second = some other) :
    value.weight + other.weight ≤ weight record := by
  have hsubset : [(first, value), (second, other)] ⊆ record := by
    simp [Sorted.mem_of_find? hfirst, Sorted.mem_of_find? hsecond]
  obtain ⟨pairs, hperm, hsublist⟩ := List.subperm_of_subset (by simp [hne]) hsubset
  have hsum := (hsublist.map fun pair => pair.2.weight).sum_le_sum (by simp)
  rw [(hperm.map _).sum_eq] at hsum
  rw [weight_eq_sum]
  simpa using hsum

omit h in
theorem weight_remove_le (name : String) : weight (remove record name) ≤ weight record := by
  rw [weight_eq_sum, weight_eq_sum]
  exact (List.filter_sublist.map _).sum_le_sum (by simp)

end Record

end WireCodec
