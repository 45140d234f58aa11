import WireCodec.Proofs.Value.Sorted
import WireCodec.Value.Basic

/-! # Messages nested in messages

The single values that the value of a field consists of, and induction over
the messages among them. An ordered message has its fields, and the entries of
its maps, in increasing order at every level of nesting.
-/

namespace WireCodec

/-- The single values of a field: the items of a list, the values of a map, or
the value itself. -/
def Value.elements : Value → List Value
  | .list items => items
  | .map entries => entries.map (·.2)
  | value => [value]

@[simp]
theorem Value.elements_message (fields : Record) :
    (Value.message fields).elements = [.message fields] := rfl

theorem Value.sizeOf_lt_of_mem_elements {fields : Record} {value : Value}
    (h : .message fields ∈ value.elements) : sizeOf fields < sizeOf value := by
  cases value with
  | message inner =>
      obtain rfl : fields = inner := by simpa using h
      simp only [Value.message.sizeOf_spec]
      omega
  | list items =>
      have hitem : sizeOf (Value.message fields) < sizeOf items := List.sizeOf_lt_of_mem h
      simp only [Value.message.sizeOf_spec] at hitem
      simp only [Value.list.sizeOf_spec]
      omega
  | map entries =>
      obtain ⟨⟨key, value⟩, hmem, heq⟩ := List.mem_map.mp h
      have hentry : sizeOf (key, value) < sizeOf entries := List.sizeOf_lt_of_mem hmem
      simp only at heq
      subst heq
      simp only [Prod.mk.sizeOf_spec, Value.message.sizeOf_spec] at hentry
      simp only [Value.map.sizeOf_spec]
      omega
  | _ => simp [Value.elements] at h

namespace Record

/-- A property holds of all messages if it holds of each whose nested messages
have it. -/
theorem nesting_induction {motive : Record → Prop}
    (step : ∀ record : Record, (∀ pair ∈ record, ∀ fields, .message fields ∈ pair.2.elements →
      motive fields) → motive record) (record : Record) : motive record := by
  -- messages are nested through lists, maps and pairs, so the induction is on size
  induction hsize : sizeOf record using Nat.strongRecOn generalizing record with
  | _ size ih =>
      refine step record fun pair hpair fields hfields => ih (sizeOf fields) ?_ fields rfl
      have hvalue := Value.sizeOf_lt_of_mem_elements hfields
      have hmem : sizeOf pair < sizeOf record := List.sizeOf_lt_of_mem hpair
      obtain ⟨name, value⟩ := pair
      simp only [Prod.mk.sizeOf_spec] at hmem
      simp only at hvalue
      omega

/-- Fields and the entries of maps stand in increasing order, in the message
and in all messages nested in it. -/
inductive Ordered : Record → Prop
  | intro {record : Record} (fields : Sorted.Increasing record)
      (maps : ∀ pair ∈ record, ∀ entries, pair.2 = .map entries → Sorted.Increasing entries)
      (nested : ∀ pair ∈ record, ∀ inner, .message inner ∈ pair.2.elements → Ordered inner) :
      Ordered record

end Record

end WireCodec
