import WireCodec.Proofs.Codec.Reference

/-! # Maps and lists of entries

A map can be spelled out as the list of its entries, each a message of a key
and a value, and such a list can be merged into a map again. Both are done to
one field, wherever messages that have it occur in a value.
-/

namespace WireCodec

/-! ## Rewriting a field -/

section Rewriting

variable (set : PlanSet) (entry : String) (change : Value → Value)

mutual

/-- A value of a type, with what fields of the type of the entries hold changed
in all messages in it. The values of a map are of the type that its entries have. -/
def rewriteValue (type : ValueType) : Value → Value
  | .message fields =>
    match set.nested? (some type) with
    | some plan => .message (rewriteFields plan fields)
    | none => .message fields
  | .list items => .list (rewriteItems type items)
  | .map entries =>
    match Reference.entryTypes? set type with
    | some types => .map (rewriteEntries types.2 entries)
    | none => .map entries
  | .bool b => .bool b
  | .int32 n => .int32 n
  | .int64 n => .int64 n
  | .uint32 n => .uint32 n
  | .uint64 n => .uint64 n
  | .float x => .float x
  | .double x => .double x
  | .string s => .string s
  | .bytes b => .bytes b
  | .enum symbol => .enum symbol

/-- The items of a list, with the change made in all messages in them. -/
def rewriteItems (type : ValueType) : List Value → List Value
  | [] => []
  | item :: rest => rewriteValue type item :: rewriteItems type rest

/-- The entries of a map, with the change made in all messages in their values. -/
def rewriteEntries (type : ValueType) : List (MapKey × Value) → List (MapKey × Value)
  | [] => []
  | (key, value) :: rest => (key, rewriteValue type value) :: rewriteEntries type rest

/-- The fields of a message, with the change made to those of the type of the
entries and in all messages in the others. -/
def rewriteFields (plan : MessagePlan) : List (String × Value) → List (String × Value)
  | [] => []
  | (name, value) :: rest =>
    (name,
      match plan.field? name with
      | none => value
      | some field =>
        if field.type = .message entry then change (rewriteValue field.type value)
        else rewriteValue field.type value) :: rewriteFields plan rest

end

/-- What a field of a message holds, rewritten. -/
def rewriteField (field : FieldPlan) (value : Value) : Value :=
  if field.type = .message entry then change (rewriteValue set entry change field.type value)
  else rewriteValue set entry change field.type value

variable {set entry change}

theorem rewriteItems_eq (type : ValueType) (items : List Value) :
    rewriteItems set entry change type items = items.map (rewriteValue set entry change type) := by
  induction items with
  | nil => rfl
  | cons item rest ih => rw [rewriteItems, ih, List.map_cons]

theorem rewriteEntries_eq (type : ValueType) (entries : List (MapKey × Value)) :
    rewriteEntries set entry change type entries =
      entries.map fun pair => (pair.1, rewriteValue set entry change type pair.2) := by
  induction entries with
  | nil => rfl
  | cons pair rest ih => rw [rewriteEntries, ih, List.map_cons]

variable {plan : MessagePlan}

/-- Rewriting keeps the names of the fields. -/
theorem map_fst_rewriteFields (record : Record) :
    (rewriteFields set entry change plan record).map (·.1) = record.map (·.1) := by
  induction record with
  | nil => rfl
  | cons pair rest ih => rw [rewriteFields, List.map_cons, List.map_cons, ih]

theorem value?_rewriteFields {field : FieldPlan} (hfield : plan.field? field.name = some field)
    (record : Record) : Record.value? (rewriteFields set entry change plan record) field.name =
      (Record.value? record field.name).map (rewriteField set entry change field) := by
  induction record with
  | nil => rfl
  | cons pair rest ih =>
      obtain ⟨name, value⟩ := pair
      rw [rewriteFields, Record.value?, Sorted.find?, Record.value?, Sorted.find?]
      by_cases hname : field.name = name
      · subst hname
        rw [hfield]
        simp [rewriteField]
      · rw [if_neg (by simpa using hname), if_neg (by simpa using hname)]
        exact ih

variable (set entry change) in
/-- Rewriting changes what messages, lists and maps consist of, and nothing else. -/
theorem rewriteValue_cases (type : ValueType) (value : Value) :
    rewriteValue set entry change type value = value ∨
      (∃ fields new, value = .message fields ∧
        rewriteValue set entry change type value = .message new) ∨
      (∃ items new, value = .list items ∧
        rewriteValue set entry change type value = .list new) ∨
      ∃ entries new, value = .map entries ∧
        rewriteValue set entry change type value = .map new := by
  cases value with
  | message fields =>
      refine .inr (.inl ⟨fields, ?_⟩)
      rw [rewriteValue]
      split <;> exact ⟨_, rfl, rfl⟩
  | list items => exact .inr (.inr (.inl ⟨items, _, rfl, rfl⟩))
  | map entries =>
      refine .inr (.inr (.inr ⟨entries, ?_⟩))
      rw [rewriteValue]
      split <;> exact ⟨_, rfl, rfl⟩
  | _ => exact .inl rfl

variable (set entry change) in
theorem kind_rewriteValue (type : ValueType) (value : Value) :
    (rewriteValue set entry change type value).kind = value.kind := by
  obtain heq | ⟨_, _, rfl, heq⟩ | ⟨_, _, rfl, heq⟩ | ⟨_, _, rfl, heq⟩ :=
    rewriteValue_cases set entry change type value
  · rw [heq]
  all_goals
    rw [heq]
    rfl

theorem rewriteValue_ofScalar (type : ValueType) (scalar : ScalarType) (x : scalar.Carrier) :
    rewriteValue set entry change type (.ofScalar scalar x) = .ofScalar scalar x := by
  cases scalar <;> rfl

/-- Rewriting keeps map keys, and what is none does not become one. -/
theorem toMapKey?_rewriteValue (type : ValueType) (value : Value) :
    (rewriteValue set entry change type value).toMapKey? = value.toMapKey? := by
  obtain heq | ⟨_, _, rfl, heq⟩ | ⟨_, _, rfl, heq⟩ | ⟨_, _, rfl, heq⟩ :=
    rewriteValue_cases set entry change type value
  · rw [heq]
  all_goals
    rw [heq]
    rfl

theorem eq_list_of_rewriteValue {type : ValueType} {value : Value} {new : List Value}
    (h : rewriteValue set entry change type value = .list new) : ∃ items, value = .list items := by
  obtain heq | ⟨_, _, -, heq⟩ | ⟨items, _, hitems, -⟩ | ⟨_, _, -, heq⟩ :=
    rewriteValue_cases set entry change type value
  · exact ⟨new, heq.symm.trans h⟩
  · cases heq.symm.trans h
  · exact ⟨items, hitems⟩
  · cases heq.symm.trans h

theorem eq_map_of_rewriteValue {type : ValueType} {value : Value} {new : List (MapKey × Value)}
    (h : rewriteValue set entry change type value = .map new) :
    ∃ entries, value = .map entries := by
  obtain heq | ⟨_, _, -, heq⟩ | ⟨_, _, -, heq⟩ | ⟨entries, _, hentries, -⟩ :=
    rewriteValue_cases set entry change type value
  · exact ⟨new, heq.symm.trans h⟩
  · cases heq.symm.trans h
  · cases heq.symm.trans h
  · exact ⟨entries, hentries⟩

end Rewriting

/-! ## Spelling out and merging -/

/-- The message that stands for a map entry. -/
def Value.ofEntry (entry : MapKey × Value) : Value := .message (entryRecord entry.1 entry.2)

/-- A map as the list of its entries. -/
def Value.spellEntries : Value → Value
  | .map entries => .list (entries.map ofEntry)
  | value => value

/-- Puts the key and the value of an entry message into a map. -/
def insertEntry (entries : List (MapKey × Value)) : Value → List (MapKey × Value)
  | .message pair =>
    match (Record.value? pair keyField).bind Value.toMapKey?, Record.value? pair valueField with
    | some key, some value => Sorted.insert key value entries
    | _, _ => entries
  | _ => entries

/-- The items of a list. -/
def Value.items : Value → List Value
  | .list items => items
  | _ => []

@[simp]
theorem Value.items_list (items : List Value) : (Value.list items).items = items := rfl

/-- A list of entries as the map that they are put into in order. -/
def Value.mergeEntries (value : Value) : Value := .map (value.items.foldl insertEntry [])

/-- A message with the maps of the field with the given entries spelled out. -/
def PlanSet.spellOut (set : PlanSet) (entry : String) (plan : MessagePlan) (record : Record) :
    Record := rewriteFields set entry Value.spellEntries plan record

/-- A message with the lists of entries of that field merged into maps. -/
def PlanSet.merge (set : PlanSet) (entry : String) (plan : MessagePlan) (record : Record) :
    Record := rewriteFields set entry Value.mergeEntries plan record

theorem PlanSet.value?_merge {set : PlanSet} {entry : String} {plan : MessagePlan}
    (field : FieldPlan) (hfield : plan.field? field.name = some field)
    (htype : field.type ≠ .message entry) (record : Record) :
    Record.value? (set.merge entry plan record) field.name =
      (Record.value? record field.name).map
        (rewriteValue set entry Value.mergeEntries field.type) := by
  have hvalue : rewriteField set entry Value.mergeEntries field =
      rewriteValue set entry Value.mergeEntries field.type := funext fun _ => if_neg htype
  rw [PlanSet.merge, value?_rewriteFields hfield, hvalue]

/-- The type of the single values of a value of a field type. -/
def Value.elementType? (set : PlanSet) (type : ValueType) : Value → Option ValueType
  | .map _ => (Reference.entryTypes? set type).map (·.2)
  | _ => some type

/-- The field with the given entries holds a map wherever it is present. -/
inductive Record.HoldsMaps (set : PlanSet) (entry : String) : MessagePlan → Record → Prop
  | intro {plan : MessagePlan} {record : Record}
      (maps : ∀ field ∈ plan.fields, field.type = .message entry → ∀ value,
        Record.value? record field.name = some value → ∃ entries, value = .map entries)
      (nested : ∀ field ∈ plan.fields, ∀ value, Record.value? record field.name = some value →
        ∀ fields, .message fields ∈ value.elements → ∀ inner,
          set.nested? (value.elementType? set field.type) = some inner →
            Record.HoldsMaps set entry inner fields) :
      Record.HoldsMaps set entry plan record

end WireCodec
