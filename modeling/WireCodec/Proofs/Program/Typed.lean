import WireCodec.Program.Typed
import WireCodec.Proofs.Program.Values

/-! # Typed values stand for what messages have

If the single values of a form stand for values of a message, so do optional
values, lists and maps of them in the fields of a struct; and where a struct
stands for a message, what is found in its fields is what the message has.
-/

namespace WireCodec

open Program

variable {μ α : Type} (set : PlanSet) (nests : String → μ → Record → Prop)

/-- What is held in a form stands for the values of a type, and only that does. -/
structure Program.Form.Represents (form : Form μ α) (type : ValueType) (toValue : α → Value) :
    Prop where
  stands : ∀ x, (form.hold x).Stands set nests type (toValue x)
  found : ∀ {datum value}, datum.Stands set nests type value →
    ∃ x, form.held? datum = some x ∧ value = toValue x

variable {set nests}

theorem represents_scalar (type : ScalarType) :
    Form.Represents set nests (.scalar type) (.scalar type) (Value.ofScalar type) where
  stands x := .scalar type x
  found h := by
    cases h with
    | scalar _ x => exact ⟨x, Value.toScalar?_ofScalar type x, rfl⟩

theorem represents_message {name : String} {toRecord : μ → Record}
    (hnests : ∀ inner record, nests name inner record ↔ record = toRecord inner) :
    Form.Represents set nests .message (.message name) fun inner => .message (toRecord inner) where
  stands inner := .message ((hnests inner _).mpr rfl)
  found h := by
    cases h with
    | @message _ inner record h => exact ⟨inner, rfl, congrArg _ ((hnests inner record).mp h)⟩

/-- The values of an enum are represented if each of them is of one variant of
the table, and each variant is that of a value. -/
theorem represents_enum {name : String} {table : EnumTable} (htable : set.enum? name = some table)
    {all : List α} {symbol : α → String}
    (hvalues : ∀ x, ∃ number, table.symbol? number = some (symbol x))
    (hall : ∀ number found, table.symbol? number = some found → ∃ x ∈ all, symbol x = found)
    (hinjective : ∀ x y, variantIdentifier (symbol x) = variantIdentifier (symbol y) → x = y) :
    Form.Represents set nests
      (.enum (typeIdentifier name) all fun x => variantIdentifier (symbol x))
      (.enum name) fun x => .enum (symbol x) where
  stands x :=
    let ⟨_, hsymbol⟩ := hvalues x
    .enum htable hsymbol
  found h := by
    cases h with
    | @enum _ found other number htable' hsymbol =>
        obtain rfl := Option.some.inj (htable.symm.trans htable')
        obtain ⟨x, hx, rfl⟩ := hall number found hsymbol
        refine ⟨x, ?_, rfl⟩
        have hsome : (all.find? fun y =>
            variantIdentifier (symbol y) == variantIdentifier (symbol x)).isSome :=
          List.find?_isSome.mpr ⟨x, hx, beq_self_eq_true _⟩
        obtain ⟨y, hy⟩ := Option.isSome_iff_exists.mp hsome
        have hsame : variantIdentifier (symbol y) = variantIdentifier (symbol x) := by
          simpa using List.find?_some hy
        exact hy.trans (congrArg some (hinjective y x hsame))

section Slots

variable {form : Form μ α} {field : FieldPlan} {toValue : α → Value}

theorem stands_ofOption (h : form.Represents set nests field.type toValue)
    (hmap : field.isMapEntry = false) (hsingular : field.cardinality ≠ .repeated)
    (value : Option α) :
    (Slot.ofOption form value).Stands set nests field (value.map toValue) := by
  refine .option hmap hsingular ?_
  cases value with
  | none => exact .none
  | some x => exact .some (h.stands x)

theorem stands_ofList (h : form.Represents set nests field.type toValue)
    (hmap : field.isMapEntry = false) (hrepeated : field.cardinality = .repeated)
    (values : List α) :
    (Slot.ofList form values).Stands set nests field (Value.ofItems (values.map toValue)) :=
  .vec hmap hrepeated (forall₂_map_map h.stands values)

variable {name : String} {entry : MessagePlan} {key : ScalarType} {type : ValueType}
  {toKey : key.Carrier → MapKey} (hkey : ∀ x, Value.ofScalar key x = .ofMapKey (toKey x))
include hkey

theorem stands_ofMap (h : form.Represents set nests type toValue)
    (hmap : field.isMapEntry = true) (htype : field.type = .message name)
    (hplan : set.message? name = some entry) (hentry : entry.IsEntry key type)
    (entries : List (key.Carrier × α)) :
    (Slot.ofMap form toKey entries).Stands set nests field
      (Value.ofEntries (entries.map fun entry => (toKey entry.1, toValue entry.2))) :=
  .hashMap hmap htype hplan hentry
    (forall₂_map_map (fun entry => ⟨rfl, ⟨entry.1, hkey entry.1⟩, h.stands entry.2⟩) entries)

end Slots

section Finding

variable {form : Form μ α} {plan : MessagePlan} {fields : Fields μ} {record : Record}
  {field : FieldPlan} {toValue : α → Value}
  (hstand : fields.Stand set nests plan record)
  (hidentifiers : (plan.fields.map fun field => identifier field.name).Nodup)
  (hfield : field ∈ plan.fields)
include hstand hidentifiers hfield

theorem value?_of_stand (h : form.Represents set nests field.type toValue)
    (hmap : field.isMapEntry = false) (hsingular : field.cardinality ≠ .repeated) :
    Record.value? record field.name =
      (fields.value? (identifier field.name) form).map toValue := by
  obtain ⟨slot, hslot, hstands⟩ := hstand.slot? hidentifiers hfield
  generalize Record.value? record field.name = found at hstands
  unfold Fields.value?
  rw [hslot]
  cases hstands with
  | vec _ hrepeated => exact absurd hrepeated hsingular
  | hashMap hmap' => cases hmap.symm.trans hmap'
  | option _ _ hheld =>
      cases hheld with
      | none => rfl
      | some hdatum =>
          obtain ⟨x, hx, rfl⟩ := h.found hdatum
          simp only [hx, Option.map_some]

theorem elements_of_stand (h : form.Represents set nests field.type toValue)
    (hmap : field.isMapEntry = false) (hrepeated : field.cardinality = .repeated) :
    Record.value? record field.name =
      Value.ofItems ((fields.elements (identifier field.name) form).map toValue) := by
  obtain ⟨slot, hslot, hstands⟩ := hstand.slot? hidentifiers hfield
  generalize Record.value? record field.name = found at hstands
  unfold Fields.elements
  rw [hslot]
  cases hstands with
  | option _ hsingular => exact absurd hrepeated hsingular
  | hashMap hmap' => cases hmap.symm.trans hmap'
  | vec _ _ hheld =>
      exact congrArg Value.ofItems <| map_filterMap_of_forall₂ <| hheld.imp fun _ _ => h.found

theorem entries_of_stand {name : String} {entry : MessagePlan} {key : ScalarType}
    {type : ValueType} {toKey : key.Carrier → MapKey}
    (hkey : ∀ x, Value.ofScalar key x = .ofMapKey (toKey x))
    (h : form.Represents set nests type toValue) (hmap : field.isMapEntry = true)
    (htype : field.type = .message name) (hplan : set.message? name = some entry)
    (hentry : entry.IsEntry key type) : Record.value? record field.name =
      Value.ofEntries ((fields.entries (identifier field.name) form key).map fun entry =>
        (toKey entry.1, toValue entry.2)) := by
  obtain ⟨slot, hslot, hstands⟩ := hstand.slot? hidentifiers hfield
  generalize Record.value? record field.name = found at hstands
  unfold Fields.entries
  rw [hslot]
  cases hstands with
  | option hmap' => cases hmap.symm.trans hmap'
  | vec hmap' => cases hmap.symm.trans hmap'
  | hashMap _ htype' hplan' hentry' hheld =>
      obtain rfl := ValueType.message.inj (htype.symm.trans htype')
      obtain rfl := Option.some.inj (hplan.symm.trans hplan')
      obtain ⟨rfl, rfl⟩ := hentry.unique hentry'
      refine congrArg Value.ofEntries (map_filterMap_of_forall₂ (hheld.imp ?_))
      rintro ⟨mapKey, datum⟩ ⟨_, value⟩ ⟨rfl, ⟨x, hx⟩, hvalue⟩
      obtain ⟨y, hy, rfl⟩ := h.found hvalue
      change Value.ofScalar key x = .ofMapKey mapKey at hx
      refine ⟨(x, y), ?_, ?_⟩
      · rw [← hx, Value.toScalar?_ofScalar, hy]
        rfl
      · rw [Value.ofMapKey_inj.mp (hx.symm.trans (hkey x))]

end Finding

/-! ## Messages given field by field -/

/-- The message with those of the fields that are there. -/
def Record.ofFields (fields : List (String × Option Value)) : Record :=
  fields.filterMap fun field => field.2.map (field.1, ·)

section Records

variable {values : List (String × Option Value)}

theorem Record.mem_ofFields {name : String} {value : Value} :
    (name, value) ∈ ofFields values ↔ (name, some value) ∈ values := by
  unfold ofFields
  constructor
  · intro h
    obtain ⟨⟨other, found⟩, hmem, hfound⟩ := List.mem_filterMap.mp h
    obtain ⟨_, rfl, heq⟩ := Option.map_eq_some_iff.mp hfound
    cases heq
    exact hmem
  · exact fun h => List.mem_filterMap.mpr ⟨_, h, rfl⟩

theorem Record.increasing_of_names (names : List String) (hnames : values.map (·.1) = names)
    (h : names.IsChain (compare · · = .lt)) : Sorted.Increasing values := by
  have htrans : IsTrans String (compare · · = .lt) := ⟨fun _ _ _ => Std.TransCmp.lt_trans⟩
  rw [← hnames, List.isChain_iff_pairwise] at h
  exact List.pairwise_map.mp h

theorem Record.value?_ofFields_eq_none {name : String} (h : ∀ value ∈ values, value.1 ≠ name) :
    value? (ofFields values) name = none := by
  cases hfound : value? (ofFields values) name with
  | none => rfl
  | some value => exact absurd rfl (h _ (mem_ofFields.mp (Sorted.mem_of_find? hfound)))

variable (hvalues : Sorted.Increasing values)
include hvalues

theorem Record.increasing_ofFields : Sorted.Increasing (ofFields values) := by
  refine List.Pairwise.filterMap _ ?_ hvalues
  rintro ⟨first, found⟩ ⟨second, found'⟩ hlt pair hpair pair' hpair'
  obtain ⟨_, _, rfl⟩ := Option.map_eq_some_iff.mp hpair
  obtain ⟨_, _, rfl⟩ := Option.map_eq_some_iff.mp hpair'
  exact hlt

theorem Record.value?_ofFields {name : String} {value : Option Value} (h : (name, value) ∈ values) :
    value? (ofFields values) name = value := by
  cases value with
  | some value => exact Sorted.find?_of_mem (increasing_ofFields hvalues) (mem_ofFields.mpr h)
  | none =>
      cases hfound : value? (ofFields values) name with
      | none => rfl
      | some value =>
          -- no other entry has the name
          have hmem := mem_ofFields.mp (Sorted.mem_of_find? hfound)
          have hsome := Sorted.find?_of_mem hvalues hmem
          rw [Sorted.find?_of_mem hvalues h] at hsome
          cases hsome

end Records

/-- A message of a plan is given by values for its fields, in order of their names. -/
structure MessagePlan.GivenBy (plan : MessagePlan) (values : List (String × Option Value)) :
    Prop where
  increasing : Sorted.Increasing values
  names : (values.map (·.1)).Perm (plan.fields.map (·.name))

section Given

variable {plan : MessagePlan} {values : List (String × Option Value)} {fields : Fields μ}
  (hgiven : plan.GivenBy values)

theorem MessagePlan.givenBy_of_names (names : List String) (hnames : values.map (·.1) = names)
    (hincreasing : names.IsChain (compare · · = .lt))
    (hperm : names.Perm (plan.fields.map (·.name))) : plan.GivenBy values :=
  ⟨Record.increasing_of_names names hnames hincreasing, hnames ▸ hperm⟩

include hgiven

/-- A struct stands for a message if its fields stand for what is given for them. -/
theorem stand_ofFields (hslots : List.Forall₂ (fun held field => held.1 = identifier field.name ∧
      ∃ value, (field.name, value) ∈ values ∧ held.2.Stands set nests field value)
      fields plan.fields) : fields.Stand set nests plan (.ofFields values) where
  increasing := Record.increasing_ofFields hgiven.increasing
  known name h := Record.value?_ofFields_eq_none fun value hvalue hname => by
    have hmem := hgiven.names.subset (List.mem_map_of_mem (f := (·.1)) hvalue)
    obtain ⟨field, hfield, hsame⟩ := List.mem_map.mp hmem
    exact h field hfield (hsame.trans hname)
  slots := hslots.imp fun held field ⟨hname, value, hvalue, hstands⟩ =>
    ⟨hname, (Record.value?_ofFields hgiven.increasing hvalue).symm ▸ hstands⟩

/-- The message that a struct stands for is given by what it has for the fields. -/
theorem Program.Fields.Stand.eq_ofFields {record : Record}
    (h : fields.Stand set nests plan record)
    (hsame : ∀ value ∈ values, Record.value? record value.1 = value.2) :
    record = .ofFields values := by
  refine Sorted.ext h.increasing (Record.increasing_ofFields hgiven.increasing) fun name => ?_
  change Record.value? record name = Record.value? _ name
  by_cases hname : ∃ value, (name, value) ∈ values
  · obtain ⟨value, hvalue⟩ := hname
    rw [hsame _ hvalue, Record.value?_ofFields hgiven.increasing hvalue]
  · rw [h.known name, Record.value?_ofFields_eq_none]
    · rintro ⟨_, value⟩ hvalue rfl
      exact hname ⟨value, hvalue⟩
    · rintro field hfield rfl
      have hmem := hgiven.names.symm.subset (List.mem_map_of_mem (f := (·.name)) hfield)
      obtain ⟨⟨_, value⟩, hvalue, rfl⟩ := List.mem_map.mp hmem
      exact hname ⟨value, hvalue⟩

end Given

end WireCodec
