import WireCodec.Program.Build
import WireCodec.Program.Meaning
import WireCodec.Proofs.Codec.Changes
import WireCodec.Proofs.Lists
import WireCodec.Proofs.Plan.Coherent
import WireCodec.Proofs.Render.Variants

/-! # Values of programs and of messages

The fields of a struct stand for a message when each of them holds what the
message has under its name: none and an empty collection stand for nothing, a
variant for its symbol. What a message within another stands for is left open.
Changing a field and its value alike keeps the relation.
-/

namespace WireCodec

open Program

/-- A list as a field holds it; none is held without items. -/
def Value.ofItems : List Value → Option Value
  | [] => none
  | items => some (.list items)

/-- A map as a field holds it; none is held without entries. -/
def Value.ofEntries : List (MapKey × Value) → Option Value
  | [] => none
  | entries => some (.map entries)

theorem Value.append_ofItems (items : List Value) (item : Value) :
    FieldChange.apply (.append (some item)) (ofItems items) = ofItems (items ++ [item]) := by
  cases items <;> rfl

theorem Value.ofEntries_insert (key : MapKey) (value : Value) (entries : List (MapKey × Value)) :
    ofEntries (Sorted.insert key value entries) =
      some (.map (Sorted.insert key value entries)) := by
  cases entries with
  | nil => rfl
  | cons entry rest =>
      unfold Sorted.insert
      cases compare key entry.1 <;> rfl

theorem Value.put_ofEntries (entries : List (MapKey × Value)) (key : MapKey) (value : Value) :
    FieldChange.apply (.put key value) (ofEntries entries) =
      ofEntries (Sorted.insert key value entries) := by
  rw [ofEntries_insert]
  cases entries <;> rfl

variable {μ : Type} (set : PlanSet) (nests : String → μ → Record → Prop)

/-- A single value of a program that stands for one of a type. -/
inductive Program.Datum.Stands : ValueType → Datum μ → Value → Prop
  | scalar (type : ScalarType) (x : type.Carrier) :
      Stands (.scalar type) (.native (.ofScalar type x)) (.ofScalar type x)
  | enum {name symbol : String} {table : EnumTable} {number : Int32}
      (htable : set.enum? name = some table) (hsymbol : table.symbol? number = some symbol) :
      Stands (.enum name) (.variant (typeIdentifier name) (variantIdentifier symbol))
        (.enum symbol)
  | message {name : String} {inner : μ} {record : Record} (h : nests name inner record) :
      Stands (.message name) (.message inner) (.message record)

/-- An entry of a map of a program that stands for one with keys of a scalar type. -/
structure EntryStands (key : ScalarType) (type : ValueType) (entry : MapKey × Datum μ)
    (found : MapKey × Value) : Prop where
  same : entry.1 = found.1
  typed : ∃ x, Value.ofScalar key x = .ofMapKey found.1
  stands : entry.2.Stands set nests type found.2

/-- What a field of a struct holds stands for what a message has for the field. -/
inductive Program.Slot.Stands (field : FieldPlan) : Slot μ → Option Value → Prop
  | option {held : Option (Datum μ)} {found : Option Value} (hmap : field.isMapEntry = false)
      (hsingular : field.cardinality ≠ .repeated)
      (h : Option.Rel (Datum.Stands set nests field.type) held found) :
      Stands field (.option held) found
  | vec {held : List (Datum μ)} {found : List Value} (hmap : field.isMapEntry = false)
      (hrepeated : field.cardinality = .repeated)
      (h : List.Forall₂ (Datum.Stands set nests field.type) held found) :
      Stands field (.vec held) (Value.ofItems found)
  | hashMap {held : List (MapKey × Datum μ)} {found : List (MapKey × Value)} {entry : String}
      {plan : MessagePlan} {key : ScalarType} {type : ValueType} (hmap : field.isMapEntry = true)
      (htype : field.type = .message entry) (hplan : set.message? entry = some plan)
      (hentry : plan.IsEntry key type)
      (h : List.Forall₂ (EntryStands set nests key type) held found) :
      Stands field (.hashMap held) (Value.ofEntries found)

/-- A struct stands for a message of a plan. -/
structure Program.Fields.Stand (plan : MessagePlan) (fields : Fields μ) (record : Record) :
    Prop where
  increasing : Sorted.Increasing record
  known : ∀ name, (∀ field ∈ plan.fields, field.name ≠ name) → Record.value? record name = none
  slots : List.Forall₂ (fun held field => held.1 = identifier field.name ∧
    held.2.Stands set nests field (Record.value? record field.name)) fields plan.fields

/-- Types, fields and variants are named apart. -/
structure PlanSet.DistinctIdentifiers : Prop where
  enums : (set.enums.map fun table => typeIdentifier table.name).Nodup
  messages : (set.messages.map fun plan => typeIdentifier plan.name).Nodup
  variants : ∀ table ∈ set.enums, (table.variants.map (·.2)).Nodup
  fields : ∀ plan ∈ set.messages, (plan.fields.map fun field => identifier field.name).Nodup

variable {set nests}

/-! ## Declarations -/

section Declarations

theorem find?_of_nodup {α : Type} {items : List α} (label : α → String)
    (hnodup : (items.map label).Nodup) {a : α} (ha : a ∈ items) :
    items.find? (label · == label a) = some a := by
  have hsome : (items.find? (label · == label a)).isSome :=
    List.find?_isSome.mpr ⟨a, ha, beq_self_eq_true _⟩
  obtain ⟨found, hfound⟩ := Option.isSome_iff_exists.mp hsome
  have hlabel : label found = label a := by simpa using List.find?_some hfound
  rw [hfound, List.inj_on_of_nodup_map hnodup (List.mem_of_find?_eq_some hfound) ha hlabel]

theorem Program.MessageItem.entryItem?_eq_some {item : MessageItem} {name : String}
    {entry : EntryItem} :
    item.entryItem? name = some entry ↔ item = .entry entry ∧ entry.name = name := by
  cases item with
  | struct item => simp [MessageItem.entryItem?]
  | entry item =>
      simp only [MessageItem.entryItem?, Option.ite_none_right_eq_some, Option.some.injEq,
        MessageItem.entry.injEq]
      constructor
      · rintro ⟨hname, rfl⟩
        exact ⟨rfl, hname⟩
      · rintro ⟨rfl, hname⟩
        exact ⟨hname, rfl⟩

theorem MessagePlan.name_of_entry (plan : MessagePlan) {entry : EntryItem}
    (h : plan.item? set = some (.entry entry)) : entry.name = typeIdentifier plan.name := by
  unfold MessagePlan.item? at h
  split at h
  · split at h
    · cases h
      rfl
    · cases h
  · cases h

variable (hset : set.DistinctIdentifiers)
include hset

theorem PlanSet.DistinctIdentifiers.enum? {name : String} {table : EnumTable}
    (htable : set.enum? name = some table) :
    set.program.enum? (typeIdentifier name) = some table.item := by
  have hmem := List.mem_reverse.mp (List.mem_of_find?_eq_some htable)
  obtain rfl : table.name = name := by simpa using List.find?_some htable
  unfold PlanSet.program Program.enum?
  rw [List.find?_map]
  exact congrArg _ (find?_of_nodup _ hset.enums hmem)

theorem PlanSet.DistinctIdentifiers.entryItem? {name : String} {plan : MessagePlan}
    (hplan : set.message? name = some plan) {key : ScalarType} {type : ValueType}
    (hentry : plan.IsEntry key type) :
    set.program.entryItem? (typeIdentifier name) =
      some (plan.entryItem (.ofEntry keyField 1 (.scalar key)) (.ofEntry valueField 2 type)) := by
  obtain ⟨hmem, rfl⟩ := set.mem_of_message? hplan
  have hitem : plan.item? set = some (.entry (plan.entryItem (.ofEntry keyField 1 (.scalar key))
      (.ofEntry valueField 2 type))) := by
    unfold MessagePlan.item?
    rw [hentry.synthetic, hentry.fields]
    rfl
  have hentryMem : .entry (plan.entryItem _ _) ∈ set.program.messages :=
    List.mem_filterMap.mpr ⟨plan, hmem, hitem⟩
  have hsome : (set.program.entryItem? (typeIdentifier plan.name)).isSome := by
    refine List.findSome?_isSome_iff.mpr ⟨_, hentryMem, ?_⟩
    simp [MessageItem.entryItem?, MessagePlan.entryItem]
  obtain ⟨found, hfound⟩ := Option.isSome_iff_exists.mp hsome
  obtain ⟨declared, hdeclared, hname⟩ := List.exists_of_findSome?_eq_some hfound
  obtain ⟨other, hother, hotherItem⟩ := List.mem_filterMap.mp hdeclared
  obtain ⟨rfl, hfoundName⟩ := MessageItem.entryItem?_eq_some.mp hname
  -- entries of one name are those of one plan
  have hsame := (other.name_of_entry hotherItem).symm.trans hfoundName
  obtain rfl := List.inj_on_of_nodup_map hset.messages hother hmem hsame
  obtain rfl := MessageItem.entry.inj (Option.some.inj (hitem.symm.trans hotherItem))
  exact hfound

end Declarations

/-- The variant of a number is that of its symbol. -/
theorem EnumTable.variant?_item (table : EnumTable) (number : Int32) :
    table.item.variant? number = (table.symbol? number).map variantIdentifier := by
  unfold EnumItem.variant? item variants
  rw [← table.find?_canonical, List.find?_map]
  induction table.canonical with
  | nil => rfl
  | cons pair rest ih =>
      rw [List.find?_cons, Sorted.find?]
      by_cases hnumber : number.toInt = pair.1
      · simp [hnumber]
      · simp only [Function.comp_apply, beq_eq_false_iff_ne.mpr hnumber,
          beq_eq_false_iff_ne.mpr (Ne.symm hnumber)]
        exact ih

/-! ## Fields -/

section Fields

variable {field : FieldPlan} {slot : Slot μ} {found : Option Value}

theorem Program.Slot.Stands.assign (hmap : field.isMapEntry = false)
    (hsingular : field.cardinality ≠ .repeated) {held : Option (Datum μ)} {value : Option Value}
    (hvalue : Option.Rel (Datum.Stands set nests field.type) held value) :
    (Slot.option held).Stands set nests field (FieldChange.apply (.assign value) found) :=
  .option hmap hsingular hvalue

theorem Program.Slot.Stands.push? (h : slot.Stands set nests field found)
    (hmap : field.isMapEntry = false) (hrepeated : field.cardinality = .repeated)
    {item : Option (Datum μ)} {value : Option Value}
    (hitem : Option.Rel (Datum.Stands set nests field.type) item value) :
    (slot.push? item).Stands set nests field (FieldChange.apply (.append value) found) := by
  cases hitem with
  | none =>
      have hslot : slot.push? none = slot := by cases slot <;> rfl
      rw [hslot]
      exact h
  | some hstands =>
      cases h with
      | option _ hsingular _ => exact absurd hrepeated hsingular
      | hashMap hmap' => exact absurd (hmap.symm.trans hmap') Bool.false_ne_true
      | vec _ _ hitems =>
          rw [Value.append_ofItems]
          exact .vec hmap hrepeated (List.rel_append hitems (.cons hstands .nil))

theorem Program.Slot.Stands.isNone_of_required (h : slot.Stands set nests field found)
    (hfield : field.Coherent set) (hrequired : field.cardinality = .required) :
    slot.isNone = !found.isSome := by
  cases h with
  | option _ _ hheld => cases hheld <;> rfl
  | vec _ hrepeated => cases hrequired.symm.trans hrepeated
  | hashMap hmap => cases hrequired.symm.trans (hfield.entry hmap).1

omit set nests in
theorem forall₂_insert {κ α β : Type} [Ord κ] {r : κ × α → κ × β → Prop}
    (hsame : ∀ a b, r a b → a.1 = b.1) {key : κ} {a : α} {b : β} (hnew : r (key, a) (key, b))
    {entries : List (κ × α)} {entries' : List (κ × β)} (h : List.Forall₂ r entries entries') :
    List.Forall₂ r (Sorted.insert key a entries) (Sorted.insert key b entries') := by
  induction h with
  | nil => exact .cons hnew .nil
  | @cons first first' rest rest' hfirst hrest ih =>
      obtain ⟨other, old⟩ := first
      obtain ⟨other', old'⟩ := first'
      obtain rfl : other = other' := hsame _ _ hfirst
      unfold Sorted.insert
      cases compare key other with
      | lt => exact .cons hnew (.cons hfirst hrest)
      | eq => exact .cons hnew hrest
      | gt => exact .cons hfirst ih

theorem Program.Slot.Stands.insert (h : slot.Stands set nests field found) {entry : String}
    {plan : MessagePlan} {key : ScalarType} {type : ValueType} (hmap : field.isMapEntry = true)
    (htype : field.type = .message entry) (hplan : set.message? entry = some plan)
    (hentry : plan.IsEntry key type) {mapKey : MapKey} {datum : Datum μ} {value : Value}
    (hstands : EntryStands set nests key type (mapKey, datum) (mapKey, value)) :
    (slot.insert (.native (.ofMapKey mapKey)) datum).Stands set nests field
      (FieldChange.apply (.put mapKey value) found) := by
  cases h with
  | option hmap' => exact absurd (hmap'.symm.trans hmap) Bool.false_ne_true
  | vec hmap' => exact absurd (hmap'.symm.trans hmap) Bool.false_ne_true
  | @hashMap held found entry' plan' key' type' _ htype' hplan' hentry' hentries =>
      obtain rfl := ValueType.message.inj (htype.symm.trans htype')
      obtain rfl := Option.some.inj (hplan.symm.trans hplan')
      obtain ⟨rfl, rfl⟩ := hentry.unique hentry'
      have hslot : (Slot.hashMap held).insert (.native (.ofMapKey mapKey)) datum =
          .hashMap (Sorted.insert mapKey datum held) := by
        simp only [Slot.insert, Value.toMapKey?_ofMapKey]
      rw [Value.put_ofEntries, hslot]
      exact .hashMap hmap htype hplan hentry
        (forall₂_insert (fun _ _ hsame => hsame.same) hstands hentries)

end Fields

section Changing

variable {plan : MessagePlan} {fields : Fields μ} {record : Record}
  (h : fields.Stand set nests plan record)
  (hidentifiers : (plan.fields.map fun field => identifier field.name).Nodup)
  {field : FieldPlan} (hfield : field ∈ plan.fields)
include h hidentifiers hfield

/-- A field and its value are changed alike. -/
theorem Program.Fields.Stand.modify (hnames : (plan.fields.map (·.name)).Nodup)
    (change : Slot μ → Slot μ) (what : FieldChange)
    (hchange : ∀ slot found, slot.Stands set nests field found →
      (change slot).Stands set nests field (what.apply found)) :
    (fields.modify (identifier field.name) change).Stand set nests plan
      (Change.apply ⟨field.name, what⟩ record) := by
  refine ⟨Change.increasing_apply h.increasing _, ?_, ?_⟩
  · intro name hname
    rw [Change.value?_apply, if_neg (hname field hfield).symm]
    exact h.known name hname
  · unfold Fields.modify
    rw [List.forall₂_map_left_iff]
    refine forall₂_of_mem h.slots ?_
    rintro held - other hother ⟨hname, hstands⟩
    by_cases hsame : other = field
    · subst hsame
      rw [if_pos hname, Change.value?_apply, if_pos rfl]
      exact ⟨hname, hchange _ _ hstands⟩
    · have hapart : held.1 ≠ identifier field.name := fun heq =>
        hsame (List.inj_on_of_nodup_map hidentifiers hother hfield (hname.symm.trans heq))
      have hother' : other.name ≠ field.name := fun heq =>
        hsame (List.inj_on_of_nodup_map hnames hother hfield heq)
      rw [if_neg hapart, Change.value?_apply, if_neg hother']
      exact ⟨hname, hstands⟩

theorem Program.Fields.Stand.slot? : ∃ slot, fields.slot? (identifier field.name) = some slot ∧
    slot.Stands set nests field (Record.value? record field.name) := by
  obtain ⟨held, hheld, hname, hstands⟩ := exists_mem_of_forall₂ h.slots hfield
  have hlabels : fields.map (·.1) = plan.fields.map fun field => identifier field.name := by
    refine List.forall₂_eq_eq_eq ▸ ?_
    rw [List.forall₂_map_left_iff, List.forall₂_map_right_iff]
    exact h.slots.imp fun _ _ hslot => hslot.1
  have hfound := find?_of_nodup (·.1) (hlabels ▸ hidentifiers) hheld
  refine ⟨held.2, ?_, hstands⟩
  unfold Fields.slot?
  rw [← hname, hfound]
  rfl

end Changing

end WireCodec
