import WireCodec.Proofs.Json.Encoding
import WireCodec.Proofs.Json.RoundTrip

/-! # Maps from JSON objects

The names in an object that is given for a map are spellings of keys. A text
or a truth value has one spelling, and an integer has many, so that several
members of an object may stand for one entry. The map has one entry for each
key that is spelled, with the value of the last member that spells it. Only
objects in members that are replaced that way are not found in the message
that is read.
-/

namespace WireCodec

/-- The plain spelling of the key that a name stands for. -/
def ScalarType.plainName (type : ScalarType) (name : String) : String :=
  if type = .bool ∨ type = .string then name else Text.Decimal.plainText name

namespace MapKey

variable {type : ScalarType} {name other : String} {key otherKey : MapKey}

/-- A key is printed as the plain spelling of the name that it is read from. -/
theorem text_of_ofText? (h : ofText? (.scalar type) name = some key) :
    key.text = type.plainName name := by
  have hsigned : ∀ {n : Int}, Text.Decimal.int? name = some n →
      toString n = Text.Decimal.plainText name := Text.Decimal.toString_of_int?
  have hunsigned : ∀ {n : Nat}, Text.Decimal.nat? name = some n →
      toString n = Text.Decimal.plainText name := fun hn =>
    Text.Decimal.toString_of_int? (Text.Decimal.int?_of_nat? hn)
  unfold ofText? at h
  cases type with
  | double | float | bytes => cases h
  | string =>
      cases h
      rfl
  | bool =>
      dsimp only at h
      split at h
      next htrue =>
        cases h
        exact htrue.symm
      next =>
        split at h
        next hfalse =>
          cases h
          exact hfalse.symm
        next => cases h
  | int32 | sint32 | sfixed32 =>
      obtain ⟨word, hword, rfl⟩ := Option.map_eq_some_iff.mp h
      obtain ⟨n, hn, hword⟩ := Option.bind_eq_some_iff.mp hword
      obtain rfl := int32?_eq_some.mp hword
      exact hsigned hn
  | int64 | sint64 | sfixed64 =>
      obtain ⟨word, hword, rfl⟩ := Option.map_eq_some_iff.mp h
      obtain ⟨n, hn, hword⟩ := Option.bind_eq_some_iff.mp hword
      obtain rfl := int64?_eq_some.mp hword
      exact hsigned hn
  | uint32 | fixed32 =>
      obtain ⟨word, hword, rfl⟩ := Option.map_eq_some_iff.mp h
      obtain ⟨n, hn, hword⟩ := Option.bind_eq_some_iff.mp hword
      obtain rfl := uint32?_eq_some.mp hword
      exact hunsigned hn
  | uint64 | fixed64 =>
      obtain ⟨word, hword, rfl⟩ := Option.map_eq_some_iff.mp h
      obtain ⟨n, hn, hword⟩ := Option.bind_eq_some_iff.mp hword
      obtain rfl := uint64?_eq_some.mp hword
      exact hunsigned hn

/-- Names stand for one key when they have one plain spelling. -/
theorem eq_iff_plainName (h : ofText? (.scalar type) name = some key)
    (h' : ofText? (.scalar type) other = some otherKey) :
    key = otherKey ↔ type.plainName name = type.plainName other := by
  rw [← text_of_ofText? h, ← text_of_ofText? h']
  refine ⟨congrArg text, fun htext => ?_⟩
  obtain ⟨x, hx⟩ := exists_ofScalar_of_ofText? h
  obtain ⟨y, hy⟩ := exists_ofScalar_of_ofText? h'
  have hkeys := ofText?_text hx
  rw [htext, ofText?_text hy] at hkeys
  exact (Option.some.inj hkeys).symm

end MapKey

section Reading

variable [Base64Engine]

/-- A member of an object describes an entry: its name stands for the key, and
its value for the value. -/
structure PlanSet.Describes (set : PlanSet) (field : String) (key : ScalarType) (type : ValueType)
    (entry : MapKey × Value) (member : String × Json) : Prop where
  key : MapKey.ofText? (.scalar key) member.1 = some entry.1
  value : member.2.toValue set field (.single type) = .ok entry.2

variable {set : PlanSet} {field : String} {key : ScalarType} {type : ValueType}

theorem forall₂_of_entriesOfJson {object : List (String × Json)} {pairs : List (MapKey × Value)}
    (h : entriesOfJson set field (.scalar key) type object = .ok pairs) :
    List.Forall₂ (set.Describes field key type) pairs object := by
  induction object generalizing pairs with
  | nil =>
      unfold entriesOfJson at h
      cases h
      exact .nil
  | cons member rest ih =>
      obtain ⟨mapKey, value, others, hkey, hvalue, hothers, rfl⟩ := entriesOfJson_cons_eq_ok h
      exact .cons ⟨hkey, hvalue⟩ (ih hothers)

section Described

variable {object : List (String × Json)} {pairs : List (MapKey × Value)}
  (h : List.Forall₂ (set.Describes field key type) pairs object)
include h

theorem map_text_of_describes :
    pairs.map (·.1.text) = object.map fun member => key.plainName member.1 := by
  induction h with
  | nil => rfl
  | cons hfirst _ ih => rw [List.map_cons, List.map_cons, ih, MapKey.text_of_ofText? hfirst.key]

theorem eq_of_text {first second : MapKey × Value} (hfirst : first ∈ pairs)
    (hsecond : second ∈ pairs) (htext : first.1.text = second.1.text) : first.1 = second.1 := by
  obtain ⟨member, -, hmember⟩ := exists_mem_of_forall₂ h.flip hfirst
  obtain ⟨other, -, hother⟩ := exists_mem_of_forall₂ h.flip hsecond
  rw [MapKey.eq_iff_plainName hmember.key hother.key, ← MapKey.text_of_ofText? hmember.key, htext,
    MapKey.text_of_ofText? hother.key]

/-- The names in an object stand for one key when they have one plain spelling. -/
theorem ofText?_eq_iff_plainName {first second : String × Json} (hfirst : first ∈ object)
    (hsecond : second ∈ object) :
    MapKey.ofText? (.scalar key) first.1 = MapKey.ofText? (.scalar key) second.1 ↔
      key.plainName first.1 = key.plainName second.1 := by
  obtain ⟨entry, -, hentry⟩ := exists_mem_of_forall₂ h hfirst
  obtain ⟨other, -, hother⟩ := exists_mem_of_forall₂ h hsecond
  rw [hentry.key, hother.key, Option.some_inj]
  exact MapKey.eq_iff_plainName hentry.key hother.key

/-- The keys that are left are those that the names spell, each of them once. -/
theorem texts_perm : ((Sorted.ofList pairs).map (·.1.text)).Perm
    (object.map fun member => key.plainName member.1).dedup := by
  have hkeys := Sorted.keys_ofList_perm pairs
  have htexts : ((Sorted.ofList pairs).map (·.1.text)).Nodup := by
    have hnodup := Sorted.nodup_keys (Sorted.increasing_ofList pairs)
    refine List.Nodup.map_on ?_ (List.Nodup.of_map _ hnodup)
    intro first hfirst second hsecond htext
    have heq := eq_of_text h (Sorted.mem_of_mem_ofList hfirst) (Sorted.mem_of_mem_ofList hsecond)
      htext
    exact List.inj_on_of_nodup_map hnodup hfirst hsecond heq
  refine (List.perm_ext_iff_of_nodup htexts (List.nodup_dedup _)).mpr fun text => ?_
  have hmem : ∀ entries : List (MapKey × Value),
      text ∈ entries.map (·.1.text) ↔ ∃ key ∈ entries.map (·.1), key.text = text := by
    simp
  rw [List.mem_dedup, ← map_text_of_describes h, hmem, hmem]
  simp only [hkeys.mem_iff, List.mem_dedup]

/-- What the last member of a key describes is left. -/
theorem mem_of_last {before after : List (String × Json)} {member : String × Json}
    (hobject : object = before ++ member :: after)
    (hlast : ∀ later ∈ after,
      MapKey.ofText? (.scalar key) later.1 ≠ MapKey.ofText? (.scalar key) member.1) :
    ∃ entry ∈ Sorted.ofList pairs, set.Describes field key type entry member := by
  subst hobject
  have hsplit := List.take_append_drop before.length pairs
  have hrest := List.forall₂_drop_append _ _ _ h
  generalize List.drop before.length pairs = later at hsplit hrest
  cases hrest with
  | @cons entry _ others _ hentry hothers =>
      refine ⟨entry, ?_, hentry⟩
      rw [← hsplit]
      refine Sorted.mem_ofList_of_last fun pair hpair heq => ?_
      obtain ⟨other, hother, hdescribes⟩ := exists_mem_of_forall₂ hothers.flip hpair
      refine hlast other hother ?_
      rw [hdescribes.key, hentry.key, heq]

end Described

/-! ## Values that are read -/

theorem exists_value_of_fieldsOfJson {plan : MessagePlan} {members : List (String × Json)}
    {record : Record} (h : fieldsOfJson set plan members = .ok record) {name : String} {json : Json}
    (hmember : (name, json) ∈ members) (hnull : json ≠ .null) {field : FieldPlan}
    (hfield : plan.field? name = some field) :
    ∃ value, json.toValue set name field.room = .ok value ∧ (name, value) ∈ record := by
  induction members generalizing record with
  | nil => cases hmember
  | cons first rest ih =>
      obtain ⟨other, otherJson⟩ := first
      obtain ⟨otherField, hother, ⟨rfl, hskipped⟩ | ⟨value, others, hvalue, hothers, rfl⟩⟩ :=
        fieldsOfJson_cons_eq_ok h
      · rcases List.mem_cons.mp hmember with heq | hrest
        · exact absurd (Prod.mk.inj heq).2 hnull
        · exact ih hskipped hrest
      · rcases List.mem_cons.mp hmember with heq | hrest
        · cases heq
          obtain rfl : otherField = field := Option.some.inj (hother.symm.trans hfield)
          exact ⟨value, hvalue, List.mem_cons_self⟩
        · obtain ⟨found, hfound, hmem⟩ := ih hothers hrest
          exact ⟨found, hfound, List.mem_cons_of_mem _ hmem⟩

theorem exists_value_of_itemsOfJson {items : List Json} {values : List Value}
    (h : itemsOfJson set field type items = .ok values) {index : Nat} {json : Json}
    (hjson : items[index]? = some json) :
    ∃ value, json.toValue set field (.single type) = .ok value ∧ values[index]? = some value := by
  induction items generalizing values index with
  | nil => simp at hjson
  | cons first rest ih =>
      obtain ⟨value, others, hvalue, hothers, rfl⟩ := itemsOfJson_cons_eq_ok h
      cases index with
      | zero =>
          obtain rfl : first = json := by simpa using hjson
          exact ⟨value, hvalue, rfl⟩
      | succ index => exact ih hothers (by simpa using hjson)

/-! ## Messages within messages -/

/-- Where a message stands in the value of a field: it is that value, an item of
it, or the value of a key in it. -/
inductive MessagePosition where
  | value
  | item (index : Nat)
  | entry (key : MapKey)
deriving DecidableEq, Repr

/-- The way from a message to one within it, from the inside out: fields, and
positions in their values. -/
abbrev MessagePath := List (String × MessagePosition)

/-- A JSON value that is given for a room has an object for a message at a
position: it is that object, or has it as an item or in the last member that
spells a key. -/
inductive FieldRoom.HoldsObject (set : PlanSet) (field : String) :
    FieldRoom → Json → MessagePosition → String → List (String × Json) → Prop
  | value {message : String} {members : List (String × Json)} :
      HoldsObject set field (.single (.message message)) (.object members) .value message members
  | item {message : String} {members : List (String × Json)} {items : List Json} {index : Nat}
      (hitem : items[index]? = some (.object members)) :
      HoldsObject set field (.list (.message message)) (.array items) (.item index) message members
  | entry {message : String} {members before after : List (String × Json)} {entry : ValueType}
      {type : ScalarType} {name : String} {key : MapKey}
      (htypes : set.entryTypes field entry = .ok (.scalar type, .message message))
      (hkey : MapKey.ofText? (.scalar type) name = some key)
      (hlast : ∀ later ∈ after, MapKey.ofText? (.scalar type) later.1 ≠ some key) :
      HoldsObject set field (.map entry) (.object (before ++ (name, .object members) :: after))
        (.entry key) message members

/-- A value has a message at a position. -/
inductive Value.HoldsMessage : Value → MessagePosition → Record → Prop
  | value {fields : Record} : HoldsMessage (.message fields) .value fields
  | item {items : List Value} {index : Nat} {fields : Record}
      (hitem : items[index]? = some (.message fields)) :
      HoldsMessage (.list items) (.item index) fields
  | entry {entries : List (MapKey × Value)} {key : MapKey} {fields : Record}
      (hentry : (key, .message fields) ∈ entries) :
      HoldsMessage (.map entries) (.entry key) fields

/-- A path leads from the object that is given for a message of the first plan
to an object for a message of the second plan. -/
inductive PlanSet.ObjectWithin (set : PlanSet) (plan : MessagePlan)
    (members : List (String × Json)) :
    MessagePath → MessagePlan → List (String × Json) → Prop
  | refl : ObjectWithin set plan members [] plan members
  | field {path : MessagePath} {outer inner : MessagePlan}
      {outerMembers innerMembers : List (String × Json)}
      (hwithin : ObjectWithin set plan members path outer outerMembers) {name : String}
      {json : Json} {field : FieldPlan} {position : MessagePosition} {message : String}
      (hmember : (name, json) ∈ outerMembers) (hfield : outer.field? name = some field)
      (hholds : field.room.HoldsObject set name json position message innerMembers)
      (hinner : set.message? message = some inner) :
      ObjectWithin set plan members ((name, position) :: path) inner innerMembers

/-- A path leads from a message to a message. -/
inductive Record.Within (record : Record) : MessagePath → Record → Prop
  | refl : Within record [] record
  | field {path : MessagePath} {outer inner : Record} (hwithin : Within record path outer)
      {name : String} {value : Value} {position : MessagePosition}
      (hmem : (name, value) ∈ outer) (hholds : value.HoldsMessage position inner) :
      Within record ((name, position) :: path) inner

theorem exists_fields_of_toValue {message : String} {members : List (String × Json)}
    {value : Value}
    (h : (Json.object members).toValue set field (.single (.message message)) = .ok value)
    {plan : MessagePlan} (hplan : set.message? message = some plan) :
    ∃ fields, fieldsOfJson set plan members = .ok fields ∧ value = .message fields := by
  simp only [Json.toValue, PlanSet.nestedPlan, hplan, Except.ok_bind] at h
  obtain ⟨fields, hfields, hvalue⟩ := Except.bind_eq_ok.mp h
  cases hvalue
  exact ⟨fields, hfields, rfl⟩

omit [Base64Engine] in
theorem FieldRoom.HoldsObject.ne_null {room : FieldRoom} {json : Json}
    {position : MessagePosition} {message : String} {members : List (String × Json)}
    (h : room.HoldsObject set field json position message members) : json ≠ .null := by
  rintro rfl
  cases h

/-- An object in a value that is read is read as a message at its position. -/
theorem FieldRoom.HoldsObject.exists_fields {room : FieldRoom} {json : Json}
    {position : MessagePosition} {message : String} {members : List (String × Json)}
    (hholds : room.HoldsObject set field json position message members) {value : Value}
    (h : json.toValue set field room = .ok value) {plan : MessagePlan}
    (hplan : set.message? message = some plan) :
    ∃ fields, fieldsOfJson set plan members = .ok fields ∧ value.HoldsMessage position fields := by
  cases hholds with
  | value =>
      obtain ⟨fields, hfields, rfl⟩ := exists_fields_of_toValue h hplan
      exact ⟨fields, hfields, .value⟩
  | item hitem =>
      unfold Json.toValue at h
      obtain ⟨values, hvalues, rfl⟩ := Except.map_eq_ok.mp h
      obtain ⟨value, hvalue, hindex⟩ := exists_value_of_itemsOfJson hvalues hitem
      obtain ⟨fields, hfields, rfl⟩ := exists_fields_of_toValue hvalue hplan
      exact ⟨fields, hfields, .item hindex⟩
  | entry htypes hkey hlast =>
      simp only [Json.toValue, htypes, Except.ok_bind] at h
      obtain ⟨pairs, hpairs, hvalue⟩ := Except.bind_eq_ok.mp h
      cases hvalue
      obtain ⟨⟨entryKey, value⟩, hmem, hentry⟩ :=
        mem_of_last (forall₂_of_entriesOfJson hpairs) rfl
          fun later hlater => hkey ▸ hlast later hlater
      obtain rfl := Option.some.inj (hkey.symm.trans hentry.key)
      obtain ⟨fields, hfields, rfl⟩ := exists_fields_of_toValue hentry.value hplan
      exact ⟨fields, hfields, .entry hmem⟩

/-- The objects within one that is read are read, each by a plan of the set, and
the messages that they are read as stand where they stood. -/
theorem PlanSet.ObjectWithin.exists_fields {plan inner : MessagePlan} {path : MessagePath}
    {members innerMembers : List (String × Json)}
    (hwithin : set.ObjectWithin plan members path inner innerMembers) (hplan : plan ∈ set.messages)
    {record : Record} (h : fieldsOfJson set plan members = .ok record) :
    inner ∈ set.messages ∧ ∃ fields, fieldsOfJson set inner innerMembers = .ok fields ∧
      record.Within path fields := by
  induction hwithin with
  | refl => exact ⟨hplan, record, h, .refl⟩
  | field _ hmember hfield hholds hinner ih =>
      obtain ⟨-, outerFields, houter, hpath⟩ := ih
      obtain ⟨value, hvalue, hmem⟩ :=
        exists_value_of_fieldsOfJson houter hmember hholds.ne_null hfield
      obtain ⟨fields, hfields, hmessage⟩ := hholds.exists_fields hvalue hinner
      exact ⟨(set.mem_of_message? hinner).1, fields, hfields, .field hpath hmem hmessage⟩

/-- The entries of a map field are those that the object for it describes. -/
theorem exists_entries_of_fieldsOfJson (hset : set.Closed) {plan : MessagePlan}
    (hplan : plan ∈ set.messages) {members : List (String × Json)} {record : Record}
    (h : fieldsOfJson set plan members = .ok record) {name : String} {field : FieldPlan}
    (hfield : plan.field? name = some field) (hmap : field.isMapEntry = true)
    {object : List (String × Json)} (hmember : (name, .object object) ∈ members) :
    ∃ key type pairs, set.entryTypes name field.type = .ok (.scalar key, type) ∧
      List.Forall₂ (set.Describes name key type) pairs object ∧
      (name, .map (Sorted.ofList pairs)) ∈ record := by
  obtain ⟨value, hvalue, hmem⟩ := exists_value_of_fieldsOfJson h hmember nofun hfield
  have hsound := (hset plan hplan).sound_room (MessagePlan.mem_of_field? hfield).1
  rw [FieldPlan.room_of_map hmap] at hvalue hsound
  obtain ⟨entryName, entryPlan, key, type, htype, hentryPlan, hentry⟩ := hsound
  have htypes := PlanSet.entryTypes_of_isEntry hentryPlan hentry name
  rw [← htype] at htypes
  simp only [Json.toValue, htypes, Except.ok_bind] at hvalue
  obtain ⟨pairs, hpairs, hvalue⟩ := Except.bind_eq_ok.mp hvalue
  cases hvalue
  exact ⟨key, type, pairs, htypes, forall₂_of_entriesOfJson hpairs, hmem⟩

end Reading

/-- A message that is read from JSON has, where an object is given for a map
field at any level of it, one entry for each key that the names in the object
spell, and the entry is what the last member with that key describes. The map
has as many entries as the object has members if no two of the names are
spellings of one key, and else it has fewer. -/
theorem PlanSet.map_of_ofJson [Base64Engine] {source : String} {schema : Schema} {set : PlanSet}
    (hcompile : compile source = .ok schema) (hbuild : schema.build = .ok set) {message : String}
    {plan : MessagePlan} (hplan : set.declared? message = some plan)
    {members : List (String × Json)} {record : Record}
    (hjson : set.ofJson message (.object members) = .ok record) {path : MessagePath}
    {inner : MessagePlan} {innerMembers : List (String × Json)}
    (hwithin : set.ObjectWithin plan members path inner innerMembers) {name : String}
    {field : FieldPlan} (hfield : inner.field? name = some field) (hmap : field.isMapEntry = true)
    {object : List (String × Json)} (hmember : (name, .object object) ∈ innerMembers) :
    ∃ innerRecord key type entries, record.Within path innerRecord ∧
      fieldsOfJson set inner innerMembers = .ok innerRecord ∧
      (name, .map entries) ∈ innerRecord ∧
      set.entryTypes name field.type = .ok (.scalar key, type) ∧
      (∀ first ∈ object, ∀ second ∈ object,
        (MapKey.ofText? (.scalar key) first.1 = MapKey.ofText? (.scalar key) second.1 ↔
          key.plainName first.1 = key.plainName second.1)) ∧
      (entries.length = object.length ↔
        (object.map fun member => key.plainName member.1).Nodup) ∧
      (entries.map (·.1.text)).Perm (object.map fun member => key.plainName member.1).dedup ∧
      ∀ before member after, object = before ++ member :: after →
        (∀ later ∈ after, key.plainName later.1 ≠ key.plainName member.1) →
        ∃ entry ∈ entries, set.Describes name key type entry member := by
  have hmessage : plan ∈ set.messages :=
    (set.mem_of_message? (Option.filter_eq_some_iff.mp hplan).1).1
  have hread : fieldsOfJson set plan members = .ok record := by
    simpa only [PlanSet.ofJson, hplan] using hjson
  obtain ⟨hinner, innerRecord, hinnerRead, hpath⟩ := hwithin.exists_fields hmessage hread
  obtain ⟨key, type, pairs, htypes, hpairs, hmem⟩ := exists_entries_of_fieldsOfJson
    (closed_of_build hcompile hbuild) hinner hinnerRead hfield hmap hmember
  have htexts := texts_perm hpairs
  refine ⟨innerRecord, key, type, _, hpath, hinnerRead, hmem, htypes,
    fun _ hfirst _ hsecond => ofText?_eq_iff_plainName hpairs hfirst hsecond, ?_, htexts, ?_⟩
  · have hlength := htexts.length_eq
    rw [List.length_map] at hlength
    have hsublist := List.dedup_sublist (object.map fun member => key.plainName member.1)
    rw [hlength, ← List.dedup_eq_self, ← hsublist.length_eq, List.length_map]
  · intro before member after hobject hlast
    refine mem_of_last hpairs hobject fun later hlater hsame => hlast later hlater ?_
    have hmemLater : later ∈ object := by simp [hobject, hlater]
    have hmemMember : member ∈ object := by simp [hobject]
    exact (ofText?_eq_iff_plainName hpairs hmemLater hmemMember).mp hsame

/-! ## Tallies

A schema with a map whose keys are numbers, for which an object of two members
gives a map of one entry.
-/

def tallySource : String :=
  "message Tally \x7b map<int32, string> counts = 1; repeated Tally parts = 2; \x7d"

def tallyPlan : MessagePlan :=
  .ofFields "Tally" false
    [(⟨"counts", 1, .detached "Tally.CountsEntry", .repeated, none, true⟩,
        .message "Tally.CountsEntry"),
      (⟨"parts", 2, .detached "Tally", .repeated, none, false⟩, .message "Tally")]

def tallyEntryPlan : MessagePlan :=
  .ofFields "Tally.CountsEntry" true
    [(.ofEntry keyField 1 (.detached "int32"), .scalar .int32),
      (.ofEntry valueField 2 (.detached "string"), .scalar .string)]

def tallyPlans : PlanSet := ⟨none, [], [tallyPlan, tallyEntryPlan]⟩

theorem compile_tallySource : ∃ schema, compile tallySource = .ok schema ∧
    schema.build = .ok tallyPlans :=
  Except.exists_of_any (by decide +kernel)

/-- Two names for the number one, and one for zero. -/
def tallyCounts : List (String × Json) :=
  [("-0", .string "none"), ("01", .string "first"), ("1", .string "last")]

/-- The tally in a list of a tally has an entry for each of the two numbers. -/
theorem map_of_ofJson_tally :
    let members : List (String × Json) := [("counts", .object tallyCounts)]
    let record : Record := [("parts", .list [.message
      [("counts", .map [(.int32 0, .string "none"), (.int32 1, .string "last")])]])]
    tallyPlans.ofJson "Tally" (.object [("parts", .array [.object members])]) = .ok record ∧
      ∃ inner key type entries, record.Within [("parts", .item 0)] inner ∧
        fieldsOfJson tallyPlans tallyPlan members = .ok inner ∧ ("counts", .map entries) ∈ inner ∧
        tallyPlans.entryTypes "counts" (.message "Tally.CountsEntry") = .ok (.scalar key, type) ∧
        (∀ first ∈ tallyCounts, ∀ second ∈ tallyCounts,
          (MapKey.ofText? (.scalar key) first.1 = MapKey.ofText? (.scalar key) second.1 ↔
            key.plainName first.1 = key.plainName second.1)) ∧
        (entries.length = tallyCounts.length ↔
          (tallyCounts.map fun member => key.plainName member.1).Nodup) ∧
        (entries.map (·.1.text)).Perm
          (tallyCounts.map fun member => key.plainName member.1).dedup ∧
        ∀ before member after, tallyCounts = before ++ member :: after →
          (∀ later ∈ after, key.plainName later.1 ≠ key.plainName member.1) →
          ∃ entry ∈ entries, tallyPlans.Describes "counts" key type entry member := by
  intro members record
  obtain ⟨schema, hcompile, hbuild⟩ := compile_tallySource
  have hplan : tallyPlans.declared? "Tally" = some tallyPlan := rfl
  have hjson : tallyPlans.ofJson "Tally" (.object [("parts", .array [.object members])]) =
      .ok record := by
    rfl
  have hwithin : tallyPlans.ObjectWithin tallyPlan [("parts", .array [.object members])]
      [("parts", .item 0)] tallyPlan members :=
    .field .refl List.mem_cons_self rfl (.item rfl) rfl
  exact ⟨hjson, PlanSet.map_of_ofJson hcompile hbuild hplan hjson hwithin rfl rfl
    List.mem_cons_self⟩

/-- One of the entries that an object describes is lost. -/
theorem ofJson_tally_length :
    let object : List (String × Json) := [("01", .string "a"), ("1", .string "b")]
    (∃ schema, compile tallySource = .ok schema ∧ schema.build = .ok tallyPlans) ∧
      tallyPlans.declared? "Tally" = some tallyPlan ∧
      (tallyPlan.field? "counts").any (·.isMapEntry) = true ∧
      ∃ entries, tallyPlans.ofJson "Tally" (.object [("counts", .object object)]) =
          .ok [("counts", .map entries)] ∧
        entries.length = 1 ∧ object.length = 2 := by
  intro object
  refine ⟨compile_tallySource, rfl, rfl, [(.int32 1, .string "b")], ?_, rfl, rfl⟩
  rfl

end WireCodec
