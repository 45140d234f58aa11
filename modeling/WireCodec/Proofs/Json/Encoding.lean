import Mathlib.Data.List.Permutation
import WireCodec.Proofs.Codec.Fits
import WireCodec.Proofs.Codec.References

/-! # Encoding what JSON describes

A message that is read from JSON has, for each of its fields and at every level
of nesting, a value of the kind that encoding expects there. Only symbols of
enums are taken over as they stand, so the one thing that can be wrong with such
a message is a symbol that its enum does not have.
-/

namespace WireCodec

/-- The error is that an enum does not have a symbol, and it does not. -/
def PlanSet.LacksSymbol (set : PlanSet) : EncodeError → Prop
  | .unknownEnumSymbol _ enum symbol =>
    ∃ table, set.enum? enum = some table ∧ table.number? symbol = none
  | _ => False

/-- A value can be written with a type, unless a symbol in it is unknown. -/
def PlanSet.Writes (set : PlanSet) (type : ValueType) (value : Value) : Prop :=
  ∀ name, Except.Fails (valueTree set name type value) set.LacksSymbol

/-- An entry has a key of this type, and a value that can be written. -/
def PlanSet.WritesEntry (set : PlanSet) (key : ScalarType) (type : ValueType)
    (entry : MapKey × Value) : Prop :=
  (∃ x, Value.ofMapKey entry.1 = .ofScalar key x) ∧ set.Writes type entry.2

/-- A field with this room has values that can be written, unless a symbol in
them is unknown. -/
inductive FieldRoom.Takes (set : PlanSet) : FieldRoom → Value → Prop
  | single {type : ValueType} {value : Value} (hvalue : set.Writes type value) :
      Takes set (.single type) value
  | list {type : ValueType} {items : List Value} (hitems : ∀ item ∈ items, set.Writes type item) :
      Takes set (.list type) (.list items)
  | map {name : String} {plan : MessagePlan} {key : ScalarType} {type : ValueType}
      {entries : List (MapKey × Value)} (hplan : set.message? name = some plan)
      (hentry : plan.IsEntry key type)
      (hentries : ∀ entry ∈ entries, set.WritesEntry key type entry) :
      Takes set (.map (.message name)) (.map entries)

/-- A message has fields of a plan only, with values that they have room for. -/
def MessagePlan.Takes (plan : MessagePlan) (set : PlanSet) (record : Record) : Prop :=
  ∀ pair ∈ record, ∃ field, plan.field? pair.1 = some field ∧ field.room.Takes set pair.2

variable {set : PlanSet}

/-! ## Writing -/

section Writing

variable {field : FieldPlan} {value : Value}

theorem writes_ofScalar (type : ScalarType) (x : type.Carrier) :
    set.Writes (.scalar type) (.ofScalar type x) := by
  intro name
  rw [valueTree_eq_ok.mpr (.scalar type x)]
  exact Except.fails_ok _

theorem writes_enum {name : String} (hname : set.Has (.enum name)) (symbol : String) :
    set.Writes (.enum name) (.enum symbol) := by
  obtain ⟨table, htable⟩ := hname
  intro field
  unfold valueTree leafTree
  simp only [htable]
  split
  next => exact Except.fails_ok _
  next hsymbol => exact Except.fails_error ⟨table, htable, hsymbol⟩

theorem writes_message {name : String} {plan : MessagePlan} {fields : Record}
    (hplan : set.message? name = some plan)
    (hfields : Except.Fails (messageTree set plan fields) set.LacksSymbol) :
    set.Writes (.message name) (.message fields) := by
  intro field
  unfold valueTree
  simp only [hplan]
  exact hfields.bind fun tree => Except.fails_ok _

theorem fails_leafTree_of_ofScalar {name : String} {key : ScalarType} {mapKey : MapKey}
    (h : ∃ x, Value.ofMapKey mapKey = .ofScalar key x) :
    Except.Fails (leafTree set name (.scalar key) (.ofMapKey mapKey)) set.LacksSymbol := by
  obtain ⟨x, hx⟩ := h
  have htree : ElementTree set (.scalar key) (.ofMapKey mapKey) (key.wire x) := by
    rw [hx]
    exact .scalar key x
  rw [leafTree_ofMapKey_eq_ok.mpr htree]
  exact Except.fails_ok _

/-- What a field has room for is of the kind that its form is for. -/
theorem fails_fieldTrees_of_takes (hfield : field.Coherent set)
    (hvalue : field.room.Takes set value) :
    Except.Fails (fieldTrees set field field.form value) set.LacksSymbol := by
  unfold fieldTrees
  split
  next hform =>
    rw [FieldPlan.room_of_form_single hform] at hvalue
    cases hvalue with
    | single hwrites => exact (hwrites _).bind fun tree => Except.fails_ok _
  next hform =>
    rw [FieldPlan.room_of_form_each hform] at hvalue
    cases hvalue with
    | list hitems => exact fails_itemTrees fun item hitem => hitems item hitem _
  next hform =>
    rw [hfield.room_of_form_packed hform] at hvalue
    cases hvalue with
    | @list _ items hitems =>
        cases items with
        | nil => exact Except.fails_ok _
        | cons item rest =>
            refine (fails_itemTrees fun item hitem => hitems item hitem _).bind fun trees => ?_
            exact Except.fails_ok _
  next name hform =>
    rw [hfield.room_of_form_entries hform] at hvalue
    cases hvalue with
    | map hplan hentry hentries =>
        simp only [hplan, hentry.fields]
        refine fails_entryTrees (fun entry hmem => ?_) fun entry hmem => (hentries entry hmem).2 _
        exact fails_leafTree_of_ofScalar (hentries entry hmem).1

/-- A message that a plan takes can be written, unless a symbol in it is unknown. -/
theorem MessagePlan.Takes.fails {plan : MessagePlan} {record : Record}
    (h : plan.Takes set record) (hplan : plan.Named set) :
    Except.Fails (messageTree set plan record) set.LacksSymbol := by
  have hcontribution : ∀ field ∈ plan.fields,
      Except.Fails (contribution set record field) set.LacksSymbol := by
    intro field hfield
    refine fails_contribution fun value hvalue => ?_
    obtain ⟨other, hother, htakes⟩ := h _ (Sorted.mem_of_find? hvalue)
    obtain ⟨hmem, hname⟩ := MessagePlan.mem_of_field? hother
    obtain rfl := List.inj_on_of_nodup_map hplan.names hmem hfield hname
    exact fails_fieldTrees_of_takes (hplan.fields _ hmem) htakes
  have hknown : Record.unknownNames record plan = [] := by
    unfold Record.unknownNames
    refine List.filter_eq_nil_iff.mpr fun name hname => ?_
    obtain ⟨pair, hpair, rfl⟩ := List.mem_map.mp hname
    obtain ⟨field, hfound, -⟩ := h pair hpair
    simp [hfound]
  unfold messageTree
  rw [hknown]
  exact fails_stepTrees hplan.toLaidOut hcontribution fun _ hstep => hstep

end Writing

/-! ## Reading JSON -/

section Reading

/-- What a room mentions is in the set. -/
def FieldRoom.Sound (set : PlanSet) : FieldRoom → Prop
  | .single type | .list type => set.Has type
  | .map type => ∃ name plan key value, type = .message name ∧ set.message? name = some plan ∧
      plan.IsEntry key value

theorem MessagePlan.Closed.sound_room {plan : MessagePlan} (h : plan.Closed set)
    {field : FieldPlan} (hfield : field ∈ plan.fields) : field.room.Sound set := by
  unfold FieldPlan.room
  split
  next hmap => exact ((h.fields field hfield).entry hmap).2
  next =>
    split
    · exact h.types field hfield
    · exact h.types field hfield

theorem PlanSet.entryTypes_of_isEntry {name : String} {plan : MessagePlan} {key : ScalarType}
    {type : ValueType} (hplan : set.message? name = some plan) (hentry : plan.IsEntry key type)
    (field : String) : set.entryTypes field (.message name) = .ok (.scalar key, type) := by
  simp only [PlanSet.entryTypes, PlanSet.nestedPlan, hplan, Except.ok_bind, hentry.field?_key,
    hentry.field?_value]
  rfl

theorem MapKey.exists_ofScalar_of_ofText? {type : ScalarType} {text : String} {key : MapKey}
    (h : ofText? (.scalar type) text = some key) : ∃ x, Value.ofMapKey key = .ofScalar type x := by
  unfold ofText? at h
  cases type with
  | bool =>
      dsimp only at h
      split at h
      · exact ⟨true, Option.some.inj h ▸ rfl⟩
      · split at h
        · exact ⟨false, Option.some.inj h ▸ rfl⟩
        · cases h
  | string => exact ⟨text, Option.some.inj h ▸ rfl⟩
  | double | float | bytes => cases h
  | _ =>
      obtain ⟨n, _, rfl⟩ := Option.map_eq_some_iff.mp h
      exact ⟨n, rfl⟩

variable [Base64Engine]

theorem takes_of_leafOfJson {name : String} {room : FieldRoom} (hroom : room.Sound set)
    {json : Json} {value : Value} (h : leafOfJson set name room json = .ok value) :
    room.Takes set value := by
  unfold leafOfJson at h
  split at h
  next type =>
    split at h
    next x _ =>
      cases h
      exact .single (writes_ofScalar type x)
    next => cases h
  next =>
    cases h
    exact .single (writes_enum hroom _)
  next =>
    dsimp only at h
    split at h
    next =>
      cases h
      exact .single (writes_enum hroom _)
    next => cases h
  next => cases h

theorem entriesOfJson_cons_eq_ok {name text : String} {keyType type : ValueType} {json : Json}
    {rest : List (String × Json)} {entries : List (MapKey × Value)}
    (h : entriesOfJson set name keyType type ((text, json) :: rest) = .ok entries) :
    ∃ key value others, MapKey.ofText? keyType text = some key ∧
      json.toValue set name (.single type) = .ok value ∧
      entriesOfJson set name keyType type rest = .ok others ∧
      entries = (key, value) :: others := by
  unfold entriesOfJson at h
  split at h
  next => cases h
  next key hkey =>
    obtain ⟨value, hvalue, h⟩ := Except.bind_eq_ok.mp h
    obtain ⟨others, hothers, h⟩ := Except.bind_eq_ok.mp h
    exact ⟨key, value, others, hkey, hvalue, hothers, (Except.ok.inj h).symm⟩

theorem itemsOfJson_cons_eq_ok {name : String} {type : ValueType} {json : Json} {rest : List Json}
    {values : List Value} (h : itemsOfJson set name type (json :: rest) = .ok values) :
    ∃ value others, json.toValue set name (.single type) = .ok value ∧
      itemsOfJson set name type rest = .ok others ∧ values = value :: others := by
  unfold itemsOfJson at h
  obtain ⟨value, hvalue, h⟩ := Except.bind_eq_ok.mp h
  obtain ⟨others, hothers, h⟩ := Except.bind_eq_ok.mp h
  exact ⟨value, others, hvalue, hothers, (Except.ok.inj h).symm⟩

/-- A member of an object is passed over when it is null, and is read for its field otherwise. -/
theorem fieldsOfJson_cons_eq_ok {plan : MessagePlan} {name : String} {json : Json}
    {rest : List (String × Json)} {record : Record}
    (h : fieldsOfJson set plan ((name, json) :: rest) = .ok record) :
    ∃ field, plan.field? name = some field ∧
      (json = .null ∧ fieldsOfJson set plan rest = .ok record ∨
        ∃ value others, json.toValue set name field.room = .ok value ∧
          fieldsOfJson set plan rest = .ok others ∧ record = (name, value) :: others) := by
  unfold fieldsOfJson at h
  split at h
  next => cases h
  next field hfield =>
    refine ⟨field, hfield, ?_⟩
    split at h
    next => exact Or.inl ⟨rfl, h⟩
    next =>
      obtain ⟨value, hvalue, h⟩ := Except.bind_eq_ok.mp h
      obtain ⟨others, hothers, h⟩ := Except.bind_eq_ok.mp h
      exact Or.inr ⟨value, others, hvalue, hothers, (Except.ok.inj h).symm⟩

mutual

theorem takes_of_toValue (hset : set.Closed) (hnamed : set.Named) {name : String} {room : FieldRoom}
    (hroom : room.Sound set) (json : Json) {value : Value}
    (h : json.toValue set name room = .ok value) : room.Takes set value := by
  cases json with
  | object members =>
      unfold Json.toValue at h
      split at h
      next entry =>
        obtain ⟨entryName, plan, key, type, rfl, hplan, hentry⟩ := hroom
        rw [PlanSet.entryTypes_of_isEntry hplan hentry, Except.ok_bind] at h
        obtain ⟨entries, hentries, h⟩ := Except.bind_eq_ok.mp h
        cases h
        have hall := writes_of_entriesOfJson hset hnamed (hset.has_entry hplan hentry) members
          hentries
        exact .map hplan hentry fun entry hmem => hall entry (Sorted.mem_of_mem_ofList hmem)
      next message =>
        obtain ⟨plan, hplan⟩ := hroom
        simp only [PlanSet.nestedPlan, hplan, Except.ok_bind] at h
        obtain ⟨fields, hfields, h⟩ := Except.bind_eq_ok.mp h
        cases h
        have htakes := takes_of_fieldsOfJson hset hnamed (set.mem_of_message? hplan).1 members hfields
        exact .single (writes_message hplan (htakes.fails (hnamed.of_message? hplan)))
      next => cases h
  | array items =>
      unfold Json.toValue at h
      split at h
      next type =>
        obtain ⟨values, hvalues, rfl⟩ := Except.map_eq_ok.mp h
        exact .list (writes_of_itemsOfJson hset hnamed hroom items hvalues)
      next => cases h
  | _ => exact takes_of_leafOfJson hroom (by simpa only [Json.toValue] using h)

theorem writes_of_entriesOfJson (hset : set.Closed) (hnamed : set.Named) {name : String}
    {key : ScalarType} {type : ValueType} (htype : set.Has type)
    (members : List (String × Json)) {entries : List (MapKey × Value)}
    (h : entriesOfJson set name (.scalar key) type members = .ok entries) :
    ∀ entry ∈ entries, set.WritesEntry key type entry := by
  match members with
  | [] =>
      unfold entriesOfJson at h
      cases h
      simp
  | (text, json) :: rest =>
      obtain ⟨mapKey, value, others, hkey, hvalue, hothers, rfl⟩ := entriesOfJson_cons_eq_ok h
      have hroom : (FieldRoom.single type).Sound set := htype
      refine List.forall_mem_cons.mpr ⟨⟨MapKey.exists_ofScalar_of_ofText? hkey, ?_⟩,
        writes_of_entriesOfJson hset hnamed htype rest hothers⟩
      cases takes_of_toValue hset hnamed hroom json hvalue with
      | single hwrites => exact hwrites

theorem writes_of_itemsOfJson (hset : set.Closed) (hnamed : set.Named) {name : String}
    {type : ValueType} (htype : set.Has type) (items : List Json) {values : List Value}
    (h : itemsOfJson set name type items = .ok values) :
    ∀ item ∈ values, set.Writes type item := by
  match items with
  | [] =>
      unfold itemsOfJson at h
      cases h
      simp
  | json :: rest =>
      obtain ⟨value, others, hvalue, hothers, rfl⟩ := itemsOfJson_cons_eq_ok h
      have hroom : (FieldRoom.single type).Sound set := htype
      refine List.forall_mem_cons.mpr ⟨?_, writes_of_itemsOfJson hset hnamed htype rest hothers⟩
      cases takes_of_toValue hset hnamed hroom json hvalue with
      | single hwrites => exact hwrites

theorem takes_of_fieldsOfJson (hset : set.Closed) (hnamed : set.Named) {plan : MessagePlan}
    (hplan : plan ∈ set.messages) (members : List (String × Json)) {record : Record}
    (h : fieldsOfJson set plan members = .ok record) : plan.Takes set record := by
  match members with
  | [] =>
      unfold fieldsOfJson at h
      cases h
      intro pair hpair
      cases hpair
  | (name, json) :: rest =>
      obtain ⟨field, hfield, ⟨-, hrest⟩ | ⟨value, others, hvalue, hothers, rfl⟩⟩ :=
        fieldsOfJson_cons_eq_ok h
      · exact takes_of_fieldsOfJson hset hnamed hplan rest hrest
      · have hroom := (hset plan hplan).sound_room (MessagePlan.mem_of_field? hfield).1
        have hvalue := takes_of_toValue hset hnamed hroom json hvalue
        refine List.forall_mem_cons.mpr ⟨⟨field, hfield, hvalue⟩, ?_⟩
        exact takes_of_fieldsOfJson hset hnamed hplan rest hothers

end

end Reading

/-- A message that is read from JSON by a declared plan can be encoded, unless a
symbol in it is not one of its enum. -/
theorem PlanSet.encode_of_ofJson [Base64Engine] {source : String} {schema : Schema}
    (hcompile : compile source = .ok schema) (hdistinct : schema.DistinctNames)
    (hbuild : schema.build = .ok set) {message : String} {plan : MessagePlan}
    (hplan : set.declared? message = some plan) {json : Json} {record : Record}
    (hjson : set.ofJson message json = .ok record) :
    (∃ bytes, set.encode plan record = .ok bytes) ∨
      ∃ field enum symbol table,
        set.encode plan record = .error (.unknownEnumSymbol field enum symbol) ∧
        set.enum? enum = some table ∧ table.number? symbol = none := by
  have hset := closed_of_build hcompile hbuild
  have hnamed := named_of_build hcompile hdistinct hbuild
  have hmessage : set.message? message = some plan := (Option.filter_eq_some_iff.mp hplan).1
  have htakes : plan.Takes set record := by
    unfold PlanSet.ofJson at hjson
    rw [hplan] at hjson
    split at hjson
    next => contradiction
    next members heq =>
      cases heq
      exact takes_of_fieldsOfJson hset hnamed (set.mem_of_message? hmessage).1 members hjson
    next => cases hjson
  have hfails := (htakes.fails (hnamed.of_message? hmessage)).map
    fun tree => (WireValue.messageBytes tree).toArray
  rw [← PlanSet.encode_eq] at hfails
  cases hencode : set.encode plan record with
  | ok bytes => exact Or.inl ⟨bytes, rfl⟩
  | error e =>
      have hlacks := hfails e hencode
      cases e with
      | unknownEnumSymbol field enum symbol =>
          obtain ⟨table, htable, hsymbol⟩ := hlacks
          exact Or.inr ⟨field, enum, symbol, table, rfl, htable, hsymbol⟩
      | _ => exact hlacks.elim

/-- A node with a kid of a hue that there is not. -/
theorem encode_of_ofJson_node :
    let json : Json := .object [("hue", .string "RED"),
      ("kids", .object [("true", .object [("hue", .string "GREEN")])])]
    let record : Record := [("hue", .enum "RED"),
      ("kids", .map [(.bool true, .message [("hue", .enum "GREEN")])])]
    nodePlans.ofJson "Node" json = .ok record ∧
      ((∃ bytes, nodePlans.encode nodePlan record = .ok bytes) ∨
        ∃ field enum symbol table,
          nodePlans.encode nodePlan record = .error (.unknownEnumSymbol field enum symbol) ∧
          nodePlans.enum? enum = some table ∧ table.number? symbol = none) := by
  intro json record
  obtain ⟨schema, hcompile, hdistinct, hbuild⟩ := compile_nodeSource
  have hplan : nodePlans.declared? "Node" = some nodePlan := rfl
  have hjson : nodePlans.ofJson "Node" json = .ok record := by cbv
  exact ⟨hjson, PlanSet.encode_of_ofJson hcompile hdistinct.names hbuild hplan hjson⟩

end WireCodec
