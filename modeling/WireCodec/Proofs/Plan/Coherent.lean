import Mathlib.Algebra.Group.Nat.Defs
import WireCodec.Proofs.Plan.EntryNames
import WireCodec.Proofs.Plan.Layout

/-! # Coherent plans

What the plans for a compiled schema have in common when no message repeats
the name or the number of a field. The laws of encoding and decoding rely on
nothing else about a schema.
-/

namespace WireCodec

/-- No message repeats the name or the number of a field. -/
def Schema.DistinctFields (schema : Schema) : Prop :=
  ∀ message ∈ schema.messages, (message.node.fields.map (·.node.name.node)).Nodup ∧
    (message.node.fields.map (·.node.number.node)).Nodup

instance (schema : Schema) : Decidable schema.DistinctFields :=
  inferInstanceAs (Decidable (∀ message ∈ schema.messages, _ ∧ _))

/-- No message repeats the name of a field. -/
def Schema.DistinctNames (schema : Schema) : Prop :=
  ∀ message ∈ schema.messages, (message.node.fields.map (·.node.name.node)).Nodup

instance (schema : Schema) : Decidable schema.DistinctNames :=
  inferInstanceAs (Decidable (∀ message ∈ schema.messages, List.Nodup _))

theorem Schema.DistinctFields.names {schema : Schema} (h : schema.DistinctFields) :
    schema.DistinctNames := fun message hmessage => (h message hmessage).1

deriving instance DecidableEq for PlanSet

/-- A field of a map entry. -/
def FieldPlan.ofEntry (name : String) (number : UInt32) (type : ValueType) : FieldPlan :=
  ⟨name, number, .required, type, false, false⟩

/-- A plan for the entries of a map. -/
structure MessagePlan.IsEntry (plan : MessagePlan) (key : ScalarType) (value : ValueType) :
    Prop where
  synthetic : plan.synthetic = true
  fields : plan.fields = [.ofEntry keyField 1 (.scalar key), .ofEntry valueField 2 value]
  mapKey : key.isMapKey = true

theorem MessagePlan.IsEntry.unique {plan : MessagePlan} {key key' : ScalarType}
    {value value' : ValueType} (h : plan.IsEntry key value) (h' : plan.IsEntry key' value') :
    key = key' ∧ value = value' := by
  simpa [FieldPlan.ofEntry] using h.fields.symm.trans h'.fields

variable (set : PlanSet)

/-- The number of a field fits a key, and its form fits its type. -/
structure FieldPlan.Coherent (field : FieldPlan) : Prop where
  number_ne_zero : field.number ≠ 0
  number_lt : field.number.toNat < 2 ^ 29
  packed : field.packed = true →
    field.cardinality = .repeated ∧ field.isMapEntry = false ∧ field.type.packable = true
  entry : field.isMapEntry = true → field.cardinality = .repeated ∧
    ∃ name plan key value, field.type = .message name ∧ set.message? name = some plan ∧
      plan.IsEntry key value

/-- A plan is laid out by coherent fields, and no two of them share a name or
a number. -/
structure MessagePlan.Coherent (plan : MessagePlan) : Prop extends plan.LaidOut where
  names : (plan.fields.map (·.name)).Nodup
  numbers : (plan.fields.map (·.number)).Nodup
  fields : ∀ field ∈ plan.fields, field.Coherent set

/-- All plans are coherent. -/
def PlanSet.Coherent : Prop := ∀ plan ∈ set.messages, plan.Coherent set

/-- A plan is laid out by coherent fields, and no two of them share a name. -/
structure MessagePlan.Named (plan : MessagePlan) : Prop extends plan.LaidOut where
  names : (plan.fields.map (·.name)).Nodup
  fields : ∀ field ∈ plan.fields, field.Coherent set

/-- No plan has two fields of one name. -/
def PlanSet.Named : Prop := ∀ plan ∈ set.messages, plan.Named set

variable {set}

theorem PlanSet.mem_of_message? {name : String} {plan : MessagePlan}
    (h : set.message? name = some plan) : plan ∈ set.messages ∧ plan.name = name :=
  ⟨List.mem_reverse.mp (List.mem_of_find?_eq_some h), by simpa using List.find?_some h⟩

theorem PlanSet.Coherent.of_message? (h : set.Coherent) {name : String} {plan : MessagePlan}
    (hplan : set.message? name = some plan) : plan.Coherent set :=
  h plan (set.mem_of_message? hplan).1

theorem MessagePlan.Coherent.named {plan : MessagePlan} (h : plan.Coherent set) :
    plan.Named set := { h.toLaidOut with names := h.names, fields := h.fields }

theorem PlanSet.Named.of_message? (h : set.Named) {name : String} {plan : MessagePlan}
    (hplan : set.message? name = some plan) : plan.Named set :=
  h plan (set.mem_of_message? hplan).1

theorem PlanSet.Coherent.of_declared? (h : set.Coherent) {name : String} {plan : MessagePlan}
    (hplan : set.declared? name = some plan) : plan.Coherent set :=
  h.of_message? (Option.filter_eq_some_iff.mp hplan).1

/-- The entries of a map are not written as a run. -/
theorem FieldPlan.Coherent.packed_of_isMapEntry {field : FieldPlan} (hfield : field.Coherent set)
    (hmap : field.isMapEntry = true) : field.packed = false := by
  refine Bool.eq_false_iff.mpr fun hpacked => ?_
  exact Bool.noConfusion (hmap.symm.trans (hfield.packed hpacked).2.1)

/-! ## Plain messages of a compiled schema -/

section Compiled

variable {schema : Schema} (hcheck : schema.check = [])
  (hsound : ∀ message ∈ schema.messages, message.node.Sound)

theorem Field.plain_of_map {message : String} {field : Field}
    (h : (field.plain message).isMapEntry = true) : ∃ key value, field.type.node = .map key value ∧
      (field.plain message).type.node = entryName message field.name.node ∧
      (field.plain message).cardinality = .repeated := by
  unfold Field.plain at h ⊢
  cases htype : field.type.node with
  | named type =>
      rw [htype] at h
      cases h
  | map key value => exact ⟨key, value, rfl, rfl, rfl⟩

theorem Field.plain_name (message : String) (field : Field) :
    (field.plain message).name = field.name.node := by
  unfold Field.plain
  cases field.type.node <;> rfl

theorem Field.plain_number (message : String) (field : Field) :
    (field.plain message).number = field.number.node := by
  unfold Field.plain
  cases field.type.node <;> rfl

/-- The map fields of plain messages refer to entry messages. -/
theorem Schema.entry_of_mem_plain {plain : PlainMessage} (hplain : plain ∈ schema.plain)
    {field : PlainField} (hfield : field ∈ plain.fields) (hmap : field.isMapEntry = true) :
    field.cardinality = .repeated ∧ ∃ entry ∈ schema.entries, entry.name = field.type.node := by
  rcases Schema.mem_plain.mp hplain with ⟨message, hmessage, rfl⟩ | hentry
  · obtain ⟨declared, hdeclared, rfl⟩ := List.mem_map.mp hfield
    obtain ⟨key, value, htype, hname, hrepeated⟩ := Field.plain_of_map hmap
    refine ⟨hrepeated, _, Schema.mem_entries.mpr
      ⟨message, hmessage, declared, hdeclared, key, value, htype, rfl⟩, hname.symm⟩
  · obtain ⟨_, _, _, _, key, value, _, rfl⟩ := Schema.mem_entries.mp hentry
    rcases List.mem_cons.mp hfield with rfl | hfield
    · cases hmap
    · obtain rfl := List.mem_singleton.mp hfield
      cases hmap

theorem TypeIndex.messages_foldl_addMessage {messages : List PlainMessage} {index : TypeIndex}
    {name : String} : name ∈ (messages.foldl (fun index message =>
      index.addMessage message.name) index).messages ↔
      name ∈ messages.map (·.name) ∨ name ∈ index.messages := by
  induction messages generalizing index with
  | nil => simp
  | cons message rest ih =>
      rw [List.foldl_cons, ih]
      simp only [TypeIndex.addMessage, List.mem_cons, List.map_cons]
      tauto

/-- The name of an entry message stands for that message. -/
theorem Schema.find?_entry {entry : PlainMessage} (hentry : entry ∈ schema.entries) :
    schema.plainIndex.find? entry.name = some (.message entry.name) := by
  have hscalar : ScalarType.ofName? entry.name = none := by
    obtain ⟨message, _, field, _, key, value, _, rfl⟩ := Schema.mem_entries.mp hentry
    refine List.find?_eq_none.mpr ?_
    intro type _ hname
    have heq : type.name = entryName message.node.name.node field.node.name.node :=
      eq_of_beq hname
    have hdot := type.dot_not_mem_name
    rw [heq] at hdot
    exact hdot (dot_mem_entryName _ _)
  have hsynthetic : entry.synthetic = true := by
    obtain ⟨_, _, _, _, _, _, _, rfl⟩ := Schema.mem_entries.mp hentry
    rfl
  have hindex : entry.name ∈ schema.plainIndex.messages := by
    refine TypeIndex.messages_foldl_addMessage.mpr (Or.inl (List.mem_map_of_mem ?_))
    exact List.mem_filter.mpr ⟨Schema.mem_plain.mpr (Or.inr hentry), hsynthetic⟩
  unfold TypeIndex.find?
  rw [hscalar]
  simp [hindex]

theorem Schema.nodup_names_of_mem_plain (hdistinct : schema.DistinctNames) {plain : PlainMessage}
    (hplain : plain ∈ schema.plain) : (plain.fields.map (·.name)).Nodup := by
  rcases Schema.mem_plain.mp hplain with ⟨message, hmessage, rfl⟩ | hentry
  · simp only [List.map_map, Function.comp_def, Field.plain_name]
    exact hdistinct message hmessage
  · obtain ⟨_, _, _, _, key, value, _, rfl⟩ := Schema.mem_entries.mp hentry
    simp [PlainMessage.ofMap, PlainField.ofEntry, keyField, valueField]

theorem Schema.nodup_numbers_of_mem_plain (hdistinct : schema.DistinctFields)
    {plain : PlainMessage} (hplain : plain ∈ schema.plain) :
    (plain.fields.map (·.number)).Nodup := by
  rcases Schema.mem_plain.mp hplain with ⟨message, hmessage, rfl⟩ | hentry
  · simp only [List.map_map, Function.comp_def, Field.plain_number]
    exact (hdistinct message hmessage).2
  · obtain ⟨_, _, _, _, key, value, _, rfl⟩ := Schema.mem_entries.mp hentry
    simp [PlainMessage.ofMap, PlainField.ofEntry]

include hsound in
theorem Schema.number_of_mem_plain {plain : PlainMessage} (hplain : plain ∈ schema.plain)
    {field : PlainField} (hfield : field ∈ plain.fields) :
    field.number ≠ 0 ∧ field.number.toNat < 2 ^ 29 := by
  rcases Schema.mem_plain.mp hplain with ⟨message, hmessage, rfl⟩ | hentry
  · obtain ⟨declared, hdeclared, rfl⟩ := List.mem_map.mp hfield
    obtain ⟨hlow, hhigh⟩ := (hsound message hmessage).fields declared hdeclared
    unfold maxFieldNumber at hhigh
    rw [Field.plain_number]
    refine ⟨?_, by omega⟩
    intro hzero
    rw [hzero] at hlow
    simp at hlow
  · obtain ⟨_, _, _, _, key, value, _, rfl⟩ := Schema.mem_entries.mp hentry
    rcases List.mem_cons.mp hfield with rfl | hfield
    · simp [PlainField.ofEntry]
    · obtain rfl := List.mem_singleton.mp hfield
      simp [PlainField.ofEntry]

include hcheck in
/-- The plan that is built for an entry message is a plan for the entries of a map. -/
theorem Schema.isEntry_of_plan {entry : PlainMessage} (hentry : entry ∈ schema.entries)
    {plan : MessagePlan} (hplan : entry.plan schema.plainIndex = .ok plan) :
    ∃ key value, plan.IsEntry key value := by
  obtain ⟨message, hmessage, field, hfield, key, value, htype, rfl⟩ :=
    Schema.mem_entries.mp hentry
  obtain ⟨type, hkey, hmapKey⟩ :=
    mapKey_of_checkField (Schema.checkField_eq_nil hcheck hmessage hfield) htype
  obtain ⟨fields, hnames, hfind, rfl⟩ := PlainMessage.plan_eq_ok hplan
  obtain ⟨keyEntry, rest, rfl, hkeyEntry, hrest⟩ := List.map_eq_cons_iff.mp hnames
  obtain ⟨valueEntry, rest, rfl, hvalueEntry, hnil⟩ := List.map_eq_cons_iff.mp hrest
  obtain rfl := List.map_eq_nil_iff.mp hnil
  obtain ⟨_, keyType⟩ := keyEntry
  obtain ⟨_, valueType⟩ := valueEntry
  simp only at hkeyEntry hvalueEntry
  subst hkeyEntry hvalueEntry
  have hkeyType : schema.plainIndex.find? key.node = some keyType := hfind _ List.mem_cons_self
  unfold TypeIndex.find? at hkeyType
  rw [hkey] at hkeyType
  cases hkeyType
  exact ⟨type, valueType, rfl, rfl, hmapKey⟩

include hsound in
/-- The plan that is found for an entry message is the one that was made for it. -/
theorem Schema.exists_entryPlan (hbuild : schema.build = .ok set) {entry : PlainMessage}
    (hentry : entry ∈ schema.entries) :
    ∃ plan, set.message? entry.name = some plan ∧ entry.plan schema.plainIndex = .ok plan := by
  obtain ⟨built, hbuiltMem, hbuilt⟩ :=
    Schema.exists_plan_of_build hbuild (Schema.mem_plain.mpr (Or.inr hentry))
  have hsome : (set.message? entry.name).isSome := by
    obtain ⟨fields, _, _, rfl⟩ := PlainMessage.plan_eq_ok hbuilt
    refine List.find?_isSome.mpr ⟨_, List.mem_reverse.mpr hbuiltMem, ?_⟩
    rw [MessagePlan.ofFields_name]
    exact beq_self_eq_true _
  obtain ⟨plan, hplan⟩ := Option.isSome_iff_exists.mp hsome
  obtain ⟨hmem, hname⟩ := set.mem_of_message? hplan
  obtain ⟨plain, hplainMem, hplanned⟩ := Schema.exists_plain_of_build hbuild hmem
  -- no other message has the name of an entry, so the one that is found is the entry
  have hsame : plain = entry := by
    refine Schema.eq_of_mem_entries (Schema.check_of_build hbuild) hsound hentry hplainMem ?_
    obtain ⟨fields, _, _, rfl⟩ := PlainMessage.plan_eq_ok hplanned
    rwa [MessagePlan.ofFields_name] at hname
  subst hsame
  exact ⟨plan, hplan, hplanned⟩

/-- A map field is resolved as a repeated field of the message for its entries. -/
theorem Schema.entry_of_resolved {plain : PlainMessage} (hplain : plain ∈ schema.plain)
    {field : PlainField} (hfield : field ∈ plain.fields) (hmap : field.isMapEntry = true)
    {type : ValueType} (htype : schema.plainIndex.find? field.type.node = some type) :
    field.cardinality = .repeated ∧ ∃ entry ∈ schema.entries, entry.name = field.type.node ∧
      type = .message entry.name := by
  obtain ⟨hrepeated, entry, hentry, hname⟩ := Schema.entry_of_mem_plain hplain hfield hmap
  rw [← hname, Schema.find?_entry hentry] at htype
  exact ⟨hrepeated, entry, hentry, hname, (Option.some.inj htype).symm⟩

theorem Schema.laidOut_of_plan {plain : PlainMessage} (hplain : plain ∈ schema.plain)
    {plan : MessagePlan} (hplanned : plain.plan schema.plainIndex = .ok plan) : plan.LaidOut := by
  obtain ⟨fields, hnames, hfind, rfl⟩ := PlainMessage.plan_eq_ok hplanned
  refine MessagePlan.laidOut_ofFields ?_
  intro field hfield hmap
  obtain ⟨_, entry, _, hname, htype⟩ := Schema.entry_of_resolved hplain
    (hnames ▸ List.mem_map_of_mem hfield) hmap (hfind field hfield)
  rw [htype, ← hname]
  rfl

include hsound in
/-- All fields are coherent, whether their names and numbers are distinct or not. -/
theorem Schema.coherent_field (hbuild : schema.build = .ok set) {plain : PlainMessage}
    (hplain : plain ∈ schema.plain) {plan : MessagePlan}
    (hplanned : plain.plan schema.plainIndex = .ok plan) {field : FieldPlan}
    (hfield : field ∈ plan.fields) : field.Coherent set := by
  obtain ⟨fields, hnames, hfind, rfl⟩ := PlainMessage.plan_eq_ok hplanned
  rw [MessagePlan.ofFields_fields] at hfield
  obtain ⟨resolved, hresolved, rfl⟩ := List.mem_map.mp hfield
  have hmem : resolved.1 ∈ plain.fields := hnames ▸ List.mem_map_of_mem hresolved
  obtain ⟨hzero, hlt⟩ := Schema.number_of_mem_plain hsound hplain hmem
  refine ⟨hzero, hlt, ?_, ?_⟩
  · intro hpacked
    simp only [PlainField.plan, PlainField.isPacked, Bool.and_eq_true, decide_eq_true_eq,
      Bool.not_eq_true'] at hpacked
    exact ⟨hpacked.1.1.1, hpacked.1.1.2, hpacked.1.2⟩
  · intro hmap
    obtain ⟨hrepeated, entry, hentry, _, htype⟩ :=
      Schema.entry_of_resolved hplain hmem hmap (hfind resolved hresolved)
    obtain ⟨plan, hfound, hentryPlan⟩ := Schema.exists_entryPlan hsound hbuild hentry
    obtain ⟨key, value, hisEntry⟩ :=
      Schema.isEntry_of_plan (Schema.check_of_build hbuild) hentry hentryPlan
    exact ⟨hrepeated, _, plan, key, value, htype, hfound, hisEntry⟩

/-- The plans that are made for entries are entry plans. -/
theorem Schema.isEntry_of_build {set : PlanSet} (hbuild : schema.build = .ok set)
    {plan : MessagePlan} (hplan : plan ∈ set.messages) (hsynthetic : plan.synthetic = true) :
    ∃ key value, plan.IsEntry key value := by
  obtain ⟨plain, hplain, hplanned⟩ := Schema.exists_plain_of_build hbuild hplan
  rcases Schema.mem_plain.mp hplain with ⟨message, -, rfl⟩ | hentry
  · obtain ⟨fields, -, -, rfl⟩ := PlainMessage.plan_eq_ok hplanned
    rw [MessagePlan.ofFields_synthetic] at hsynthetic
    cases hsynthetic
  · exact Schema.isEntry_of_plan (Schema.check_of_build hbuild) hentry hplanned

end Compiled

/-- The plans that are built for a compiled schema without repeated names of
fields. -/
theorem named_of_build {source : String} {schema : Schema}
    (hcompile : compile source = .ok schema) (hdistinct : schema.DistinctNames)
    (hbuild : schema.build = .ok set) : set.Named := by
  obtain ⟨-, hsound⟩ := sound_of_compile hcompile
  intro plan hplan
  obtain ⟨plain, hplain, hplanned⟩ := Schema.exists_plain_of_build hbuild hplan
  have hlaidOut := Schema.laidOut_of_plan hplain hplanned
  refine { hlaidOut with names := ?_, fields := ?_ }
  · rw [PlainMessage.map_name_plan hplanned]
    exact Schema.nodup_names_of_mem_plain hdistinct hplain
  · exact fun field hfield => Schema.coherent_field hsound hbuild hplain hplanned hfield

/-- The plans that are built for a compiled schema without repeated names and
numbers of fields are coherent. -/
theorem coherent_of_build {source : String} {schema : Schema}
    (hcompile : compile source = .ok schema) (hdistinct : schema.DistinctFields)
    (hbuild : schema.build = .ok set) : set.Coherent := by
  intro plan hplan
  have hnamed := named_of_build hcompile hdistinct.names hbuild plan hplan
  obtain ⟨plain, hplain, hplanned⟩ := Schema.exists_plain_of_build hbuild hplan
  refine { hnamed.toLaidOut with names := hnamed.names, numbers := ?_, fields := hnamed.fields }
  rw [PlainMessage.map_number_plan hplanned]
  exact Schema.nodup_numbers_of_mem_plain hdistinct hplain

/-- A text compiles if plans can be built for the schema that it spells. -/
theorem compile_of_build {source : String} {schema : Schema} (hparse : parse source = .ok schema)
    (hbuild : schema.build = .ok set) : compile source = .ok schema :=
  compile_eq_ok.mpr ⟨hparse, Schema.check_of_build hbuild⟩

/-! ## Looking up fields -/

namespace MessagePlan

variable {plan : MessagePlan} {field : FieldPlan}

theorem mem_of_field? {name : String} (h : plan.field? name = some field) :
    field ∈ plan.fields ∧ field.name = name :=
  ⟨List.mem_of_find?_eq_some h, by simpa using List.find?_some h⟩

/-- An arm belongs to the field at its index, and finds it by the number. -/
theorem LaidOut.arm?_eq_some (h : plan.LaidOut) {number : UInt32} {arm : DecodeArm}
    (harm : plan.arm? number = some arm) :
    ∃ (index : Nat) (field : FieldPlan), plan.fields[index]? = some field ∧
      arm = field.armAt index ∧ field.number = number := by
  have hmem := List.mem_of_find?_eq_some harm
  have hnumber : arm.number = number := by simpa using List.find?_some harm
  rw [h.arms] at hmem
  obtain ⟨index, hindex, rfl⟩ := List.mem_mapIdx.mp hmem
  exact ⟨index, plan.fields[index], List.getElem?_eq_getElem hindex, rfl, hnumber⟩

theorem LaidOut.arm?_eq_none (h : plan.LaidOut) {number : UInt32} :
    plan.arm? number = none ↔ ∀ field ∈ plan.fields, field.number ≠ number := by
  constructor
  · rintro hnone field hfield rfl
    obtain ⟨index, hindex, hget⟩ := List.getElem_of_mem hfield
    have harm : field.armAt index ∈ plan.arms := by
      rw [h.arms]
      exact List.mem_mapIdx.mpr ⟨index, hindex, by rw [hget]⟩
    exact List.find?_eq_none.mp hnone _ harm (beq_self_eq_true _)
  · intro hother
    cases harm : plan.arm? number with
    | none => rfl
    | some arm =>
        obtain ⟨index, field, hindex, _, hnumber⟩ := h.arm?_eq_some harm
        exact absurd hnumber (hother field (List.mem_of_getElem? hindex))

variable {set : PlanSet}

theorem Coherent.field?_of_mem (h : plan.Coherent set) (hfield : field ∈ plan.fields) :
    plan.field? field.name = some field := by
  have hsome : (plan.field? field.name).isSome :=
    List.find?_isSome.mpr ⟨field, hfield, beq_self_eq_true _⟩
  obtain ⟨found, hfound⟩ := Option.isSome_iff_exists.mp hsome
  obtain ⟨hmem, hname⟩ := mem_of_field? hfound
  rw [hfound, List.inj_on_of_nodup_map h.names hmem hfield hname]

/-- The number of a field leads to its arm. -/
theorem Coherent.arm?_of_mem (h : plan.Coherent set) (hfield : field ∈ plan.fields) :
    ∃ index, plan.fields[index]? = some field ∧
      plan.arm? field.number = some (field.armAt index) := by
  have hsome : plan.arm? field.number ≠ none := fun hnone =>
    h.arm?_eq_none.mp hnone field hfield rfl
  obtain ⟨arm, hfound⟩ := Option.ne_none_iff_exists'.mp hsome
  obtain ⟨other, found, hother, rfl, hnumber⟩ := h.arm?_eq_some hfound
  obtain rfl := List.inj_on_of_nodup_map h.numbers (List.mem_of_getElem? hother) hfield hnumber
  exact ⟨other, hother, hfound⟩

end MessagePlan

end WireCodec
