import WireCodec.Proofs.Plan.Coherent

/-! # Closed plans

Building plans for a schema that passes the check does not fail, and the plans
of a compiled schema are closed over their own references: every type, index
and entry message that they mention is there. Names and numbers may repeat,
and an enum may have the name of a message.
-/

namespace WireCodec

/-- What a type refers to is in the set. -/
def PlanSet.Has (set : PlanSet) : ValueType → Prop
  | .scalar _ => True
  | .enum name => ∃ table, set.enum? name = some table
  | .message name => ∃ plan, set.message? name = some plan

/-- A plan is laid out by coherent fields, and what they refer to is in the set. -/
structure MessagePlan.Closed (plan : MessagePlan) (set : PlanSet) : Prop extends plan.LaidOut where
  fields : ∀ field ∈ plan.fields, field.Coherent set
  types : ∀ field ∈ plan.fields, set.Has field.type

/-- All plans are closed. -/
def PlanSet.Closed (set : PlanSet) : Prop := ∀ plan ∈ set.messages, plan.Closed set

theorem PlanSet.Closed.of_message? {set : PlanSet} (h : set.Closed) {name : String}
    {plan : MessagePlan} (hplan : set.message? name = some plan) : plan.Closed set :=
  h plan (set.mem_of_message? hplan).1

/-- What the values of a map refer to is in the set. -/
theorem PlanSet.Closed.has_entry {set : PlanSet} (h : set.Closed) {entry : String}
    {plan : MessagePlan} (hplan : set.message? entry = some plan) {key : ScalarType}
    {type : ValueType} (hentry : plan.IsEntry key type) : set.Has type := by
  refine (h.of_message? hplan).types (.ofEntry valueField 2 type) ?_
  rw [hentry.fields]
  exact List.mem_cons_of_mem _ List.mem_cons_self

/-! ## Names that resolve -/

theorem errorsOf_eq_nil {ε α : Type} {outcome : Except ε α} :
    errorsOf outcome = [] ↔ ∃ a, outcome = .ok a := by
  cases outcome <;> simp [errorsOf]

namespace TypeIndex

variable {index : TypeIndex} {name : String}

theorem find?_isSome : (index.find? name).isSome ↔
    (ScalarType.ofName? name).isSome ∨ name ∈ index.messages ∨ name ∈ index.enums := by
  unfold find?
  cases ScalarType.ofName? name with
  | some type => simp
  | none =>
      by_cases hmessage : name ∈ index.messages
      · simp [hmessage]
      · by_cases henum : name ∈ index.enums <;> simp [hmessage, henum]

theorem enums_foldl_addMessage {messages : List PlainMessage} :
    (messages.foldl (fun index message => index.addMessage message.name) index).enums =
      index.enums := by
  induction messages generalizing index with
  | nil => rfl
  | cons message rest ih => exact ih

theorem resolve_eq_ok {type : ValueType} {span : Span} :
    index.resolve name span = .ok type ↔ index.find? name = some type := by
  unfold resolve
  split
  next found hfound => simp [hfound]
  next hnone => simp [hnone]

/-- Names that are declared alike stand for the same. -/
theorem find?_congr {index' : TypeIndex}
    (hmessages : name ∈ index'.messages ↔ name ∈ index.messages)
    (henums : index'.enums = index.enums) : index'.find? name = index.find? name := by
  simp only [find?, List.contains_eq_mem, hmessages, henums]

theorem find?_isSome_of_errorsOf {span : Span} (h : errorsOf (index.resolve name span) = []) :
    (index.find? name).isSome := by
  obtain ⟨type, htype⟩ := errorsOf_eq_nil.mp h
  exact Option.isSome_of_eq_some (resolve_eq_ok.mp htype)

theorem eq_of_find?_message {found : String}
    (h : index.find? name = some (.message found)) : found = name := by
  unfold find? at h
  split at h
  · cases h
  split at h
  · cases h
    rfl
  split at h <;> cases h

end TypeIndex

section Build

variable {schema : Schema} {set : PlanSet}

/-- Names of entry messages come in addition to those that a schema declares. -/
theorem Schema.find?_plainIndex_isSome {name : String}
    (h : ((TypeIndex.ofSchema schema).find? name).isSome) :
    (schema.plainIndex.find? name).isSome := by
  rw [TypeIndex.find?_isSome] at h ⊢
  refine h.imp_right (Or.imp ?_ ?_)
  · exact fun hmessage => TypeIndex.messages_foldl_addMessage.mpr (Or.inr hmessage)
  · intro henum
    unfold Schema.plainIndex
    rwa [TypeIndex.enums_foldl_addMessage]

/-- The type names of fields that are no maps stand for scalars or for what is declared. -/
theorem Schema.find?_ofSchema_isSome_of_mem_plain (hcheck : schema.check = [])
    {plain : PlainMessage} (hplain : plain ∈ schema.plain) {field : PlainField}
    (hfield : field ∈ plain.fields) (hmap : field.isMapEntry = false) :
    ((TypeIndex.ofSchema schema).find? field.type.node).isSome := by
  rcases Schema.mem_plain.mp hplain with ⟨message, hmessage, rfl⟩ | hentry
  · obtain ⟨declared, hdeclared, rfl⟩ := List.mem_map.mp hfield
    have hcheckField := Schema.checkField_eq_nil hcheck hmessage hdeclared
    cases htype : declared.node.type.node with
    | named name =>
        have hname := (List.append_eq_nil_iff.mp hcheckField).1
        rw [checkType, htype] at hname
        simp only [Field.plain, htype]
        exact TypeIndex.find?_isSome_of_errorsOf hname
    | map key value => simp [Field.plain, htype] at hmap
  · obtain ⟨message, hmessage, declared, hdeclared, key, value, htype, rfl⟩ :=
      Schema.mem_entries.mp hentry
    have hcheckField := Schema.checkField_eq_nil hcheck hmessage hdeclared
    rcases List.mem_cons.mp hfield with rfl | hfield
    · obtain ⟨type, hkey, _⟩ := mapKey_of_checkField hcheckField htype
      exact TypeIndex.find?_isSome.mpr (Or.inl (Option.isSome_of_eq_some hkey))
    · obtain rfl := List.mem_singleton.mp hfield
      have hvalue := (List.append_eq_nil_iff.mp hcheckField).1
      rw [checkType, htype] at hvalue
      exact TypeIndex.find?_isSome_of_errorsOf (List.append_eq_nil_iff.mp hvalue).2

/-- The type names of a schema that passes the check all stand for something. -/
theorem Schema.find?_isSome_of_mem_plain (hcheck : schema.check = []) {plain : PlainMessage}
    (hplain : plain ∈ schema.plain) {field : PlainField} (hfield : field ∈ plain.fields) :
    (schema.plainIndex.find? field.type.node).isSome := by
  cases hmap : field.isMapEntry with
  | false =>
      exact Schema.find?_plainIndex_isSome
        (Schema.find?_ofSchema_isSome_of_mem_plain hcheck hplain hfield hmap)
  | true =>
      obtain ⟨-, entry, hentry, hname⟩ := Schema.entry_of_mem_plain hplain hfield hmap
      rw [← hname, Schema.find?_entry hentry]
      rfl

theorem exists_map_ok {ε α β : Type} {f : α → Except ε β} {items : List α}
    (h : ∀ item ∈ items, ∃ b, f item = .ok b) :
    ∃ results : List β, items.map f = results.map .ok := by
  induction items with
  | nil => exact ⟨[], rfl⟩
  | cons item rest ih =>
      obtain ⟨⟨b, hb⟩, hrest⟩ := List.forall_mem_cons.mp h
      obtain ⟨results, hresults⟩ := ih hrest
      exact ⟨b :: results, by rw [List.map_cons, List.map_cons, hb, hresults]⟩

theorem PlainMessage.exists_plan {message : PlainMessage} {index : TypeIndex}
    (h : ∀ field ∈ message.fields, (index.find? field.type.node).isSome) :
    ∃ plan, message.plan index = .ok plan := by
  have hresolved : ∀ field ∈ message.fields, ∃ resolved, (fun type => (field, type)) <$>
      index.resolve field.type.node field.type.span = .ok resolved := by
    intro field hfield
    obtain ⟨type, htype⟩ := Option.isSome_iff_exists.mp (h field hfield)
    exact ⟨(field, type), by rw [TypeIndex.resolve, htype, Except.map_ok]⟩
  obtain ⟨fields, hfields⟩ := exists_map_ok hresolved
  unfold PlainMessage.plan
  dsimp only
  rw [hfields, gather_map_ok]
  exact ⟨_, rfl⟩

/-- The plain messages of a schema that passes the check are all planned: what
their fields name is declared, or it is an entry message. -/
theorem Schema.exists_plan_of_check (hcheck : schema.check = []) {plain : PlainMessage}
    (hplain : plain ∈ schema.plain) : ∃ plan, plain.plan schema.plainIndex = .ok plan :=
  PlainMessage.exists_plan fun _ hfield => find?_isSome_of_mem_plain hcheck hplain hfield

/-- Plans are built for every schema that passes the check. -/
theorem Schema.exists_build (hcheck : schema.check = []) : ∃ set, schema.build = .ok set := by
  obtain ⟨messages, hmessages⟩ := exists_map_ok fun _ => Schema.exists_plan_of_check hcheck
  exact ⟨_, Schema.build_eq_ok.mpr ⟨hcheck, messages, hmessages, rfl⟩⟩

/-! ## References of plans -/

theorem Schema.exists_message? (hbuild : schema.build = .ok set) {plain : PlainMessage}
    (hplain : plain ∈ schema.plain) : ∃ plan, set.message? plain.name = some plan := by
  obtain ⟨plan, hplan, hplanned⟩ := Schema.exists_plan_of_build hbuild hplain
  obtain ⟨fields, _, _, rfl⟩ := PlainMessage.plan_eq_ok hplanned
  refine Option.isSome_iff_exists.mp (List.find?_isSome.mpr ⟨_, List.mem_reverse.mpr hplan, ?_⟩)
  rw [MessagePlan.ofFields_name]
  exact beq_self_eq_true _

theorem Schema.exists_enum? (hbuild : schema.build = .ok set) {decl : Spanned EnumDecl}
    (hdecl : decl ∈ schema.enums) : ∃ table, set.enum? decl.node.name.node = some table := by
  refine Option.isSome_iff_exists.mp (List.find?_isSome.mpr ⟨.ofDecl decl.node, ?_, ?_⟩)
  · rw [List.mem_reverse, Schema.enums_of_build hbuild]
    exact List.mem_map_of_mem hdecl
  · exact beq_self_eq_true _

/-- What a type name stands for when plans are built is in the set. -/
theorem Schema.has_of_find? (hbuild : schema.build = .ok set) {name : String} {type : ValueType}
    (h : schema.plainIndex.find? name = some type) : set.Has type := by
  unfold TypeIndex.find? at h
  split at h
  next => cases h; trivial
  next =>
    split at h
    next hmessage =>
      cases h
      have hname : name ∈ schema.plainIndex.messages := by simpa using hmessage
      rcases TypeIndex.messages_foldl_addMessage.mp hname with hentry | hdeclared
      · obtain ⟨plain, hplain, rfl⟩ := List.mem_map.mp hentry
        exact Schema.exists_message? hbuild (List.mem_filter.mp hplain).1
      · obtain ⟨message, hmem, rfl⟩ := List.mem_map.mp hdeclared
        exact Schema.exists_message? hbuild (Schema.mem_plain.mpr (Or.inl ⟨message, hmem, rfl⟩))
    next =>
      split at h
      next henum =>
        cases h
        unfold Schema.plainIndex at henum
        rw [TypeIndex.enums_foldl_addMessage] at henum
        obtain ⟨decl, hdecl, rfl⟩ := List.mem_map.mp (List.contains_iff_mem.mp henum)
        exact Schema.exists_enum? hbuild hdecl
      next => cases h

/-- The plans of a compiled schema are closed. -/
theorem closed_of_build {source : String} (hcompile : compile source = .ok schema)
    (hbuild : schema.build = .ok set) : set.Closed := by
  obtain ⟨-, hsound⟩ := sound_of_compile hcompile
  intro plan hplan
  obtain ⟨plain, hplain, hplanned⟩ := Schema.exists_plain_of_build hbuild hplan
  have hlaidOut := Schema.laidOut_of_plan hplain hplanned
  refine { hlaidOut with fields := ?_, types := ?_ }
  · exact fun field hfield => Schema.coherent_field hsound hbuild hplain hplanned hfield
  · intro field hfield
    obtain ⟨fields, _, hfind, rfl⟩ := PlainMessage.plan_eq_ok hplanned
    rw [MessagePlan.ofFields_fields] at hfield
    obtain ⟨resolved, hresolved, rfl⟩ := List.mem_map.mp hfield
    exact Schema.has_of_find? hbuild (hfind resolved hresolved)

/-! ## Entries of map fields -/

/-- A plan is the one that is built for a declared message. -/
def MessagePlan.BuiltFor (plan : MessagePlan) (schema : Schema) (decl : MessageDecl) : Prop :=
  PlainMessage.plan ⟨decl.name.node, false, decl.fields.map (·.node.plain decl.name.node)⟩
    schema.plainIndex = .ok plan

/-- A plan is the one that is built for the entries of a map field: a synthetic
message of a key with the number 1 and a value with the number 2. -/
structure MessagePlan.EntriesOf (plan : MessagePlan) (schema : Schema) (message : String)
    (field : Field) : Prop where
  built : ∃ key value, field.type.node = .map key value ∧
    (PlainMessage.ofMap (entryName message field.name.node) key value).plan schema.plainIndex =
      .ok plan
  isEntry : ∃ key value, plan.IsEntry key value

/-- The occurrences of the field at an index are written or read as entries
that have the plan of a name. -/
def MessagePlan.MapsAt (plan : MessagePlan) (index : Nat) (name : String) : Prop :=
  (∃ step ∈ plan.steps, step.field = index ∧ step.form = .mapEntries name) ∨
    ∃ arm ∈ plan.arms, arm.field = index ∧ arm.action = .mergeEntry name

theorem MessagePlan.LaidOut.of_mapsAt {plan : MessagePlan} (h : plan.LaidOut) {index : Nat}
    {name : String} (hmaps : plan.MapsAt index name) : ∃ field, plan.fields[index]? = some field ∧
      field.isMapEntry = true ∧ field.type.name = name := by
  rcases hmaps with ⟨step, hstep, rfl, hform⟩ | ⟨arm, harm, rfl, haction⟩
  · rw [h.steps] at hstep
    obtain ⟨index, hindex, rfl⟩ := List.mem_mapIdx.mp hstep
    refine ⟨plan.fields[index], List.getElem?_eq_getElem hindex, ?_⟩
    have hform : plan.fields[index].form = .mapEntries name := hform
    unfold FieldPlan.form at hform
    split at hform
    next hmap => cases hform; exact ⟨hmap, rfl⟩
    next =>
      split at hform
      · cases hform
      split at hform <;> cases hform
  · rw [h.arms] at harm
    obtain ⟨index, hindex, rfl⟩ := List.mem_mapIdx.mp harm
    refine ⟨plan.fields[index], List.getElem?_eq_getElem hindex, ?_⟩
    have haction : plan.fields[index].action = .mergeEntry name := haction
    unfold FieldPlan.action at haction
    split at haction
    next hmap => cases haction; exact ⟨hmap, rfl⟩
    next =>
      split at haction
      · split at haction <;> cases haction
      · cases haction

/-- The entries of a map field have the plan that was built for that very field. -/
theorem Schema.entriesOf_of_mapsAt {source : String} (hcompile : compile source = .ok schema)
    (hbuild : schema.build = .ok set) {plan : MessagePlan} (hplan : plan ∈ set.messages)
    {index : Nat} {name : String} (hmaps : plan.MapsAt index name) :
    ∃ decl ∈ schema.messages, plan.BuiltFor schema decl.node ∧
      ∃ field, decl.node.fields[index]? = some field ∧
        ∃ entry, set.message? name = some entry ∧
          entry.EntriesOf schema decl.node.name.node field.node := by
  obtain ⟨hcheck, hsound⟩ := sound_of_compile hcompile
  obtain ⟨plain, hplain, hplanned⟩ := Schema.exists_plain_of_build hbuild hplan
  obtain ⟨found, hfound, hmap, rfl⟩ :=
    (Schema.laidOut_of_plan hplain hplanned).of_mapsAt hmaps
  obtain ⟨fields, hnames, hfind, rfl⟩ := PlainMessage.plan_eq_ok hplanned
  rw [MessagePlan.ofFields_fields, List.getElem?_map] at hfound
  obtain ⟨⟨plainField, type⟩, hresolved, rfl⟩ := Option.map_eq_some_iff.mp hfound
  have hplainField : plain.fields[index]? = some plainField := by
    rw [← hnames, List.getElem?_map, hresolved]
    rfl
  obtain ⟨_, entry, _, hentryName, rfl⟩ := Schema.entry_of_resolved hplain
    (List.mem_of_getElem? hplainField) hmap (hfind _ (List.mem_of_getElem? hresolved))
  rcases Schema.mem_plain.mp hplain with ⟨decl, hdecl, rfl⟩ | hplainEntry
  · rw [List.getElem?_map] at hplainField
    obtain ⟨field, hfield, rfl⟩ := Option.map_eq_some_iff.mp hplainField
    obtain ⟨key, value, htype, hname, _⟩ := Field.plain_of_map hmap
    have hmem := Schema.mem_entries.mpr
      ⟨decl, hdecl, field, List.mem_of_getElem? hfield, key, value, htype, rfl⟩
    obtain ⟨entryPlan, hentryPlan, hbuilt⟩ := Schema.exists_entryPlan hsound hbuild hmem
    refine ⟨decl, hdecl, hplanned, field, hfield, entryPlan, ?_, ⟨key, value, htype, hbuilt⟩,
      Schema.isEntry_of_plan hcheck hmem hbuilt⟩
    -- the name that the type name stands for is the name of the entry message
    have hnamed : entry.name = entryName decl.node.name.node field.node.name.node :=
      hentryName.trans hname
    change set.message? entry.name = some entryPlan
    rw [hnamed]
    exact hentryPlan
  · -- the fields of an entry message are no maps
    obtain ⟨_, _, _, _, key, value, _, rfl⟩ := Schema.mem_entries.mp hplainEntry
    rcases List.mem_cons.mp (List.mem_of_getElem? hplainField) with rfl | hrest
    · cases hmap
    · obtain rfl := List.mem_singleton.mp hrest
      cases hmap

end Build

end WireCodec
