import WireCodec.Proofs.Codec.SpelledValues
import WireCodec.Proofs.Plan.SpelledOut

/-! # Encoding maps that are spelled out

A map field is written like the list of its entries: with the same occurrences,
or with the same error, for all types of keys and values and at every level of
nesting.
-/

namespace WireCodec

variable {set set' : PlanSet} {entry message : String}

/-- The entries of a map are payloads, and so are the messages that they are spelled out as. -/
theorem FieldPlan.Coherent.spellOut_key {field : FieldPlan} (hfield : field.Coherent set)
    (hmap : field.type = .message entry → field.isMapEntry = true) :
    (field.spellOut entry message).key = field.key := by
  by_cases htype : field.type = .message entry
  · have hpacked := hfield.packed_of_isMapEntry (hmap htype)
    rw [FieldPlan.spellOut_of_eq htype]
    simp [FieldPlan.key, FieldPlan.writtenAs, hmap htype, hpacked, ValueType.wireType]
  · rw [FieldPlan.spellOut_of_ne htype]

/-- The same names are unknown on both sides, before and after rewriting. -/
theorem MessagePlan.SpellsOut.unknownNames {plan plan' : MessagePlan}
    (h : plan.SpellsOut entry message plan') (change : Value → Value) (record : Record) :
    Record.unknownNames (rewriteFields set entry change plan record) plan' =
      Record.unknownNames record plan := by
  unfold Record.unknownNames
  rw [map_fst_rewriteFields]
  exact List.filter_congr fun name _ => h.isNone_field? name

/-- Steps write the same if their fields contribute the same under the same keys. -/
theorem stepTrees_congr {plan plan' : MessagePlan} {record record' : Record}
    {steps steps' : List EncodeStep} {fields fields' : List FieldPlan}
    {image : FieldPlan → FieldPlan} (himage : fields' = fields.map image)
    (hsteps : List.Forall₂ (fun step field => plan.fields[step.field]? = some field ∧
      step = field.stepAt step.field) steps fields)
    (hsteps' : List.Forall₂ (fun step field => plan'.fields[step.field]? = some field ∧
      step = field.stepAt step.field) steps' fields')
    (hsame : ∀ field ∈ fields, (image field).key = field.key ∧
      contribution set' record' (image field) = contribution set record field) :
    stepTrees set' plan' record' steps' = stepTrees set plan record steps := by
  subst himage
  induction hsteps generalizing steps' with
  | nil =>
      cases hsteps'
      rw [stepTrees, stepTrees]
  | @cons step field rest fields hstep _ ih =>
      cases hsteps' with
      | cons hstep' hrest' =>
          obtain ⟨⟨hkey, hcontribution⟩, hsame⟩ := List.forall_mem_cons.mp hsame
          rw [stepTrees_cons_of_field hstep.1 hstep.2, stepTrees_cons_of_field hstep'.1 hstep'.2,
            hkey, hcontribution, ih hsame hrest']

section Values

variable {change : Value → Value}

theorem leafTree_congr (henums : set'.enums = set.enums) (name : String) (type : ValueType)
    (value : Value) : leafTree set' name type value = leafTree set name type value := by
  have henum : ∀ enum, set'.enum? enum = set.enum? enum := by
    intro enum
    unfold PlanSet.enum?
    rw [henums]
  unfold leafTree
  simp only [henum]

theorem leafTree_rewriteValue (henums : set'.enums = set.enums) (name : String)
    (type other : ValueType) (value : Value) :
    leafTree set' name type (rewriteValue set entry change other value) =
      leafTree set name type value := by
  rw [leafTree_congr henums]
  obtain heq | ⟨_, _, rfl, heq⟩ | ⟨_, _, rfl, heq⟩ | ⟨_, _, rfl, heq⟩ :=
    rewriteValue_cases set entry change other value
  · rw [heq]
  all_goals
    rw [heq]
    unfold leafTree
    cases type with
    | scalar type => cases type <;> rfl
    | enum name => rfl
    | message name => rfl

end Values

/-! ## Nested messages -/

/-- A message has the same occurrences on both sides, or the same error. -/
def SameTree (entry message : String) (set set' : PlanSet) (record : Record) : Prop :=
  ∀ plan plan', plan ∈ set.messages → plan.SpellsOut entry message plan' →
    plan'.name = plan.name → record.HoldsMaps set entry plan →
      messageTree set' plan' (set.spellOut entry plan record) = messageTree set plan record

/-- A value that is a message has maps where they are spelled out, and the same
occurrences on both sides. -/
def SameElement (entry message : String) (set set' : PlanSet) (type : ValueType) (value : Value) :
    Prop :=
  ∀ fields, value = .message fields → SameTree entry message set set' fields ∧
    ∀ plan, set.nested? (some type) = some plan → Record.HoldsMaps set entry plan fields

section Elements

variable (h : set.SpellsOut entry message set') {name : String} {type : ValueType}
  (hhas : set.Has type) (htype : type ≠ .message entry)
include h hhas htype

theorem valueTree_spelled {value : Value} (hvalue : SameElement entry message set set' type value) :
    valueTree set' name type (rewriteValue set entry Value.spellEntries type value) =
      valueTree set name type value := by
  by_cases hmessage : ∃ other fields, type = .message other ∧ value = .message fields
  · obtain ⟨other, fields, rfl, rfl⟩ := hmessage
    obtain ⟨plan, hplan⟩ := hhas
    have hother : other ≠ entry := fun heq => htype (heq ▸ rfl)
    obtain ⟨plan', hplan', hname, -, hspells⟩ := h.plans other plan hother hplan
    obtain ⟨htrees, hmaps⟩ := hvalue fields rfl
    have htree := htrees plan plan' (set.mem_of_message? hplan).1 hspells hname (hmaps plan hplan)
    rw [PlanSet.spellOut] at htree
    simp only [rewriteValue, PlanSet.nested?, hplan]
    unfold valueTree
    simp only [hplan, hplan', htree]
  · -- all other values are leaves, or refused as such
    have hleaf : ∀ (set : PlanSet) (value : Value),
        (∀ other fields, type = .message other → value ≠ .message fields) →
          valueTree set name type value = leafTree set name type value := by
      intro set value hother
      unfold valueTree
      split
      next other fields => exact absurd rfl (hother other fields rfl)
      next => rfl
    have hvalue' : ∀ other fields, type = .message other → value ≠ .message fields :=
      fun other fields ht hv => hmessage ⟨other, fields, ht, hv⟩
    rw [hleaf set value hvalue', hleaf set', leafTree_rewriteValue h.enums]
    intro other fields ht hv
    obtain heq | ⟨inner, _, hinner, -⟩ | ⟨_, _, -, heq⟩ | ⟨_, _, -, heq⟩ :=
      rewriteValue_cases set entry Value.spellEntries type value
    · exact hvalue' other fields ht (heq.symm.trans hv)
    · exact hvalue' other inner ht hinner
    · exact Value.noConfusion (heq.symm.trans hv)
    · exact Value.noConfusion (heq.symm.trans hv)

theorem itemTrees_spelled {field : FieldPlan} (hfield : field.type = type) {items : List Value}
    (hitems : ∀ item ∈ items, SameElement entry message set set' type item) :
    itemTrees set' field (rewriteItems set entry Value.spellEntries type items) =
      itemTrees set field items := by
  subst hfield
  induction items with
  | nil =>
      rw [rewriteItems]
      unfold itemTrees
      rfl
  | cons item rest ih =>
      obtain ⟨hfirst, hrest⟩ := List.forall_mem_cons.mp hitems
      rw [rewriteItems]
      unfold itemTrees
      rw [valueTree_spelled h hhas htype hfirst, ih hrest]

theorem entryTrees_spelled {keyPlan valuePlan : FieldPlan} (hvalue : valuePlan.type = type)
    {entries : List (MapKey × Value)}
    (hentries : ∀ pair ∈ entries, SameElement entry message set set' type pair.2) :
    entryTrees set' keyPlan valuePlan (rewriteEntries set entry Value.spellEntries type entries) =
      entryTrees set keyPlan valuePlan entries := by
  subst hvalue
  induction entries with
  | nil =>
      rw [rewriteEntries]
      unfold entryTrees
      rfl
  | cons pair rest ih =>
      obtain ⟨key, value⟩ := pair
      obtain ⟨hfirst, hrest⟩ := List.forall_mem_cons.mp hentries
      rw [rewriteEntries]
      unfold entryTrees
      rw [leafTree_congr h.enums, valueTree_spelled h hhas htype hfirst, ih hrest]

end Elements

/-! ## Entries -/

/-- A message of a key and a value has an occurrence for each. -/
theorem messageTree_entryRecord {plan : MessagePlan} (hplan : plan.LaidOut) {keyType : ScalarType}
    {type : ValueType} (hfields : plan.fields =
      [.ofEntry keyField 1 (.scalar keyType), .ofEntry valueField 2 type]) (key : MapKey)
    (value : Value) : messageTree set plan (entryRecord key value) = (do
      let first ← leafTree set keyField (.scalar keyType) (.ofMapKey key)
      let second ← valueTree set valueField type value
      return [(⟨1, keyType.wireType.code⟩, first), (⟨2, type.wireType.code⟩, second)]) := by
  have hknown : Record.unknownNames (entryRecord key value) plan = [] := by
    simp [Record.unknownNames, MessagePlan.field?, hfields, entryRecord, FieldPlan.ofEntry]
  have hkey : contribution set (entryRecord key value) (.ofEntry keyField 1 (.scalar keyType)) =
      (fun tree => [tree]) <$> leafTree set keyField (.scalar keyType) (.ofMapKey key) := by
    have hleaf : valueTree set keyField (.scalar keyType) (.ofMapKey key) =
        leafTree set keyField (.scalar keyType) (.ofMapKey key) := by
      unfold valueTree
      rfl
    unfold contribution
    simp only [FieldPlan.ofEntry, value?_entryRecord_key]
    unfold fieldTrees
    simp only [FieldPlan.form, hleaf]
    rfl
  have hvalue : contribution set (entryRecord key value) (.ofEntry valueField 2 type) =
      (fun tree => [tree]) <$> valueTree set valueField type value := by
    unfold contribution
    simp only [FieldPlan.ofEntry, value?_entryRecord_value]
    unfold fieldTrees
    rfl
  have hsteps := hplan.forall₂_steps
  unfold messageTree
  rw [hknown]
  dsimp only
  rw [hfields] at hsteps
  generalize plan.steps = steps at hsteps
  obtain - | ⟨hfirst, - | ⟨hsecond, hnil⟩⟩ := hsteps
  cases hnil
  rw [← hfields] at hfirst hsecond
  rw [stepTrees_cons_of_field hfirst.1 hfirst.2, stepTrees_cons_of_field hsecond.1 hsecond.2,
    hkey, hvalue]
  cases leafTree set keyField (.scalar keyType) (.ofMapKey key) with
  | error e => rfl
  | ok first =>
      cases valueTree set valueField type value with
      | error e => rfl
      | ok second =>
          rw [stepTrees]
          rfl

/-- A list of entry messages is written like the entries. -/
theorem itemTrees_ofEntry {plan : MessagePlan} (hplan : set.message? message = some plan)
    (hlaid : plan.LaidOut) {keyType : ScalarType} {type : ValueType} (hfields : plan.fields =
      [.ofEntry keyField 1 (.scalar keyType), .ofEntry valueField 2 type]) {field : FieldPlan}
    (hfield : field.type = .message message) (entries : List (MapKey × Value)) :
    itemTrees set field (entries.map Value.ofEntry) =
      entryTrees set (.ofEntry keyField 1 (.scalar keyType)) (.ofEntry valueField 2 type)
        entries := by
  induction entries with
  | nil =>
      unfold itemTrees entryTrees
      rfl
  | cons pair rest ih =>
      obtain ⟨key, value⟩ := pair
      have hfirst : valueTree set field.name field.type (Value.ofEntry (key, value)) =
          WireValue.message <$> messageTree set plan (entryRecord key value) := by
        rw [hfield]
        unfold valueTree Value.ofEntry
        simp only [hplan]
        cases messageTree set plan (entryRecord key value) <;> rfl
      rw [List.map_cons]
      unfold itemTrees entryTrees
      rw [hfirst, ih, messageTree_entryRecord hlaid hfields]
      simp only [FieldPlan.ofEntry]
      cases leafTree set keyField (.scalar keyType) (.ofMapKey key) with
      | error e => rfl
      | ok first => cases valueTree set valueField type value <;> rfl

/-! ## Fields -/

/-- A value that is no list is refused where one is expected, and stays so. -/
theorem fieldTrees_each_of_ne {field : FieldPlan} {value : Value}
    (hvalue : ∀ items, value ≠ .list items) :
    fieldTrees set field .each value = .error (.typeMismatch field.name .list value.kind) := by
  unfold fieldTrees
  cases value <;> first | rfl | exact absurd rfl (hvalue _)

theorem fieldTrees_packed_of_ne {field : FieldPlan} {value : Value}
    (hvalue : ∀ items, value ≠ .list items) :
    fieldTrees set field .packed value = .error (.typeMismatch field.name .list value.kind) := by
  unfold fieldTrees
  cases value <;> first | rfl | exact absurd rfl (hvalue _)

theorem fieldTrees_mapEntries_of_ne {field : FieldPlan} {name : String} {value : Value}
    (hvalue : ∀ entries, value ≠ .map entries) : fieldTrees set field (.mapEntries name) value =
      .error (.typeMismatch field.name .map value.kind) := by
  unfold fieldTrees
  cases value <;> first | rfl | exact absurd rfl (hvalue _)

/-- The values of a map are read with the type that its entries have. -/
theorem sameElement_of_entry {field : FieldPlan} {entries : List (MapKey × Value)}
    (hvalue : ∀ element ∈ (Value.map entries).elements, ∀ type,
      (Value.map entries).elementType? set field.type = some type →
        SameElement entry message set set' type element) {keyType type : ValueType}
    (htypes : Reference.entryTypes? set field.type = some (keyType, type)) :
    ∀ pair ∈ entries, SameElement entry message set set' type pair.2 :=
  fun pair hpair => hvalue pair.2 (List.mem_map_of_mem hpair) type
    (by simp [Value.elementType?, htypes])

section Fields

variable (h : set.SpellsOut entry message set') (hclosed : set.Closed) {field : FieldPlan}
  (hfield : field.Coherent set) {value : Value}
  (hvalue : ∀ element ∈ value.elements, ∀ type, value.elementType? set field.type = some type →
    SameElement entry message set set' type element)
include h hclosed hfield hvalue

/-- The field that is spelled out is written like the map that it was. -/
theorem fieldTrees_entries (htype : field.type = .message entry) (hmap : field.isMapEntry = true)
    {entries : List (MapKey × Value)} (hentries : value = .map entries) :
    fieldTrees set' (field.spellOut entry message) (field.spellOut entry message).form
        (rewriteField set entry Value.spellEntries field value) =
      fieldTrees set field field.form value := by
  subst hentries
  obtain ⟨plan, plan', keyType, type, hplan, hentry, hplan', hspells⟩ := h.entries
  obtain ⟨hmem, -⟩ := set.mem_of_message? hplan
  obtain ⟨hne, hfields'⟩ := h.fields_of_isEntry hmem hentry hspells
  have hhas := hclosed.has_entry hplan hentry
  have htypes : Reference.entryTypes? set field.type = some (.scalar keyType, type) :=
    htype ▸ Reference.entryTypes?_of_isEntry hplan hentry
  have hform : field.form = .mapEntries entry := by
    rw [FieldPlan.form_of_map hmap, htype, ValueType.name]
  have hform' : (field.spellOut entry message).form = .each := by
    rw [FieldPlan.spellOut_of_eq htype]
    simp [FieldPlan.form, hfield.packed_of_isMapEntry hmap, (hfield.entry hmap).1]
  have hrewritten : rewriteField set entry Value.spellEntries field (.map entries) =
      .list ((rewriteEntries set entry Value.spellEntries type entries).map Value.ofEntry) := by
    rw [rewriteField, if_pos htype, rewriteValue, htypes]
    rfl
  rw [hform, hform', hrewritten]
  unfold fieldTrees
  simp only [hplan, hentry.fields]
  have htype' : (field.spellOut entry message).type = .message message := by
    rw [FieldPlan.spellOut_of_eq htype]
  rw [itemTrees_ofEntry hplan' hspells.laidOut hfields' htype']
  exact entryTrees_spelled h hhas hne rfl (sameElement_of_entry hvalue htypes)

/-- The entries of any other map are written as before. -/
theorem fieldTrees_otherEntries {name : String} (hform : field.form = .mapEntries name)
    (hname : name ≠ entry) {entries : List (MapKey × Value)} (hentries : value = .map entries) :
    fieldTrees set' field (.mapEntries name)
        (rewriteValue set entry Value.spellEntries field.type value) =
      fieldTrees set field (.mapEntries name) value := by
  subst hentries
  obtain ⟨htype, plan, keyType, type, hplan, hentry⟩ := hfield.entry_of_form hform
  obtain ⟨hmem, -⟩ := set.mem_of_message? hplan
  obtain ⟨plan', hplan', -, -, hspells⟩ := h.plans name plan hname hplan
  obtain ⟨hne, hfields'⟩ := h.fields_of_isEntry hmem hentry hspells
  have hhas := hclosed.has_entry hplan hentry
  have htypes : Reference.entryTypes? set field.type = some (.scalar keyType, type) :=
    htype ▸ Reference.entryTypes?_of_isEntry hplan hentry
  rw [rewriteValue, htypes]
  unfold fieldTrees
  simp only [hplan, hplan', hentry.fields, hfields']
  exact entryTrees_spelled h hhas hne rfl (sameElement_of_entry hvalue htypes)

/-- All other fields are written as before. -/
theorem fieldTrees_others (hhas : set.Has field.type) (htype : field.type ≠ .message entry) :
    fieldTrees set' field field.form
        (rewriteField set entry Value.spellEntries field value) =
      fieldTrees set field field.form value := by
  rw [rewriteField, if_neg htype]
  have hitems : ∀ items, value = .list items →
      itemTrees set' field (rewriteItems set entry Value.spellEntries field.type items) =
        itemTrees set field items := by
    rintro items rfl
    exact itemTrees_spelled h hhas htype rfl fun item hitem => hvalue item hitem field.type rfl
  have hkind := kind_rewriteValue set entry Value.spellEntries field.type value
  cases hform : field.form with
  | single =>
      have helement : SameElement entry message set set' field.type value := by
        rintro fields rfl
        exact hvalue _ (by simp) field.type rfl fields rfl
      unfold fieldTrees
      rw [valueTree_spelled h hhas htype helement]
  | each =>
      by_cases hlist : ∃ items, value = .list items
      · obtain ⟨items, rfl⟩ := hlist
        rw [rewriteValue]
        unfold fieldTrees
        exact hitems items rfl
      · rw [fieldTrees_each_of_ne fun items heq => hlist ⟨items, heq⟩,
          fieldTrees_each_of_ne fun new heq => hlist (eq_list_of_rewriteValue heq), hkind]
  | packed =>
      by_cases hlist : ∃ items, value = .list items
      · obtain ⟨items, rfl⟩ := hlist
        rw [rewriteValue]
        cases items with
        | nil =>
            rw [rewriteItems]
            unfold fieldTrees
            rfl
        | cons item rest =>
            have hrest := hitems _ rfl
            rw [rewriteItems] at hrest ⊢
            unfold fieldTrees
            simp only [hrest]
      · rw [fieldTrees_packed_of_ne fun items heq => hlist ⟨items, heq⟩,
          fieldTrees_packed_of_ne fun new heq => hlist (eq_list_of_rewriteValue heq), hkind]
  | mapEntries name =>
      by_cases hmap : ∃ entries, value = .map entries
      · obtain ⟨entries, rfl⟩ := hmap
        refine fieldTrees_otherEntries h hclosed hfield hvalue hform (fun heq => htype ?_) rfl
        rw [(hfield.entry_of_form hform).1, heq]
      · rw [fieldTrees_mapEntries_of_ne fun entries heq => hmap ⟨entries, heq⟩,
          fieldTrees_mapEntries_of_ne fun new heq => hmap (eq_map_of_rewriteValue heq), hkind]

end Fields

/-! ## Messages -/

/-- Every message has the same occurrences on both sides, or the same error. -/
theorem sameTree (h : set.SpellsOut entry message set') (hset : set.Coherent)
    (hclosed : set.Closed) (record : Record) : SameTree entry message set set' record := by
  induction record using Record.nesting_induction with
  | step record nested =>
      rintro plan plan' hplan hspells hname ⟨hmaps, hnested⟩
      have hcoherent := hset plan hplan
      have hfields : ∀ field ∈ plan.fields,
          (field.spellOut entry message).key = field.key ∧
            contribution set' (set.spellOut entry plan record) (field.spellOut entry message) =
              contribution set record field := by
        intro field hfield
        have hfieldCoherent := hcoherent.fields field hfield
        have hmap := h.maps plan hplan field hfield
        refine ⟨hfieldCoherent.spellOut_key hmap, ?_⟩
        unfold contribution
        rw [FieldPlan.spellOut_name, PlanSet.spellOut,
          value?_rewriteFields (hcoherent.field?_of_mem hfield)]
        cases hfound : Record.value? record field.name with
        | none => rfl
        | some value =>
            have hvalue : ∀ element ∈ value.elements, ∀ type,
                value.elementType? set field.type = some type →
                  SameElement entry message set set' type element := by
              rintro _ helement type htype fields rfl
              refine ⟨nested _ (Sorted.mem_of_find? hfound) fields helement, fun inner hinner => ?_⟩
              exact hnested field hfield value hfound fields helement inner (htype ▸ hinner)
            by_cases htype : field.type = .message entry
            · obtain ⟨entries, hentries⟩ := hmaps field hfield htype value hfound
              exact fieldTrees_entries h hclosed hfieldCoherent hvalue htype (hmap htype) hentries
            · rw [FieldPlan.spellOut_of_ne htype]
              exact fieldTrees_others h hclosed hfieldCoherent hvalue
                ((hclosed plan hplan).types field hfield) htype
      have htrees := stepTrees_congr hspells.fields hcoherent.forall₂_steps
        hspells.laidOut.forall₂_steps hfields
      unfold messageTree
      rw [PlanSet.spellOut, hspells.unknownNames, hname, ← PlanSet.spellOut, htrees]

/-- A message is encoded to the same bytes on both sides, or refused with the same error. -/
theorem PlanSet.SpellsOut.encode_eq (h : set.SpellsOut entry message set') (hset : set.Coherent)
    (hclosed : set.Closed) {plan plan' : MessagePlan} (hplan : plan ∈ set.messages)
    (hspells : plan.SpellsOut entry message plan') (hname : plan'.name = plan.name)
    {record : Record} (hmaps : record.HoldsMaps set entry plan) :
    set'.encode plan' (set.spellOut entry plan record) = set.encode plan record := by
  rw [PlanSet.encode_eq, PlanSet.encode_eq,
    sameTree h hset hclosed record plan plan' hplan hspells hname hmaps]

end WireCodec
