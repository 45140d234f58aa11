import WireCodec.Proofs.Codec.Occurrences
import WireCodec.Proofs.Codec.RequiredFields
import WireCodec.Proofs.Codec.SpelledDecode
import WireCodec.Proofs.Program.Text
import WireCodec.Proofs.Program.Values
import WireCodec.Proofs.Wire.Related

/-! # Programs decode as plans do

The decoder of a struct goes along with decoding by the plan of its message,
key by key, if the decoders of the messages within it do. Both answer at the
same place, a struct and a message that it stands for, or fail with the same
error.
-/

namespace WireCodec

open Program

variable {μ σ : Type} {set : PlanSet} {nests : String → μ → Record → Prop}
  {decode : String → Read μ} {nested : MessagePlan → Read Record}

/-! ## Values -/

theorem readValue_scalar (type : ScalarType) : readValue set nested (.scalar type) =
    (fun x => some (Value.ofScalar type x)) <$> Read.scalar type := by
  unfold readValue Read.value
  simp only [Functor.map_map]

theorem readValue_enum {name : String} {table : EnumTable} (htable : set.enum? name = some table) :
    readValue set nested (.enum name) =
      (fun number => (table.symbol? number).map .enum) <$> Read.scalar .int32 := by
  unfold readValue
  simp only [htable]
  exact bind_pure_comp _ _

variable (set nests decode nested) in
/-- The messages of a type, if it is one of messages, are decoded alike. -/
def DecodesNested (type : ValueType) : Prop :=
  ∀ name plan, type = .message name → set.message? name = some plan →
    Read.Related Eq (nests name) (decode (typeIdentifier name)) (nested plan)

theorem related_read (hdistinct : set.DistinctIdentifiers) {type : ValueType} (hhas : set.Has type)
    (hnested : DecodesNested set nests decode nested type) :
    Read.Related Eq (Option.Rel (Datum.Stands set nests type))
      (set.program.read decode type.element type.readExpr) (readValue set nested type) := by
  cases type with
  | scalar type =>
      rw [readValue_scalar]
      refine (Read.related_self (fun _ => rfl) (Read.scalar type)).map ?_
      rintro x _ rfl
      exact .some (.scalar type x)
  | enum name =>
      obtain ⟨table, htable⟩ := hhas
      rw [readValue_enum htable]
      refine (Read.related_self (fun _ => rfl) (Read.scalar .int32)).map ?_
      rintro number _ rfl
      rw [hdistinct.enum? htable, Option.bind_some, table.variant?_item]
      cases hsymbol : table.symbol? number with
      | none => exact .none
      | some symbol => exact .some (.enum htable hsymbol)
  | message name =>
      obtain ⟨plan, hplan⟩ := hhas
      have hread := (hnested name plan rfl hplan).delimited fun _ => rfl
      simp only [readValue, hplan]
      exact hread.map fun _ _ hstands => .some (.message hstands)

/-! ## Occurrences -/

variable (set nested) in
/-- A case of a decoder changes what is decoded like the occurrences of a field
change the message that it stands for. -/
structure FieldReader.Follows (stands : σ → Record → Prop) (reader : FieldReader σ)
    (field : FieldPlan) : Prop where
  number : reader.number = field.number
  read : ∀ found decoded record, stands decoded record →
    Read.Related Eq (fun decoded changes => stands decoded (Change.applyAll changes record))
      (reader.read found decoded) (field.changes set nested found)

variable {plan : MessagePlan} {stands : σ → Record → Prop} {readers : List (FieldReader σ)}

/-- What follows a key is read alike. -/
theorem related_readCase (hplan : plan.LaidOut)
    (hreaders : List.Forall₂ (FieldReader.Follows set nested stands) readers plan.fields)
    {decoded : σ} {record : Record} (h : stands decoded record) (found : Key) :
    Read.Related Eq (fun decoded changes => stands decoded (Change.applyAll changes record))
      (readCase readers decoded found) (fieldChanges set nested plan found) := by
  have harms := find?_of_forall₂ hplan.forall₂_arms (p := (·.number == found.number))
    (q := (·.number == found.number)) fun arm field harm => by
      rw [harm.2]
      rfl
  have hcases := find?_of_forall₂ hreaders (p := (·.number == found.number))
    (q := (·.number == found.number)) fun reader field hfollows => by rw [hfollows.number]
  unfold readCase
  rcases harms with ⟨harm, hnone⟩ | ⟨arm, field, harm, hsome, hindex, hat⟩
  · rcases hcases with ⟨hreader, -⟩ | ⟨reader, field, -, hsome, -⟩
    · unfold fieldChanges MessagePlan.arm?
      rw [hreader, harm]
      exact (Read.related_self (fun _ => rfl) _).map fun _ _ _ => h
    · rw [hnone] at hsome
      cases hsome
  · rcases hcases with ⟨-, hnone⟩ | ⟨reader, other, hreader, hother, hfollows⟩
    · rw [hsome] at hnone
      cases hnone
    · obtain rfl := Option.some.inj (hsome.symm.trans hother)
      rw [hreader, fieldChanges_of_arm? hindex (harm.trans (congrArg some hat))]
      exact hfollows.read found decoded record h

/-- The loops over the keys of a message go along with each other. -/
theorem related_readCases (hplan : plan.LaidOut)
    (hreaders : List.Forall₂ (FieldReader.Follows set nested stands) readers plan.fields)
    {decoded : σ} {record : Record} (h : stands decoded record) {advances} :
    Read.Related Eq stands (readCases readers decoded)
      (Read.iterate (readOccurrence set nested plan) advances record) := by
  refine Read.Related.iterate ?_ h
  intro decoded record h
  rw [readOccurrence_eq, occurrenceChanges, map_bind]
  refine (Read.related_self (fun _ => rfl) Read.key).bind ?_
  rintro found _ rfl
  cases found with
  | none => exact Read.related_pure .none
  | some found =>
      rw [Functor.map_map]
      exact (related_readCase hplan hreaders h found).map fun _ _ hstands => .some hstands

/-! ## Fields -/

variable (set nests) in
/-- A key and a value of a program stand for the message of an entry. -/
def PairStands (key : ScalarType) (type : ValueType) (pair : Datum μ × Datum μ)
    (record : Record) : Prop :=
  ∃ mapKey found, IsPair record mapKey found ∧ pair.1 = .native (.ofMapKey mapKey) ∧
    EntryStands set nests key type (mapKey, pair.2) (mapKey, found)

variable (set nests decode nested) in
/-- The messages or the entries that a field holds are decoded alike. -/
structure FieldPlan.DecodesNested (field : FieldPlan) : Prop where
  messages : field.isMapEntry = false → WireCodec.DecodesNested set nests decode nested field.type
  entries : field.isMapEntry = true → ∀ name entry key type, field.type = .message name →
    set.message? name = some entry → entry.IsEntry key type →
      Read.Related Eq (PairStands set nests key type)
        ((entry.entryItem (.ofEntry keyField 1 (.scalar key))
          (.ofEntry valueField 2 type)).decodeFrom set.program decode) (nested entry)

theorem FieldPlan.element_declaredType (field : FieldPlan) (set : PlanSet)
    (hmap : field.isMapEntry = false) : (field.declaredType set).element = field.type.element := by
  obtain ⟨name, number, cardinality, type, packed, isMapEntry⟩ := field
  obtain rfl : isMapEntry = false := hmap
  cases cardinality <;> cases type <;> rfl

section Fields

variable (hdistinct : set.DistinctIdentifiers) (hplan : plan.Coherent set)
  (hidentifiers : (plan.fields.map fun field => identifier field.name).Nodup)
  {field : FieldPlan} (hfield : field ∈ plan.fields) (hhas : set.Has field.type)
  (hnested : field.DecodesNested set nests decode nested)
include hdistinct hplan hidentifiers hfield hhas hnested

/-- A value that is read changes a field as it changes the value that this stands for. -/
theorem related_modify (hmap : field.isMapEntry = false)
    (change : Option (Datum μ) → Slot μ → Slot μ) (what : Option Value → FieldChange)
    (hchange : ∀ held value, Option.Rel (Datum.Stands set nests field.type) held value →
      ∀ slot found, slot.Stands set nests field found →
        (change held slot).Stands set nests field ((what value).apply found))
    {fields : Fields μ} {record : Record} (changes : List Change)
    (h : fields.Stand set nests plan (Change.applyAll changes record)) :
    Read.Related Eq
      (fun fields changes => fields.Stand set nests plan (Change.applyAll changes record))
      ((fun held => fields.modify (identifier field.name) (change held)) <$>
        set.program.read decode field.type.element field.type.readExpr)
      ((fun value => changes ++ [⟨field.name, what value⟩]) <$>
        readValue set nested field.type) := by
  refine (related_read hdistinct hhas (hnested.messages hmap)).map fun held value hstands => ?_
  rw [Change.applyAll_append]
  exact h.modify hidentifiers hfield hplan.names _ _ (hchange held value hstands)

theorem follows_singular (hmap : field.isMapEntry = false)
    (hsingular : field.cardinality ≠ .repeated) :
    FieldReader.Follows set nested (Fields.Stand set nests plan)
      ((field.matchArm (field.armAt 0)).reader set.program decode field.type.element) field := by
  have haction : field.action = .assign := by simp [FieldPlan.action, hmap, hsingular]
  unfold FieldPlan.matchArm MatchArm.reader FieldPlan.armAt
  rw [haction]
  refine ⟨rfl, fun found fields record h => ?_⟩
  unfold FieldPlan.changes
  rw [haction]
  refine Read.Related.expect (fun _ => rfl) ?_ found field.type.wireType.code
  exact related_modify hdistinct hplan hidentifiers hfield hhas hnested hmap
    (fun held _ => .option held) .assign
    (fun held value hstands _ _ _ => .assign hmap hsingular hstands) [] h

theorem follows_repeated (hmap : field.isMapEntry = false)
    (hrepeated : field.cardinality = .repeated) :
    FieldReader.Follows set nested (Fields.Stand set nests plan)
      ((field.matchArm (field.armAt 0)).reader set.program decode field.type.element) field := by
  have hitem : ∀ (record : Record) (fields : Fields μ) (changes : List Change),
      fields.Stand set nests plan (Change.applyAll changes record) → Read.Related Eq
        (fun fields changes => fields.Stand set nests plan (Change.applyAll changes record))
        ((fun held => fields.modify (identifier field.name) (·.push? held)) <$>
          set.program.read decode field.type.element field.type.readExpr)
        (collectItem set nested field changes) := fun record fields changes h =>
    related_modify hdistinct hplan hidentifiers hfield hhas hnested hmap
      (fun held slot => slot.push? held) .append
      (fun held value hstands _ _ hslot => hslot.push? hmap hrepeated hstands) changes h
  unfold FieldPlan.matchArm MatchArm.reader FieldPlan.armAt
  by_cases hpackable : field.type.packable = true
  · have haction : field.action = .appendPackable field.type.wireType := by
      simp [FieldPlan.action, hmap, hrepeated, hpackable]
    rw [haction]
    refine ⟨rfl, fun found fields record h => ?_⟩
    unfold FieldPlan.changes
    rw [haction]
    exact Read.Related.packable (fun _ => rfl) (hitem record) (t := []) h found
      field.type.wireType.code
  · have haction : field.action = .append := by
      simp [FieldPlan.action, hmap, hrepeated, hpackable]
    rw [haction]
    refine ⟨rfl, fun found fields record h => ?_⟩
    unfold FieldPlan.changes
    rw [haction]
    exact Read.Related.expect (fun _ => rfl) (hitem record fields [] h) found _

omit hhas in
/-- An entry that is read is put into both maps. -/
theorem follows_map (hmap : field.isMapEntry = true) (element : ElementType) :
    FieldReader.Follows set nested (Fields.Stand set nests plan)
      ((field.matchArm (field.armAt 0)).reader set.program decode element) field := by
  obtain ⟨-, name, entry, key, type, htype, hentry, hisEntry⟩ :=
    (hplan.fields field hfield).entry hmap
  have haction : field.action = .mergeEntry name := by
    simp [FieldPlan.action, hmap, htype, ValueType.name]
  have hread := (hnested.entries hmap name entry key type htype hentry hisEntry).delimited
    fun _ => rfl
  unfold FieldPlan.matchArm MatchArm.reader FieldPlan.armAt
  rw [haction]
  refine ⟨rfl, fun found fields record h => ?_⟩
  unfold FieldPlan.changes
  rw [haction]
  refine Read.Related.expect (fun _ => rfl) ?_ found field.type.wireType.code
  unfold readPair
  simp only [hdistinct.entryItem? hentry hisEntry, hentry, ← bind_pure_comp, bind_assoc]
  refine hread.bind ?_
  rintro ⟨_, datum⟩ pair ⟨mapKey, value, ⟨hkey, hvalue⟩, rfl, hstands⟩
  simp only [hkey, hvalue, pure_bind]
  exact Read.related_pure <| h.modify hidentifiers hfield hplan.names _ (.put mapKey value)
    fun _ _ hslot => hslot.insert hmap htype hentry hisEntry hstands

/-- The case of a field of a struct follows the field. -/
theorem follows_field : FieldReader.Follows set nested (Fields.Stand set nests plan)
    ((field.matchArm (field.armAt 0)).reader set.program decode (field.declaredType set).element)
    field := by
  cases hmap : field.isMapEntry with
  | true => exact follows_map hdistinct hplan hidentifiers hfield hnested hmap _
  | false =>
      rw [field.element_declaredType set hmap]
      by_cases hrepeated : field.cardinality = .repeated
      · exact follows_repeated hdistinct hplan hidentifiers hfield hhas hnested hmap hrepeated
      · exact follows_singular hdistinct hplan hidentifiers hfield hhas hnested hmap hrepeated

end Fields

/-! ## Structs -/

theorem PlanSet.entryFields?_of_isEntry {name : String} {entry : MessagePlan}
    (hplan : set.message? name = some entry) {key : ScalarType} {type : ValueType}
    (hentry : entry.IsEntry key type) : set.entryFields? name =
      some (.ofEntry keyField 1 (.scalar key), .ofEntry valueField 2 type) := by
  obtain ⟨_, _, fields, _, _, _⟩ := entry
  obtain rfl : fields = _ := hentry.fields
  unfold entryFields?
  rw [hplan]

/-- To begin with a field holds nothing. -/
theorem FieldPlan.stands_default {field : FieldPlan} (hfield : field.Coherent set) :
    ((field.declaredType set).default : Slot μ).Stands set nests field none := by
  cases hmap : field.isMapEntry with
  | true =>
      obtain ⟨-, name, entry, key, type, htype, hentry, hisEntry⟩ := hfield.entry hmap
      have hdefault : ((field.declaredType set).default : Slot μ) = .hashMap [] := by
        simp [declaredType, hmap, htype, set.entryFields?_of_isEntry hentry hisEntry,
          FieldType.default]
      have hempty : Value.ofEntries [] = none := rfl
      rw [hdefault, ← hempty]
      exact .hashMap hmap htype hentry hisEntry .nil
  | false =>
      by_cases hrepeated : field.cardinality = .repeated
      · have hdefault : ((field.declaredType set).default : Slot μ) = .vec [] := by
          simp [declaredType, plainType, hmap, hrepeated, FieldType.default]
        have hempty : Value.ofItems [] = none := rfl
        rw [hdefault, ← hempty]
        exact .vec hmap hrepeated .nil
      · have hdefault : ((field.declaredType set).default : Slot μ) = .option none := by
          unfold declaredType plainType
          rw [hmap]
          cases hcardinality : field.cardinality with
          | repeated => exact absurd hcardinality hrepeated
          | optional => cases field.type <;> rfl
          | required => cases field.type <;> rfl
        rw [hdefault]
        exact .option hmap hrepeated .none

section Structs

variable (hplan : plan.Coherent set)
include hplan

/-- The struct to begin with stands for the message without fields. -/
theorem MessagePlan.stand_default (nests : String → μ → Record → Prop) :
    ((plan.structItem set).default : Fields μ).Stand set nests plan [] := by
  refine ⟨Sorted.increasing_nil, fun _ _ => rfl, ?_⟩
  unfold StructItem.default MessagePlan.structItem
  rw [List.map_map, List.forall₂_map_left_iff, List.forall₂_same]
  exact fun field hfield => ⟨rfl, FieldPlan.stands_default (hplan.fields field hfield)⟩

variable (hidentifiers : (plan.fields.map fun field => identifier field.name).Nodup)
include hidentifiers

theorem MessagePlan.readers_structItem (program : Program) (decode : String → Read μ) :
    (plan.structItem set).readers program decode = plan.fields.map fun field =>
      (field.matchArm (field.armAt 0)).reader program decode (field.declaredType set).element := by
  unfold StructItem.readers
  rw [hplan.arms_structItem, List.filterMap_map, ← List.filterMap_eq_map']
  refine List.filterMap_congr fun field hfield => ?_
  have hfound := find?_of_nodup (fun field => identifier field.name) hidentifiers hfield
  change ((plan.structItem set).type? (identifier field.name)).map _ = _
  unfold StructItem.type? MessagePlan.structItem
  rw [List.find?_map, Option.map_map]
  change ((plan.fields.find? (identifier ·.name == identifier field.name)).map _).map _ = _
  rw [hfound]
  rfl

/-- The first field that a message lacks is the first one that the struct has no value for. -/
theorem MessagePlan.firstMissing?_structItem (hsynthetic : plan.synthetic = false)
    {fields : Fields μ} {record : Record} (h : fields.Stand set nests plan record) :
    plan.firstMissing? record plan.required = ((plan.structItem set).required.find? fun field =>
      (fields.slot? field.1).all (·.isNone)).map fun field => .missingRequiredField field.2 := by
  have hindices : ∀ index ∈ plan.required, ∃ field, plan.fields[index]? = some field ∧
      field.cardinality = .required := fun index => (hplan.required index).mp
  unfold MessagePlan.structItem
  dsimp only
  generalize plan.required = indices at hindices
  induction indices with
  | nil => rfl
  | cons index rest ih =>
      obtain ⟨⟨field, hfield, hcardinality⟩, hrest⟩ := List.forall_mem_cons.mp hindices
      obtain ⟨slot, hslot, hstands⟩ := h.slot? hidentifiers (List.mem_of_getElem? hfield)
      have hnone : (fields.slot? (identifier field.name)).all (·.isNone) =
          !Record.contains record field.name := by
        rw [hslot, Option.all_some, Record.contains]
        exact hstands.isNone_of_required (hplan.fields field (List.mem_of_getElem? hfield))
          hcardinality
      rw [MessagePlan.firstMissing?, List.filterMap_cons, hfield]
      simp only [Option.map_some, List.find?_cons, hnone]
      cases Record.contains record field.name with
      | true => exact ih hrest
      | false => simp [MessagePlan.missingField, hsynthetic]

/-- The decoder of a struct goes along with decoding by the plan of its message. -/
theorem MessagePlan.related_decodeFrom (hdistinct : set.DistinctIdentifiers)
    (hhas : ∀ field ∈ plan.fields, set.Has field.type) (hsynthetic : plan.synthetic = false)
    (hnested : ∀ field ∈ plan.fields, field.DecodesNested set nests decode nested) :
    Read.Related Eq (Fields.Stand set nests plan)
      ((plan.structItem set).decodeFrom set.program decode) (readMessageWith set nested plan) := by
  have hreaders : List.Forall₂ (FieldReader.Follows set nested (Fields.Stand set nests plan))
      ((plan.structItem set).readers set.program decode) plan.fields := by
    rw [plan.readers_structItem hplan hidentifiers, List.forall₂_map_left_iff, List.forall₂_same]
    exact fun field hfield => follows_field hdistinct hplan hidentifiers hfield
      (hhas field hfield) (hnested field hfield)
  refine (related_readCases hplan.toLaidOut hreaders (plan.stand_default hplan nests)).bind ?_
  intro fields record h
  unfold MessagePlan.complete
  rw [plan.firstMissing?_structItem hplan hidentifiers hsynthetic h]
  cases (plan.structItem set).required.find? fun field =>
      (fields.slot? field.1).all (·.isNone) with
  | none => exact Read.related_pure h
  | some field => exact Read.related_throw rfl

end Structs

/-! ## Entries -/

section Entries

variable {key : ScalarType} {type : ValueType}

variable (set nests key type) in
/-- The parts of an entry that are there stand for what its message has. -/
structure PartsStand (parts : Option (Datum μ) × Option (Datum μ)) (record : Record) : Prop where
  key : Option.Rel (Datum.Stands set nests (.scalar key)) parts.1 (Record.value? record keyField)
  value : Option.Rel (Datum.Stands set nests type) parts.2 (Record.value? record valueField)

theorem PartsStand.assignKey {parts : Option (Datum μ) × Option (Datum μ)} {record : Record}
    {held : Option (Datum μ)} {found : Option Value}
    (h : PartsStand set nests key type parts record)
    (hheld : Option.Rel (Datum.Stands set nests (.scalar key)) held found) :
    PartsStand set nests key type (held, parts.2)
      (Change.apply ⟨keyField, .assign found⟩ record) where
  key := by
    rw [Change.value?_apply, if_pos rfl]
    exact hheld
  value := by
    rw [Change.value?_apply, if_neg (by decide : valueField ≠ keyField)]
    exact h.value

theorem PartsStand.assignValue {parts : Option (Datum μ) × Option (Datum μ)} {record : Record}
    {held : Option (Datum μ)} {found : Option Value}
    (h : PartsStand set nests key type parts record)
    (hheld : Option.Rel (Datum.Stands set nests type) held found) :
    PartsStand set nests key type (parts.1, held)
      (Change.apply ⟨valueField, .assign found⟩ record) where
  key := by
    rw [Change.value?_apply, if_neg (by decide : keyField ≠ valueField)]
    exact h.key
  value := by
    rw [Change.value?_apply, if_pos rfl]
    exact hheld

/-- The case of a member of an entry follows the field of the member. -/
theorem follows_member {stands : σ → Record → Prop} (hdistinct : set.DistinctIdentifiers)
    (name : String) (number : UInt32) {member : ValueType}
    (hhas : set.Has member)
    (hnested : DecodesNested set nests decode nested member) (change : σ → Option (Datum μ) → σ)
    (hchange : ∀ decoded record held value, stands decoded record →
      Option.Rel (Datum.Stands set nests member) held value →
        stands (change decoded held) (Change.apply ⟨name, .assign value⟩ record)) :
    FieldReader.Follows set nested stands
      (((FieldPlan.ofEntry name number member).entryMember name).reader set.program decode change)
      (.ofEntry name number member) := by
  refine ⟨rfl, fun found decoded record h => ?_⟩
  refine Read.Related.expect (fun _ => rfl) ?_ found member.wireType.code
  exact (related_read hdistinct hhas hnested).map fun held value =>
    hchange decoded record held value h

variable (hentry : plan.IsEntry key type) (hplan : plan.LaidOut)
  (hrequired : plan.required = plan.fields.findIdxs (·.cardinality = .required))
include hentry hrequired

/-- An entry lacks its key first, then its value. -/
theorem MessagePlan.IsEntry.firstMissing? (record : Record) :
    plan.firstMissing? record plan.required =
      if Record.contains record keyField = false then some (.malformedMapEntry keyField)
      else if Record.contains record valueField = false then some (.malformedMapEntry valueField)
      else none := by
  have hne : valueField ≠ keyField := by decide
  rw [MessagePlan.firstMissing?_eq_find? hrequired, hentry.fields]
  cases hkey : Record.contains record keyField <;>
    cases hvalue : Record.contains record valueField <;>
      simp [FieldPlan.ofEntry, hkey, hvalue, MessagePlan.missingField, hentry.synthetic, hne]

include hplan

/-- The decoder of an entry goes along with decoding by the plan of its message. -/
theorem MessagePlan.related_decodeFrom_entry (hdistinct : set.DistinctIdentifiers)
    (hhas : set.Has type) (hnested : DecodesNested set nests decode nested type) :
    Read.Related Eq (PairStands set nests key type)
      ((plan.entryItem (.ofEntry keyField 1 (.scalar key))
        (.ofEntry valueField 2 type)).decodeFrom set.program decode)
      (readMessageWith set nested plan) := by
  have hkeyReader : FieldReader.Follows set nested (PartsStand set nests key type)
      (((FieldPlan.ofEntry keyField 1 (.scalar key)).entryMember keyField).reader set.program decode
        fun parts key => (key, parts.2)) (.ofEntry keyField 1 (.scalar key)) := by
    have hscalar : DecodesNested set nests decode nested (.scalar key) := fun _ _ htype => by
      cases htype
    have hhasKey : set.Has (.scalar key) := trivial
    exact follows_member hdistinct keyField 1 hhasKey hscalar _ fun _ _ _ _ => .assignKey
  have hvalueReader : FieldReader.Follows set nested (PartsStand set nests key type)
      (((FieldPlan.ofEntry valueField 2 type).entryMember valueField).reader set.program decode
        fun parts value => (parts.1, value)) (.ofEntry valueField 2 type) :=
    follows_member hdistinct valueField 2 hhas hnested _ fun _ _ _ _ => .assignValue
  have hreaders := List.Forall₂.cons hkeyReader (.cons hvalueReader .nil)
  rw [← hentry.fields] at hreaders
  have hstart : PartsStand set nests key type (none, none) [] := ⟨.none, .none⟩
  refine (related_readCases hplan hreaders hstart).bind ?_
  rintro ⟨keyPart, valuePart⟩ record ⟨hkey, hvalue⟩
  unfold MessagePlan.complete
  rw [hentry.firstMissing? hrequired]
  unfold Record.contains
  generalize hkeyFound : Record.value? record keyField = keyFound at hkey ⊢
  generalize hvalueFound : Record.value? record valueField = valueFound at hvalue ⊢
  cases hkey with
  | none => exact Read.related_throw rfl
  | some hkey =>
      cases hvalue with
      | none => exact Read.related_throw rfl
      | some hvalue =>
          cases hkey with
          | scalar _ x =>
              obtain ⟨mapKey, hmapKey⟩ := Value.toMapKey?_ofScalar hentry.mapKey x
              have hof := Value.eq_ofMapKey_of_toMapKey? hmapKey
              refine Read.related_pure ⟨mapKey, _, ⟨?_, hvalueFound⟩, ?_, rfl, ⟨x, ?_⟩, hvalue⟩
              · rw [hkeyFound, Option.bind_some, hmapKey]
              · rw [hof]
              · rw [hof]

end Entries

end WireCodec
