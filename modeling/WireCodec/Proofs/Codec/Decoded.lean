import WireCodec.Codec.Encode
import WireCodec.Proofs.Codec.Levels
import WireCodec.Proofs.Codec.Normal
import WireCodec.Proofs.Wire.Yields

/-! # Decoded messages

What decoding answers has the shape that its plan says: fields stand in order,
single values are of the type of their field, lists and maps are not empty,
and symbols of enums stand for a number. What nested messages are like is left
open here, so that it can be found out level by level.
-/

namespace WireCodec

section Shapes

variable (set : PlanSet) (Nested : MessagePlan → Record → Prop)

/-- A value that the reader of a type may answer. -/
inductive DecodedElement : ValueType → Value → Prop
  | scalar (type : ScalarType) (x : type.Carrier) :
      DecodedElement (.scalar type) (.ofScalar type x)
  | enum {name symbol : String} {table : EnumTable} {number : Int32}
      (htable : set.enum? name = some table) (hsymbol : table.symbol? number = some symbol) :
      DecodedElement (.enum name) (.enum symbol)
  | message {name : String} {plan : MessagePlan} {fields : Record}
      (hplan : set.message? name = some plan) (hfields : Nested plan fields) :
      DecodedElement (.message name) (.message fields)

/-- A map entry that comes from a decoded entry message. -/
def DecodedEntry (name : String) (entry : MapKey × Value) : Prop :=
  ∃ plan pair, set.message? name = some plan ∧ Nested plan pair ∧
    Record.value? pair keyField = some (.ofMapKey entry.1) ∧
    Record.value? pair valueField = some entry.2

/-- A change that an occurrence of a field may be read as. -/
inductive DecodedChange (field : FieldPlan) : FieldChange → Prop
  | assign {value : Option Value} (hmap : field.isMapEntry = false)
      (hsingle : field.cardinality ≠ .repeated)
      (hvalue : ∀ found, value = some found → DecodedElement set Nested field.type found) :
      DecodedChange field (.assign value)
  | append {item : Option Value} (hmap : field.isMapEntry = false)
      (hrepeated : field.cardinality = .repeated)
      (hitem : ∀ found, item = some found → DecodedElement set Nested field.type found) :
      DecodedChange field (.append item)
  | put {key : MapKey} {value : Value} (hmap : field.isMapEntry = true)
      (hentry : DecodedEntry set Nested field.type.name (key, value)) :
      DecodedChange field (.put key value)

/-- What a decoded message may have for a field. -/
inductive DecodedField (field : FieldPlan) : Option Value → Prop
  | absent : DecodedField field none
  | single {value : Value} (hmap : field.isMapEntry = false)
      (hsingle : field.cardinality ≠ .repeated)
      (hvalue : DecodedElement set Nested field.type value) : DecodedField field (some value)
  | list {items : List Value} (hmap : field.isMapEntry = false)
      (hrepeated : field.cardinality = .repeated) (hitems : items ≠ [])
      (helements : ∀ item ∈ items, DecodedElement set Nested field.type item) :
      DecodedField field (some (.list items))
  | map {entries : List (MapKey × Value)} (hmap : field.isMapEntry = true) (hentries : entries ≠ [])
      (hincreasing : Sorted.Increasing entries)
      (helements : ∀ entry ∈ entries, DecodedEntry set Nested field.type.name entry) :
      DecodedField field (some (.map entries))

/-- A message that the reader of a plan may answer. -/
structure DecodedMessage (plan : MessagePlan) (record : Record) : Prop where
  increasing : Sorted.Increasing record
  known : Record.unknownNames record plan = []
  fields : ∀ field ∈ plan.fields, DecodedField set Nested field (Record.value? record field.name)
  required : ∀ field ∈ plan.fields, field.cardinality = .required →
    Record.contains record field.name = true

end Shapes

theorem Value.eq_ofMapKey_of_toMapKey? {value : Value} {key : MapKey}
    (h : value.toMapKey? = some key) : value = .ofMapKey key := by
  cases value <;> cases h <;> rfl

variable {set : PlanSet} {Nested : MessagePlan → Record → Prop}

theorem DecodedMessage.field_of_mem {plan : MessagePlan} {record : Record}
    (h : DecodedMessage set Nested plan record) {pair : String × Value} (hpair : pair ∈ record) :
    ∃ field, plan.field? pair.1 = some field ∧
      DecodedField set Nested field (some pair.2) := by
  have hfound : Record.value? record pair.1 = some pair.2 := Sorted.find?_of_mem h.increasing hpair
  obtain ⟨field, hfield⟩ :=
    Option.isSome_iff_exists.mp (Record.field?_isSome_of_unknownNames h.known hfound)
  obtain ⟨hmem, hname⟩ := MessagePlan.mem_of_field? hfield
  refine ⟨field, hfield, ?_⟩
  rw [← hfound, ← hname]
  exact h.fields field hmem

/-! ## Changes to a field -/

section Changes

variable {field : FieldPlan} {found : Option Value}

theorem DecodedField.apply (h : DecodedField set Nested field found) {change : FieldChange}
    (hchange : DecodedChange set Nested field change) :
    DecodedField set Nested field (change.apply found) := by
  cases hchange with
  | @assign value hmap hsingle hvalue =>
      cases value with
      | none => exact .absent
      | some value => exact .single hmap hsingle (hvalue value rfl)
  | @append item hmap hrepeated hitem =>
      cases item with
      | none => exact h
      | some item =>
          have helement := hitem item rfl
          cases h with
          | absent => exact .list hmap hrepeated (by simp) (by simpa using helement)
          -- what a field holds and how it is changed both depend on its cardinality,
          -- so values of another kind do not come up
          | single _ hsingle _ => exact absurd hrepeated hsingle
          | map hmap' _ _ _ => exact absurd (hmap.symm.trans hmap') Bool.false_ne_true
          | list _ _ _ helements =>
              refine .list hmap hrepeated (by simp) ?_
              intro other hother
              rcases List.mem_append.mp hother with hold | hnew
              · exact helements other hold
              · exact List.mem_singleton.mp hnew ▸ helement
  | @put key value hmap hentry =>
      cases h with
      | absent =>
          exact .map hmap (by simp) (Sorted.increasing_cons.mpr ⟨by simp, Sorted.increasing_nil⟩)
            (by simpa using hentry)
      | single hmap' _ _ => exact absurd (hmap'.symm.trans hmap) Bool.false_ne_true
      | list hmap' _ _ _ => exact absurd (hmap'.symm.trans hmap) Bool.false_ne_true
      | @map entries _ _ hincreasing helements =>
          refine .map hmap ?_ (Sorted.increasing_insert hincreasing) ?_
          · intro hnil
            have hinserted : Sorted.find? key (Sorted.insert key value entries) = some value := by
              simp [Sorted.find?_insert]
            rw [hnil] at hinserted
            cases hinserted
          · intro entry hmem
            rcases Sorted.mem_insert hmem with rfl | hold
            · exact hentry
            · exact helements entry hold

/-- The changes to single fields that the occurrences of a message are read as. -/
def DecodedChanges (set : PlanSet) (Nested : MessagePlan → Record → Prop) (plan : MessagePlan)
    (changes : List Change) : Prop :=
  ∀ change ∈ changes, ∃ field ∈ plan.fields, change.name = field.name ∧
    DecodedChange set Nested field change.what

variable {plan : MessagePlan} {changes : List Change}

theorem DecodedChanges.decodedField (hnames : (plan.fields.map (·.name)).Nodup)
    (h : DecodedChanges set Nested plan changes) (hfield : field ∈ plan.fields) :
    DecodedField set Nested field (Record.value? (Change.applyAll changes []) field.name) := by
  have hfold : ∀ (changes : List Change) (found : Option Value),
      (∀ change ∈ changes, DecodedChange set Nested field change.what) →
      DecodedField set Nested field found → DecodedField set Nested field
        (changes.foldl (fun old change => change.what.apply old) found) := by
    intro changes
    induction changes with
    | nil => exact fun _ _ h => h
    | cons change rest ih =>
        intro found hall hfound
        obtain ⟨hfirst, hrest⟩ := List.forall_mem_cons.mp hall
        exact ih _ hrest (hfound.apply hfirst)
  rw [Change.value?_applyAll]
  refine hfold _ _ ?_ .absent
  intro change hmem
  obtain ⟨hchange, hname⟩ := List.mem_filter.mp hmem
  -- the change is one to a field of that name, and there is no other
  obtain ⟨other, hother, hotherName, hdecoded⟩ := h change hchange
  have heq : other.name = field.name := hotherName.symm.trans (of_decide_eq_true hname)
  obtain rfl := List.inj_on_of_nodup_map hnames hother hfield heq
  exact hdecoded

theorem DecodedChanges.known (h : DecodedChanges set Nested plan changes) :
    Record.unknownNames (Change.applyAll changes []) plan = [] := by
  have hincreasing := Change.increasing_applyAll Sorted.increasing_nil changes
  refine List.filter_eq_nil_iff.mpr ?_
  intro name hmem hunknown
  obtain ⟨⟨found, value⟩, hpair, hfst⟩ := List.mem_map.mp hmem
  obtain rfl : found = name := hfst
  have hfound : Record.value? (Change.applyAll changes []) found = some value :=
    Sorted.find?_of_mem hincreasing hpair
  rw [Change.value?_applyAll] at hfound
  -- a field that nothing is done to stays absent
  cases hchanges : changes.filter (·.name = found) with
  | nil =>
      rw [hchanges] at hfound
      cases hfound
  | cons change rest =>
      obtain ⟨hchange, hname⟩ := List.mem_filter.mp (hchanges ▸ List.mem_cons_self)
      obtain ⟨field, hfield, hfieldName, _⟩ := h change hchange
      have hsome : (plan.field? field.name).isSome :=
        List.find?_isSome.mpr ⟨field, hfield, beq_self_eq_true _⟩
      rw [← hfieldName, of_decide_eq_true hname] at hsome
      rw [Option.isNone_iff_eq_none] at hunknown
      rw [hunknown] at hsome
      cases hsome

end Changes

/-! ## Reading -/

section Reading

variable {nested : MessagePlan → Read Record}
  (hnested : ∀ name plan, set.message? name = some plan → Read.Yields (nested plan) (Nested plan))
include hnested

theorem yields_readValue (type : ValueType) :
    Read.Yields (readValue set nested type) fun answer =>
      ∀ value, answer = some value → DecodedElement set Nested type value := by
  cases type with
  | scalar type =>
      have hscalar : Read.Yields (Read.value type) (DecodedElement set Nested (.scalar type)) :=
        (Read.yields_trivial (Read.scalar type)).map fun x _ => .scalar type x
      refine hscalar.map ?_
      rintro value hvalue _ ⟨⟩
      exact hvalue
  | enum name =>
      refine (Read.yields_trivial (Read.scalar .int32)).bind ?_
      intro number _
      cases htable : set.enum? name with
      | none => exact Read.yields_throw _
      | some table =>
          refine Read.yields_pure ?_
          intro value hvalue
          obtain ⟨symbol, hsymbol, rfl⟩ := Option.map_eq_some_iff.mp hvalue
          exact .enum htable hsymbol
  | message name =>
      unfold readValue
      dsimp only
      cases hplan : set.message? name with
      | none => exact Read.yields_throw _
      | some plan =>
          refine (hnested name plan hplan).delimited.map ?_
          rintro fields hfields _ ⟨⟩
          exact .message hplan hfields

theorem yields_collectItem (field : FieldPlan)
    (hmap : field.isMapEntry = false) (hrepeated : field.cardinality = .repeated)
    {before : List Change} (hbefore : ∀ change ∈ before, change.name = field.name ∧
      DecodedChange set Nested field change.what) :
    Read.Yields (collectItem set nested field before) fun changes => ∀ change ∈ changes,
      change.name = field.name ∧ DecodedChange set Nested field change.what := by
  refine (yields_readValue hnested field.type).map ?_
  intro item hitem change hchange
  rcases List.mem_append.mp hchange with hold | hnew
  · exact hbefore change hold
  · rw [List.mem_singleton.mp hnew]
    exact ⟨rfl, .append hmap hrepeated hitem⟩

theorem yields_readPair (name : String) :
    Read.Yields (readPair set nested name) (DecodedEntry set Nested name) := by
  unfold readPair
  cases hplan : set.message? name with
  | none => exact Read.yields_throw _
  | some plan =>
      refine (hnested name plan hplan).delimited.bind ?_
      intro pair hpair
      cases hkey : (Record.value? pair keyField).bind Value.toMapKey? with
      | none => exact Read.yields_throw _
      | some key =>
          cases hvalue : Record.value? pair valueField with
          | none => exact Read.yields_throw _
          | some value =>
              obtain ⟨found, hfound, hmapKey⟩ := Option.bind_eq_some_iff.mp hkey
              obtain rfl := Value.eq_ofMapKey_of_toMapKey? hmapKey
              exact Read.yields_pure ⟨plan, pair, hplan, hpair, hfound, hvalue⟩

/-- What follows a key of a field is read as changes that are in its shape. -/
theorem yields_changes (field : FieldPlan) (found : Key) :
    Read.Yields (field.changes set nested found) fun changes => ∀ change ∈ changes,
      change.name = field.name ∧ DecodedChange set Nested field change.what := by
  unfold FieldPlan.changes FieldPlan.action
  cases hmap : field.isMapEntry with
  | true =>
      refine ((yields_readPair hnested field.type.name).map ?_).expect
      intro entry hentry change hchange
      rw [List.mem_singleton.mp hchange]
      exact ⟨rfl, .put hmap hentry⟩
  | false =>
      by_cases hrepeated : field.cardinality = .repeated
      · by_cases hpackable : field.type.packable = true
        · simp only [Bool.false_eq_true, hrepeated, hpackable, if_true, if_false]
          refine Read.Yields.packable ?_ (by simp) found _
          exact fun before hbefore => yields_collectItem hnested field hmap hrepeated hbefore
        · simp only [Bool.false_eq_true, hrepeated, hpackable, if_true, if_false]
          exact (yields_collectItem hnested field hmap hrepeated (by simp)).expect
      · simp only [Bool.false_eq_true, hrepeated, if_false]
        refine ((yields_readValue hnested field.type).map ?_).expect
        intro value hvalue change hchange
        rw [List.mem_singleton.mp hchange]
        exact ⟨rfl, .assign hmap hrepeated hvalue⟩

variable {plan : MessagePlan}

/-- What follows a key is read as changes to the field of that number, if there is one. -/
theorem yields_fieldChanges (hplan : plan.LaidOut) (found : Key) :
    Read.Yields (fieldChanges set nested plan found) fun changes => ∀ change ∈ changes,
      ∃ field ∈ plan.fields, field.number = found.number ∧ change.name = field.name ∧
        DecodedChange set Nested field change.what := by
  cases harm : plan.arm? found.number with
  | none =>
      unfold fieldChanges
      rw [harm]
      refine (Read.yields_trivial (Read.skip found.wireType)).map ?_
      simp
  | some arm =>
      obtain ⟨index, field, hindex, rfl, hnumber⟩ := hplan.arm?_eq_some harm
      rw [fieldChanges_of_arm? hindex harm]
      intro input before changes after hrun change hchange
      obtain ⟨hname, hdecoded⟩ :=
        yields_changes hnested field _ input before changes after hrun change hchange
      exact ⟨field, List.mem_of_getElem? hindex, hnumber, hname, hdecoded⟩

theorem yields_readOccurrence (hplan : plan.LaidOut) {record : Record}
    (hrecord : ∃ changes, record = Change.applyAll changes [] ∧
      DecodedChanges set Nested plan changes) :
    Read.Yields (readOccurrence set nested plan record) fun answer => ∀ next, answer = some next →
      ∃ changes, next = Change.applyAll changes [] ∧ DecodedChanges set Nested plan changes := by
  obtain ⟨before, rfl, hbefore⟩ := hrecord
  rw [readOccurrence_eq]
  have hoccurrence : Read.Yields (occurrenceChanges set nested plan) fun answer =>
      ∀ changes, answer = some changes → DecodedChanges set Nested plan changes := by
    refine (Read.yields_trivial Read.key).bind ?_
    intro found _
    cases found with
    | none => exact Read.yields_pure (by simp)
    | some found =>
        refine (yields_fieldChanges hnested hplan found).map ?_
        rintro changes hchanges _ ⟨⟩ change hchange
        obtain ⟨field, hfield, _, hname, hdecoded⟩ := hchanges change hchange
        exact ⟨field, hfield, hname, hdecoded⟩
  refine hoccurrence.map ?_
  intro answer hanswer next hnext
  obtain ⟨changes, rfl, rfl⟩ := Option.map_eq_some_iff.mp hnext
  refine ⟨before ++ changes, (Change.applyAll_append before changes []).symm, ?_⟩
  intro change hchange
  rcases List.mem_append.mp hchange with hold | hnew
  · exact hbefore change hold
  · exact hanswer changes rfl change hnew

/-- Reading a message answers messages in the shape of the plan only. -/
theorem yields_readMessageWith (hplan : plan.LaidOut)
    (hnames : (plan.fields.map (·.name)).Nodup) :
    Read.Yields (readMessageWith set nested plan) (DecodedMessage set Nested plan) := by
  have hstart : ∃ changes, ([] : Record) = Change.applyAll changes [] ∧
      DecodedChanges set Nested plan changes := ⟨[], rfl, by simp [DecodedChanges]⟩
  refine Read.Yields.bind (Read.Yields.iterate (fun record hrecord =>
    yields_readOccurrence hnested hplan hrecord) hstart) ?_
  rintro _ ⟨changes, rfl, hchanges⟩
  unfold MessagePlan.complete
  cases hmissing : plan.firstMissing? (Change.applyAll changes []) plan.required with
  | some e => exact Read.yields_throw e
  | none =>
      have hcompleted : plan.completed (Change.applyAll changes []) =
          .ok (Change.applyAll changes []) := by
        unfold MessagePlan.completed
        rw [hmissing]
      obtain ⟨-, hrequired⟩ := (MessagePlan.completed_eq_ok hplan).mp hcompleted
      exact Read.yields_pure ⟨Change.increasing_applyAll Sorted.increasing_nil changes,
        hchanges.known, fun field hfield => hchanges.decodedField hnames hfield, hrequired⟩

end Reading

end WireCodec
