import WireCodec.Proofs.Codec.ReadBack
import WireCodec.Proofs.Codec.Sequences

/-! # Undeclared enum numbers

A number that the table of an enum does not declare stands for no value. It
leaves a single field absent and adds nothing to a list. It leaves the value of
a map entry absent too, and an entry is refused without its value.
-/

namespace WireCodec

/-- The number that the groups of a varint stand for where an enum is read. -/
def Varint.enumNumber (groups : List UInt8) : Int32 :=
  (UInt64.ofNat (value groups)).toUInt32.toInt32

/-- The groups of a varint whose number a table does not declare. -/
structure EnumTable.Undeclared (table : EnumTable) (groups : List UInt8) : Prop where
  terminated : Varint.Terminated groups
  short : groups.length ≤ 10
  number : ∀ value ∈ table.values, value.2 ≠ Varint.enumNumber groups

/-- What stands behind the key of an enum field: an undeclared number, or any
number of them in a packed run if the field is a list. -/
inductive EnumTable.UndeclaredValue (table : EnumTable) (field : FieldPlan) :
    WireType → List UInt8 → Prop
  | number {groups : List UInt8} (hgroups : table.Undeclared groups) :
      UndeclaredValue table field .varint groups
  | run {count : List UInt8} {elements : List (List UInt8)}
      (hrepeated : field.cardinality = .repeated) (hcount : Varint.Terminated count)
      (hshort : count.length ≤ 10)
      (hlength : (UInt32.ofNat (Varint.value count)).toNat = elements.flatten.length)
      (helements : ∀ groups ∈ elements, table.Undeclared groups) :
      UndeclaredValue table field .lengthDelimited (count ++ elements.flatten)

/-- An occurrence of the key of a map entry that stands one level deep. -/
def ScalarType.EntryKey (type : ScalarType) (bytes : List UInt8) : Prop :=
  ∃ groups form x, bytes = groups ++ form ∧ Key.SpelledBy ⟨1, type.wireType.code⟩ groups ∧
    Read.Parses (Read.scalar type) 1 form (.ok x)

/-- An occurrence of the value of a map entry with a number that a table does
not declare. -/
def EnumTable.UndeclaredEntryValue (table : EnumTable) (bytes : List UInt8) : Prop :=
  ∃ groups form, bytes = groups ++ form ∧ Key.SpelledBy ⟨2, WireType.varint.code⟩ groups ∧
    table.Undeclared form

/-- The payload of a map entry with a key and an undeclared number for its
value, in either order. -/
inductive EnumTable.UndeclaredEntry (table : EnumTable) (key : ScalarType) : List UInt8 → Prop
  | keyFirst {first second : List UInt8} (hkey : key.EntryKey first)
      (hvalue : table.UndeclaredEntryValue second) : UndeclaredEntry table key (first ++ second)
  | valueFirst {first second : List UInt8} (hvalue : table.UndeclaredEntryValue first)
      (hkey : key.EntryKey second) : UndeclaredEntry table key (first ++ second)

variable {set : PlanSet} {nested : MessagePlan → Read Record} {plan : MessagePlan}
  {field : FieldPlan} {name : String} {table : EnumTable} {depth : Nat}

theorem EnumTable.Undeclared.symbol? {groups : List UInt8} (h : table.Undeclared groups) :
    table.symbol? (Varint.enumNumber groups) = none := by
  unfold EnumTable.symbol?
  rw [Option.map_eq_none_iff, List.find?_eq_none]
  intro value hvalue heq
  exact h.number value hvalue (eq_of_beq heq)

/-- An undeclared number is read as no value. -/
theorem EnumTable.Undeclared.parses {groups : List UInt8} (h : table.Undeclared groups)
    (htable : set.enum? name = some table) :
    Read.Parses (readValue set nested (.enum name)) depth groups (.ok none) := by
  have hnumber : Read.Parses (Read.scalar .int32) depth groups
      (.ok (Varint.enumNumber groups)) :=
    (Read.parses_varint64 depth h.terminated h.short).bind_nil (Read.parses_pure _)
  refine hnumber.bind_nil ?_
  simp only [htable, h.symbol?]
  exact Read.parses_pure _

section Changes

theorem WireValue.runBytes_inline (elements : List (List UInt8)) :
    runBytes (elements.map inline) = elements.flatten := by
  have hbytes : bytes ∘ inline = id := funext fun form => by rw [Function.comp_apply, bytes, id]
  rw [runBytes_eq_flatten, List.map_map, hbytes, List.map_id]

variable (nested depth) in
/-- A run of undeclared numbers is read as so many missing items. -/
theorem finishes_undeclared (htype : field.type = .enum name) (htable : set.enum? name = some table)
    {elements : List (List UInt8)} (helements : ∀ groups ∈ elements, table.Undeclared groups) :
    Read.Finishes (Read.run (collectItem set nested field) (consumes_collectItem set nested field)
      []) depth elements.flatten
      (.ok (elements.map fun _ => ⟨field.name, .append none⟩)) := by
  have hitems : List.Forall₂ (fun item tree => WireValue.bytes tree ≠ [] ∧
      Read.Parses (readValue set nested field.type) depth tree.bytes (.ok item))
      (elements.map fun _ => none) (elements.map WireValue.inline) := by
    rw [List.forall₂_map_left_iff, List.forall₂_map_right_iff, List.forall₂_same]
    intro groups hgroups
    have hundeclared := helements groups hgroups
    refine ⟨?_, htype ▸ hundeclared.parses htable⟩
    rw [WireValue.bytes]
    cases hundeclared.terminated <;> simp
  have h := finishes_run hitems []
  rwa [WireValue.runBytes_inline, List.nil_append, List.map_map] at h

/-- What a message keeps when no value is read for a field. -/
def FieldPlan.withoutValue (field : FieldPlan) (record : Record) : Record :=
  if field.cardinality = .repeated then record else Record.remove record field.name

theorem FieldPlan.contains_withoutValue (field : FieldPlan) {record : Record} {other : String}
    (hother : other ≠ field.name) (h : Record.contains record other = true) :
    Record.contains (field.withoutValue record) other = true := by
  unfold withoutValue
  split
  · exact h
  · rwa [Record.contains, Change.value?_remove, if_neg hother]

theorem Change.applyAll_append_none (elements : List (List UInt8)) (record : Record) :
    applyAll (elements.map fun _ => ⟨name, .append none⟩) record = record := by
  induction elements with
  | nil => rfl
  | cons _ rest ih => exact ih

variable (nested) in
/-- Undeclared numbers of an enum field are read as changes that make no value. -/
theorem EnumTable.UndeclaredValue.parses (hmap : field.isMapEntry = false)
    (htype : field.type = .enum name) (htable : set.enum? name = some table)
    (hdepth : depth < nestingLimit) {wireType : WireType} {bytes : List UInt8}
    (h : table.UndeclaredValue field wireType bytes) :
    ∃ changes, Read.Parses (field.changes set nested ⟨field.number, wireType.code⟩) depth bytes
        (.ok changes) ∧ ∀ record, Change.applyAll changes record = field.withoutValue record := by
  have hpackable : field.type.packable = true := by rw [htype]; rfl
  have hnatural : WireType.varint = field.type.wireType := by rw [htype]; rfl
  cases h with
  | number hgroups =>
      have hread : Read.Parses (readValue set nested field.type) depth bytes (.ok none) :=
        htype ▸ hgroups.parses htable
      rw [hnatural]
      by_cases hrepeated : field.cardinality = .repeated
      · refine ⟨_, parses_element hmap hrepeated hread, fun record => ?_⟩
        rw [FieldPlan.withoutValue, if_pos hrepeated]
        rfl
      · have haction : field.action = .assign := by simp [FieldPlan.action, hmap, hrepeated]
        refine ⟨_, parses_single haction hread, fun record => ?_⟩
        rw [FieldPlan.withoutValue, if_neg hrepeated]
        rfl
  | run hrepeated hcount hshort hlength helements =>
      have hrun := (finishes_undeclared nested (depth + 1) htype htable
        helements).delimited_of_count hdepth (Read.parses_varint32 depth hcount hshort) hlength
      rw [← FieldPlan.changes_run hmap hrepeated hpackable] at hrun
      refine ⟨_, hrun, fun record => ?_⟩
      rw [FieldPlan.withoutValue, if_pos hrepeated, Change.applyAll_append_none]

end Changes

/-! ## Entries -/

section Entries

variable {key : ScalarType}

/-- An entry with a key and without a value is refused for the value. -/
theorem MessagePlan.IsEntry.completed_of_no_value {type : ValueType}
    (hentry : plan.IsEntry key type) (hplan : plan.LaidOut) {record : Record}
    (hkey : Record.contains record keyField = true)
    (hvalue : Record.contains record valueField = false) :
    plan.completed record = .error (.malformedMapEntry valueField) := by
  have hvalueField : .ofEntry valueField 2 type ∈ plan.fields := by simp [hentry.fields]
  cases hmissing : plan.firstMissing? record plan.required with
  | none =>
      have hcompleted : plan.completed record = .ok record := by
        rw [MessagePlan.completed, hmissing]
      obtain ⟨-, hrequired⟩ := (MessagePlan.completed_eq_ok hplan).mp hcompleted
      have hcontains : Record.contains record valueField = true := hrequired _ hvalueField rfl
      rw [hvalue] at hcontains
      cases hcontains
  | some e =>
      obtain ⟨field, hfield, hcontains, rfl⟩ := hplan.exists_of_firstMissing? hmissing
      rw [MessagePlan.completed, hmissing]
      rw [hentry.fields, List.mem_pair] at hfield
      rcases hfield with rfl | rfl
      · exact absurd (hcontains.symm.trans hkey) Bool.false_ne_true
      · simp [MessagePlan.missingField, hentry.synthetic, FieldPlan.ofEntry, keyField, valueField]

variable (hplan : plan.Coherent set) (hentry : plan.IsEntry key (.enum name))
include hplan hentry

variable (nested) in
theorem ScalarType.EntryKey.parses {part : List UInt8} (h : key.EntryKey part) :
    ∃ value, Read.Parses (occurrenceChanges set nested plan) 1 part
      (.ok (some [⟨keyField, .assign (some value)⟩])) := by
  have hfield : .ofEntry keyField 1 (.scalar key) ∈ plan.fields := by simp [hentry.fields]
  obtain ⟨groups, form, x, rfl, hspelled, hread⟩ := h
  have hvalue : Read.Parses (readValue set nested (.scalar key)) 1 form
      (.ok (some (.ofScalar key x))) := (hread.map _).map some
  have hone : (1 : UInt32) ≠ 0 := by decide
  exact ⟨_, parses_occurrence_of_key (hspelled.parses hone 1)
    (fieldChanges_of_mem hplan hfield _ ▸ parses_single rfl hvalue)⟩

variable (nested) in
theorem EnumTable.UndeclaredEntryValue.parses (htable : set.enum? name = some table)
    {part : List UInt8} (h : table.UndeclaredEntryValue part) :
    Read.Parses (occurrenceChanges set nested plan) 1 part
      (.ok (some [⟨valueField, .assign none⟩])) := by
  have hfield : .ofEntry valueField 2 (.enum name) ∈ plan.fields := by simp [hentry.fields]
  obtain ⟨groups, form, rfl, hspelled, hform⟩ := h
  have hvalue : Read.Parses (readValue set nested (.enum name)) 1 form (.ok none) :=
    hform.parses htable
  have htwo : (2 : UInt32) ≠ 0 := by decide
  exact parses_occurrence_of_key (hspelled.parses htwo 1)
    (fieldChanges_of_mem hplan hfield _ ▸ parses_single rfl hvalue)

/-- An entry with an undeclared number for its value is read as one without a value. -/
theorem EnumTable.UndeclaredEntry.finishes (htable : set.enum? name = some table)
    {payload : List UInt8} (h : table.UndeclaredEntry key payload) :
    Read.Finishes (readMessageWith set nested plan) 1 payload
      (.error (.malformedMapEntry valueField)) := by
  have hrefused : ∀ {changes : List Change},
      ReadsAs set nested plan 1 payload (.ok changes) →
      Record.contains (Change.applyAll changes []) keyField = true →
      Record.contains (Change.applyAll changes []) valueField = false →
      Read.Finishes (readMessageWith set nested plan) 1 payload
        (.error (.malformedMapEntry valueField)) := by
    intro changes hreads hkey hvalue
    have hfinishes := hreads.finishes
    rwa [Except.ok_bind, hentry.completed_of_no_value hplan.toLaidOut hkey hvalue] at hfinishes
  have hkeyContained : ∀ value, Record.contains [(keyField, value)] keyField = true :=
    fun _ => rfl
  have hvalueMissing : ∀ value : Value, Record.contains [(keyField, value)] valueField = false :=
    fun _ => rfl
  cases h with
  | keyFirst hkey hvalue =>
      obtain ⟨value, hfirst⟩ := hkey.parses nested hplan hentry
      have hsecond := hvalue.parses nested hplan hentry htable
      have hreads := ReadsAs.next hfirst (.next hsecond .nil)
      rw [List.append_nil] at hreads
      exact hrefused hreads (hkeyContained value) (hvalueMissing value)
  | valueFirst hvalue hkey =>
      obtain ⟨value, hsecond⟩ := hkey.parses nested hplan hentry
      have hfirst := hvalue.parses nested hplan hentry htable
      have hreads := ReadsAs.next hfirst (.next hsecond .nil)
      rw [List.append_nil] at hreads
      exact hrefused hreads (hkeyContained value) (hvalueMissing value)

end Entries

/-! ## Behind other occurrences -/

namespace PlanSet

variable {value : List UInt8} {before : List (List UInt8)} {groups : List UInt8}

variable (nested) in
theorem readsAs_undeclared (hplan : plan.Coherent set) (hfield : field ∈ plan.fields)
    (hmap : field.isMapEntry = false) (htype : field.type = .enum name)
    (htable : set.enum? name = some table) {wireType : WireType}
    (hspelled : Key.SpelledBy ⟨field.number, wireType.code⟩ groups)
    (hvalue : table.UndeclaredValue field wireType value) (hdepth : depth < nestingLimit) :
    ∃ changes, ReadsAs set nested plan depth (groups ++ value) (.ok changes) ∧
      ∀ record, Change.applyAll changes record = field.withoutValue record := by
  obtain ⟨changes, hparses, happly⟩ :=
    hvalue.parses nested hmap htype htable hdepth
  refine ⟨changes, .of_occurrence ?_, happly⟩
  exact parses_occurrence_of_key
    (hspelled.parses (hplan.fields field hfield).number_ne_zero depth)
    (fieldChanges_of_mem hplan hfield _ ▸ hparses)

theorem readsAs_undeclaredEntry (hset : set.Coherent) (hplan : plan.Coherent set)
    (hfield : field ∈ plan.fields) (hmap : field.isMapEntry = true) {entry : String}
    (htype : field.type = .message entry) {entryPlan : MessagePlan}
    (hentryPlan : set.message? entry = some entryPlan) {key : ScalarType}
    (hentry : entryPlan.IsEntry key (.enum name)) (htable : set.enum? name = some table)
    (hspelled : Key.SpelledBy ⟨field.number, WireType.lengthDelimited.code⟩ groups)
    {count : List UInt8} (hcount : Varint.Terminated count) (hshort : count.length ≤ 10)
    (hlength : (UInt32.ofNat (Varint.value count)).toNat = value.length)
    (hvalue : table.UndeclaredEntry key value) :
    ReadsAs set (nestedReader set nestingLimit) plan 0 (groups ++ (count ++ value))
      (.error (.malformedMapEntry valueField)) := by
  have hbody : Read.Finishes (nestedReader set nestingLimit entryPlan) 1 value
      (.error (.malformedMapEntry valueField)) := by
    change Read.Finishes (readMessageWithin set 99 entryPlan) 1 value _
    rw [readMessageWithin_eq]
    exact hvalue.finishes (hset.of_message? hentryPlan) hentry htable
  have hread : Read.Parses (readPair set (nestedReader set nestingLimit) entry) 0
      (count ++ value) (.error (.malformedMapEntry valueField)) := by
    unfold readPair
    simp only [hentryPlan]
    exact (hbody.delimited_of_count (by decide)
      (Read.parses_varint32 0 hcount hshort) hlength).bind_error
  have hchanges : Read.Parses (field.changes set (nestedReader set nestingLimit)
      ⟨field.number, WireType.lengthDelimited.code⟩) 0 (count ++ value)
      (.error (.malformedMapEntry valueField)) := by
    have haction : field.action = .mergeEntry entry := by
      simp [FieldPlan.action, hmap, htype, ValueType.name]
    have hnatural : field.type.wireType = .lengthDelimited := by rw [htype]; rfl
    unfold FieldPlan.changes
    rw [haction, hnatural]
    exact (parses_expect _).bind (hread.map _)
  refine .of_occurrence ?_
  exact parses_occurrence_of_key (hspelled.parses (hplan.fields field hfield).number_ne_zero 0)
    (fieldChanges_of_mem hplan hfield _ ▸ hchanges)

/-- Behind the occurrences of a message that is decoded, one of an enum field
that is not required does not make decoding fail if the table declares none of
its numbers: the message loses the value of the field if it is a single one, and
stays as it is otherwise. An entry of a map needs a value, so an entry with an
undeclared number for its value does make decoding fail. -/
theorem decode_undeclared_enum {source : String} {schema : Schema}
    (hcompile : compile source = .ok schema) (hdistinct : schema.DistinctFields)
    (hbuild : schema.build = .ok set) (hplan : plan ∈ set.messages)
    (hbefore : ∀ bytes ∈ before, set.IsOccurrence plan bytes) {record : Record}
    (hdecode : set.decode plan before.flatten.toArray = .ok record) (hfield : field ∈ plan.fields)
    (hrequired : field.cardinality ≠ .required) (htable : set.enum? name = some table) :
    (∀ wireType groups value, field.isMapEntry = false → field.type = .enum name →
      Key.SpelledBy ⟨field.number, wireType.code⟩ groups →
      table.UndeclaredValue field wireType value →
      set.decode plan (before.flatten ++ (groups ++ value)).toArray =
        .ok (if field.cardinality = .repeated then record
          else Record.remove record field.name)) ∧
    ∀ entry entryPlan key groups count payload, field.isMapEntry = true →
      field.type = .message entry → set.message? entry = some entryPlan →
      entryPlan.IsEntry key (.enum name) →
      Key.SpelledBy ⟨field.number, WireType.lengthDelimited.code⟩ groups →
      Varint.Terminated count → count.length ≤ 10 →
      (UInt32.ofNat (Varint.value count)).toNat = payload.length →
      table.UndeclaredEntry key payload →
      set.decode plan (before.flatten ++ (groups ++ (count ++ payload))).toArray =
        .error (.malformedMapEntry valueField) := by
  have hset := coherent_of_build hcompile hdistinct hbuild
  have hcoherent := hset plan hplan
  have hreads := readsAs_flatten hbefore
  constructor
  · intro wireType groups value hmap htype hspelled hvalue
    obtain ⟨changes, hundeclared, happly⟩ := readsAs_undeclared
      (nestedReader set nestingLimit) hcoherent hfield hmap htype htable hspelled hvalue
      (by decide : 0 < nestingLimit)
    rw [decode_of_readsAs hreads, Except.ok_bind] at hdecode
    obtain ⟨hrecord, hcomplete⟩ := (MessagePlan.completed_eq_ok hcoherent.toLaidOut).mp hdecode
    rw [decode_of_readsAs (hreads.append hundeclared)]
    simp only [Except.ok_bind, Except.map_ok, Change.applyAll_append, happly, ← hrecord]
    refine (MessagePlan.completed_eq_ok hcoherent.toLaidOut).mpr ⟨rfl, ?_⟩
    intro other hother hotherRequired
    have hne : other.name ≠ field.name := by
      intro heq
      obtain rfl := List.inj_on_of_nodup_map hcoherent.names hother hfield heq
      exact hrequired hotherRequired
    rw [hrecord]
    exact field.contains_withoutValue hne (hcomplete other hother hotherRequired)
  · intro entry entryPlan key groups count payload hmap htype hentryPlan hentry hspelled hcount
      hshort hlength hpayload
    exact decode_of_readsAs (hreads.append (readsAs_undeclaredEntry hset hcoherent hfield hmap
      htype hentryPlan hentry htable hspelled hcount hshort hlength hpayload))

end PlanSet

/-! ## Palettes

A schema with an enum in a single field, in a list and in a map.
-/

def paletteSource : String :=
  "enum Color \x7b RED = 1; \x7d message Palette \x7b optional Color main = 1; " ++
    "repeated Color shades = 2; map<bool, Color> lamps = 3; \x7d"

def colorsTable : EnumTable := ⟨"Color", [("RED", 1)]⟩

def palettePlan : MessagePlan :=
  .ofFields "Palette" false
    [(⟨"main", 1, .detached "Color", .optional, none, false⟩, .enum "Color"),
      (⟨"shades", 2, .detached "Color", .repeated, none, false⟩, .enum "Color"),
      (⟨"lamps", 3, .detached "Palette.LampsEntry", .repeated, none, true⟩,
        .message "Palette.LampsEntry")]

def lampPlan : MessagePlan :=
  .ofFields "Palette.LampsEntry" true
    [(.ofEntry keyField 1 (.detached "bool"), .scalar .bool),
      (.ofEntry valueField 2 (.detached "Color"), .enum "Color")]

def palettePlans : PlanSet := ⟨none, [colorsTable], [palettePlan, lampPlan]⟩

theorem compile_paletteSource : ∃ schema, compile paletteSource = .ok schema ∧
    schema.DistinctFields ∧ schema.build = .ok palettePlans :=
  Except.exists_of_any (by decide +kernel)

theorem palettePlans_coherent : palettePlans.Coherent := by
  obtain ⟨schema, hcompile, hdistinct, hbuild⟩ := compile_paletteSource
  exact coherent_of_build hcompile hdistinct hbuild

theorem lampPlan_isEntry : lampPlan.IsEntry .bool (.enum "Color") := ⟨rfl, rfl, rfl⟩

theorem undeclared_nine : colorsTable.Undeclared [9] :=
  ⟨.last rfl, by decide, by decide⟩

/-- An entry with the key true and the number nine. -/
theorem undeclaredEntry_nine : colorsTable.UndeclaredEntry .bool [8, 1, 16, 9] := by
  have hkey : ScalarType.EntryKey .bool [8, 1] :=
    ⟨[8], [1], true, rfl, ⟨.last rfl, by decide, rfl⟩,
      (Read.parses_varint64 1 (.last rfl) (by decide)).bind_nil (Read.parses_pure _)⟩
  have hvalue : colorsTable.UndeclaredEntryValue [16, 9] :=
    ⟨[16], [9], rfl, ⟨.last rfl, by decide, rfl⟩, undeclared_nine⟩
  exact .keyFirst hkey hvalue

/-- An entry of a map makes decoding fail for an undeclared enum number. -/
theorem undeclared_entry_refused :
    (∃ schema, compile paletteSource = .ok schema ∧ schema.DistinctFields ∧
      schema.build = .ok palettePlans) ∧
    palettePlans.decode palettePlan #[] = .ok [] ∧
    colorsTable.symbol? 9 = none ∧
    palettePlans.decode palettePlan #[26, 4, 8, 1, 16, 9] =
      .error (.malformedMapEntry "value") := by
  have hplan : palettePlan ∈ palettePlans.messages := List.mem_cons_self
  have hcoherent := palettePlans_coherent palettePlan hplan
  have hfield : ⟨"lamps", 3, .repeated, .message "Palette.LampsEntry", false, true⟩ ∈
      palettePlan.fields := List.mem_of_getElem? (i := 2) rfl
  have hspelled : Key.SpelledBy ⟨3, WireType.lengthDelimited.code⟩ [26] :=
    ⟨.last rfl, by decide, rfl⟩
  have hcount : Varint.Terminated [4] := .last rfl
  refine ⟨compile_paletteSource, ?_, by decide, ?_⟩
  · exact PlanSet.decode_of_readsAs .nil
  · exact PlanSet.decode_of_readsAs (PlanSet.readsAs_undeclaredEntry palettePlans_coherent hcoherent
      hfield rfl rfl rfl lampPlan_isEntry rfl hspelled hcount (by decide) rfl undeclaredEntry_nine)

/-- Behind a main color, the number nine as a main color, in a run of shades and
in a lamp. -/
theorem decode_undeclared_enum_palette :
    palettePlans.decode palettePlan #[8, 1, 8, 9] = .ok [] ∧
    palettePlans.decode palettePlan #[8, 1, 18, 2, 9, 9] = .ok [("main", .enum "RED")] ∧
    palettePlans.decode palettePlan #[8, 1, 26, 4, 8, 1, 16, 9] =
      .error (.malformedMapEntry "value") := by
  obtain ⟨schema, hcompile, hdistinct, hbuild⟩ := compile_paletteSource
  have hplan : palettePlan ∈ palettePlans.messages := List.mem_cons_self
  have hcoherent := palettePlans_coherent palettePlan hplan
  let main : FieldPlan := ⟨"main", 1, .optional, .enum "Color", false, false⟩
  let shades : FieldPlan := ⟨"shades", 2, .repeated, .enum "Color", true, false⟩
  let lamps : FieldPlan := ⟨"lamps", 3, .repeated, .message "Palette.LampsEntry", false, true⟩
  have hfields : palettePlan.fields = [main, shades, lamps] := rfl
  have hmain : main ∈ palettePlan.fields := by simp [hfields]
  have hone : Varint.Terminated [1] := .last rfl
  have hnumber : Read.Parses (Read.scalar .int32) 0 [1] (.ok 1) :=
    (Read.parses_varint64 0 hone (by decide)).bind_nil (Read.parses_pure _)
  have hred : Read.Parses (readValue palettePlans (nestedReader palettePlans nestingLimit)
      main.type) 0 [1] (.ok (some (.enum "RED"))) := hnumber.bind_nil (Read.parses_pure _)
  have hspelled : ∀ number wireType group, Varint.continues group = false →
      Key.ofWord (UInt32.ofNat (Varint.value [group])) = ⟨number, wireType⟩ →
      Key.SpelledBy ⟨number, wireType⟩ [group] :=
    fun _ _ _ hlast hword => ⟨.last hlast, by simp, hword⟩
  have hparses := parses_occurrence_of_key ((hspelled 1 0 8 rfl rfl).parses (by decide) 0)
    (fieldChanges_of_mem hcoherent hmain _ ▸ parses_single rfl hred)
  have hbefore : ∀ bytes ∈ [[(8 : UInt8), 1]], palettePlans.IsOccurrence palettePlan bytes := by
    simpa using PlanSet.isOccurrence_of_parses hparses
  have hdecode : palettePlans.decode palettePlan [[(8 : UInt8), 1]].flatten.toArray =
      .ok [("main", .enum "RED")] :=
    PlanSet.decode_of_readsAs (.next hparses .nil)
  have hshades : shades ∈ palettePlan.fields := by simp [hfields]
  have hlamps : lamps ∈ palettePlan.fields := by simp [hfields]
  have htable : palettePlans.enum? "Color" = some colorsTable := rfl
  obtain ⟨hsingle, -⟩ := PlanSet.decode_undeclared_enum hcompile hdistinct hbuild hplan hbefore
    hdecode hmain (by decide) htable
  obtain ⟨hlist, -⟩ := PlanSet.decode_undeclared_enum hcompile hdistinct hbuild hplan hbefore
    hdecode hshades (by decide) htable
  obtain ⟨-, hentry⟩ := PlanSet.decode_undeclared_enum hcompile hdistinct hbuild hplan hbefore
    hdecode hlamps (by decide) htable
  have hcount : ∀ group, Varint.continues group = false → Varint.Terminated [group] :=
    fun _ hlast => .last hlast
  have hrun : colorsTable.UndeclaredValue shades .lengthDelimited
      ([2] ++ [[9], [9]].flatten) :=
    .run rfl (hcount 2 rfl) (by decide) rfl (by simp [undeclared_nine])
  refine ⟨?_, ?_, ?_⟩
  · exact hsingle .varint [8] [9] rfl rfl (hspelled 1 0 8 rfl rfl) (.number undeclared_nine)
  · exact hlist .lengthDelimited [18] _ rfl rfl (hspelled 2 2 18 rfl rfl) hrun
  · exact hentry _ lampPlan .bool [26] [4] _ rfl rfl rfl lampPlan_isEntry (hspelled 3 2 26 rfl rfl)
      (hcount 4 rfl) (by decide) rfl undeclaredEntry_nine

end WireCodec
