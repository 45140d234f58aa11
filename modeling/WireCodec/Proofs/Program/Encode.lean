import Mathlib.Data.List.Perm.Basic
import WireCodec.Proofs.Codec.FieldTrees
import WireCodec.Proofs.Codec.Occurrences
import WireCodec.Proofs.Codec.Reencode
import WireCodec.Proofs.Program.Text
import WireCodec.Proofs.Program.Values

/-! # Programs encode as plans do

The encoder of a struct appends what there is on the wire for the message that
the struct stands for, statement by statement, if the encoders of the messages
within it do. The order in which a program goes through the entries of a map is
its own, so a map may be listed in another order than that of its keys; then
the occurrences of its field come in that order.
-/

namespace WireCodec

open Program

namespace Buffer

theorem appends_id : Appends (fun buffer => buffer) [] := fun _ hvalid =>
  ⟨hvalid, (List.append_nil _).symm⟩

theorem Appends.congr {write write' : Buffer → Buffer} {form : List UInt8}
    (h : Appends write form) (heq : ∀ buffer, write' buffer = write buffer) :
    Appends write' form := fun buffer hvalid => by
  rw [heq]
  exact h buffer hvalid

theorem Appends.bytes_eq {write : Buffer → Buffer} {form : List UInt8} (h : Appends write form) :
    (write empty).bytes = form.toArray := by
  obtain ⟨-, hlog⟩ := h _ (valid_withCapacity initialCapacity)
  rw [log_withCapacity, List.nil_append] at hlog
  exact Array.toList_inj.mp hlog

theorem Appends.payloadField {payload : Buffer → Buffer} {form : List UInt8}
    (h : Appends payload form) (number : UInt32) :
    Appends (·.writePayloadField number payload)
      (Key.form ⟨number, WireType.lengthDelimited.code⟩ ++ delimitedForm form) := by
  have hpayload : (payload empty).bytes.toList = form := by rw [h.bytes_eq]
  have hfield := appends_writeDelimitedField number (payload empty).bytes
  rwa [hpayload] at hfield

/-- Items are written one after the other, each as its part. -/
theorem appends_foldl {α β : Type} {write : Buffer → α → Buffer} {form : β → List UInt8}
    {items : List α} {parts : List β}
    (h : List.Forall₂ (fun item part => Appends (write · item) (form part)) items parts) :
    Appends (fun buffer => items.foldl write buffer) (parts.flatMap form) := by
  induction h with
  | nil => exact appends_id
  | cons hfirst _ ih => exact hfirst.trans ih

end Buffer

variable {μ : Type} (set : PlanSet) (nests : String → μ → Record → Prop)
  (encode : μ → Buffer → Buffer)

/-- The messages within others are written as their plans say. -/
def EncodesNested : Prop :=
  ∀ name inner record, nests name inner record → ∃ plan tree, set.message? name = some plan ∧
    messageTree set plan record = .ok tree ∧
      Buffer.Appends (encode inner) (WireValue.messageBytes tree)

/-- A single value is written, with and without its key, as what there is on the wire. -/
structure Program.Datum.Written (type : ValueType) (datum : Datum μ) (tree : WireValue) :
    Prop where
  appends : ∀ values name number boxed, values.lookup name = some datum → Buffer.Appends
    (set.program.runAll encode values (type.writeStatements number name boxed))
    (Key.form ⟨number, type.wireType.code⟩ ++ tree.bytes)
  packed : type.packable = true →
    Buffer.Appends (fun run => type.packedWriter.run set.program run datum) tree.bytes

/-- Variants and symbols are told apart by their names, and so are the types. -/
structure PlanSet.DistinctNames : Prop extends set.DistinctIdentifiers where
  symbols : set.DistinctSymbols

variable {set nests encode}

/-! ## Single values -/

section Elements

theorem EnumTable.number?_item {table : EnumTable}
    (hvariants : (table.variants.map (·.2)).Nodup) {number : Int32} {symbol : String}
    (hsymbol : table.symbol? number = some symbol) :
    table.item.number? (variantIdentifier symbol) = some number := by
  have hmem : (number.toInt, variantIdentifier symbol) ∈ table.variants :=
    List.mem_map.mpr ⟨_, EnumTable.mem_canonical.mpr ⟨number, rfl, hsymbol⟩, rfl⟩
  unfold EnumItem.number? EnumTable.item
  rw [find?_of_nodup (·.2) hvariants hmem, Option.map_some, Int32.ofInt_toInt]

theorem Program.Datum.written_scalar (type : ScalarType) (x : type.Carrier) :
    (native (.ofScalar type x) : Datum μ).Written set encode (.scalar type) (type.wire x) := by
  have hwrite : ∀ buffer : Buffer, writeScalar type buffer (.native (.ofScalar type x) : Datum μ) =
      buffer.writeScalar type x := fun buffer => by
    simp only [writeScalar, Value.toScalar?_ofScalar]
  refine ⟨fun values name number boxed hlookup => ?_, fun _ => ?_⟩
  · have hboth := (Buffer.appends_writeKey ⟨number, type.wireType.code⟩).trans
      (Buffer.appends_writeScalar type x)
    refine hboth.congr fun buffer => ?_
    simp only [ValueType.writeStatements, runAll, List.foldl_cons, List.foldl_nil,
      WriteStatement.run, hlookup, hwrite]
  · simp only [ValueType.packedWriter, ElementWriter.run, hwrite]
    exact Buffer.appends_writeScalar type x

/-- A variant is written as its number. -/
theorem Program.Datum.written_variant (hdistinct : set.DistinctNames) {name symbol : String}
    {table : EnumTable} {number : Int32} (htable : set.enum? name = some table)
    (hsymbol : table.symbol? number = some symbol) :
    (variant (typeIdentifier name) (variantIdentifier symbol) : Datum μ).Written set encode
      (.enum name) (ScalarType.wire .int32 number) := by
  have hmem := List.mem_reverse.mp (List.mem_of_find?_eq_some htable)
  have hnumber := EnumTable.number?_item (hdistinct.variants table hmem) hsymbol
  have hwrite : ∀ buffer : Buffer, set.program.writeVariant buffer
      (.variant (typeIdentifier name) (variantIdentifier symbol) : Datum μ) =
        buffer.writeScalar .int32 number := fun buffer => by
    simp only [writeVariant, hdistinct.enum? htable, Option.bind_some, hnumber]
  refine ⟨fun values value field boxed hlookup => ?_, fun _ => ?_⟩
  · have hboth := (Buffer.appends_writeKey ⟨field, WireType.varint.code⟩).trans
      (Buffer.appends_writeScalar .int32 number)
    refine hboth.congr fun buffer => ?_
    simp only [ValueType.writeStatements, runAll, List.foldl_cons, List.foldl_nil,
      WriteStatement.run, hlookup, hwrite]
  · simp only [ValueType.packedWriter, ElementWriter.run, hwrite]
    exact Buffer.appends_writeScalar .int32 number

variable (hdistinct : set.DistinctNames) (hnested : EncodesNested set nests encode)
include hdistinct hnested

theorem Program.Datum.Stands.exists_written {type : ValueType} {datum : Datum μ} {value : Value}
    (h : datum.Stands set nests type value) :
    ∃ tree, ElementTree set type value tree ∧ datum.Written set encode type tree := by
  cases h with
  | scalar type x => exact ⟨_, .scalar type x, Datum.written_scalar type x⟩
  | @enum name symbol table number htable hsymbol =>
      have hmem := List.mem_reverse.mp (List.mem_of_find?_eq_some htable)
      have htree := EnumTable.number?_of_symbol? (hdistinct.symbols table hmem) hsymbol
      exact ⟨_, .enum htable htree, Datum.written_variant hdistinct htable hsymbol⟩
  | @message name inner record h =>
      obtain ⟨plan, tree, hplan, htree, happends⟩ := hnested name inner record h
      refine ⟨_, .message hplan htree, fun values name number boxed hlookup => ?_,
        fun hpackable => ?_⟩
      · refine (happends.payloadField number).congr fun buffer => ?_
        simp only [ValueType.writeStatements, runAll, List.foldl_cons, List.foldl_nil,
          WriteStatement.run, hlookup]
      · simp [ValueType.packable] at hpackable

/-- An entry is written as a message of its key and its value. -/
theorem EntryStands.exists_written (plan : MessagePlan) {key : ScalarType} {type : ValueType}
    {entry : MapKey × Datum μ} {found : MapKey × Value}
    (h : EntryStands set nests key type entry found) (number : UInt32) :
    ∃ tree, EntryTree set key type found tree ∧ Buffer.Appends
      (·.writePayloadField number ((plan.entryItem (.ofEntry keyField 1 (.scalar key))
        (.ofEntry valueField 2 type)).encodeEntry set.program encode entry))
      (Key.form ⟨number, WireType.lengthDelimited.code⟩ ++ tree.bytes) := by
  obtain ⟨mapKey, datum⟩ := entry
  obtain ⟨foundKey, value⟩ := found
  obtain ⟨rfl, ⟨x, hx⟩, hvalue⟩ := h
  have hkey : (Datum.native (.ofMapKey mapKey) : Datum μ).Stands set nests (.scalar key)
      (.ofMapKey mapKey) := by
    change Value.ofScalar key x = .ofMapKey mapKey at hx
    rw [← hx]
    exact .scalar key x
  obtain ⟨first, hfirst, hfirstWritten⟩ := hkey.exists_written hdistinct hnested
  obtain ⟨second, hsecond, hsecondWritten⟩ := hvalue.exists_written hdistinct hnested
  have hne : (valueField == keyField) = false := by decide
  refine ⟨_, .intro hfirst hsecond, Buffer.Appends.payloadField ?_ number⟩
  unfold EntryItem.encodeEntry runAll
  simp only [List.foldl_append, WireValue.messageBytes, List.append_nil]
  refine Buffer.Appends.trans (hfirstWritten.appends _ _ 1 false ?_)
    (hsecondWritten.appends _ _ 2 false ?_)
  · simp
  · simp [List.lookup_cons, hne]

end Elements

/-! ## Fields -/

section Fields

variable (set encode) in
/-- The statement for a field writes these occurrences of it for what a slot holds. -/
def FieldPlan.Writes (field : FieldPlan) (listing : Slot μ) (occurrences : List WireValue) : Prop :=
  ∀ fields : Fields μ, fields.slot? (identifier field.name) = some listing → Buffer.Appends
    (fun buffer => (field.encodeStatement (field.stepAt 0)).run set.program encode fields buffer)
    (WireValue.messageBytes (occurrences.map (field.key, ·)))

variable (hdistinct : set.DistinctNames) (hnested : EncodesNested set nests encode)
  {field : FieldPlan}
include hdistinct hnested

theorem writes_option {held : Option (Datum μ)} {found : Option Value}
    (hform : field.form = .single) (h : Option.Rel (Datum.Stands set nests field.type) held found) :
    ∃ own, FieldTree set field found own ∧ field.Writes set encode (.option held) own := by
  obtain ⟨-, -, hwire⟩ := FieldPlan.form_eq_single hform
  cases h with
  | none =>
      refine ⟨_, .absent, fun fields hslot => Buffer.appends_id.congr fun buffer => ?_⟩
      simp only [FieldPlan.encodeStatement, FieldPlan.stepAt, hform, EncodeStatement.run, hslot]
  | @some datum _ hstands =>
      obtain ⟨tree, htree, hwritten⟩ := hstands.exists_written hdistinct hnested
      refine ⟨_, .single hform htree, fun fields hslot => ?_⟩
      have happends := hwritten.appends [("v", datum)] "v" field.number true (by simp)
      rw [← hwire] at happends
      simp only [WireValue.messageBytes_map, List.flatMap_singleton]
      refine happends.congr fun buffer => ?_
      simp only [FieldPlan.encodeStatement, FieldPlan.stepAt, hform, EncodeStatement.run, hslot]

theorem exists_written_items {held : List (Datum μ)} {found : List Value} {type : ValueType}
    (h : List.Forall₂ (Datum.Stands set nests type) held found) :
    ∃ trees, List.Forall₂ (Datum.Written set encode type) held trees ∧
      List.Forall₂ (ElementTree set type) found trees :=
  exists_forall₂_of_forall₂ <| h.imp fun _ _ hstands =>
    let ⟨tree, htree, hwritten⟩ := hstands.exists_written hdistinct hnested
    ⟨tree, hwritten, htree⟩

theorem writes_each {held : List (Datum μ)} {found : List Value} (hform : field.form = .each)
    (h : List.Forall₂ (Datum.Stands set nests field.type) held found) :
    ∃ own, FieldTree set field (Value.ofItems found) own ∧
      field.Writes set encode (.vec held) own := by
  obtain ⟨-, -, hwire⟩ := FieldPlan.form_eq_each hform
  obtain ⟨trees, hwritten, htrees⟩ := exists_written_items hdistinct hnested h
  refine ⟨trees, ?_, fun fields hslot => ?_⟩
  · cases htrees with
    | nil => exact .absent
    | cons hfirst hrest => exact .each hform (.cons hfirst hrest)
  · rw [WireValue.messageBytes_map, FieldPlan.key, hwire]
    have hitems := Buffer.appends_foldl (hwritten.imp fun item tree hitem =>
      hitem.appends [("v", item)] "v" field.number false (by simp))
    refine hitems.congr fun buffer => ?_
    simp only [FieldPlan.encodeStatement, FieldPlan.stepAt, hform, EncodeStatement.run, hslot]

theorem writes_packed {held : List (Datum μ)} {found : List Value} (hform : field.form = .packed)
    (hpackable : field.type.packable = true)
    (h : List.Forall₂ (Datum.Stands set nests field.type) held found) :
    ∃ own, FieldTree set field (Value.ofItems found) own ∧
      field.Writes set encode (.vec held) own := by
  obtain ⟨-, -, hwire⟩ := FieldPlan.form_eq_packed hform
  obtain ⟨trees, hwritten, htrees⟩ := exists_written_items hdistinct hnested h
  cases h with
  | nil =>
      refine ⟨_, .absent, fun fields hslot => Buffer.appends_id.congr fun buffer => ?_⟩
      simp only [FieldPlan.encodeStatement, FieldPlan.stepAt, hform, EncodeStatement.run, hslot]
      rfl
  | cons hfirst hrest =>
      refine ⟨_, .packed hform (List.cons_ne_nil _ _) htrees, fun fields hslot => ?_⟩
      have hitems := Buffer.appends_foldl (hwritten.imp fun item tree hitem =>
        hitem.packed hpackable)
      have hrun := hitems.payloadField field.number
      rw [List.flatMap_def, ← WireValue.runBytes_eq_flatten] at hrun
      rw [WireValue.messageBytes_map, FieldPlan.key, hwire, List.flatMap_singleton]
      refine hrun.congr fun buffer => ?_
      simp only [FieldPlan.encodeStatement, FieldPlan.stepAt, hform, EncodeStatement.run, hslot]
      rfl

theorem writes_entries {held : List (MapKey × Datum μ)} {found : List (MapKey × Value)}
    {entry : String} {plan : MessagePlan} {key : ScalarType} {type : ValueType}
    (hform : field.form = .mapEntries entry) (hplan : set.message? entry = some plan)
    (hentry : plan.IsEntry key type)
    (h : List.Forall₂ (EntryStands set nests key type) held found) :
    ∃ own, FieldTree set field (Value.ofEntries found) own ∧
      field.Writes set encode (.hashMap held) own := by
  obtain ⟨-, -, hwire⟩ := FieldPlan.form_eq_mapEntries hform
  have hentries := h.imp fun _ _ hstands =>
    hstands.exists_written hdistinct hnested plan field.number
  obtain ⟨trees, htrees, hwritten⟩ := exists_forall₂_of_forall₂ hentries.flip
  refine ⟨trees, ?_, fun fields hslot => ?_⟩
  · cases htrees with
    | nil => exact .absent
    | cons hfirst hrest => exact .entries hform hplan hentry (.cons hfirst hrest)
  · rw [WireValue.messageBytes_map, FieldPlan.key, hwire]
    refine (Buffer.appends_foldl hwritten).congr fun buffer => ?_
    simp only [FieldPlan.encodeStatement, FieldPlan.stepAt, hform, EncodeStatement.run, hslot,
      hdistinct.entryItem? hplan hentry]

/-- The statement for a field writes what there is for it on the wire. -/
theorem exists_writes (hfield : field.Coherent set) {slot : Slot μ} {found : Option Value}
    (hslot : slot.Stands set nests field found) :
    ∃ own, FieldTree set field found own ∧ field.Writes set encode slot own := by
  cases hslot with
  | option hmap hsingular hheld =>
      exact writes_option hdistinct hnested (FieldPlan.form_of_single hfield hmap hsingular) hheld
  | vec hmap hrepeated hheld =>
      cases hpacked : field.packed with
      | true =>
          exact writes_packed hdistinct hnested (FieldPlan.form_of_packed hmap hpacked)
            (hfield.packed hpacked).2.2 hheld
      | false =>
          exact writes_each hdistinct hnested (FieldPlan.form_of_each hmap hpacked hrepeated) hheld
  | @hashMap _ _ entry _ _ _ hmap htype hplan hentry hheld =>
      have hform : field.form = .mapEntries entry := by
        rw [FieldPlan.form_of_map hmap, htype, ValueType.name]
      exact writes_entries hdistinct hnested hform hplan hentry hheld

end Fields

/-! ## Structs -/

section Structs

variable {plan : MessagePlan} {fields : Fields μ} {record : Record}

/-- The occurrences of a message, given what there is for each field. -/
def MessagePlan.occurrences (plan : MessagePlan) (own : FieldPlan → List WireValue) :
    List (Key × WireValue) :=
  plan.fields.flatMap fun field => (own field).map (field.key, ·)

theorem appends_encodeTo (hplan : plan.LaidOut) {own : FieldPlan → List WireValue}
    (h : ∀ field ∈ plan.fields, ∃ slot, fields.slot? (identifier field.name) = some slot ∧
      field.Writes set encode slot (own field)) :
    Buffer.Appends ((plan.structItem set).encodeTo set.program encode fields)
      (WireValue.messageBytes (plan.occurrences own)) := by
  rw [MessagePlan.occurrences, WireValue.messageBytes_flatMap]
  have hfields : List.Forall₂ (fun (field : FieldPlan) other => Buffer.Appends
      (fun buffer => (field.encodeStatement (field.stepAt 0)).run set.program encode fields buffer)
      (WireValue.messageBytes ((own other).map (other.key, ·)))) plan.fields plan.fields :=
    List.forall₂_same.mpr fun field hfield =>
      let ⟨_, hslot, hwrites⟩ := h field hfield
      hwrites fields hslot
  refine (Buffer.appends_foldl hfields).congr fun buffer => ?_
  rw [StructItem.encodeTo, hplan.encode_structItem, List.foldl_map]

variable (h : fields.Stand set nests plan record)

include h in
theorem Program.Fields.Stand.unknownNames : Record.unknownNames record plan = [] := by
  unfold Record.unknownNames
  refine List.filter_eq_nil_iff.mpr fun name hname hnone => ?_
  obtain ⟨⟨name, value⟩, hmem, rfl⟩ := List.mem_map.mp hname
  have hvalue := Sorted.find?_of_mem h.increasing hmem
  have hnot := h.known name fun field hfield hsame => by
    have hfound := List.find?_eq_none.mp (Option.isNone_iff_eq_none.mp hnone) field hfield
    simp [hsame] at hfound
  cases hvalue.symm.trans hnot

variable (hdistinct : set.DistinctNames) (hnested : EncodesNested set nests encode)
  (hplan : plan.Coherent set)
  (hidentifiers : (plan.fields.map fun field => identifier field.name).Nodup)
include h hdistinct hnested hplan hidentifiers

/-- A struct is encoded as the message that it stands for. -/
theorem MessagePlan.exists_encodeTo : ∃ tree, messageTree set plan record = .ok tree ∧
    Buffer.Appends ((plan.structItem set).encodeTo set.program encode fields)
      (WireValue.messageBytes tree) := by
  have hfields : ∀ field ∈ plan.fields, ∃ own,
      FieldTree set field (Record.value? record field.name) own ∧
        ∃ slot, fields.slot? (identifier field.name) = some slot ∧
          field.Writes set encode slot own := fun field hfield =>
    let ⟨slot, hslot, hstands⟩ := h.slot? hidentifiers hfield
    let ⟨own, htree, hwrites⟩ := exists_writes hdistinct hnested (hplan.fields field hfield) hstands
    ⟨own, htree, slot, hslot, hwrites⟩
  choose! own htrees hwrites using hfields
  exact ⟨_, (messageTree_eq_ok hplan.named).mpr ⟨h.unknownNames, own, htrees, rfl⟩,
    appends_encodeTo hplan.toLaidOut hwrites⟩

theorem MessagePlan.encode_eq_encodeTo : set.encode plan record =
    .ok ((plan.structItem set).encodeTo set.program encode fields Buffer.empty).bytes := by
  obtain ⟨tree, htree, happends⟩ := exists_encodeTo h hdistinct hnested hplan hidentifiers
  rw [PlanSet.encode_eq, htree, Except.map_ok, happends.bytes_eq]

end Structs

/-! ## Listings -/

/-- A slot holds what another one holds, but goes through the entries of a map
in an order of its own. -/
inductive Program.Slot.Lists : Slot μ → Slot μ → Prop
  | refl (slot : Slot μ) : Lists slot slot
  | entries {listed entries : List (MapKey × Datum μ)} (h : listed.Perm entries) :
      Lists (.hashMap listed) (.hashMap entries)

/-- A struct has the values of another one, with the entries of maps in an order of its own. -/
def Program.Fields.Lists (listing fields : Fields μ) : Prop :=
  List.Forall₂ (fun listed held => listed.1 = held.1 ∧ listed.2.Lists held.2) listing fields

theorem Program.Fields.Lists.slot? {listing fields : Fields μ} (h : listing.Lists fields)
    {name : String} {slot : Slot μ} (hslot : fields.slot? name = some slot) :
    ∃ listed, listing.slot? name = some listed ∧ listed.Lists slot := by
  obtain ⟨field, hfield, rfl⟩ := Option.map_eq_some_iff.mp hslot
  have hfound := find?_of_forall₂ h (p := (·.1 == name)) (q := (·.1 == name))
    fun listed held hlists => by rw [hlists.1]
  rcases hfound with ⟨-, hnone⟩ | ⟨listed, held, hlisted, hheld, -, hlists⟩
  · cases hfield.symm.trans hnone
  · obtain rfl := Option.some.inj (hfield.symm.trans hheld)
    refine ⟨listed.2, ?_, hlists⟩
    rw [Fields.slot?, hlisted]
    rfl

/-- The entries of a map are on the wire in the order in which they come. -/
theorem FieldTree.perm_entries {field : FieldPlan} {name : String} {plan : MessagePlan}
    {key : ScalarType} {type : ValueType} (hform : field.form = .mapEntries name)
    (hplan : set.message? name = some plan) (hentry : plan.IsEntry key type)
    {entries entries' : List (MapKey × Value)} (hperm : entries.Perm entries')
    {occurrences : List WireValue} (h : FieldTree set field (Value.ofEntries entries) occurrences) :
    ∃ own, FieldTree set field (Value.ofEntries entries') own ∧ occurrences.Perm own := by
  obtain ⟨found, hfound, htrees⟩ := h.of_entries hform hplan hentry
  obtain rfl : found = entries := by
    cases entries with
    | nil =>
        rcases hfound with ⟨-, hnil⟩ | hsome
        · exact hnil
        · cases hsome
    | cons entry rest =>
        rcases hfound with ⟨hnone, -⟩ | hsome
        · cases hnone
        · exact (Value.map.inj (Option.some.inj hsome)).symm
  obtain ⟨own, hown, hsame⟩ := List.perm_comp_forall₂ hperm.symm htrees
  refine ⟨own, ?_, hsame.symm⟩
  cases hown with
  | nil => exact .absent
  | cons hfirst hrest => exact .entries hform hplan hentry (.cons hfirst hrest)

section Listing

variable (hdistinct : set.DistinctNames) (hnested : EncodesNested set nests encode)
include hdistinct hnested

/-- The statement for a field writes the occurrences of it in the order in which
entries are listed. -/
theorem exists_writes_listing {field : FieldPlan} (hfield : field.Coherent set)
    {slot listing : Slot μ} {found : Option Value} (hslot : slot.Stands set nests field found)
    (hlists : listing.Lists slot) : ∃ own occurrences, FieldTree set field found own ∧
      (occurrences.Perm own ∧ (field.isMapEntry = false → occurrences = own)) ∧
        field.Writes set encode listing occurrences := by
  cases hlists with
  | refl =>
      obtain ⟨own, htree, hwrites⟩ := exists_writes hdistinct hnested hfield hslot
      exact ⟨own, own, htree, ⟨.rfl, fun _ => rfl⟩, hwrites⟩
  | entries hlisted =>
      cases hslot with
      | @hashMap held found entry _ _ _ hmap htype hplan hentry hheld =>
          have hform : field.form = .mapEntries entry := by
            rw [FieldPlan.form_of_map hmap, htype, ValueType.name]
          -- what the listing stands for has the entries of the map, in another order
          obtain ⟨listedFound, hstands, hperm⟩ := List.perm_comp_forall₂ hlisted hheld
          obtain ⟨occurrences, htree, hwrites⟩ := exists_writes hdistinct hnested hfield
            (.hashMap hmap htype hplan hentry hstands)
          obtain ⟨own, hown, hsame⟩ := htree.perm_entries hform hplan hentry hperm
          refine ⟨own, occurrences, hown, ⟨hsame, fun hnot => ?_⟩, hwrites⟩
          cases hmap.symm.trans hnot

/-- Some bytes are the occurrences that a message is encoded as, but those of
each map field may be in another order. -/
def PlanSet.EncodesUpToEntries (set : PlanSet) (plan : MessagePlan) (record : Record)
    (bytes : Bytes) : Prop :=
  ∃ own own' : FieldPlan → List WireValue,
    (∀ field ∈ plan.fields, FieldTree set field (Record.value? record field.name) (own field)) ∧
    set.encode plan record = .ok (WireValue.messageBytes (plan.occurrences own)).toArray ∧
    bytes = (WireValue.messageBytes (plan.occurrences own')).toArray ∧
    ∀ field ∈ plan.fields, (own' field).Perm (own field) ∧
      (field.isMapEntry = false → own' field = own field)

/-- A listing of a struct is encoded as the message that the struct stands for,
up to the order of entries. -/
theorem MessagePlan.encodesUpToEntries {plan : MessagePlan} {fields listing : Fields μ}
    {record : Record} (h : fields.Stand set nests plan record) (hplan : plan.Coherent set)
    (hidentifiers : (plan.fields.map fun field => identifier field.name).Nodup)
    (hlists : listing.Lists fields) : set.EncodesUpToEntries plan record
      ((plan.structItem set).encodeTo set.program encode listing Buffer.empty).bytes := by
  have hfields : ∀ field ∈ plan.fields, ∃ own occurrences,
      FieldTree set field (Record.value? record field.name) own ∧
      (occurrences.Perm own ∧ (field.isMapEntry = false → occurrences = own)) ∧
      ∃ slot, listing.slot? (identifier field.name) = some slot ∧
        field.Writes set encode slot occurrences := by
    intro field hfield
    obtain ⟨slot, hslot, hstands⟩ := h.slot? hidentifiers hfield
    obtain ⟨listed, hlisted, hslots⟩ := hlists.slot? hslot
    obtain ⟨own, occurrences, htree, hsame, hwrites⟩ :=
      exists_writes_listing hdistinct hnested (hplan.fields field hfield) hstands hslots
    exact ⟨own, occurrences, htree, hsame, listed, hlisted, hwrites⟩
  choose! own occurrences htrees hsame hwrites using hfields
  have htree := (messageTree_eq_ok hplan.named).mpr ⟨h.unknownNames, own, htrees, rfl⟩
  refine ⟨own, occurrences, htrees, ?_, (appends_encodeTo hplan.toLaidOut hwrites).bytes_eq, hsame⟩
  rw [PlanSet.encode_eq, htree]
  rfl

end Listing

end WireCodec
