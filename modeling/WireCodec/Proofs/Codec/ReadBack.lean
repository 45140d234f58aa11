import WireCodec.Proofs.Codec.FieldTrees
import WireCodec.Proofs.Codec.Levels
import WireCodec.Proofs.Codec.Normal

/-! # Reading trees back

What a reader makes of the tree of an element, an entry or a field: the normal
form of what was written, within as many levels as the tree nests.
-/

namespace WireCodec

variable {set : PlanSet}

/-- The normal form in which symbols stand for themselves. -/
abbrev canonicalSymbols (table : EnumTable) (symbol : String) : Value :=
  .enum (table.canonicalSymbol symbol)

variable (set) in
/-- The tree of a message is read back as its normal form, as deep as it nests. -/
def ReadsBack (plan : MessagePlan) (record : Record) : Prop :=
  ∀ (tree : List (Key × WireValue)) (levels depth : Nat),
    messageTree set plan record = .ok tree → WireValue.MessageFits tree →
    levels + depth = nestingLimit →
    Read.Finishes (readMessageWithin set levels plan) depth (WireValue.messageBytes tree)
      (withinLevels levels (WireValue.messageDepth tree) (set.canonical plan record))

section Elements

variable {type : ValueType} {value : Value} {tree : WireValue}

/-- The tree of a value that is no message is read back anywhere. -/
theorem ElementTree.parses_leaf (h : ElementTree set type value tree)
    (htype : ∀ name, type ≠ .message name) (hfits : tree.Fits) (nested : MessagePlan → Read Record)
    (depth : Nat) : Read.Parses (readValue set nested type) depth tree.bytes
      (.ok (some (value.normal set canonicalSymbols (some type)))) := by
  cases h with
  | scalar type x =>
      rw [Value.normal_ofScalar]
      exact ((Read.parses_scalar depth type x hfits).map _).map _
  | @enum name symbol table number htable hnumber =>
      obtain ⟨canonical, hcanonical⟩ := EnumTable.exists_symbol? hnumber
      have hnormal : (Value.enum symbol).normal set canonicalSymbols (some (.enum name)) =
          .enum canonical := by
        simp [Value.normal, renameSymbol, htable, EnumTable.canonicalSymbol, hnumber, hcanonical]
      rw [hnormal]
      unfold readValue
      refine (Read.parses_scalar depth .int32 number hfits).bind_nil ?_
      simp only [htable, hcanonical]
      exact Read.parses_pure _
  | message hplan htree => exact absurd rfl (htype _)

theorem ElementTree.depth_leaf (h : ElementTree set type value tree)
    (htype : ∀ name, type ≠ .message name) : tree.depth = 0 := by
  cases h with
  | scalar type x => exact type.wire_depth x
  | enum htable hnumber => exact ScalarType.wire_depth _ _
  | message hplan htree => exact absurd rfl (htype _)

/-- The tree of a value is read back if those of the messages nested in it are. -/
theorem ElementTree.parses (h : ElementTree set type value tree) (hfits : tree.Fits)
    (hnested : ∀ fields plan, value = .message fields → set.nested? (some type) = some plan →
      ReadsBack set plan fields) {levels depth : Nat} (hlevels : levels + depth = nestingLimit) :
    Read.Parses (readValue set (nestedReader set levels) type) depth tree.bytes
      (withinLevels levels tree.depth
        (some (value.normal set canonicalSymbols (some type)))) := by
  -- only messages take up levels
  by_cases htype : ∃ name, type = .message name
  · obtain ⟨name, rfl⟩ := htype
    cases h with
    | @message name plan fields fieldTree hplan htree =>
        have hnormal : (Value.message fields).normal set canonicalSymbols (some (.message name)) =
            .message (set.canonical plan fields) := by
          simp [Value.normal, PlanSet.nested?, hplan, PlanSet.canonical]
        have hbody := hnested fields plan rfl hplan
        rw [hnormal]
        unfold readValue
        simp only [hplan]
        refine Read.Parses.map_within ?_ _
        refine parses_delimited_within hlevels hfits.1 ?_
        rintro inner rfl
        exact hbody fieldTree inner (depth + 1) htree hfits.2 (by omega)
  · have hleaf : ∀ name, type ≠ .message name := fun name heq => htype ⟨name, heq⟩
    rw [h.depth_leaf hleaf, withinLevels_zero]
    exact h.parses_leaf hleaf hfits _ depth

theorem ValueType.ne_message_of_packable (h : type.packable = true) (name : String) :
    type ≠ .message name := by
  rintro rfl
  cases h

theorem ElementTree.fits_of_packable (h : ElementTree set type value tree)
    (hpackable : type.packable = true) : tree.Fits := by
  cases h with
  | scalar type x => cases type <;> trivial
  | enum htable hnumber => trivial
  | message hplan htree => cases hpackable

theorem ElementTree.bytes_ne_nil (h : ElementTree set type value tree) : tree.bytes ≠ [] := by
  have hdelimited : ∀ payload, delimitedForm payload ≠ [] := fun payload =>
    List.append_ne_nil_of_left_ne_nil (Varint.encode_ne_nil _) payload
  cases h with
  | scalar type x =>
      cases type <;>
        simp [ScalarType.wire, WireValue.bytes, littleEndian, Varint.encode_ne_nil, hdelimited]
  | enum htable hnumber => exact Varint.encode_ne_nil _
  | message hplan htree => exact hdelimited _

end Elements

/-! ## Building values up -/

/-- The changes that build the value of a field from nothing. -/
def rebuild (name : String) : Option Value → List Change
  | none => []
  | some (.list items) => items.map fun item => ⟨name, .append (some item)⟩
  | some (.map entries) => entries.map fun entry => ⟨name, .put entry.1 entry.2⟩
  | some value => [⟨name, .assign (some value)⟩]

theorem name_of_mem_rebuild {name : String} {found : Option Value} {change : Change}
    (h : change ∈ rebuild name found) : change.name = name := by
  unfold rebuild at h
  split at h
  · cases h
  · obtain ⟨item, _, rfl⟩ := List.mem_map.mp h
    rfl
  · obtain ⟨entry, _, rfl⟩ := List.mem_map.mp h
    rfl
  · rw [List.mem_singleton.mp h]

theorem foldl_append_items (name : String) (before items : List Value) :
    (items.map fun item => Change.mk name (.append (some item))).foldl
      (fun old change => change.what.apply old) (some (Value.list before)) =
        some (Value.list (before ++ items)) := by
  induction items generalizing before with
  | nil => simp
  | cons item rest ih =>
      rw [List.map_cons, List.foldl_cons]
      change List.foldl _ (some (Value.list (before ++ [item]))) _ = _
      rw [ih, List.append_assoc]
      rfl

theorem foldl_put_entries (name : String) (before entries : List (MapKey × Value))
    (h : Sorted.Increasing (before ++ entries)) :
    (entries.map fun entry => Change.mk name (.put entry.1 entry.2)).foldl
      (fun old change => change.what.apply old) (some (Value.map before)) =
        some (Value.map (before ++ entries)) := by
  rw [← Sorted.foldl_insert_append h, List.foldl_map]
  clear h
  induction entries generalizing before with
  | nil => rfl
  | cons entry rest ih => exact ih _

/-- The changes that build a value up make that value, unless it is empty. -/
theorem foldl_rebuild (name : String) {found : Option Value}
    (hempty : ∀ value, found = some value → value.isEmpty = false)
    (hmap : ∀ entries, found = some (.map entries) → Sorted.Increasing entries) :
    (rebuild name found).foldl (fun old change => change.what.apply old) none = found := by
  cases found with
  | none => rfl
  | some value =>
      cases value with
      | list items =>
          cases items with
          | nil => cases hempty _ rfl
          | cons item rest => exact foldl_append_items name [item] rest
      | map entries =>
          cases entries with
          | nil => cases hempty _ rfl
          | cons entry rest => exact foldl_put_entries name [entry] rest (hmap _ rfl)
      | _ => rfl

theorem Value.isEmpty_normal (rename : EnumTable → String → Value)
    (hrename : ∀ table symbol, (rename table symbol).isEmpty = false) (type : Option ValueType)
    (value : Value) : (value.normal set rename type).isEmpty = value.isEmpty := by
  cases value with
  | enum symbol =>
      simp only [Value.normal, renameSymbol]
      split
      · split
        · exact hrename _ _
        · rfl
      · rfl
  | message fields =>
      simp only [Value.normal]
      split <;> rfl
  | list items =>
      simp only [Value.normal, normalItems_eq_map]
      cases items <;> rfl
  | map entries =>
      simp only [Value.normal, normalEntries_eq_map]
      cases entries <;> rfl
  | _ => rfl

theorem ElementTree.rebuild_normal {type : ValueType} {value : Value} {tree : WireValue}
    (h : ElementTree set type value tree) (name : String) :
    value.isEmpty = false ∧
      rebuild name (some (value.normal set canonicalSymbols (some type))) =
        [⟨name, .assign (some (value.normal set canonicalSymbols (some type)))⟩] := by
  cases h with
  | scalar type x =>
      rw [Value.normal_ofScalar]
      cases type <;> exact ⟨rfl, rfl⟩
  | enum htable hnumber =>
      refine ⟨rfl, ?_⟩
      simp [Value.normal, renameSymbol, htable, rebuild]
  | message hplan htree =>
      refine ⟨rfl, ?_⟩
      simp [Value.normal, PlanSet.nested?, hplan, rebuild]

/-! ## Entries and fields -/

/-- A map entry as the message that stands for it on the wire. -/
def entryRecord (key : MapKey) (value : Value) : Record :=
  [(keyField, .ofMapKey key), (valueField, value)]

section EntryRecord

variable (key : MapKey) (value : Value)

theorem value?_entryRecord_key :
    Record.value? (entryRecord key value) keyField = some (.ofMapKey key) := by
  simp [entryRecord, Record.value?, Sorted.find?]

theorem value?_entryRecord_value :
    Record.value? (entryRecord key value) valueField = some value := by
  simp [entryRecord, Record.value?, Sorted.find?, keyField, valueField]

theorem applyAll_entryRecord : Change.applyAll [⟨keyField, .assign (some (.ofMapKey key))⟩,
    ⟨valueField, .assign (some value)⟩] [] = entryRecord key value := by
  have hcompare : compare valueField keyField = .gt := by decide
  simp [entryRecord, Change.applyAll, Change.apply, Record.assign?, Record.assign, Sorted.insert,
    hcompare]

theorem MessagePlan.IsEntry.completed_entryRecord {plan : MessagePlan} {keyType : ScalarType}
    {type : ValueType} (hentry : plan.IsEntry keyType type) (hplan : plan.LaidOut) :
    plan.completed (entryRecord key value) = .ok (entryRecord key value) := by
  refine (MessagePlan.completed_eq_ok hplan).mpr ⟨rfl, ?_⟩
  simp [hentry.fields, FieldPlan.ofEntry, Record.contains, value?_entryRecord_key,
    value?_entryRecord_value]

end EntryRecord

/-- The tree of a map entry is read back as its key and the normal form of its
value, if those of the messages nested in it are. -/
theorem EntryTree.parses (hset : set.Coherent) {name : String} {plan : MessagePlan}
    {key : ScalarType} {type : ValueType} (hplan : set.message? name = some plan)
    (hentry : plan.IsEntry key type) {entry : MapKey × Value} {tree : WireValue}
    (h : EntryTree set key type entry tree) (hfits : tree.Fits)
    (hnested : ∀ fields inner, entry.2 = .message fields → set.nested? (some type) = some inner →
      ReadsBack set inner fields) {levels depth : Nat} (hlevels : levels + depth = nestingLimit) :
    Read.Parses (readPair set (nestedReader set levels) name) depth tree.bytes
      (withinLevels levels tree.depth
        (entry.1, entry.2.normal set canonicalSymbols (some type))) := by
  cases h with
  | @intro mapKey value first second hkey hvalue =>
      have hcoherent := hset.of_message? hplan
      have hkeyField : .ofEntry keyField 1 (.scalar key) ∈ plan.fields := by simp [hentry.fields]
      have hvalueField : .ofEntry valueField 2 type ∈ plan.fields := by simp [hentry.fields]
      let value' := value.normal set canonicalSymbols (some type)
      let changes : List Change := [⟨keyField, .assign (some (.ofMapKey mapKey))⟩,
        ⟨valueField, .assign (some value')⟩]
      have hcompleted : plan.completed (Change.applyAll changes []) =
          .ok (entryRecord mapKey value') := by
        rw [applyAll_entryRecord]
        exact hentry.completed_entryRecord mapKey value' hcoherent.toLaidOut
      -- the entry itself takes one level, and its value nests in the levels below
      have hbody : ∀ inner, levels = inner + 1 →
          Read.Finishes (nestedReader set levels plan) (depth + 1)
            (WireValue.messageBytes [(⟨1, key.wireType.code⟩, first),
              (⟨2, type.wireType.code⟩, second)])
            (withinLevels inner (WireValue.messageDepth [(⟨1, key.wireType.code⟩, first),
              (⟨2, type.wireType.code⟩, second)]) (entryRecord mapKey value')) := by
        rintro inner rfl
        have hlevels : inner + (depth + 1) = nestingLimit := by omega
        have hfirst := hkey.parses hfits.2.1 (fun _ plan _ hinner => by cases hinner) hlevels
        rw [Value.normal_ofMapKey] at hfirst
        have hsecond := hvalue.parses hfits.2.2.1 (fun fields plan hfields hinner =>
          hnested fields plan hfields hinner) hlevels
        have hreads : ReadsAs set (nestedReader set inner) plan (depth + 1) _
            (withinLevels inner _ changes) :=
          .cons_within hcoherent hkeyField (parses_single_within rfl hfirst)
            (.cons_within hcoherent hvalueField (parses_single_within rfl hsecond) .nil_within)
        have hfinishes := hreads.finishes_within hcompleted
        rw [← readMessageWithin_eq] at hfinishes
        exact hfinishes
      unfold readPair
      simp only [hplan]
      refine Read.Parses.bind_within (parses_delimited_within hlevels hfits.1 hbody) ?_
      simp only [value?_entryRecord_key, value?_entryRecord_value, Option.bind_some,
        Value.toMapKey?_ofMapKey]
      exact Read.parses_pure _

theorem FieldPlan.elementType?_of_not_map {field : FieldPlan} (hmap : field.isMapEntry = false) :
    field.elementType? set = some field.type := by
  unfold FieldPlan.elementType?
  rw [hmap]

theorem MessagePlan.IsEntry.field?_key {plan : MessagePlan} {key : ScalarType}
    {type : ValueType} (hentry : plan.IsEntry key type) :
    plan.field? keyField = some (.ofEntry keyField 1 (.scalar key)) := by
  simp [MessagePlan.field?, hentry.fields, FieldPlan.ofEntry]

theorem MessagePlan.IsEntry.field?_value {plan : MessagePlan} {key : ScalarType}
    {type : ValueType} (hentry : plan.IsEntry key type) :
    plan.field? valueField = some (.ofEntry valueField 2 type) := by
  simp [MessagePlan.field?, hentry.fields, FieldPlan.ofEntry, keyField, valueField]

theorem FieldPlan.elementType?_of_entry {field : FieldPlan} {name : String} {plan : MessagePlan}
    {key : ScalarType} {type : ValueType} (hmap : field.isMapEntry = true)
    (htype : field.type = .message name) (hplan : set.message? name = some plan)
    (hentry : plan.IsEntry key type) : field.elementType? set = some type := by
  unfold FieldPlan.elementType?
  simp [hmap, htype, hplan, hentry.field?_value, FieldPlan.ofEntry]

theorem runDepth_of_leaves {type : ValueType} (hleaf : ∀ name, type ≠ .message name)
    {items : List Value} {trees : List WireValue}
    (h : List.Forall₂ (ElementTree set type) items trees) : WireValue.runDepth trees = 0 := by
  induction h with
  | nil => rfl
  | cons hfirst hrest ih => simp [WireValue.runDepth, hfirst.depth_leaf hleaf, ih]

theorem rebuild_normal_list {field : FieldPlan} (items : List Value) :
    rebuild field.name (field.normal set canonicalSymbols (some (.list items))) =
      items.map fun item => ⟨field.name,
        .append (some (item.normal set canonicalSymbols (field.elementType? set)))⟩ := by
  cases items with
  | nil => rfl
  | cons item rest =>
      simp [FieldPlan.normal, Value.isEmpty, Value.normal, normalItems_eq_map, rebuild]

theorem rebuild_normal_map {field : FieldPlan} (entries : List (MapKey × Value)) :
    rebuild field.name (field.normal set canonicalSymbols (some (.map entries))) =
      entries.map fun entry => ⟨field.name,
        .put entry.1 (entry.2.normal set canonicalSymbols (field.elementType? set))⟩ := by
  cases entries with
  | nil => rfl
  | cons entry rest =>
      simp [FieldPlan.normal, Value.isEmpty, Value.normal, normalEntries_eq_map, rebuild]

section Fields

variable {plan : MessagePlan} {field : FieldPlan} {levels depth : Nat}

/-- Elements that stand in a run are read back as items of a list. -/
theorem finishes_leaves (hleaf : ∀ name, field.type ≠ .message name) {items : List Value}
    {trees : List WireValue} (h : List.Forall₂ (ElementTree set field.type) items trees)
    (hfits : ∀ tree ∈ trees, tree.Fits) (nested : MessagePlan → Read Record) (depth : Nat) :
    Read.Finishes (Read.run (collectItem set nested field) (consumes_collectItem set nested field) [])
      depth (WireValue.runBytes trees) (.ok (items.map fun item =>
        ⟨field.name, .append (some (item.normal set canonicalSymbols (some field.type)))⟩)) := by
  have hread : List.Forall₂ (fun item tree => tree.bytes ≠ [] ∧
      Read.Parses (readValue set nested field.type) depth tree.bytes (.ok item))
      (items.map fun item => some (item.normal set canonicalSymbols (some field.type))) trees := by
    rw [List.forall₂_map_left_iff]
    refine forall₂_of_mem h ?_
    intro item _ tree htree hitem
    exact ⟨hitem.bytes_ne_nil, hitem.parses_leaf hleaf (hfits tree htree) _ _⟩
  have hfinishes := finishes_run hread []
  rw [List.map_map] at hfinishes
  exact hfinishes

/-- Elements that are written one by one are read back as items of a list. -/
theorem readsAs_each (hplan : plan.Coherent set) (hfield : field ∈ plan.fields)
    (hform : field.form = .each) {items : List Value} {trees : List WireValue}
    (h : List.Forall₂ (ElementTree set field.type) items trees)
    (hfits : ∀ tree ∈ trees, tree.Fits)
    (hnested : ∀ fields inner, .message fields ∈ items →
      set.nested? (some field.type) = some inner → ReadsBack set inner fields)
    (hlevels : levels + depth = nestingLimit) :
    ReadsAs set (nestedReader set levels) plan depth
      (WireValue.messageBytes (trees.map (field.key, ·)))
      (withinLevels levels (WireValue.messageDepth (trees.map (field.key, ·)))
        (items.map fun item => ⟨field.name,
          .append (some (item.normal set canonicalSymbols (some field.type)))⟩)) := by
  obtain ⟨hmap, hrepeated, hwritten⟩ := FieldPlan.form_eq_each hform
  induction h with
  | nil => exact .nil_within
  | @cons item tree items trees hitem hrest ih =>
      have hread := hitem.parses (hfits tree List.mem_cons_self) (fun fields inner hfields =>
        hnested fields inner (hfields ▸ List.mem_cons_self)) hlevels
      have helement := parses_element hmap hrepeated hread
      rw [map_withinLevels, ← hwritten] at helement
      exact .cons_within hplan hfield helement (ih
        (fun tree htree => hfits tree (List.mem_cons_of_mem _ htree))
        (fun fields inner hfields => hnested fields inner (List.mem_cons_of_mem _ hfields)))

/-- Elements that are written as a packed run are read back as items of a list. -/
theorem readsAs_run (hplan : plan.Coherent set) (hfield : field ∈ plan.fields)
    (hform : field.form = .packed) {items : List Value} {trees : List WireValue}
    (h : List.Forall₂ (ElementTree set field.type) items trees)
    (hfits : (WireValue.run trees).Fits) (hlevels : levels + depth = nestingLimit) :
    ReadsAs set (nestedReader set levels) plan depth
      (WireValue.messageBytes [(field.key, .run trees)])
      (withinLevels levels (WireValue.messageDepth [(field.key, .run trees)])
        (items.map fun item => ⟨field.name,
          .append (some (item.normal set canonicalSymbols (some field.type)))⟩)) := by
  obtain ⟨hmap, hpacked, hwritten⟩ := FieldPlan.form_eq_packed hform
  obtain ⟨hrepeated, -, hpackable⟩ := (hplan.fields field hfield).packed hpacked
  have hleaf := ValueType.ne_message_of_packable hpackable
  -- the run itself takes a level, its elements take none
  have hdepth : (WireValue.run trees).depth = 1 := by
    rw [WireValue.depth, runDepth_of_leaves hleaf h]
  have hrun : Read.Parses (field.changes set (nestedReader set levels) field.key) depth
      (WireValue.run trees).bytes (withinLevels levels (WireValue.run trees).depth
        (items.map fun item => ⟨field.name,
          .append (some (item.normal set canonicalSymbols (some field.type)))⟩)) := by
    rw [FieldPlan.key, hwritten, FieldPlan.changes_run hmap hrepeated hpackable, hdepth]
    refine parses_delimited_within hlevels hfits.1 ?_
    intro inner _
    rw [withinLevels_zero]
    exact finishes_leaves hleaf h (WireValue.runFits_iff.mp hfits.2) _ _
  have hreads := ReadsAs.cons_within hplan hfield hrun .nil_within
  rw [List.append_nil] at hreads
  exact hreads

/-- The entries of a map are read back as entries that are put into it. -/
theorem readsAs_entries (hset : set.Coherent) (hplan : plan.Coherent set)
    (hfield : field ∈ plan.fields) {name : String} (hform : field.form = .mapEntries name)
    {entryPlan : MessagePlan} {key : ScalarType} {type : ValueType}
    (hentryPlan : set.message? name = some entryPlan) (hentry : entryPlan.IsEntry key type)
    {entries : List (MapKey × Value)} {trees : List WireValue}
    (h : List.Forall₂ (EntryTree set key type) entries trees)
    (hfits : ∀ tree ∈ trees, tree.Fits)
    (hnested : ∀ fields inner, .message fields ∈ entries.map (·.2) →
      set.nested? (some type) = some inner → ReadsBack set inner fields)
    (hlevels : levels + depth = nestingLimit) :
    ReadsAs set (nestedReader set levels) plan depth
      (WireValue.messageBytes (trees.map (field.key, ·)))
      (withinLevels levels (WireValue.messageDepth (trees.map (field.key, ·)))
        (entries.map fun entry => ⟨field.name,
          .put entry.1 (entry.2.normal set canonicalSymbols (some type))⟩)) := by
  obtain ⟨hmap, haction, hwritten⟩ := FieldPlan.form_eq_mapEntries hform
  have htype : field.type.wireType = .lengthDelimited := by
    rw [((hplan.fields field hfield).entry_of_form hform).1]
    rfl
  induction h with
  | nil => exact .nil_within
  | @cons entry tree entries trees hfirst hrest ih =>
      have hread := hfirst.parses hset hentryPlan hentry (hfits tree List.mem_cons_self)
        (fun fields inner hfields => hnested fields inner
          (List.mem_cons.mpr (Or.inl hfields.symm))) hlevels
      have hchanges : Read.Parses (field.changes set (nestedReader set levels) field.key) depth
          tree.bytes (withinLevels levels tree.depth [⟨field.name,
            .put entry.1 (entry.2.normal set canonicalSymbols (some type))⟩]) := by
        unfold FieldPlan.changes
        simp only [haction, FieldPlan.key, hwritten, htype]
        exact (parses_expect _).bind (hread.map_within _)
      exact .cons_within hplan hfield hchanges (ih
        (fun tree htree => hfits tree (List.mem_cons_of_mem _ htree))
        (fun fields inner hfields => hnested fields inner (List.mem_cons_of_mem _ hfields)))

/-- What a message has for a field is read back as the changes that build its
normal form. -/
theorem FieldTree.readsAs (hset : set.Coherent) (hplan : plan.Coherent set)
    (hfield : field ∈ plan.fields) {found : Option Value} {trees : List WireValue}
    (h : FieldTree set field found trees) (hfits : ∀ tree ∈ trees, tree.Fits)
    (hnested : ∀ value, found = some value → ∀ fields, .message fields ∈ value.elements →
      ∀ inner, set.nested? (field.elementType? set) = some inner → ReadsBack set inner fields)
    (hlevels : levels + depth = nestingLimit) :
    ReadsAs set (nestedReader set levels) plan depth
      (WireValue.messageBytes (trees.map (field.key, ·)))
      (withinLevels levels (WireValue.messageDepth (trees.map (field.key, ·)))
        (rebuild field.name (field.normal set canonicalSymbols found))) := by
  have hcoherent := hplan.fields field hfield
  cases h with
  | absent => exact .nil_within
  | @single value tree hform htree =>
      obtain ⟨hmap, haction, hwritten⟩ := FieldPlan.form_eq_single hform
      have helement : field.elementType? set = some field.type :=
        FieldPlan.elementType?_of_not_map hmap
      obtain ⟨hempty, hrebuild⟩ := htree.rebuild_normal field.name
      have hnormal : field.normal set canonicalSymbols (some value) =
          some (value.normal set canonicalSymbols (some field.type)) := by
        simp [FieldPlan.normal, hempty, helement]
      have hread := htree.parses (hfits tree List.mem_cons_self) (fun fields inner hfields hinner =>
        hnested value rfl fields (by simp [hfields]) inner (helement ▸ hinner)) hlevels
      have hsingle := parses_single_within haction hread
      rw [← hwritten] at hsingle
      rw [hnormal, hrebuild]
      exact .cons_within hplan hfield hsingle .nil_within
  | @each items trees hform htrees =>
      have helement : field.elementType? set = some field.type :=
        FieldPlan.elementType?_of_not_map (FieldPlan.form_eq_each hform).1
      rw [rebuild_normal_list, helement]
      exact readsAs_each hplan hfield hform htrees hfits (fun fields inner hfields hinner =>
        hnested _ rfl fields hfields inner (helement ▸ hinner)) hlevels
  | noItems hform => exact .nil_within
  | @packed items trees hform hitems htrees =>
      rw [rebuild_normal_list,
        FieldPlan.elementType?_of_not_map (FieldPlan.form_eq_packed hform).1]
      exact readsAs_run hplan hfield hform htrees (hfits _ List.mem_cons_self) hlevels
  | @entries name entryPlan key type entries trees hform hentryPlan hentry htrees =>
      obtain ⟨htype, _⟩ := hcoherent.entry_of_form hform
      have helement := FieldPlan.elementType?_of_entry (FieldPlan.form_eq_mapEntries hform).1 htype
        hentryPlan hentry
      rw [rebuild_normal_map, helement]
      exact readsAs_entries hset hplan hfield hform hentryPlan hentry htrees hfits
        (fun fields inner hfields hinner =>
          hnested _ rfl fields hfields inner (helement ▸ hinner)) hlevels

end Fields

end WireCodec
