import WireCodec.Proofs.Codec.ReadBack
import WireCodec.Proofs.Codec.WritesTree

/-! # Round trip

Decoding what was encoded gives the canonical form of the message, up to the
exact level of nesting that decoding admits.
-/

namespace WireCodec

variable (set : PlanSet)

/-- No required field is missing, in a message and in all messages nested in it. -/
inductive PlanSet.Complete : MessagePlan → Record → Prop
  | intro {plan : MessagePlan} {record : Record}
      (own : ∀ field ∈ plan.fields, field.cardinality = .required →
        Record.contains record field.name = true)
      (nested : ∀ pair ∈ record, ∀ field, plan.field? pair.1 = some field →
        ∀ inner, set.nested? (field.elementType? set) = some inner →
          ∀ fields, .message fields ∈ pair.2.elements → PlanSet.Complete inner fields) :
      PlanSet.Complete plan record

/-- How many length-delimited payloads are open at once at most in the encoding
of a message: nested messages, map entries and packed runs. -/
def PlanSet.nestingDepth (plan : MessagePlan) (record : Record) : Nat :=
  match messageTree set plan record with
  | .ok tree => WireValue.messageDepth tree
  | .error _ => 0

/-- All length-delimited payloads in the encoding of a message are shorter than
2³² bytes. -/
def PlanSet.PayloadsFit (plan : MessagePlan) (record : Record) : Prop :=
  ∀ tree, messageTree set plan record = .ok tree → WireValue.MessageFits tree

variable {set}

/-- Payloads are no longer than the encoding that they are in. -/
theorem PlanSet.payloadsFit_of_size {plan : MessagePlan} {record : Record} {bytes : Bytes}
    (hencode : set.encode plan record = .ok bytes) (hsize : bytes.size < 2 ^ 32) :
    set.PayloadsFit plan record := by
  rw [PlanSet.encode_eq] at hencode
  obtain ⟨tree, htree, rfl⟩ := Except.map_eq_ok.mp hencode
  intro other hother
  obtain rfl : tree = other := Except.ok.inj (htree.symm.trans hother)
  exact WireValue.messageFits_of_length tree hsize

theorem PlanSet.Coherent.of_nested? (h : set.Coherent) {type : Option ValueType}
    {plan : MessagePlan} (hplan : set.nested? type = some plan) : plan.Coherent set := by
  unfold PlanSet.nested? at hplan
  split at hplan
  · exact h.of_message? hplan
  · cases hplan

theorem FieldPlan.isEmpty_of_normal {rename : EnumTable → String → Value}
    (hrename : ∀ table symbol, (rename table symbol).isEmpty = false) {field : FieldPlan}
    {found : Option Value} {value : Value} (h : field.normal set rename found = some value) :
    value.isEmpty = false := by
  obtain ⟨old, rfl, hsome⟩ := Option.bind_eq_some_iff.mp h
  split at hsome
  next => cases hsome
  next hempty =>
    cases hsome
    rw [Value.isEmpty_normal rename hrename]
    exact eq_false_of_ne_true hempty

theorem Sorted.increasing_map {κ α β : Type} [Ord κ] {pairs : List (κ × α)}
    (h : Increasing pairs) (f : κ × α → β) :
    Increasing (pairs.map fun pair => (pair.1, f pair)) :=
  List.pairwise_map.mpr h

/-- The normal form of a map keeps the order of its keys. -/
theorem FieldPlan.increasing_of_normal {field : FieldPlan} {found : Option Value}
    (hmap : ∀ entries, found = some (.map entries) → Sorted.Increasing entries)
    {entries : List (MapKey × Value)}
    (h : field.normal set canonicalSymbols found = some (.map entries)) :
    Sorted.Increasing entries := by
  obtain ⟨old, rfl, hsome⟩ := Option.bind_eq_some_iff.mp h
  split at hsome
  next => cases hsome
  next =>
    cases old with
    | map oldEntries =>
        simp only [Value.normal, normalEntries_eq_map, Option.some.injEq, Value.map.injEq] at hsome
        subst hsome
        exact Sorted.increasing_map (hmap _ rfl) _
    | enum symbol =>
        simp only [Value.normal, renameSymbol, Option.some.injEq] at hsome
        split at hsome
        · split at hsome <;> cases hsome
        · cases hsome
    | message fields =>
        simp only [Value.normal, Option.some.injEq] at hsome
        split at hsome <;> cases hsome
    | _ => simp [Value.normal] at hsome

theorem FieldTree.isEmpty_of_required {field : FieldPlan} (hfield : field.Coherent set)
    (hrequired : field.cardinality = .required) {value : Value} {trees : List WireValue}
    (h : FieldTree set field (some value) trees) : value.isEmpty = false := by
  have hnotPacked : ¬ field.packed = true := by
    intro hpacked
    rw [(hfield.packed hpacked).1] at hrequired
    cases hrequired
  cases h with
  | single hform htree => exact (htree.rebuild_normal field.name).1
  | each hform htrees =>
      rw [(FieldPlan.form_eq_each hform).2.1] at hrequired
      cases hrequired
  | noItems hform => exact absurd (FieldPlan.form_eq_packed hform).2.1 hnotPacked
  | packed hform hitems htrees => exact absurd (FieldPlan.form_eq_packed hform).2.1 hnotPacked
  | entries hform hplan hentry htrees =>
      rw [(hfield.entry (FieldPlan.form_eq_mapEntries hform).1).1] at hrequired
      cases hrequired

section Message

variable {plan : MessagePlan} {record : Record}

/-- The changes that build the canonical form of a message. -/
def MessagePlan.rebuild (set : PlanSet) (plan : MessagePlan) (record : Record) : List Change :=
  plan.fields.flatMap fun field =>
    WireCodec.rebuild field.name
      (field.normal set canonicalSymbols (Record.value? record field.name))

theorem applyAll_rebuild (hplan : plan.Coherent set) (hordered : record.Ordered)
    (hknown : Record.unknownNames record plan = []) :
    Change.applyAll (plan.rebuild set record) [] = set.canonical plan record := by
  obtain ⟨hfields, hmaps, -⟩ := hordered
  have hnames : ∀ field ∈ plan.fields, ∀ change ∈ WireCodec.rebuild field.name
      (field.normal set canonicalSymbols (Record.value? record field.name)),
      change.name = field.name := fun field _ change hchange => name_of_mem_rebuild hchange
  refine eq_normalFields hplan hfields hknown
    (Change.increasing_applyAll Sorted.increasing_nil _) ?_ ?_
  · intro name hname
    rw [Change.value?_applyAll, MessagePlan.rebuild, filter_flatMap_eq_nil hnames hname]
    rfl
  · intro field hfield
    rw [Change.value?_applyAll, MessagePlan.rebuild,
      filter_flatMap_of_mem hplan.names hnames hfield]
    refine foldl_rebuild _ ?_ ?_
    · intro value hvalue
      exact FieldPlan.isEmpty_of_normal (fun _ _ => rfl) hvalue
    · intro entries hentries
      refine FieldPlan.increasing_of_normal ?_ hentries
      intro entries hfound
      exact hmaps _ (Sorted.mem_of_find? hfound) entries rfl

/-- The canonical form of a complete message has its required fields. -/
theorem completed_canonical (hplan : plan.Coherent set) (hordered : record.Ordered)
    (hcomplete : set.Complete plan record) {own : FieldPlan → List WireValue}
    (hown : ∀ field ∈ plan.fields,
      FieldTree set field (Record.value? record field.name) (own field)) :
    plan.completed (set.canonical plan record) = .ok (set.canonical plan record) := by
  obtain ⟨hfields, -, -⟩ := hordered
  obtain ⟨hrequired, -⟩ := hcomplete
  refine (MessagePlan.completed_eq_ok hplan.toLaidOut).mpr ⟨rfl, ?_⟩
  intro field hmem hcardinality
  obtain ⟨value, hvalue⟩ := Option.isSome_iff_exists.mp (hrequired field hmem hcardinality)
  have htree := hown field hmem
  rw [hvalue] at htree
  have hempty := htree.isEmpty_of_required (hplan.fields field hmem) hcardinality
  rw [Record.contains, PlanSet.canonical, value?_normalFields_of_mem hplan hfields hmem, hvalue]
  simp [FieldPlan.normal, hempty]

/-- Trees that stand field after field are read as the changes to one field
after the other. -/
theorem readsAs_flatMap {levels depth : Nat} {own : FieldPlan → List WireValue}
    {changes : FieldPlan → List Change} {fields : List FieldPlan}
    (h : ∀ field ∈ fields, ReadsAs set (nestedReader set levels) plan depth
      (WireValue.messageBytes ((own field).map (field.key, ·)))
      (withinLevels levels (WireValue.messageDepth ((own field).map (field.key, ·)))
        (changes field))) :
    ReadsAs set (nestedReader set levels) plan depth
      (WireValue.messageBytes (fields.flatMap fun field => (own field).map (field.key, ·)))
      (withinLevels levels
        (WireValue.messageDepth (fields.flatMap fun field => (own field).map (field.key, ·)))
        (fields.flatMap changes)) := by
  induction fields with
  | nil => exact .nil_within
  | cons field rest ih =>
      obtain ⟨hfirst, hrest⟩ := List.forall_mem_cons.mp h
      simp only [List.flatMap_cons, WireValue.messageBytes_append, WireValue.messageDepth_append]
      exact hfirst.append_within (ih hrest)

end Message

/-- The tree of every ordered and complete message is read back. -/
theorem readsBack (hset : set.Coherent) (record : Record) (hordered : record.Ordered)
    {plan : MessagePlan} (hplan : plan.Coherent set) (hcomplete : set.Complete plan record) :
    ReadsBack set plan record := by
  -- the induction is on how messages nest in the value, not on the levels that are left
  induction record using Record.nesting_induction generalizing plan with
  | step record nested =>
      intro tree levels depth htree hfits hlevels
      obtain ⟨hknown, own, hown, rfl⟩ := (messageTree_eq_ok hplan.named).mp htree
      have ⟨_, hcompleteNested⟩ := hcomplete
      have ⟨_, _, horderedNested⟩ := hordered
      let tree := plan.fields.flatMap fun field => (own field).map (field.key, ·)
      have hreads : ReadsAs set (nestedReader set levels) plan depth (WireValue.messageBytes tree)
          (withinLevels levels (WireValue.messageDepth tree) (plan.rebuild set record)) := by
        refine readsAs_flatMap ?_
        intro field hfield
        refine (hown field hfield).readsAs hset hplan hfield ?_ ?_ hlevels
        · intro tree htree
          refine WireValue.messageFits_iff.mp hfits (field.key, tree) ?_
          exact List.mem_flatMap.mpr ⟨field, hfield, List.mem_map_of_mem htree⟩
        · intro value hvalue fields hmem inner hinner
          have hpair := Sorted.mem_of_find? hvalue
          exact nested _ hpair fields hmem (horderedNested _ hpair fields hmem)
            (hset.of_nested? hinner)
            (hcompleteNested _ hpair field (hplan.field?_of_mem hfield) inner hinner fields hmem)
      have hcompleted : plan.completed (Change.applyAll (plan.rebuild set record) []) =
          .ok (set.canonical plan record) := by
        rw [applyAll_rebuild hplan hordered hknown]
        exact completed_canonical hplan hordered hcomplete hown
      rw [readMessageWithin_eq]
      exact hreads.finishes_within hcompleted

/-- The bytes of a tree are decoded as what the tree was made of, within the
nesting limit. -/
theorem PlanSet.decode_messageBytes (hset : set.Coherent) {plan : MessagePlan}
    (hplan : plan.Coherent set) {record : Record} (hordered : record.Ordered)
    (hcomplete : set.Complete plan record) {tree : List (Key × WireValue)}
    (htree : messageTree set plan record = .ok tree) (hfits : WireValue.MessageFits tree) :
    set.decode plan (WireValue.messageBytes tree).toArray =
      if set.nestingDepth plan record ≤ nestingLimit then .ok (set.canonical plan record)
      else .error .nestingTooDeep := by
  have hdepth : set.nestingDepth plan record = WireValue.messageDepth tree := by
    unfold PlanSet.nestingDepth
    rw [htree]
  rw [hdepth]
  exact PlanSet.decode_of_finishes (finishes_readMessage
    (readsBack hset record hordered hplan hcomplete tree nestingLimit 0 htree hfits rfl))

/-- An encoded message is decoded as its canonical form if no more payloads are
open at once than the nesting limit admits, and is refused otherwise. -/
theorem PlanSet.decode_of_encode {source : String} {schema : Schema} {set : PlanSet}
    (hcompile : compile source = .ok schema) (hdistinct : schema.DistinctFields)
    (hbuild : schema.build = .ok set) {message : String} {plan : MessagePlan}
    (hplan : set.declared? message = some plan) {record : Record} (hordered : record.Ordered)
    (hcomplete : set.Complete plan record) {bytes : Bytes}
    (hencode : set.encode plan record = .ok bytes) (hfits : set.PayloadsFit plan record) :
    set.decode plan bytes =
      if set.nestingDepth plan record ≤ nestingLimit then .ok (set.canonical plan record)
      else .error .nestingTooDeep := by
  have hset := coherent_of_build hcompile hdistinct hbuild
  rw [PlanSet.encode_eq] at hencode
  obtain ⟨tree, htree, rfl⟩ := Except.map_eq_ok.mp hencode
  exact PlanSet.decode_messageBytes hset (hset.of_declared? hplan) hordered hcomplete htree
    (hfits tree htree)

/-! ## Nodes

A schema with an enum, a packed list and messages nested in maps and in
messages, for which the laws can be followed on given messages.
-/

def nodeSource : String :=
  "enum Hue \x7b RED = 0; CRIMSON = 0; \x7d message Node \x7b " ++
    "required Hue hue = 1; repeated sint32 sizes = 2; map<bool, Node> kids = 3; " ++
    "optional Node next = 4; \x7d"

def huesTable : EnumTable := ⟨"Hue", [("RED", 0), ("CRIMSON", 0)]⟩

def nodePlan : MessagePlan :=
  .ofFields "Node" false
    [(⟨"hue", 1, .detached "Hue", .required, none, false⟩, .enum "Hue"),
      (⟨"sizes", 2, .detached "sint32", .repeated, none, false⟩, .scalar .sint32),
      (⟨"kids", 3, .detached "Node.KidsEntry", .repeated, none, true⟩, .message "Node.KidsEntry"),
      (⟨"next", 4, .detached "Node", .optional, none, false⟩, .message "Node")]

def nodeEntryPlan : MessagePlan :=
  .ofFields "Node.KidsEntry" true
    [(.ofEntry keyField 1 (.detached "bool"), .scalar .bool),
      (.ofEntry valueField 2 (.detached "Node"), .message "Node")]

def nodePlans : PlanSet := ⟨none, [huesTable], [nodePlan, nodeEntryPlan]⟩

theorem compile_nodeSource : ∃ schema, compile nodeSource = .ok schema ∧
    schema.DistinctFields ∧ schema.build = .ok nodePlans :=
  Except.exists_of_any (by decide +kernel)

def nodeRecord : Record :=
  [("hue", .enum "CRIMSON"),
    ("kids", .map [(.bool true, .message [("hue", .enum "RED"), ("sizes", .list [])])]),
    ("sizes", .list [.int32 (-1)])]

theorem nodePlan_fields : nodePlan.fields = [⟨"hue", 1, .required, .enum "Hue", false, false⟩,
    ⟨"sizes", 2, .repeated, .scalar .sint32, true, false⟩,
    ⟨"kids", 3, .repeated, .message "Node.KidsEntry", false, true⟩,
    ⟨"next", 4, .optional, .message "Node", false, false⟩] :=
  rfl

def nodeTree : List (Key × WireValue) :=
  [(⟨1, 0⟩, ScalarType.wire .int32 0), (⟨2, 2⟩, .run [ScalarType.wire .sint32 (-1)]),
    (⟨3, 2⟩, .message [(⟨1, 0⟩, ScalarType.wire .bool true),
      (⟨2, 2⟩, .message [(⟨1, 0⟩, ScalarType.wire .int32 0)])])]

theorem nodePlan_coherent : nodePlan.Coherent nodePlans := by
  obtain ⟨schema, hcompile, hdistinct, hbuild⟩ := compile_nodeSource
  exact coherent_of_build hcompile hdistinct hbuild nodePlan List.mem_cons_self

theorem nodeEntryPlan_isEntry : nodeEntryPlan.IsEntry .bool (.message "Node") := ⟨rfl, rfl, rfl⟩

/-- What there is on the wire for a node without items, kids and a next node. -/
theorem messageTree_leafNode {symbol : String} {number : Int32}
    (hnumber : huesTable.number? symbol = some number) {rest : Record}
    (hrest : rest = [] ∨ rest = [("sizes", .list [])]) :
    messageTree nodePlans nodePlan (("hue", .enum symbol) :: rest) =
      .ok [(⟨1, 0⟩, ScalarType.wire .int32 number)] := by
  let own : FieldPlan → List WireValue := fun field =>
    if field.name = "hue" then [ScalarType.wire .int32 number] else []
  rcases hrest with rfl | rfl
  · refine (messageTree_eq_ok nodePlan_coherent.named).mpr ⟨rfl, own, ?_, rfl⟩
    rw [nodePlan_fields]
    simp only [List.forall_mem_cons]
    exact ⟨.single rfl (.enum rfl hnumber), .absent, .absent, .absent, by simp⟩
  · refine (messageTree_eq_ok nodePlan_coherent.named).mpr ⟨rfl, own, ?_, rfl⟩
    rw [nodePlan_fields]
    simp only [List.forall_mem_cons]
    exact ⟨.single rfl (.enum rfl hnumber), .noItems rfl, .absent, .absent, by simp⟩

theorem messageTree_nodeRecord : messageTree nodePlans nodePlan nodeRecord = .ok nodeTree := by
  let own : FieldPlan → List WireValue := fun field =>
    if field.name = "hue" then [ScalarType.wire .int32 0]
    else if field.name = "sizes" then [.run [ScalarType.wire .sint32 (-1)]]
    else if field.name = "kids" then
      [.message [(⟨1, 0⟩, ScalarType.wire .bool true),
        (⟨2, 2⟩, .message [(⟨1, 0⟩, ScalarType.wire .int32 0)])]]
    else []
  refine (messageTree_eq_ok nodePlan_coherent.named).mpr ⟨rfl, own, ?_, rfl⟩
  rw [nodePlan_fields]
  simp only [List.forall_mem_cons]
  refine ⟨.single rfl (.enum rfl rfl), ?_, ?_, .absent, by simp⟩
  · exact .packed rfl (by simp) (.cons (.scalar .sint32 (-1)) .nil)
  · exact .entries rfl rfl nodeEntryPlan_isEntry
      (.cons (.intro (.scalar .bool true) (.message rfl (messageTree_leafNode rfl (Or.inr rfl)))) .nil)

theorem ordered_leafNode {symbol : String} {rest : Record}
    (hrest : rest = [] ∨ rest = [("sizes", .list [])]) :
    Record.Ordered (("hue", .enum symbol) :: rest) := by
  rcases hrest with rfl | rfl
  · refine .intro ?_ ?_ ?_ <;>
      simp [Sorted.increasing_cons, Sorted.increasing_nil, Value.elements]
  · refine .intro ?_ ?_ ?_
    · simp [Sorted.increasing_cons, Sorted.increasing_nil]
      decide
    · simp
    · simp [Value.elements]

theorem ordered_nodeRecord : Record.Ordered nodeRecord := by
  refine .intro ?_ ?_ ?_
  · simp [nodeRecord, Sorted.increasing_cons, Sorted.increasing_nil]
    decide
  · simp [nodeRecord, Sorted.increasing_cons, Sorted.increasing_nil]
  · simp only [nodeRecord, List.forall_mem_cons]
    refine ⟨by simp [Value.elements], ?_, by simp [Value.elements], by simp⟩
    intro inner hinner
    obtain rfl : inner = [("hue", .enum "RED"), ("sizes", .list [])] := by
      simpa [Value.elements] using hinner
    exact ordered_leafNode (Or.inr rfl)

theorem complete_nodeRecord : nodePlans.Complete nodePlan nodeRecord := by
  refine .intro ?_ ?_
  · simp [nodePlan_fields, nodeRecord, Record.contains, Record.value?, Sorted.find?]
  · simp only [nodeRecord, List.forall_mem_cons]
    refine ⟨by simp [Value.elements], ?_, by simp [Value.elements], by simp⟩
    intro field hfield inner hinner fields hmem
    have hkids : field = ⟨"kids", 3, .repeated, .message "Node.KidsEntry", false, true⟩ :=
      Option.some.inj (hfield.symm.trans rfl)
    subst hkids
    obtain rfl : inner = nodePlan := Option.some.inj (hinner.symm.trans rfl)
    obtain rfl : fields = [("hue", .enum "RED"), ("sizes", .list [])] := by
      simpa [Value.elements] using hmem
    refine .intro ?_ ?_
    · simp [nodePlan_fields, Record.contains, Record.value?, Sorted.find?]
    · simp [Value.elements]

theorem messageBytes_nodeTree : WireValue.messageBytes nodeTree =
    [8, 0, 18, 1, 1, 26, 6, 8, 1, 18, 2, 8, 0] := by
  have hhue : ScalarType.wire .int32 0 = .inline [0] :=
    congrArg WireValue.inline (Varint.encode_of_lt (by decide))
  have hsize : ScalarType.wire .sint32 (-1) = .inline [1] :=
    congrArg WireValue.inline (Varint.encode_of_lt (by decide))
  have hkey : ScalarType.wire .bool true = .inline [1] := rfl
  simp [nodeTree, hhue, hsize, hkey, WireValue.messageBytes, WireValue.bytes, WireValue.runBytes,
    delimitedForm, Key.form, Key.word, Varint.encode_of_lt]

theorem encode_nodeRecord : nodePlans.encode nodePlan nodeRecord =
    .ok #[8, 0, 18, 1, 1, 26, 6, 8, 1, 18, 2, 8, 0] := by
  rw [PlanSet.encode_eq, messageTree_nodeRecord, Except.map_ok, messageBytes_nodeTree]

theorem payloadsFit_nodeRecord : nodePlans.PayloadsFit nodePlan nodeRecord :=
  PlanSet.payloadsFit_of_size encode_nodeRecord (by decide)

section Reads

variable {nested : MessagePlan → Read Record} {depth : Nat}

def redChange : Change := ⟨"hue", .assign (some (.enum "RED"))⟩

theorem parses_red : Read.Parses (occurrenceChanges nodePlans nested nodePlan) depth [8, 0]
    (.ok (some [redChange])) := by
  let hue : FieldPlan := ⟨"hue", 1, .required, .enum "Hue", false, false⟩
  have hfield : hue ∈ nodePlan.fields := by simp [nodePlan_fields, hue]
  have htree : ElementTree nodePlans hue.type (.enum "RED") (ScalarType.wire .int32 0) :=
    .enum rfl rfl
  have hread := htree.parses_leaf (fun _ => by simp [hue]) trivial nested depth
  have hbytes : (ScalarType.wire .int32 0).bytes = [0] := Varint.encode_of_lt (by decide)
  have hform : Key.form ⟨1, 0⟩ = [8] := Varint.encode_of_lt (by decide)
  have hkey : Key.form ⟨hue.number, hue.type.wireType.code⟩ = [8] := hform
  have h := parses_occurrence nodePlan_coherent hfield (parses_single rfl hread)
  rw [hbytes, hkey] at h
  exact h

def sizeChange : Change := ⟨"sizes", .append (some (.int32 (-1)))⟩

theorem parses_size : Read.Parses (occurrenceChanges nodePlans nested nodePlan) depth [16, 1]
    (.ok (some [sizeChange])) := by
  let sizes : FieldPlan := ⟨"sizes", 2, .repeated, .scalar .sint32, true, false⟩
  have hfield : sizes ∈ nodePlan.fields := by simp [nodePlan_fields, sizes]
  have htree : ElementTree nodePlans sizes.type (.int32 (-1)) (ScalarType.wire .sint32 (-1)) :=
    .scalar .sint32 (-1)
  have hread := htree.parses_leaf (fun _ => by simp [sizes]) trivial nested depth
  have hbytes : (ScalarType.wire .sint32 (-1)).bytes = [1] := Varint.encode_of_lt (by decide)
  have hform : Key.form ⟨2, 0⟩ = [16] := Varint.encode_of_lt (by decide)
  have hkey : Key.form ⟨sizes.number, sizes.type.wireType.code⟩ = [16] := hform
  have h := parses_occurrence nodePlan_coherent hfield (parses_element rfl rfl hread)
  rw [hbytes, hkey] at h
  exact h

end Reads

theorem decode_of_encode_node :
    nodePlans.decode nodePlan #[8, 0, 18, 1, 1, 26, 6, 8, 1, 18, 2, 8, 0] =
      .ok [("hue", .enum "RED"), ("kids", .map [(.bool true, .message [("hue", .enum "RED")])]),
        ("sizes", .list [.int32 (-1)])] := by
  obtain ⟨schema, hcompile, hdistinct, hbuild⟩ := compile_nodeSource
  have hplan : nodePlans.declared? "Node" = some nodePlan := rfl
  have hdepth : nodePlans.nestingDepth nodePlan nodeRecord = 2 := by
    rw [PlanSet.nestingDepth, messageTree_nodeRecord]
    rfl
  have hdecode := PlanSet.decode_of_encode hcompile hdistinct hbuild hplan ordered_nodeRecord
    complete_nodeRecord encode_nodeRecord payloadsFit_nodeRecord
  rw [hdepth, if_pos (by decide)] at hdecode
  rw [hdecode]
  rfl

end WireCodec
