import WireCodec.Proofs.Codec.Decoded
import WireCodec.Proofs.Codec.RoundTrip

/-! # Encoding what was decoded

A decoded message can be encoded again, and is its own canonical form. Its
encoding nests messages no deeper than the bytes did that it was decoded from;
only its packed runs, which may have come one element at a time, may lie one
level deeper than the nesting limit.
-/

namespace WireCodec

variable (set : PlanSet)

/-- No enum has the same symbol twice. -/
def PlanSet.DistinctSymbols : Prop := ∀ table ∈ set.enums, (table.values.map (·.1)).Nodup

/-- What holds of the messages that are read where payloads may nest a number
of levels deep. -/
structure Reencodes (levels : Nat) (plan : MessagePlan) (record : Record) : Prop where
  ordered : record.Ordered
  complete : set.Complete plan record
  canonical : set.canonical plan record = record
  tree : ∃ tree, messageTree set plan record = .ok tree ∧ WireValue.messageNesting tree ≤ levels

/-- What holds of the messages nested in those. -/
def NestedReencodes (levels : Nat) (plan : MessagePlan) (record : Record) : Prop :=
  plan.Coherent set ∧ ∃ inner, levels = inner + 1 ∧ Reencodes set inner plan record

variable {set} {levels : Nat}

theorem Reencodes.normal_eq {plan : MessagePlan} {record : Record}
    (h : Reencodes set levels plan record) (hplan : plan.Coherent set) {field : FieldPlan}
    (hfield : field ∈ plan.fields) :
    field.normal set canonicalSymbols (Record.value? record field.name) =
      Record.value? record field.name := by
  obtain ⟨hincreasing, -, -⟩ := h.ordered
  rw [← value?_normalFields_of_mem hplan hincreasing hfield]
  exact congrArg (Record.value? · field.name) h.canonical

theorem EnumTable.number?_of_symbol? {table : EnumTable}
    (hdistinct : (table.values.map (·.1)).Nodup) {number : Int32} {symbol : String}
    (h : table.symbol? number = some symbol) : table.number? symbol = some number := by
  obtain ⟨⟨found, value⟩, hfound, rfl⟩ := Option.map_eq_some_iff.mp h
  have hmem : (found, value) ∈ table.values := List.mem_of_find?_eq_some hfound
  obtain rfl : value = number := by simpa using List.find?_some hfound
  have hsome : (table.values.reverse.find? (·.1 == found)).isSome :=
    List.find?_isSome.mpr ⟨_, List.mem_reverse.mpr hmem, beq_self_eq_true _⟩
  obtain ⟨other, hother⟩ := Option.isSome_iff_exists.mp hsome
  have hotherMem : other ∈ table.values := List.mem_reverse.mp (List.mem_of_find?_eq_some hother)
  have hname : other.1 = found := by simpa using List.find?_some hother
  obtain rfl := List.inj_on_of_nodup_map hdistinct hotherMem hmem hname
  simp [EnumTable.number?, EnumTable.symbolNumber?, hother]

section Elements

variable {type : ValueType} {value : Value}

theorem DecodedElement.tree (hdistinct : set.DistinctSymbols)
    (h : DecodedElement set (NestedReencodes set levels) type value) :
    ∃ tree, ElementTree set type value tree ∧ tree.nesting ≤ levels := by
  cases h with
  | scalar type x =>
      refine ⟨_, .scalar type x, ?_⟩
      cases type <;> exact Nat.zero_le _
  | enum htable hsymbol =>
      have hmem := List.mem_reverse.mp (List.mem_of_find?_eq_some htable)
      exact ⟨_, .enum htable (EnumTable.number?_of_symbol? (hdistinct _ hmem) hsymbol),
        Nat.zero_le _⟩
  | message hplan hfields =>
      obtain ⟨_, inner, rfl, hinner⟩ := hfields
      obtain ⟨tree, htree, hnesting⟩ := hinner.tree
      exact ⟨_, .message hplan htree, Nat.succ_le_succ hnesting⟩

theorem DecodedElement.normal_eq (hdistinct : set.DistinctSymbols)
    (h : DecodedElement set (NestedReencodes set levels) type value) :
    value.normal set canonicalSymbols (some type) = value := by
  cases h with
  | scalar type x => exact Value.normal_ofScalar _ type x
  | enum htable hsymbol =>
      have hmem := List.mem_reverse.mp (List.mem_of_find?_eq_some htable)
      have hnumber := EnumTable.number?_of_symbol? (hdistinct _ hmem) hsymbol
      simp [Value.normal, renameSymbol, htable, EnumTable.canonicalSymbol, hnumber, hsymbol]
  | message hplan hfields =>
      obtain ⟨_, inner, rfl, hinner⟩ := hfields
      have hcanonical := hinner.canonical
      rw [PlanSet.canonical] at hcanonical
      simp [Value.normal, PlanSet.nested?, hplan, hcanonical]

theorem DecodedElement.elements_eq {Nested : MessagePlan → Record → Prop}
    (h : DecodedElement set Nested type value) : value.elements = [value] := by
  cases h with
  | scalar type x => cases type <;> rfl
  | enum htable hsymbol => rfl
  | message hplan hfields => rfl

theorem DecodedElement.ne_map {Nested : MessagePlan → Record → Prop}
    (h : DecodedElement set Nested type value) (entries : List (MapKey × Value)) :
    value ≠ .map entries := by
  cases h with
  | scalar type x => cases type <;> simp [Value.ofScalar]
  | enum htable hsymbol => simp
  | message hplan hfields => simp

theorem DecodedElement.nested (h : DecodedElement set (NestedReencodes set levels) type value)
    {fields : Record} (hvalue : value = .message fields) : fields.Ordered ∧
      ∀ inner, set.nested? (some type) = some inner → set.Complete inner fields := by
  cases h with
  | scalar type x => cases type <;> cases hvalue
  | enum htable hsymbol => cases hvalue
  | message hplan hfields =>
      cases hvalue
      obtain ⟨_, _, _, hinner⟩ := hfields
      refine ⟨hinner.ordered, ?_⟩
      intro other hother
      obtain rfl := Option.some.inj (hplan.symm.trans hother)
      exact hinner.complete

end Elements

section Entries

variable {name : String} {plan : MessagePlan} {key : ScalarType} {type : ValueType}
  {entry : MapKey × Value}

theorem DecodedEntry.tree (hplan : set.message? name = some plan) (hentry : plan.IsEntry key type)
    (h : DecodedEntry set (NestedReencodes set levels) name entry) :
    ∃ tree, EntryTree set key type entry tree ∧ tree.nesting ≤ levels := by
  obtain ⟨_, pair, hplan', ⟨hcoherent, inner, rfl, hpair⟩, hkey, hvalue⟩ := h
  obtain rfl := Option.some.inj (hplan.symm.trans hplan')
  obtain ⟨tree, htree, hnesting⟩ := hpair.tree
  obtain ⟨-, own, hown, rfl⟩ := (messageTree_eq_ok hcoherent.named).mp htree
  have hkeyTree := hown (.ofEntry keyField 1 (.scalar key)) (by simp [hentry.fields])
  have hvalueTree := hown (.ofEntry valueField 2 type) (by simp [hentry.fields])
  rw [FieldPlan.ofEntry, hkey] at hkeyTree
  rw [FieldPlan.ofEntry, hvalue] at hvalueTree
  obtain ⟨hnone, _⟩ | ⟨_, first, hsome, hfirst, hfirstTree⟩ := hkeyTree.of_single rfl
  · cases hnone
  obtain ⟨hnone, _⟩ | ⟨_, second, hsome', hsecond, hsecondTree⟩ := hvalueTree.of_single rfl
  · cases hnone
  cases hsome
  cases hsome'
  refine ⟨_, .intro hfirstTree hsecondTree, ?_⟩
  rw [hentry.fields] at hnesting
  simp only [List.flatMap_cons, FieldPlan.ofEntry, hfirst, hsecond] at hnesting
  exact Nat.succ_le_succ hnesting

theorem DecodedEntry.normal_eq (hplan : set.message? name = some plan)
    (hentry : plan.IsEntry key type) (h : DecodedEntry set (NestedReencodes set levels) name entry) :
    entry.2.normal set canonicalSymbols (some type) = entry.2 := by
  obtain ⟨_, pair, hplan', ⟨hcoherent, inner, rfl, hpair⟩, _, hvalue⟩ := h
  obtain rfl := Option.some.inj (hplan.symm.trans hplan')
  have hfield : .ofEntry valueField 2 type ∈ plan.fields := by simp [hentry.fields]
  have hnormal := hpair.normal_eq hcoherent hfield
  have helement : (FieldPlan.ofEntry valueField 2 type).elementType? set = some type :=
    FieldPlan.elementType?_of_not_map rfl
  have hname : (FieldPlan.ofEntry valueField 2 type).name = valueField := rfl
  rw [hname, hvalue, FieldPlan.normal, Option.bind_some, helement] at hnormal
  split at hnormal
  · cases hnormal
  · exact Option.some.inj hnormal

theorem DecodedEntry.nested (hplan : set.message? name = some plan)
    (hentry : plan.IsEntry key type) (h : DecodedEntry set (NestedReencodes set levels) name entry)
    {fields : Record} (hfields : entry.2 = .message fields) : fields.Ordered ∧
      ∀ inner, set.nested? (some type) = some inner → set.Complete inner fields := by
  obtain ⟨_, pair, hplan', ⟨hcoherent, inner, rfl, hpair⟩, _, hvalue⟩ := h
  obtain rfl := Option.some.inj (hplan.symm.trans hplan')
  have hmem := Sorted.mem_of_find? hvalue
  have helement : Value.message fields ∈ entry.2.elements := by simp [hfields]
  obtain ⟨-, -, hordered⟩ := hpair.ordered
  obtain ⟨-, hcomplete⟩ := hpair.complete
  refine ⟨hordered _ hmem fields helement, ?_⟩
  intro other hother
  exact hcomplete _ hmem (.ofEntry valueField 2 type) hentry.field?_value other hother fields helement

end Entries

section Fields

variable {field : FieldPlan} {found : Option Value}

theorem FieldPlan.form_of_single (hfield : field.Coherent set) (hmap : field.isMapEntry = false)
    (hsingle : field.cardinality ≠ .repeated) : field.form = .single := by
  have hpacked : field.packed = false :=
    eq_false_of_ne_true fun hpacked => hsingle (hfield.packed hpacked).1
  simp [FieldPlan.form, hmap, hpacked, hsingle]

theorem FieldPlan.Coherent.entryPlan (hfield : field.Coherent set) (hmap : field.isMapEntry = true) :
    ∃ plan key type, set.message? field.type.name = some plan ∧ plan.IsEntry key type ∧
      field.elementType? set = some type := by
  obtain ⟨_, name, plan, key, type, htype, hplan, hentry⟩ := hfield.entry hmap
  refine ⟨plan, key, type, ?_, hentry, FieldPlan.elementType?_of_entry hmap htype hplan hentry⟩
  rw [htype]
  exact hplan

/-- What a decoded message has for a field can be encoded. -/
theorem DecodedField.trees (hdistinct : set.DistinctSymbols) (hfield : field.Coherent set)
    (h : DecodedField set (NestedReencodes set levels) field found) :
    ∃ trees, FieldTree set field found trees ∧ ∀ tree ∈ trees, tree.nesting ≤ levels := by
  cases h with
  | absent => exact ⟨[], .absent, by simp⟩
  | single hmap hsingle hvalue =>
      obtain ⟨tree, htree, hnesting⟩ := hvalue.tree hdistinct
      exact ⟨[tree], .single (FieldPlan.form_of_single hfield hmap hsingle) htree,
        by simpa using hnesting⟩
  | list hmap hrepeated hitems helements =>
      obtain ⟨trees, htrees, hnesting⟩ :=
        exists_forall₂_of_mem fun item hitem => (helements item hitem).tree hdistinct
      -- a run adds no nesting of messages, even if its items came one by one
      cases hpacked : field.packed with
      | true =>
          refine ⟨[.run trees], .packed (FieldPlan.form_of_packed hmap hpacked) hitems htrees, ?_⟩
          intro tree htree
          rw [List.mem_singleton.mp htree]
          exact WireValue.runNesting_le_iff.mpr hnesting
      | false =>
          exact ⟨trees, .each (FieldPlan.form_of_each hmap hpacked hrepeated) htrees, hnesting⟩
  | map hmap hentries hincreasing helements =>
      obtain ⟨plan, key, type, hplan, hentry, _⟩ := hfield.entryPlan hmap
      obtain ⟨trees, htrees, hnesting⟩ :=
        exists_forall₂_of_mem fun entry hmem => (helements entry hmem).tree hplan hentry
      exact ⟨trees, .entries (FieldPlan.form_of_map hmap) hplan hentry htrees, hnesting⟩

/-- What a decoded message has for a field is its own normal form. -/
theorem DecodedField.normal_eq (hdistinct : set.DistinctSymbols) (hfield : field.Coherent set)
    (h : DecodedField set (NestedReencodes set levels) field found) :
    field.normal set canonicalSymbols found = found := by
  cases h with
  | absent => rfl
  | single hmap hsingle hvalue =>
      obtain ⟨tree, htree, _⟩ := hvalue.tree hdistinct
      rw [FieldPlan.normal_single (htree.rebuild_normal field.name).1,
        FieldPlan.elementType?_of_not_map hmap, hvalue.normal_eq hdistinct]
  | list hmap hrepeated hitems helements =>
      rw [FieldPlan.normal_list (Or.inr rfl), if_neg hitems, FieldPlan.elementType?_of_not_map hmap,
        List.map_congr_left fun item hitem => (helements item hitem).normal_eq hdistinct,
        List.map_id']
  | @map entries hmap hentries hincreasing helements =>
      obtain ⟨plan, key, type, hplan, hentry, helement⟩ := hfield.entryPlan hmap
      have hsame : ∀ entry ∈ entries,
          (entry.1, entry.2.normal set canonicalSymbols (some type)) = entry := by
        intro entry hmem
        rw [(helements entry hmem).normal_eq hplan hentry]
      rw [FieldPlan.normal_map (Or.inr rfl), if_neg hentries, helement,
        List.map_congr_left hsame, List.map_id']

theorem DecodedField.nested (hfield : field.Coherent set)
    (h : DecodedField set (NestedReencodes set levels) field found) {value : Value}
    (hfound : found = some value) {fields : Record} (hmem : .message fields ∈ value.elements) :
    fields.Ordered ∧ ∀ inner, set.nested? (field.elementType? set) = some inner →
      set.Complete inner fields := by
  cases h with
  | absent => cases hfound
  | single hmap hsingle hvalue =>
      cases hfound
      rw [hvalue.elements_eq] at hmem
      rw [FieldPlan.elementType?_of_not_map hmap]
      exact hvalue.nested (List.mem_singleton.mp hmem).symm
  | list hmap hrepeated hitems helements =>
      cases hfound
      rw [FieldPlan.elementType?_of_not_map hmap]
      exact (helements _ hmem).nested rfl
  | map hmap hentries hincreasing helements =>
      cases hfound
      obtain ⟨plan, key, type, hplan, hentry, helement⟩ := hfield.entryPlan hmap
      obtain ⟨entry, hentryMem, hvalue⟩ := List.mem_map.mp hmem
      rw [helement]
      exact (helements entry hentryMem).nested hplan hentry hvalue

theorem DecodedField.increasing {entries : List (MapKey × Value)}
    (h : DecodedField set (NestedReencodes set levels) field found)
    (hfound : found = some (.map entries)) : Sorted.Increasing entries := by
  cases h with
  | absent => cases hfound
  | single hmap hsingle hvalue =>
      exact absurd (Option.some.inj hfound) (hvalue.ne_map entries)
  | list hmap hrepeated hitems helements => cases hfound
  | map hmap hentries hincreasing helements =>
      cases hfound
      exact hincreasing

end Fields

section Messages

variable {plan : MessagePlan} {record : Record}

theorem DecodedMessage.reencodes (hdistinct : set.DistinctSymbols) (hplan : plan.Coherent set)
    (h : DecodedMessage set (NestedReencodes set levels) plan record) :
    Reencodes set levels plan record where
  ordered := by
    refine .intro h.increasing ?_ ?_
    · intro pair hpair entries hentries
      obtain ⟨field, _, hdecoded⟩ := h.field_of_mem hpair
      exact hdecoded.increasing (congrArg some hentries)
    · intro pair hpair inner hinner
      obtain ⟨field, hfound, hdecoded⟩ := h.field_of_mem hpair
      have hfield := (MessagePlan.mem_of_field? hfound).1
      exact (hdecoded.nested (hplan.fields field hfield) rfl hinner).1
  complete := by
    refine .intro h.required ?_
    intro pair hpair field hfound inner hinner fields hmem
    obtain ⟨other, hother, hdecoded⟩ := h.field_of_mem hpair
    obtain rfl := Option.some.inj (hother.symm.trans hfound)
    have hfield := (MessagePlan.mem_of_field? hfound).1
    exact (hdecoded.nested (hplan.fields other hfield) rfl hmem).2 inner hinner
  canonical := by
    refine (eq_normalFields hplan h.increasing h.known h.increasing ?_ ?_).symm
    · exact fun name hname => Record.value?_eq_none_of_unknownNames h.known hname
    · intro field hfield
      exact ((h.fields field hfield).normal_eq hdistinct (hplan.fields field hfield)).symm
  tree := by
    have hown : ∀ field, ∃ trees, field ∈ plan.fields →
        FieldTree set field (Record.value? record field.name) trees ∧
          ∀ tree ∈ trees, tree.nesting ≤ levels := by
      intro field
      by_cases hfield : field ∈ plan.fields
      · obtain ⟨trees, htrees⟩ :=
          (h.fields field hfield).trees hdistinct (hplan.fields field hfield)
        exact ⟨trees, fun _ => htrees⟩
      · exact ⟨[], fun hmem => absurd hmem hfield⟩
    choose own hown using hown
    refine ⟨_, (messageTree_eq_ok hplan.named).mpr
      ⟨h.known, own, fun field hfield => (hown field hfield).1, rfl⟩, ?_⟩
    refine WireValue.messageNesting_le_iff.mpr ?_
    intro part hpart
    obtain ⟨field, hfield, hmem⟩ := List.mem_flatMap.mp hpart
    obtain ⟨tree, htree, rfl⟩ := List.mem_map.mp hmem
    exact (hown field hfield).2 tree htree

end Messages

/-- What the reader of messages answers within some levels. -/
theorem yields_readMessageWithin (hset : set.Coherent) (hdistinct : set.DistinctSymbols)
    (levels : Nat) {plan : MessagePlan} (hplan : plan.Coherent set) :
    Read.Yields (readMessageWithin set levels plan) (Reencodes set levels plan) := by
  induction levels generalizing plan with
  | zero =>
      have hnested : ∀ name plan, set.message? name = some plan →
          Read.Yields (nestedReader set 0 plan) (NestedReencodes set 0 plan) := fun _ _ _ =>
        Read.yields_throw _
      rw [readMessageWithin_eq]
      exact (yields_readMessageWith hnested hplan.toLaidOut hplan.names).mono fun record hrecord =>
        hrecord.reencodes hdistinct hplan
  | succ levels ih =>
      have hnested : ∀ name plan, set.message? name = some plan →
          Read.Yields (nestedReader set (levels + 1) plan)
            (NestedReencodes set (levels + 1) plan) := fun name plan hplan =>
        (ih (hset.of_message? hplan)).mono fun record hrecord =>
          ⟨hset.of_message? hplan, levels, rfl, hrecord⟩
      rw [readMessageWithin_eq]
      exact (yields_readMessageWith hnested hplan.toLaidOut hplan.names).mono fun record hrecord =>
        hrecord.reencodes hdistinct hplan

/-- No enum of a schema has the same symbol twice. Several symbols may have the
same number. -/
def Schema.DistinctSymbols (schema : Schema) : Prop :=
  ∀ table ∈ schema.enumTables, (table.values.map (·.1)).Nodup

theorem Schema.distinctSymbols_iff_of_build {schema : Schema} (hbuild : schema.build = .ok set) :
    schema.DistinctSymbols ↔ set.DistinctSymbols := by
  rw [Schema.DistinctSymbols, PlanSet.DistinctSymbols, Schema.enums_of_build hbuild]

theorem PlanSet.reencodes_of_decode (hset : set.Coherent) (hsymbols : set.DistinctSymbols)
    {plan : MessagePlan} (hplan : plan.Coherent set) {bytes : Bytes} {record : Record}
    (hdecode : set.decode plan bytes = .ok record) : Reencodes set nestingLimit plan record := by
  obtain ⟨after, hrun⟩ := PlanSet.exists_run_of_decode hdecode
  exact yields_readMessageWithin hset hsymbols nestingLimit hplan _ _ _ _ hrun

/-- How many messages and map entries lie within one another at most in the
encoding of a message. -/
def PlanSet.messageNesting (set : PlanSet) (plan : MessagePlan) (record : Record) : Nat :=
  match messageTree set plan record with
  | .ok tree => WireValue.messageNesting tree
  | .error _ => 0

/-- A decoded message can be encoded again. What is decoded from that encoding
is the same message, unless so many payloads are open at once in it that it is
refused: messages and map entries alone are never too many, but packed runs
within them may be. -/
theorem PlanSet.decode_encode_of_decode {source : String} {schema : Schema} {set : PlanSet}
    (hcompile : compile source = .ok schema) (hdistinct : schema.DistinctFields)
    (hsymbols : schema.DistinctSymbols) (hbuild : schema.build = .ok set) {message : String}
    {plan : MessagePlan} (hplan : set.declared? message = some plan) {bytes : Bytes}
    {record : Record} (hdecode : set.decode plan bytes = .ok record) :
    ∃ bytes', set.encode plan record = .ok bytes' ∧
      set.messageNesting plan record ≤ nestingLimit ∧
      (set.PayloadsFit plan record → set.decode plan bytes' =
        if set.nestingDepth plan record ≤ nestingLimit then .ok record
        else .error .nestingTooDeep) := by
  have hset := coherent_of_build hcompile hdistinct hbuild
  have hcoherent := hset.of_declared? hplan
  have hreencodes := PlanSet.reencodes_of_decode hset
    ((Schema.distinctSymbols_iff_of_build hbuild).mp hsymbols) hcoherent hdecode
  obtain ⟨tree, htree, hnesting⟩ := hreencodes.tree
  refine ⟨(WireValue.messageBytes tree).toArray, ?_, ?_, ?_⟩
  · rw [PlanSet.encode_eq, htree]
    rfl
  · unfold PlanSet.messageNesting
    rw [htree]
    exact hnesting
  · intro hfits
    have h := PlanSet.decode_messageBytes hset hcoherent hreencodes.ordered hreencodes.complete
      htree (hfits tree htree)
    rwa [hreencodes.canonical] at h

/-! ## Chains of nodes

Nodes that lie one within the other, the innermost with one size. Where that
size comes unpacked, one more node may lie around it than where it is packed.
-/

/-- A node within so many others. -/
def chain : Nat → Record
  | 0 => [("hue", .enum "RED"), ("sizes", .list [.int32 (-1)])]
  | count + 1 => [("hue", .enum "RED"), ("next", .message (chain count))]

/-- The bytes of a chain with its size unpacked. -/
def chainBytes : Nat → List UInt8
  | 0 => [8, 0, 16, 1]
  | count + 1 => [8, 0, 34] ++ delimitedForm (chainBytes count)

def chainTree : Nat → List (Key × WireValue)
  | 0 => [(⟨1, 0⟩, ScalarType.wire .int32 0), (⟨2, 2⟩, .run [ScalarType.wire .sint32 (-1)])]
  | count + 1 => [(⟨1, 0⟩, ScalarType.wire .int32 0), (⟨4, 2⟩, .message (chainTree count))]

theorem nodePlans_coherent : nodePlans.Coherent := by
  obtain ⟨schema, hcompile, hdistinct, hbuild⟩ := compile_nodeSource
  exact coherent_of_build hcompile hdistinct hbuild

theorem messageTree_chain (count : Nat) :
    messageTree nodePlans nodePlan (chain count) = .ok (chainTree count) := by
  induction count with
  | zero =>
      let own : FieldPlan → List WireValue := fun field =>
        if field.name = "hue" then [ScalarType.wire .int32 0]
        else if field.name = "sizes" then [.run [ScalarType.wire .sint32 (-1)]]
        else []
      refine (messageTree_eq_ok nodePlan_coherent.named).mpr ⟨rfl, own, ?_, rfl⟩
      rw [nodePlan_fields]
      simp only [List.forall_mem_cons]
      exact ⟨.single rfl (.enum rfl rfl),
        .packed rfl (by simp) (.cons (.scalar .sint32 (-1)) .nil), .absent, .absent, by simp⟩
  | succ count ih =>
      let own : FieldPlan → List WireValue := fun field =>
        if field.name = "hue" then [ScalarType.wire .int32 0]
        else if field.name = "next" then [.message (chainTree count)]
        else []
      refine (messageTree_eq_ok nodePlan_coherent.named).mpr ⟨rfl, own, ?_, rfl⟩
      rw [nodePlan_fields]
      simp only [List.forall_mem_cons]
      exact ⟨.single rfl (.enum rfl rfl), .absent, .absent, .single rfl (.message rfl ih), by simp⟩

theorem length_delimitedForm_le (payload : List UInt8) :
    (delimitedForm payload).length ≤ payload.length + 5 := by
  have hcount : (Varint.encode (payload.length % 2 ^ 32)).length ≤ 5 :=
    Varint.length_encode_le (by decide)
      (Nat.lt_trans (Nat.mod_lt _ (by decide)) (by decide : 2 ^ 32 < 128 ^ 5))
  rw [delimitedForm, List.length_append]
  omega

theorem length_chainBytes_le (count : Nat) : (chainBytes count).length ≤ 8 * count + 4 := by
  induction count with
  | zero => simp [chainBytes]
  | succ count ih =>
      have h := length_delimitedForm_le (chainBytes count)
      simp only [chainBytes, List.length_append, List.length_cons, List.length_nil]
      omega

theorem length_chainTree_le (count : Nat) :
    (WireValue.messageBytes (chainTree count)).length ≤ 8 * count + 10 := by
  have hhue : (ScalarType.wire .int32 0).bytes = [0] := Varint.encode_of_lt (by decide)
  have hsize : (ScalarType.wire .sint32 (-1)).bytes = [1] := Varint.encode_of_lt (by decide)
  have hforms : Key.form ⟨1, 0⟩ = [8] ∧ Key.form ⟨2, 2⟩ = [18] ∧ Key.form ⟨4, 2⟩ = [34] :=
    ⟨Varint.encode_of_lt (by decide), Varint.encode_of_lt (by decide),
      Varint.encode_of_lt (by decide)⟩
  induction count with
  | zero =>
      have h := length_delimitedForm_le [1]
      simp only [chainTree, WireValue.messageBytes, WireValue.bytes, WireValue.runBytes, hhue, hsize,
        hforms, List.length_append, List.length_cons, List.length_nil, List.append_nil] at h ⊢
      omega
  | succ count ih =>
      have h := length_delimitedForm_le (WireValue.messageBytes (chainTree count))
      simp only [chainTree, WireValue.messageBytes, WireValue.bytes, hhue, hforms,
        List.length_append, List.length_cons, List.length_nil] at h ⊢
      omega

theorem nestingDepth_chain (count : Nat) :
    nodePlans.nestingDepth nodePlan (chain count) = count + 1 := by
  have hdepth : WireValue.messageDepth (chainTree count) = count + 1 := by
    induction count with
    | zero => rfl
    | succ count ih =>
        simp [chainTree, WireValue.messageDepth, WireValue.depth, ih]
  rw [PlanSet.nestingDepth, messageTree_chain]
  exact hdepth

theorem payloadsFit_chain {count : Nat} (hcount : count ≤ nestingLimit) :
    nodePlans.PayloadsFit nodePlan (chain count) := by
  intro tree htree
  obtain rfl : chainTree count = tree := Except.ok.inj ((messageTree_chain count).symm.trans htree)
  have hlength := length_chainTree_le count
  have hlimit : nestingLimit = 100 := rfl
  exact WireValue.messageFits_of_length _ (by omega)

section Chain

variable {nested : MessagePlan → Read Record} {depth : Nat}

/-- A node is its hue and what one more field says. -/
theorem finishes_node {bytes : List UInt8} {change : Change} {record : Record}
    (hbytes : Read.Parses (occurrenceChanges nodePlans nested nodePlan) depth bytes
      (.ok (some [change])))
    (hrecord : Change.applyAll [redChange, change] [] = record)
    (hhue : Record.contains record "hue" = true) :
    Read.Finishes (readMessageWith nodePlans nested nodePlan) depth ([8, 0] ++ bytes)
      (.ok record) := by
  have hnext : ReadsAs nodePlans nested nodePlan depth bytes (.ok [change]) :=
    .of_occurrence hbytes
  have hreads := (ReadsAs.next parses_red hnext).finishes
  have hcompleted : nodePlan.completed record = .ok record := by
    refine (MessagePlan.completed_eq_ok nodePlan_coherent.toLaidOut).mpr ⟨rfl, ?_⟩
    simp [nodePlan_fields, hhue]
  rw [← hcompleted, ← hrecord]
  exact hreads

theorem finishes_innermost :
    Read.Finishes (readMessageWith nodePlans nested nodePlan) depth (chainBytes 0)
      (.ok (chain 0)) := by
  have hrecord : Change.applyAll [redChange, sizeChange] [] =
      chain 0 := by
    have hcompare : compare "sizes" "hue" = .gt := by decide
    simp [redChange, sizeChange, Change.applyAll, Change.apply, Record.assign?, Record.assign,
      Record.appendItem?, Record.appendItem, Record.value?, Sorted.find?, Sorted.insert, hcompare,
      chain]
  exact finishes_node parses_size hrecord
    (by simp [chain, Record.contains, Record.value?, Sorted.find?])

theorem finishes_link {count : Nat} (hinner : Read.Parses (Read.delimited (nested nodePlan)) depth
      (delimitedForm (chainBytes count)) (.ok (chain count))) :
    Read.Finishes (readMessageWith nodePlans nested nodePlan) depth (chainBytes (count + 1))
      (.ok (chain (count + 1))) := by
  let next : FieldPlan := ⟨"next", 4, .optional, .message "Node", false, false⟩
  have hfield : next ∈ nodePlan.fields := by simp [nodePlan_fields, next]
  have hread : Read.Parses (readValue nodePlans nested next.type) depth
      (delimitedForm (chainBytes count)) (.ok (some (.message (chain count)))) := hinner.map _
  have hform : Key.form ⟨4, 2⟩ = [34] := Varint.encode_of_lt (by decide)
  have hkey : Key.form ⟨next.number, next.type.wireType.code⟩ = [34] := hform
  have h := parses_occurrence nodePlan_coherent hfield (parses_single rfl hread)
  rw [hkey] at h
  have hrecord : Change.applyAll [redChange, ⟨next.name, .assign (some (.message (chain count)))⟩]
      [] = chain (count + 1) := by
    have hcompare : compare "next" "hue" = .gt := by decide
    simp [redChange, Change.applyAll, Change.apply, Record.assign?, Record.assign, Sorted.insert,
      next, hcompare, chain]
  exact finishes_node h hrecord (by simp [chain, Record.contains, Record.value?, Sorted.find?])

/-- A chain is read from its bytes if there are as many levels left as nodes
lie around the innermost one. -/
theorem finishes_chainBytes {count levels : Nat} (hcount : count ≤ levels)
    (hlevels : levels + depth = nestingLimit) :
    Read.Finishes (readMessageWithin nodePlans levels nodePlan) depth (chainBytes count)
      (.ok (chain count)) := by
  induction count generalizing levels depth with
  | zero =>
      rw [readMessageWithin_eq]
      exact finishes_innermost
  | succ count ih =>
      obtain ⟨inner, rfl⟩ : ∃ inner, levels = inner + 1 := ⟨levels - 1, by omega⟩
      have hlength := length_chainBytes_le count
      have hlimit : nestingLimit = 100 := rfl
      have hbody : Read.Finishes (readMessageWithin nodePlans inner nodePlan) (depth + 1)
          (chainBytes count) (.ok (chain count)) := ih (by omega) (by omega)
      rw [readMessageWithin_eq]
      exact finishes_link (hbody.delimited (by omega) (by omega))

end Chain

theorem decode_chainBytes {count : Nat} (hcount : count ≤ nestingLimit) :
    nodePlans.decode nodePlan (chainBytes count).toArray = .ok (chain count) :=
  PlanSet.decode_of_finishes (finishes_readMessage (finishes_chainBytes hcount rfl))

theorem nodePlans_distinctSymbols : nodePlans.DistinctSymbols := by
  unfold PlanSet.DistinctSymbols
  decide

/-- With one node less than the limit around the innermost one, its packed
size is as deep as the limit admits. -/
theorem decode_encode_of_decode_chain :
    nodePlans.decode nodePlan (chainBytes 99).toArray = .ok (chain 99) ∧
      ∃ bytes', nodePlans.encode nodePlan (chain 99) = .ok bytes' ∧
        nodePlans.decode nodePlan bytes' = .ok (chain 99) := by
  obtain ⟨schema, hcompile, hdistinct, hbuild⟩ := compile_nodeSource
  have hsymbols := (Schema.distinctSymbols_iff_of_build hbuild).mpr nodePlans_distinctSymbols
  have hplan : nodePlans.declared? "Node" = some nodePlan := rfl
  have hdecode := decode_chainBytes (by decide : 99 ≤ nestingLimit)
  obtain ⟨bytes', hencode, _, hagain⟩ := PlanSet.decode_encode_of_decode hcompile hdistinct hsymbols
    hbuild hplan hdecode
  refine ⟨hdecode, bytes', hencode, ?_⟩
  rw [hagain (payloadsFit_chain (by decide)), nestingDepth_chain, if_pos (by decide)]

/-- With as many nodes around the innermost one as the limit admits, its size
is read unpacked, but not packed as it is written again. -/
theorem decode_encode_chain_refused :
    (∃ schema, compile nodeSource = .ok schema ∧ schema.DistinctFields ∧
      schema.DistinctSymbols ∧ schema.build = .ok nodePlans) ∧
    nodePlans.declared? "Node" = some nodePlan ∧
    nodePlans.decode nodePlan (chainBytes 100).toArray = .ok (chain 100) ∧
    nodePlans.PayloadsFit nodePlan (chain 100) ∧
    ∃ bytes', nodePlans.encode nodePlan (chain 100) = .ok bytes' ∧
      nodePlans.decode nodePlan bytes' = .error .nestingTooDeep := by
  obtain ⟨schema, hcompile, hdistinct, hbuild⟩ := compile_nodeSource
  have hsymbols := (Schema.distinctSymbols_iff_of_build hbuild).mpr nodePlans_distinctSymbols
  have hdecode := decode_chainBytes (by decide : 100 ≤ nestingLimit)
  have hfits := payloadsFit_chain (by decide : 100 ≤ nestingLimit)
  refine ⟨⟨schema, hcompile, hdistinct, hsymbols, hbuild⟩, rfl, hdecode, hfits,
    (WireValue.messageBytes (chainTree 100)).toArray, ?_, ?_⟩
  · rw [PlanSet.encode_eq, messageTree_chain]
    rfl
  · have hreencodes := PlanSet.reencodes_of_decode nodePlans_coherent nodePlans_distinctSymbols
      nodePlan_coherent hdecode
    rw [PlanSet.decode_messageBytes nodePlans_coherent nodePlan_coherent hreencodes.ordered
      hreencodes.complete (messageTree_chain 100) (hfits _ (messageTree_chain 100)),
      nestingDepth_chain, if_neg (by decide)]

end WireCodec
