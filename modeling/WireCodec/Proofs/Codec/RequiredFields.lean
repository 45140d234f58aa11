import WireCodec.Proofs.Codec.Assignments
import WireCodec.Proofs.Codec.EndOfMessage

/-! # Required fields

A message is refused for the first of its required fields, in the order of
their declaration, that its occurrences leave without a value. In an entry of a
map that is the key or the value. A message that is refused so makes the
message around it fail with its own error, as soon as it is read.
-/

namespace WireCodec

/-- The required indices of a plan that is built are those of its required fields, in order. -/
theorem Schema.required_of_build {schema : Schema} {set : PlanSet}
    (hbuild : schema.build = .ok set) {plan : MessagePlan} (hplan : plan ∈ set.messages) :
    plan.required = plan.fields.findIdxs (·.cardinality = .required) := by
  obtain ⟨plain, -, hplanned⟩ := Schema.exists_plain_of_build hbuild hplan
  obtain ⟨fields, -, -, rfl⟩ := PlainMessage.plan_eq_ok hplanned
  exact MessagePlan.ofFields_required

/-- The error of a message names the first required field that it does not have. -/
theorem MessagePlan.firstMissing?_eq_find? {plan : MessagePlan}
    (hrequired : plan.required = plan.fields.findIdxs (·.cardinality = .required))
    (record : Record) : plan.firstMissing? record plan.required =
      (plan.fields.find? fun field => field.cardinality = .required &&
        !Record.contains record field.name).map (plan.missingField ·.name) := by
  have hsuffix : ∀ before fields, plan.fields = before ++ fields →
      plan.firstMissing? record (fields.findIdxs (·.cardinality = .required) before.length) =
        (fields.find? fun field => field.cardinality = .required &&
          !Record.contains record field.name).map (plan.missingField ·.name) := by
    intro before fields hfields
    induction fields generalizing before with
    | nil => rfl
    | cons field rest ih =>
        have hget : plan.fields[before.length]? = some field := by simp [hfields]
        have hrest := ih (before ++ [field]) (by simp [hfields])
        rw [List.length_append, List.length_singleton] at hrest
        rw [List.findIdxs_cons, List.find?_cons]
        by_cases hcardinality : field.cardinality = .required
        · simp only [hcardinality, decide_true, if_true, Bool.true_and]
          rw [MessagePlan.firstMissing?, hget]
          cases hcontains : Record.contains record field.name with
          | true => simpa [hcontains] using hrest
          | false => simp [hcontains]
        · simp only [hcardinality, decide_false, Bool.false_and]
          simpa using hrest
  rw [hrequired]
  exact hsuffix [] plan.fields rfl

namespace PlanSet

variable {set : PlanSet} {plan : MessagePlan} {depth : Nat} {occurrences : List (List UInt8)}

variable (set plan occurrences) in
/-- The first required field of a plan that occurrences leave without a value. -/
def FirstUnassigned (field : FieldPlan) : Prop :=
  field.cardinality = .required ∧ ¬ set.Assigns field occurrences ∧
    ∃ earlier later, plan.fields = earlier ++ field :: later ∧
      ∀ other ∈ earlier, other.cardinality = .required → set.Assigns other occurrences

theorem exists_firstUnassigned
    (h : ¬ ∀ field ∈ plan.fields, field.cardinality = .required → set.Assigns field occurrences) :
    ∃ field, set.FirstUnassigned plan occurrences field := by
  classical
  have hsome : (plan.fields.find? fun field =>
      field.cardinality = .required ∧ ¬ set.Assigns field occurrences).isSome := by
    refine List.find?_isSome.mpr ?_
    push Not at h
    obtain ⟨field, hfield, hcardinality, hassigns⟩ := h
    exact ⟨field, hfield, decide_eq_true ⟨hcardinality, hassigns⟩⟩
  obtain ⟨field, hfound⟩ := Option.isSome_iff_exists.mp hsome
  obtain ⟨hfield, earlier, later, hfields, hearlier⟩ := List.find?_eq_some_iff_append.mp hfound
  obtain ⟨hcardinality, hassigns⟩ := of_decide_eq_true hfield
  refine ⟨field, hcardinality, hassigns, earlier, later, hfields, ?_⟩
  intro other hother hrequired
  by_contra hunassigned
  simpa [hrequired, hunassigned] using hearlier other hother

section Message

variable (hplan : plan.Coherent set)
  (h : ∀ bytes ∈ occurrences, set.IsOccurrenceAt depth plan bytes)
include hplan h

/-- A required field is there when its occurrences assign to it. -/
theorem exists_readsAs_of_occurrences : ∃ changes,
      ReadsAs set (nestedReader set (nestingLimit - depth)) plan depth occurrences.flatten
        (.ok changes) ∧
      ∀ field ∈ plan.fields, field.cardinality = .required →
        (Record.contains (Change.applyAll changes []) field.name = true ↔
          set.Assigns field occurrences) := by
  obtain ⟨changes, hreads, hassigns⟩ := exists_changes_of_occurrences hplan h
  refine ⟨changes, hreads, fun field hfield hcardinality => hassigns field hfield ?_⟩
  exact (hplan.fields field hfield).action_of_single (by simp [hcardinality])

theorem finishes_of_assigned
    (hassigned : ∀ field ∈ plan.fields, field.cardinality = .required →
      set.Assigns field occurrences) :
    ∃ record, Read.Finishes (readMessageWithin set (nestingLimit - depth) plan) depth
      occurrences.flatten (.ok record) := by
  obtain ⟨changes, hreads, hcontains⟩ := exists_readsAs_of_occurrences hplan h
  refine ⟨Change.applyAll changes [], ?_⟩
  have hcompleted := (MessagePlan.completed_eq_ok hplan.toLaidOut).mpr ⟨rfl,
    fun field hfield hcardinality =>
      (hcontains field hfield hcardinality).mpr (hassigned field hfield hcardinality)⟩
  rw [readMessageWithin_eq, ← hcompleted]
  exact hreads.finishes

theorem FirstUnassigned.finishes
    (hrequired : plan.required = plan.fields.findIdxs (·.cardinality = .required))
    {field : FieldPlan} (hfield : set.FirstUnassigned plan occurrences field) :
    Read.Finishes (readMessageWithin set (nestingLimit - depth) plan) depth occurrences.flatten
      (.error (plan.missingField field.name)) := by
  obtain ⟨changes, hreads, hcontains⟩ := exists_readsAs_of_occurrences hplan h
  obtain ⟨hcardinality, hassigns, earlier, later, hfields, hearlier⟩ := hfield
  have hmem : field ∈ plan.fields := by simp [hfields]
  have hfind : (plan.fields.find? fun field => field.cardinality = .required &&
      !Record.contains (Change.applyAll changes []) field.name) = some field := by
    have hmissing : Record.contains (Change.applyAll changes []) field.name = false :=
      eq_false_of_ne_true fun htrue =>
        hassigns ((hcontains field hmem hcardinality).mp htrue)
    refine List.find?_eq_some_iff_append.mpr ⟨by simp [hcardinality, hmissing], earlier, later,
      hfields, fun other hother => ?_⟩
    by_cases hother' : other.cardinality = .required
    · have hthere := (hcontains other (by simp [hfields, hother]) hother').mpr
        (hearlier other hother hother')
      simp [hthere]
    · simp [hother']
  have hcompleted : plan.completed (Change.applyAll changes []) =
      .error (plan.missingField field.name) := by
    rw [MessagePlan.completed, MessagePlan.firstMissing?_eq_find? hrequired, hfind]
    rfl
  rw [readMessageWithin_eq, ← hcompleted]
  exact hreads.finishes

end Message

/-- Bytes that the reader of a message so deep refuses for a required field: they
are occurrences that leave it without a value, or what is refused so is the
payload of a message nested in this one, behind occurrences that are read
without error and in front of any other bytes. -/
inductive Lacks (set : PlanSet) : Nat → MessagePlan → List UInt8 → DecodeError → Prop
  | here {depth : Nat} {plan : MessagePlan} {occurrences : List (List UInt8)} {field : FieldPlan}
      (h : ∀ bytes ∈ occurrences, set.IsOccurrenceAt depth plan bytes)
      (hfield : set.FirstUnassigned plan occurrences field) :
      Lacks set depth plan occurrences.flatten (plan.missingField field.name)
  | inside {depth : Nat} {plan inner : MessagePlan} {occurrences : List (List UInt8)}
      {field : FieldPlan} {name : String} {key count payload : List UInt8} {e : DecodeError}
      (h : ∀ bytes ∈ occurrences, set.IsOccurrenceAt depth plan bytes)
      (hdepth : depth < nestingLimit) (hfield : field ∈ plan.fields)
      (hkey : Key.SpelledBy ⟨field.number, WireType.lengthDelimited.code⟩ key)
      (htype : field.type = .message name) (hinner : set.message? name = some inner)
      (hcount : Varint.Counts count payload) (hpayload : Lacks set (depth + 1) inner payload e)
      (rest : List UInt8) :
      Lacks set depth plan (occurrences.flatten ++ (key ++ (count ++ payload) ++ rest)) e

/-- The induction is on the level at which the field is missing. -/
theorem Lacks.finishes (hset : set.Coherent) (hrequired : ∀ plan ∈ set.messages,
      plan.required = plan.fields.findIdxs (·.cardinality = .required))
    {bytes : List UInt8} {e : DecodeError} (h : set.Lacks depth plan bytes e)
    (hplan : plan ∈ set.messages) :
    Read.Finishes (readMessageWithin set (nestingLimit - depth) plan) depth bytes (.error e) := by
  induction h with
  | here h hfield => exact FirstUnassigned.finishes (hset _ hplan) h (hrequired _ hplan) hfield
  | @inside depth plan inner occurrences field name key count payload e h hdepth hfield hkey htype
      hinner hcount _ rest ih =>
      have hcoherent := hset plan hplan
      obtain ⟨changes, hreads⟩ := exists_readsAs_flatten h
      have hbody := hcount.parses hdepth (ih (set.mem_of_message? hinner).1)
      rw [← nestedReader_of_lt hdepth] at hbody
      obtain ⟨next, hnext⟩ := FieldPlan.exists_changes_of_payload htype hinner
        (rfl : (Key.mk field.number WireType.lengthDelimited.code).wireType = _)
      have hchanges := hnext _ _ hbody
      rw [← fieldChanges_of_mem hcoherent hfield] at hchanges
      have hoccurrence := parses_occurrence_of_key
        (hkey.parses (hcoherent.fields field hfield).number_ne_zero depth) hchanges
      rw [readMessageWithin_eq]
      exact (hreads.append (.stop hoccurrence rest)).finishes

end PlanSet

/-- The plan of a declared message has its fields, in the order of their declaration. -/
theorem Schema.exists_decl_of_mem {schema : Schema} {set : PlanSet}
    (hbuild : schema.build = .ok set) {plan : MessagePlan} (hmem : plan ∈ set.messages)
    (hsynthetic : plan.synthetic = false) :
    ∃ message ∈ schema.messages, message.node.name.node = plan.name ∧
      plan.fields.map (fun field => (field.name, field.number, field.cardinality)) =
        message.node.fields.map fun field => (field.node.name.node, field.node.number.node,
          (field.node.plain plan.name).cardinality) := by
  obtain ⟨plain, hplain, hplanned⟩ := Schema.exists_plain_of_build hbuild hmem
  obtain ⟨fields, hnames, -, rfl⟩ := PlainMessage.plan_eq_ok hplanned
  rw [MessagePlan.ofFields_synthetic] at hsynthetic
  rcases Schema.mem_plain.mp hplain with ⟨message, hmessage, rfl⟩ | hentry
  · refine ⟨message, hmessage, MessagePlan.ofFields_name.symm, ?_⟩
    have hfields := congrArg (List.map fun field : PlainField =>
      (field.name, field.number, field.cardinality)) hnames
    simp only [List.map_map, Function.comp_def, Field.plain_name, Field.plain_number] at hfields
    rw [MessagePlan.ofFields_fields, MessagePlan.ofFields_name, List.map_map]
    exact hfields
  · obtain ⟨_, _, _, _, _, _, _, rfl⟩ := Schema.mem_entries.mp hentry
    cases hsynthetic

theorem Schema.exists_decl_of_build {schema : Schema} {set : PlanSet}
    (hbuild : schema.build = .ok set) {name : String} {plan : MessagePlan}
    (hplan : set.declared? name = some plan) :
    ∃ message ∈ schema.messages, message.node.name.node = name ∧
      plan.fields.map (fun field => (field.name, field.number, field.cardinality)) =
        message.node.fields.map fun field => (field.node.name.node, field.node.number.node,
          (field.node.plain name).cardinality) := by
  obtain ⟨hfound, hsynthetic⟩ := Option.filter_eq_some_iff.mp hplan
  obtain ⟨hmem, rfl⟩ := set.mem_of_message? hfound
  exact exists_decl_of_mem hbuild hmem (by simpa using hsynthetic)

namespace PlanSet

variable {set : PlanSet} {plan : MessagePlan}

/-- Decoding occurrences succeeds if each required field has some and the last
of them gives it a value, and fails otherwise for the first field where it is
not so, in the order of the declaration. So does reading the entry of a map,
for its key before its value. A message nested in another one that is refused so
makes decoding fail with its error, whatever follows. -/
theorem decode_required_fields {source : String} {schema : Schema}
    (hcompile : compile source = .ok schema) (hdistinct : schema.DistinctFields)
    (hbuild : schema.build = .ok set) {name : String} (hplan : set.declared? name = some plan) :
    (∃ message ∈ schema.messages, message.node.name.node = name ∧
      plan.fields.map (fun field => (field.name, field.number, field.cardinality)) =
        message.node.fields.map fun field => (field.node.name.node, field.node.number.node,
          (field.node.plain name).cardinality)) ∧
    (∀ occurrences, (∀ bytes ∈ occurrences, set.IsOccurrence plan bytes) →
      ((∀ field ∈ plan.fields, field.cardinality = .required → set.Assigns field occurrences) ∧
        ∃ record, set.decode plan occurrences.flatten.toArray = .ok record) ∨
      ∃ field, set.FirstUnassigned plan occurrences field ∧
        set.decode plan occurrences.flatten.toArray = .error (.missingRequiredField field.name)) ∧
    (∀ field ∈ plan.fields, field.isMapEntry = true → ∃ entry keyType valueType,
      set.message? field.type.name = some entry ∧ entry.IsEntry keyType valueType ∧
      ∀ depth occurrences, (∀ bytes ∈ occurrences, set.IsOccurrenceAt depth entry bytes) →
        let key : FieldPlan := .ofEntry keyField 1 (.scalar keyType)
        let value : FieldPlan := .ofEntry valueField 2 valueType
        (¬ set.Assigns key occurrences →
          Read.Finishes (readMessage set entry) depth occurrences.flatten
            (.error (.malformedMapEntry keyField))) ∧
        (set.Assigns key occurrences → ¬ set.Assigns value occurrences →
          Read.Finishes (readMessage set entry) depth occurrences.flatten
            (.error (.malformedMapEntry valueField))) ∧
        (set.Assigns key occurrences → set.Assigns value occurrences → ∃ record,
          Read.Finishes (readMessage set entry) depth occurrences.flatten (.ok record))) ∧
    ∀ bytes e, set.Lacks 0 plan bytes e → set.decode plan bytes.toArray = .error e := by
  have hset := coherent_of_build hcompile hdistinct hbuild
  have hrequired := fun plan => @Schema.required_of_build schema set hbuild plan
  obtain ⟨hfound, hsynthetic⟩ := Option.filter_eq_some_iff.mp hplan
  obtain ⟨hmem, -⟩ := set.mem_of_message? hfound
  have hlacks : ∀ bytes e, set.Lacks 0 plan bytes e → set.decode plan bytes.toArray = .error e :=
    fun bytes e h => decode_of_finishes (finishes_readMessage (h.finishes hset hrequired hmem))
  refine ⟨Schema.exists_decl_of_build hbuild hplan, ?_, ?_, hlacks⟩
  · intro occurrences htop
    have h : ∀ bytes ∈ occurrences, set.IsOccurrenceAt 0 plan bytes := htop
    by_cases hassigned : ∀ field ∈ plan.fields, field.cardinality = .required →
        set.Assigns field occurrences
    · obtain ⟨record, hrecord⟩ := finishes_of_assigned (hset plan hmem) h hassigned
      exact .inl ⟨hassigned, record, decode_of_finishes (finishes_readMessage hrecord)⟩
    · obtain ⟨field, hfield⟩ := exists_firstUnassigned hassigned
      have hmissing : plan.missingField field.name = .missingRequiredField field.name := by
        rw [MessagePlan.missingField, if_neg (by simpa using hsynthetic)]
      exact .inr ⟨field, hfield, hmissing ▸ hlacks _ _ (.here h hfield)⟩
  · intro field hfield hmap
    obtain ⟨-, entryName, entry, keyType, valueType, htype, hentry, hisEntry⟩ :=
      ((hset plan hmem).fields field hfield).entry hmap
    refine ⟨entry, keyType, valueType, htype ▸ hentry, hisEntry, ?_⟩
    intro depth occurrences h
    have hentryMem := (set.mem_of_message? hentry).1
    have hkeyName : entry.missingField keyField = .malformedMapEntry keyField := by
      simp [MessagePlan.missingField, hisEntry.synthetic]
    have hvalueName : entry.missingField valueField = .malformedMapEntry valueField := by
      simp [MessagePlan.missingField, hisEntry.synthetic, keyField, valueField]
    refine ⟨fun hkey => ?_, fun hkey hvalue => ?_, fun hkey hvalue => ?_⟩
    · have hfirst : set.FirstUnassigned entry occurrences
          (.ofEntry keyField 1 (.scalar keyType)) :=
        ⟨rfl, hkey, [], [.ofEntry valueField 2 valueType], hisEntry.fields, by simp⟩
      exact finishes_readMessage (hkeyName ▸
        hfirst.finishes (hset entry hentryMem) h (hrequired entry hentryMem))
    · have hfirst : set.FirstUnassigned entry occurrences (.ofEntry valueField 2 valueType) :=
        ⟨rfl, hvalue, [.ofEntry keyField 1 (.scalar keyType)], [], hisEntry.fields,
          by simpa using fun _ => hkey⟩
      exact finishes_readMessage (hvalueName ▸
        hfirst.finishes (hset entry hentryMem) h (hrequired entry hentryMem))
    · obtain ⟨record, hrecord⟩ := finishes_of_assigned (hset entry hentryMem) h (by
        rw [hisEntry.fields]
        simpa using ⟨fun _ => hkey, fun _ => hvalue⟩)
      exact ⟨record, finishes_readMessage hrecord⟩

/-- A node with a hue, one that loses its hue again, and one whose next node has
no hue, although a later one has. -/
theorem decode_required_fields_node :
    (∃ record, nodePlans.decode nodePlan #[8, 0, 16, 1] = .ok record) ∧
    nodePlans.decode nodePlan #[8, 0, 8, 9] = .error (.missingRequiredField "hue") ∧
    nodePlans.decode nodePlan #[8, 0, 34, 0, 34, 2, 8, 0] =
      .error (.missingRequiredField "hue") := by
  obtain ⟨schema, hcompile, hdistinct, hbuild⟩ := compile_nodeSource
  let hue : FieldPlan := ⟨"hue", 1, .required, .enum "Hue", false, false⟩
  have hhue : hue ∈ nodePlan.fields := List.mem_cons_self
  have hother : ∀ field ∈ nodePlan.fields, field.cardinality = .required → field = hue := by
    simp [nodePlan_fields, hue]
  obtain ⟨-, hdecode, -, hlacks⟩ := decode_required_fields hcompile hdistinct hbuild
    (rfl : nodePlans.declared? "Node" = some nodePlan)
  have hred : fieldNumber? [8, 0] = some hue.number := rfl
  have hsize : fieldNumber? [16, 1] ≠ some hue.number := by
    change some 2 ≠ some 1
    decide
  have hundeclares : nodePlans.Undeclares hue [8, 9] :=
    ⟨"Hue", huesTable, [8], [9], rfl, rfl, rfl, ⟨.last rfl, by decide, rfl⟩, .last rfl, by decide,
      by decide⟩
  have hdeclares : ¬ nodePlans.Undeclares hue [8, 0] :=
    not_undeclares_of_parses nodePlan_coherent hhue rfl
      (@parses_red (nestedReader nodePlans nestingLimit) 0) (by simp [redChange])
  have hoccurrence : nodePlans.IsOccurrence nodePlan [8, 9] :=
    isOccurrence_of_parses (hundeclares.parses nodePlan_coherent hhue rfl)
  refine ⟨?_, ?_, ?_⟩
  · have hoccurrences : ∀ bytes ∈ [[8, 0], [16, 1]], nodePlans.IsOccurrence nodePlan bytes := by
      simp [isOccurrence_of_parses parses_red, isOccurrence_of_parses parses_size]
    rcases hdecode _ hoccurrences with ⟨-, hrecord⟩ | ⟨field, hfield, -⟩
    · exact hrecord
    · obtain ⟨hrequired, hunassigned, earlier, later, hfields, -⟩ := hfield
      obtain rfl := hother field (by simp [hfields]) hrequired
      exact absurd ⟨[8, 0], by simp [hred, hsize], hdeclares⟩ hunassigned
  · have hoccurrences : ∀ bytes ∈ [[8, 0], [8, 9]], nodePlans.IsOccurrence nodePlan bytes := by
      simp [isOccurrence_of_parses parses_red, hoccurrence]
    rcases hdecode _ hoccurrences with ⟨hassigned, -⟩ | ⟨field, hfield, herror⟩
    · obtain ⟨bytes, hlast, hassigns⟩ := hassigned hue hhue rfl
      obtain rfl : [8, 9] = bytes := Option.some.inj hlast
      exact absurd hundeclares hassigns
    · obtain ⟨hrequired, -, earlier, later, hfields, -⟩ := hfield
      obtain rfl := hother field (by simp [hfields]) hrequired
      exact herror
  · have hfirst : nodePlans.IsOccurrenceAt 0 nodePlan [8, 0] := isOccurrence_of_parses parses_red
    have hbefore : ∀ bytes ∈ [[8, 0]], nodePlans.IsOccurrenceAt 0 nodePlan bytes := by
      simpa using hfirst
    have hempty : nodePlans.FirstUnassigned nodePlan [] hue :=
      ⟨rfl, by simp [Assigns], [], _, nodePlan_fields, by simp⟩
    have hnext : ⟨"next", 4, .optional, .message "Node", false, false⟩ ∈ nodePlan.fields := by
      simp [nodePlan_fields]
    have hcount : Varint.Counts [0] [] := ⟨.last rfl, by decide, rfl⟩
    exact hlacks _ _ (.inside hbefore (by decide) hnext ⟨.last rfl, by decide, rfl⟩ rfl rfl hcount
      (.here (by simp) hempty) [34, 2, 8, 0])

end PlanSet

end WireCodec
