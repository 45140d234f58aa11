import WireCodec.Proofs.Codec.Occurrences
import WireCodec.Proofs.Codec.RequiredFields
import WireCodec.Proofs.Plan.Dispatch

/-! # Steps and arms that match

The step that writes a field and the arm that reads it are chosen by two chains
of conditions. They match for every field of a plan that is built: where no
message repeats a number, the key of the step leads to the arm of the field,
and the arm goes on to read what the step has written.
-/

namespace WireCodec

/-- No message repeats the number of a field. -/
def Schema.DistinctNumbers (schema : Schema) : Prop :=
  ∀ message ∈ schema.messages, (message.node.fields.map (·.node.number.node)).Nodup

instance (schema : Schema) : Decidable schema.DistinctNumbers :=
  inferInstanceAs (Decidable (∀ message ∈ schema.messages, List.Nodup _))

/-- A step and an arm for the field at an index that belong together. There is
one case for each way in which the values of a field are written and read. -/
inductive FieldPlan.Matched (field : FieldPlan) (index : Nat) : EncodeStep → DecodeArm → Prop
  | single (hmap : field.isMapEntry = false) (hsingular : field.cardinality ≠ .repeated) :
      Matched field index ⟨index, ⟨field.number, field.type.wireType⟩, .single⟩
        ⟨field.number, index, field.type.wireType, .assign⟩
  | each (hmap : field.isMapEntry = false) (hrepeated : field.cardinality = .repeated)
      (hpackable : field.type.packable = false) :
      Matched field index ⟨index, ⟨field.number, field.type.wireType⟩, .each⟩
        ⟨field.number, index, field.type.wireType, .append⟩
  | eachPackable (hmap : field.isMapEntry = false) (hrepeated : field.cardinality = .repeated)
      (hpackable : field.type.packable = true) (hpacked : field.packed = false) :
      Matched field index ⟨index, ⟨field.number, field.type.wireType⟩, .each⟩
        ⟨field.number, index, field.type.wireType, .appendPackable field.type.wireType⟩
  | packed (hmap : field.isMapEntry = false) (hrepeated : field.cardinality = .repeated)
      (hpackable : field.type.packable = true) (hpacked : field.packed = true) :
      Matched field index ⟨index, ⟨field.number, .lengthDelimited⟩, .packed⟩
        ⟨field.number, index, field.type.wireType, .appendPackable field.type.wireType⟩
  | mapEntries {entry : String} (hmap : field.isMapEntry = true)
      (hrepeated : field.cardinality = .repeated) (htype : field.type = .message entry) :
      Matched field index ⟨index, ⟨field.number, .lengthDelimited⟩, .mapEntries entry⟩
        ⟨field.number, index, .lengthDelimited, .mergeEntry entry⟩

section Reading

variable (set : PlanSet) (nested : MessagePlan → Read Record)

/-- Reads one occurrence of a field that was written in a form, after its key:
a value, a run of values or an entry. -/
def EncodeForm.read (form : EncodeForm) (field : FieldPlan) (record : Record) : Read Record :=
  match form with
  | .single => Record.assign? record field.name <$> readValue set nested field.type
  | .each => readItem set nested field record
  | .packed =>
    Read.delimited
      (Read.run (readItem set nested field) (consumes_readItem set nested field) record)
  | .mapEntries entry => readEntry set nested field entry record

variable {field : FieldPlan} {index : Nat} {step : EncodeStep} {arm : DecodeArm}

theorem Read.expect_bind {α : Type} (found : Key) (next : Unit → Read α) :
    (Read.expect found found.wireType >>= next) = next () := by
  unfold Read.expect
  rw [if_pos rfl, pure_bind]

/-- An element under its natural wire type is read without a run around it. -/
theorem Read.packable_natural {σ : Type} (found : Key) (element : σ → Read σ)
    (consumes : ∀ s, Read.Consumes (element s)) (s : σ) :
    Read.packable found found.wireType element consumes s = element s := by
  unfold Read.packable
  rw [if_neg fun hboth => hboth.2 hboth.1]
  exact Read.expect_bind found _

/-- The arm takes the wire type that the step writes, and reads what comes
behind it in the form of the step. -/
theorem FieldPlan.Matched.readArm_eq (h : field.Matched index step arm) {plan : MessagePlan}
    (hfield : plan.fields[index]? = some field) (record : Record) :
    readArm set nested plan step.tag.key arm record = step.form.read set nested field record := by
  cases h with
  | single =>
      simp only [readArm, hfield]
      exact Read.expect_bind (Tag.key ⟨field.number, field.type.wireType⟩) _
  | each =>
      simp only [readArm, hfield]
      exact Read.expect_bind (Tag.key ⟨field.number, field.type.wireType⟩) _
  | eachPackable =>
      simp only [readArm, hfield]
      exact Read.packable_natural (Tag.key ⟨field.number, field.type.wireType⟩) _ _ record
  | packed _ _ hpackable =>
      simp only [readArm, hfield, Read.packable]
      exact if_pos ⟨rfl, ValueType.wireType_ne_of_packable hpackable⟩
  | mapEntries =>
      simp only [readArm, hfield]
      exact Read.expect_bind (Tag.key ⟨field.number, .lengthDelimited⟩) _

end Reading

/-- The step and the arm of a coherent field match. -/
theorem FieldPlan.Coherent.matched {set : PlanSet} {field : FieldPlan} (h : field.Coherent set)
    (index : Nat) : field.Matched index (field.stepAt index) (field.armAt index) := by
  unfold FieldPlan.stepAt FieldPlan.armAt FieldPlan.writtenAs FieldPlan.form FieldPlan.action
  cases hmap : field.isMapEntry with
  | true =>
      obtain ⟨hrepeated, name, _, _, _, htype, -⟩ := h.entry hmap
      rw [htype]
      exact .mapEntries hmap hrepeated htype
  | false =>
      cases hpacked : field.packed with
      | true =>
          obtain ⟨hrepeated, -, hpackable⟩ := h.packed hpacked
          simp only [hrepeated, hpackable]
          exact .packed hmap hrepeated hpackable hpacked
      | false =>
          by_cases hrepeated : field.cardinality = .repeated
          · cases hpackable : field.type.packable with
            | true =>
                simp only [hrepeated]
                exact .eachPackable hmap hrepeated hpackable hpacked
            | false =>
                simp only [hrepeated]
                exact .each hmap hrepeated hpackable
          · simp only [hrepeated]
            exact .single hmap hrepeated

/-- Every plan that is built for a compiled schema whose messages repeat no
number has the fields of a declared message, or those of an entry, and one step
and one arm for each of its fields, in order. They match, the number of the
step leads to the arm, and the arm reads what the step has written. Only
repeated fields of a packable type that are no maps are packed, and what is
required are the required fields, in order. -/
theorem Schema.steps_match_arms {source : String} {schema : Schema}
    (hcompile : compile source = .ok schema) (hdistinct : schema.DistinctNumbers) :
    ∃ set, schema.build = .ok set ∧ ∀ plan ∈ set.messages,
      (plan.synthetic = false → ∃ message ∈ schema.messages,
        message.node.name.node = plan.name ∧
          plan.fields.map (fun field => (field.name, field.number, field.cardinality)) =
            message.node.fields.map fun field => (field.node.name.node, field.node.number.node,
              (field.node.plain plan.name).cardinality)) ∧
      (plan.synthetic = true → ∃ key value, plan.IsEntry key value) ∧
      plan.steps.length = plan.fields.length ∧ plan.arms.length = plan.fields.length ∧
      (∀ (index : Nat) (field : FieldPlan), plan.fields[index]? = some field → ∃ step arm,
        plan.steps[index]? = some step ∧ plan.arms[index]? = some arm ∧
          field.Matched index step arm ∧ plan.arm? step.tag.number = some arm ∧
          ∀ nested record, readField set nested plan record step.tag.key =
            step.form.read set nested field record) ∧
      (∀ field ∈ plan.fields, field.packed = true → field.cardinality = .repeated ∧
        field.type.packable = true ∧ field.isMapEntry = false) ∧
      plan.required.Pairwise (· < ·) ∧ ∀ index, index ∈ plan.required ↔
        ∃ field, plan.fields[index]? = some field ∧ field.cardinality = .required := by
  obtain ⟨hcheck, -⟩ := sound_of_compile hcompile
  obtain ⟨set, hbuild⟩ := Schema.exists_build hcheck
  refine ⟨set, hbuild, fun plan hplan => ?_⟩
  have hclosed := closed_of_build hcompile hbuild plan hplan
  have hlaid := hclosed.toLaidOut
  have hnumbers : ∀ field ∈ plan.fields, field.number ≠ 0 ∧ field.number.toNat < 2 ^ 29 :=
    fun field hfield => ⟨(hclosed.fields field hfield).number_ne_zero,
      (hclosed.fields field hfield).number_lt⟩
  have hnodup : plan.armNumbers.Nodup := by
    rcases Schema.armNumbers_of_build hcompile hbuild hplan with ⟨-, heq⟩ |
      ⟨decl, hdecl, -, heq⟩
    · rw [heq]
      decide
    · rw [heq]
      exact hdistinct decl hdecl
  refine ⟨Schema.exists_decl_of_mem hbuild hplan, Schema.isEntry_of_build hbuild hplan,
    by rw [hlaid.steps, List.length_mapIdx], by rw [hlaid.arms, List.length_mapIdx], ?_, ?_, ?_,
    hlaid.required⟩
  · intro index field hfield
    have hindex : index < plan.fields.length := (List.getElem?_eq_some_iff.mp hfield).1
    have hmatched := (hclosed.fields field (List.mem_of_getElem? hfield)).matched index
    have hstep : plan.steps[index]? = some (field.stepAt index) := by
      rw [hlaid.steps, List.getElem?_mapIdx, hfield]
      rfl
    have harm : plan.arms[index]? = some (field.armAt index) := by
      rw [hlaid.arms, List.getElem?_mapIdx, hfield]
      rfl
    -- the arm that is found stands at the index of the field
    have hfound : plan.arm? field.number = some (field.armAt index) := by
      obtain ⟨step, arm, hstep', -, -, hfound, harm', -⟩ :=
        (hlaid.nodup_iff_leadsTo hnumbers).mp hnodup index hindex
      obtain rfl := Option.some.inj (hstep.symm.trans hstep')
      obtain rfl := Option.some.inj (harm.symm.trans harm')
      exact hfound
    refine ⟨_, _, hstep, harm, hmatched, hfound, fun nested record => ?_⟩
    rw [← hmatched.readArm_eq set nested hfield, readField]
    simp only [Tag.key, FieldPlan.stepAt, hfound]
  · intro field hfield hpacked
    obtain ⟨hrepeated, hmap, hpackable⟩ := (hclosed.fields field hfield).packed hpacked
    exact ⟨hrepeated, hpackable, hmap⟩
  · rw [Schema.required_of_build hbuild hplan]
    exact List.pairwise_findIdxs

/-! ## Crates

A message with a field for each form, two of them under one name.
-/

def crateSource : String :=
  "message Crate \x7b required int32 mark = 1; repeated string mark = 2; " ++
    "repeated int64 counts = 3; repeated int64 sums = 4 [packed=false]; " ++
    "map<bool, bytes> parts = 5; \x7d"

def cratePlan : MessagePlan :=
  .ofFields "Crate" false
    [(⟨"mark", 1, .detached "int32", .required, none, false⟩, .scalar .int32),
      (⟨"mark", 2, .detached "string", .repeated, none, false⟩, .scalar .string),
      (⟨"counts", 3, .detached "int64", .repeated, none, false⟩, .scalar .int64),
      (⟨"sums", 4, .detached "int64", .repeated, some false, false⟩, .scalar .int64),
      (⟨"parts", 5, .detached "Crate.PartsEntry", .repeated, none, true⟩,
        .message "Crate.PartsEntry")]

def crateEntryPlan : MessagePlan :=
  .ofFields "Crate.PartsEntry" true
    [(.ofEntry keyField 1 (.detached "bool"), .scalar .bool),
      (.ofEntry valueField 2 (.detached "bytes"), .scalar .bytes)]

theorem compile_crateSource : ∃ schema, compile crateSource = .ok schema ∧
    schema.DistinctNumbers ∧ schema.build = .ok ⟨none, [], [cratePlan, crateEntryPlan]⟩ :=
  Except.exists_of_any (by decide +kernel)

theorem steps_match_arms_crate : ∃ schema, compile crateSource = .ok schema ∧
    schema.DistinctNumbers ∧ (∃ key value, crateEntryPlan.IsEntry key value) ∧
    ∀ plan ∈ [cratePlan, crateEntryPlan],
      ∀ (index : Nat) (field : FieldPlan), plan.fields[index]? = some field → ∃ step arm,
        plan.steps[index]? = some step ∧ plan.arms[index]? = some arm ∧
          field.Matched index step arm ∧ plan.arm? step.tag.number = some arm := by
  obtain ⟨schema, hcompile, hdistinct, hbuild⟩ := compile_crateSource
  obtain ⟨set, hset, hplans⟩ := Schema.steps_match_arms hcompile hdistinct
  obtain rfl := Except.ok.inj (hbuild.symm.trans hset)
  refine ⟨schema, hcompile, hdistinct, ?_, fun plan hplan index field hfield => ?_⟩
  · exact (hplans crateEntryPlan (by simp)).2.1 rfl
  obtain ⟨-, -, -, -, hfields, -⟩ := hplans plan hplan
  obtain ⟨step, arm, hstep, harm, hmatched, hfound, -⟩ := hfields index field hfield
  exact ⟨step, arm, hstep, harm, hmatched, hfound⟩

end WireCodec
