import WireCodec.Program.Build
import WireCodec.Proofs.Codec.FieldTrees
import WireCodec.Proofs.Lists
import WireCodec.Proofs.Plan.Closed

/-! # The text of programs

The source text for the plans of a compiled schema is the text of their
program: every piece of code is that of the construct it stands for.
-/

namespace WireCodec

open Program

/-! ## Values -/

theorem ScalarType.native_text (type : ScalarType) : type.native.text = type.typeText := by
  cases type <;> rfl

/-- The wire type of variants is spelled out in the code that writes them. -/
theorem WriteStatement.key_varint_code (number : UInt32) :
    (WriteStatement.key number .varint).code =
      .line s!"buf.write_tag({number}, protowire::wire::VARINT);" := by
  have htext : ", " ++ (WireType.varint.constantText ++ ");") =
      ", protowire::wire::VARINT);" := by decide
  simp only [WriteStatement.code, toString, ← htext, String.append_assoc]

namespace ValueType

theorem element_text (type : ValueType) : type.element.text = type.typeText := by
  cases type with
  | scalar type => exact type.native_text
  | enum name => rfl
  | message name => rfl

theorem writeStatements_code (type : ValueType) (number : UInt32) (value : String)
    (boxed : Bool) :
    (type.writeStatements number value boxed).map (·.code) =
      type.writeCode number value boxed := by
  cases type with
  | scalar type => cases type <;> rfl
  | enum name =>
      simp only [writeStatements, List.map_cons, WriteStatement.key_varint_code]
      rfl
  | message name => rfl

theorem packedWriter_text (type : ValueType) : type.packedWriter.text = type.elementWriter := by
  cases type <;> rfl

end ValueType

/-! ## Fields -/

namespace FieldPlan

variable {field : FieldPlan}

theorem plainType_text (field : FieldPlan) : field.plainType.text = field.plainTypeText := by
  obtain ⟨name, number, cardinality, type, packed, isMapEntry⟩ := field
  unfold plainType plainTypeText
  have htext := type.element_text
  cases cardinality with
  | repeated =>
      dsimp only
      rw [← htext]
      rfl
  | required => cases type <;> dsimp only <;> rw [← htext] <;> rfl
  | optional => cases type <;> dsimp only <;> rw [← htext] <;> rfl

theorem declaredType_text (field : FieldPlan) (set : PlanSet) :
    (field.declaredType set).text = field.typeText set := by
  have hplain := field.plainType_text
  unfold declaredType typeText
  cases field.isMapEntry with
  | false => exact hplain
  | true =>
      cases htype : field.type with
      | scalar type => exact hplain
      | enum name => exact hplain
      | message entry =>
          cases hentry : set.entryFields? entry with
          | none =>
              simp only [hentry]
              exact hplain
          | some pair =>
              obtain ⟨key, value⟩ := pair
              simp only [hentry]
              rw [← key.type.element_text, ← value.type.element_text]
              rfl

theorem entryMember_armCode (field : FieldPlan) (name : String) :
    (field.entryMember name).armCode name = (EntryPart.mk name field).readCode := by
  obtain ⟨_, number, cardinality, type, packed, isMapEntry⟩ := field
  cases type <;> rfl

variable {plan : MessagePlan}

theorem stepCode_eq {step : EncodeStep} (hfield : plan.fields[step.field]? = some field) :
    plan.stepCode step = [(field.encodeStatement step).code] := by
  unfold MessagePlan.stepCode encodeStatement
  rw [hfield]
  cases step.form with
  | single => simp only [EncodeStatement.code, ValueType.writeStatements_code]
  | each => simp only [EncodeStatement.code, ValueType.writeStatements_code]
  | packed => simp only [EncodeStatement.code, ValueType.packedWriter_text]
  | mapEntries entry => rfl

theorem armCode_eq {arm : DecodeArm} (hfield : plan.fields[arm.field]? = some field) :
    plan.armCode arm = [(field.matchArm arm).code] := by
  unfold MessagePlan.armCode
  rw [hfield]
  obtain ⟨name, number, cardinality, type, packed, isMapEntry⟩ := field
  obtain ⟨number, index, wireType, action⟩ := arm
  cases action with
  | assign => cases type <;> rfl
  | append => cases type <;> rfl
  | appendPackable natural => cases type <;> rfl
  | mergeEntry entry => rfl

end FieldPlan

/-! ## Messages -/

namespace MessagePlan

variable {plan : MessagePlan} {set : PlanSet}

section LaidOut

variable (hplan : plan.LaidOut)
include hplan

theorem LaidOut.forall₂_arms :
    List.Forall₂ (fun (arm : DecodeArm) (field : FieldPlan) =>
      plan.fields[arm.field]? = some field ∧ arm = field.armAt arm.field)
      plan.arms plan.fields := by
  rw [hplan.arms]
  refine List.forall₂_iff_get.mpr ⟨List.length_mapIdx, ?_⟩
  intro index hleft hright
  simp only [List.get_eq_getElem, List.getElem_mapIdx]
  exact ⟨List.getElem?_eq_getElem hright, rfl⟩

/-- The statements of an encoder are those of the fields. -/
theorem LaidOut.encode_structItem : (plan.structItem set).encode =
    plan.fields.map fun field => field.encodeStatement (field.stepAt 0) := by
  refine filterMap_eq_map_of_forall₂ hplan.forall₂_steps ?_
  rintro step field ⟨hfield, hstep⟩
  rw [hfield, hstep]
  rfl

/-- The arms of a decoder are those of the fields. -/
theorem LaidOut.arms_structItem : (plan.structItem set).arms =
    plan.fields.map fun field => field.matchArm (field.armAt 0) := by
  refine filterMap_eq_map_of_forall₂ hplan.forall₂_arms ?_
  rintro arm field ⟨hfield, harm⟩
  rw [hfield, harm]
  rfl

theorem LaidOut.encodeCode_eq : (plan.structItem set).encodeCode = plan.encodeCode := by
  have hempty : (plan.structItem set).encode.isEmpty = plan.steps.isEmpty := by
    rw [hplan.encode_structItem, hplan.steps]
    cases plan.fields <;> simp
  have hcode : plan.steps.flatMap plan.stepCode =
      (plan.structItem set).encode.map (·.code) := by
    rw [hplan.encode_structItem, List.map_map, List.map_eq_flatMap]
    refine flatMap_eq_of_forall₂ hplan.forall₂_steps ?_
    rintro step - field - ⟨hfield, hstep⟩
    rw [FieldPlan.stepCode_eq hfield, hstep]
    rfl
  unfold StructItem.encodeCode encodeCode
  rw [hempty, hcode]

theorem LaidOut.decodeCode_eq : (plan.structItem set).decodeCode = plan.decodeCode := by
  have hempty : (plan.structItem set).fields.isEmpty = plan.fields.isEmpty := by
    simp [structItem]
  have harms : plan.arms.flatMap plan.armCode = (plan.structItem set).arms.map (·.code) := by
    rw [hplan.arms_structItem, List.map_map, List.map_eq_flatMap]
    refine flatMap_eq_of_forall₂ hplan.forall₂_arms ?_
    rintro arm - field - ⟨hfield, harm⟩
    rw [FieldPlan.armCode_eq hfield, harm]
    rfl
  have hrequired : plan.required.flatMap plan.requiredCode =
      (plan.structItem set).required.map StructItem.requiredCode := by
    unfold structItem
    induction plan.required with
    | nil => rfl
    | cons index rest ih =>
        rw [List.flatMap_cons, ih]
        unfold requiredCode
        cases hfield : plan.fields[index]? <;> simp [hfield, StructItem.requiredCode]
  unfold StructItem.decodeCode decodeCode
  rw [hempty, harms, hrequired]

end LaidOut

theorem structItem_typeCode (mode : DeriveMode) :
    (plan.structItem set).typeCode mode = plan.typeCode set mode := by
  unfold StructItem.typeCode typeCode structItem
  cases plan.fields with
  | nil => rfl
  | cons field rest =>
      simp only [List.map_cons, List.map_map, Function.comp_def, FieldPlan.declaredType_text]

theorem entryItem_code {key value : FieldPlan} {rest : List FieldPlan}
    (hfields : plan.fields = key :: value :: rest) :
    (plan.entryItem key value).code = plan.entryCode := by
  have hkeyWrite := key.type.writeStatements_code key.number keyField false
  have hvalueWrite := value.type.writeStatements_code value.number valueField false
  have hkeyArm := key.entryMember_armCode keyField
  have hvalueArm := value.entryMember_armCode valueField
  unfold FieldPlan.entryMember at hkeyArm hvalueArm
  unfold MessagePlan.entryCode EntryItem.code entryItem FieldPlan.entryMember
  rw [hfields]
  simp only [List.map_append, hkeyWrite, hvalueWrite, hkeyArm, hvalueArm, ValueType.element_text]
  rfl

/-- The code for a plan is that of its declaration. -/
theorem exists_item (hplan : plan.LaidOut)
    (hentry : plan.synthetic = true → ∃ key value, plan.IsEntry key value) (mode : DeriveMode) :
    ∃ item, plan.item? set = some item ∧ plan.anyCode set mode = item.code mode := by
  unfold item? anyCode
  cases hsynthetic : plan.synthetic with
  | false =>
      refine ⟨_, rfl, ?_⟩
      simp only [MessageItem.code, StructItem.code, code, structItem_typeCode,
        hplan.encodeCode_eq, hplan.decodeCode_eq]
      rfl
  | true =>
      obtain ⟨key, value, hisEntry⟩ := hentry hsynthetic
      rw [hisEntry.fields, if_pos rfl, if_pos rfl]
      exact ⟨_, rfl, (entryItem_code hisEntry.fields).symm⟩

end MessagePlan

/-- The source text for the plans of a compiled schema is the text of their program. -/
theorem PlanSet.source_eq_text {schema : Schema} {set : PlanSet} {source : String}
    (hcompile : compile source = .ok schema) (hbuild : schema.build = .ok set)
    (mode : DeriveMode) : set.source mode = set.program.text mode := by
  have hclosed := closed_of_build hcompile hbuild
  have hitems : ∀ plan ∈ set.messages, ∃ item, plan.item? set = some item ∧
      plan.anyCode set mode = item.code mode := fun plan hplan =>
    plan.exists_item (hclosed plan hplan).toLaidOut (Schema.isEntry_of_build hbuild hplan) mode
  have hmessages : (set.messages.flatMap fun plan => .blank :: plan.anyCode set mode) =
      set.program.messages.flatMap fun item => .blank :: item.code mode := by
    refine flatMap_eq_flatMap_filterMap fun plan hplan => ?_
    obtain ⟨item, hitem, hcode⟩ := hitems plan hplan
    exact ⟨item, hitem, congrArg _ hcode⟩
  have henums : (set.enums.flatMap fun table => .blank :: table.code mode) =
      set.program.enums.flatMap fun item => .blank :: item.code mode := by
    rw [program, List.flatMap_map]
    rfl
  have hcode : set.code mode = set.program.code mode := by
    unfold code Program.code
    rw [hmessages, henums]
    rfl
  exact congrArg (Code.printAll 0) hcode

end WireCodec
