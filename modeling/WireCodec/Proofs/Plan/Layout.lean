import Mathlib.Data.List.Forall2
import Mathlib.Data.List.Induction
import WireCodec.Plan.Build
import WireCodec.Proofs.Outcome

/-! # Layout of plans

The steps, the arms and the required indices of a plan are laid out by its
fields: each field has one step and one arm, at the index of the field, and
what they say depends on the field alone.
-/

namespace WireCodec

namespace FieldPlan

/-- The form in which a field is written. -/
def form (field : FieldPlan) : EncodeForm :=
  if field.isMapEntry then .mapEntries field.type.name
  else if field.packed then .packed
  else if field.cardinality = .repeated then .each
  else .single

/-- The wire type under which a field is written. -/
def writtenAs (field : FieldPlan) : WireType :=
  if field.isMapEntry || field.packed then .lengthDelimited else field.type.wireType

/-- What becomes of the occurrences of a field. -/
def action (field : FieldPlan) : DecodeAction :=
  if field.isMapEntry then .mergeEntry field.type.name
  else if field.cardinality = .repeated then
    if field.type.packable then .appendPackable field.type.wireType else .append
  else .assign

/-- The step of the field at an index. -/
def stepAt (index : Nat) (field : FieldPlan) : EncodeStep :=
  ⟨index, ⟨field.number, field.writtenAs⟩, field.form⟩

/-- The arm of the field at an index. -/
def armAt (index : Nat) (field : FieldPlan) : DecodeArm :=
  ⟨field.number, index, field.type.wireType, field.action⟩

end FieldPlan

/-- The steps, the arms and the required indices are those of the fields. -/
structure MessagePlan.LaidOut (plan : MessagePlan) : Prop where
  steps : plan.steps = plan.fields.mapIdx FieldPlan.stepAt
  arms : plan.arms = plan.fields.mapIdx FieldPlan.armAt
  required : ∀ index, index ∈ plan.required ↔
    ∃ field, plan.fields[index]? = some field ∧ field.cardinality = .required

namespace MessagePlan

theorem LaidOut.addField {plan : MessagePlan} (h : plan.LaidOut) {field : PlainField}
    {type : ValueType} (hentry : field.isMapEntry = true → type.name = field.type.node) :
    (plan.addField field type).LaidOut := by
  have hform : (field.plan type).form = field.form type := by
    unfold FieldPlan.form PlainField.form
    cases hmap : field.isMapEntry with
    | true => simp [PlainField.plan, hmap, hentry hmap]
    | false => simp [PlainField.plan, hmap]
  have haction : (field.plan type).action = field.action type := by
    unfold FieldPlan.action PlainField.action
    cases hmap : field.isMapEntry with
    | true => simp [PlainField.plan, hmap, hentry hmap]
    | false => simp [PlainField.plan, hmap]
  constructor
  · simp only [MessagePlan.addField, h.steps, List.mapIdx_concat, FieldPlan.stepAt, hform]
    rfl
  · simp only [MessagePlan.addField, h.arms, List.mapIdx_concat, FieldPlan.armAt, haction]
    rfl
  · intro index
    have hlast : (plan.fields ++ [field.plan type])[plan.fields.length]? =
        some (field.plan type) := by simp
    have hmem : index ∈ (plan.addField field type).required ↔
        index ∈ plan.required ∨ index = plan.fields.length ∧ field.cardinality = .required := by
      unfold MessagePlan.addField
      dsimp only
      split
      next hrequired => simp [hrequired]
      next hrequired => simp [hrequired]
    rw [hmem, h.required]
    change _ ↔ ∃ other, (plan.fields ++ [field.plan type])[index]? = some other ∧ _
    -- the new field stands behind the others, at the index that is their number
    rcases Nat.lt_trichotomy index plan.fields.length with hlt | rfl | hgt
    · rw [List.getElem?_append_left hlt]
      simp [Nat.ne_of_lt hlt]
    · simp [PlainField.plan]
    · have hnone : plan.fields[index]? = none := List.getElem?_eq_none (Nat.le_of_lt hgt)
      have hnone' : (plan.fields ++ [field.plan type])[index]? = none :=
        List.getElem?_eq_none (by simp; omega)
      simp [hnone, hnone', Nat.ne_of_gt hgt]

variable {name : String} {synthetic : Bool} {fields : List (PlainField × ValueType)}

theorem ofFields_concat (field : PlainField × ValueType) :
    ofFields name synthetic (fields ++ [field]) =
      (ofFields name synthetic fields).addField field.1 field.2 := by
  simp [ofFields]

theorem ofFields_fields :
    (ofFields name synthetic fields).fields = fields.map fun field => field.1.plan field.2 := by
  induction fields using List.reverseRecOn with
  | nil => rfl
  | append_singleton fields field ih =>
      rw [ofFields_concat, List.map_append, ← ih]
      rfl

theorem ofFields_name : (ofFields name synthetic fields).name = name := by
  induction fields using List.reverseRecOn with
  | nil => rfl
  | append_singleton fields field ih =>
      rw [ofFields_concat]
      exact ih

theorem ofFields_synthetic : (ofFields name synthetic fields).synthetic = synthetic := by
  induction fields using List.reverseRecOn with
  | nil => rfl
  | append_singleton fields field ih =>
      rw [ofFields_concat]
      exact ih

/-- The indices that a plan requires are those of its required fields, in order. -/
theorem ofFields_required : (ofFields name synthetic fields).required =
      (ofFields name synthetic fields).fields.findIdxs (·.cardinality = .required) := by
  induction fields using List.reverseRecOn with
  | nil => rfl
  | append_singleton fields field ih =>
      rw [ofFields_concat]
      unfold addField
      simp only [List.findIdxs_append, ih, Nat.zero_add]
      split
      next hrequired => simp [List.findIdxs_cons, PlainField.plan, hrequired]
      next hrequired => simp [List.findIdxs_cons, PlainField.plan, hrequired]

theorem laidOut_ofFields (hentry : ∀ field ∈ fields, field.1.isMapEntry = true →
      field.2.name = field.1.type.node) : (ofFields name synthetic fields).LaidOut := by
  induction fields using List.reverseRecOn with
  | nil => exact ⟨rfl, rfl, by simp [ofFields]⟩
  | append_singleton fields field ih =>
      rw [ofFields_concat]
      refine (ih fun other hother => ?_).addField (hentry field (by simp))
      exact hentry other (List.mem_append_left _ hother)

end MessagePlan

theorem eq_map_ok_of_gather {ε α : Type} {outcomes : List (Except ε α)} {results : List α}
    (h : gather outcomes = ([], results)) : outcomes = results.map .ok := by
  induction outcomes generalizing results with
  | nil =>
      cases h
      rfl
  | cons outcome rest ih =>
      cases outcome with
      | error e => simp [gather] at h
      | ok a =>
          simp only [gather, Prod.mk.injEq] at h
          obtain ⟨herrors, rfl⟩ := h
          rw [List.map_cons, ← ih (Prod.ext herrors rfl)]

theorem gather_map_ok {ε α : Type} (results : List α) :
    gather (results.map (Except.ok : α → Except ε α)) = ([], results) := by
  induction results with
  | nil => rfl
  | cons a rest ih => simp [gather, ih]

theorem resolved_fields {index : TypeIndex} {plain : List PlainField}
    {fields : List (PlainField × ValueType)}
    (h : plain.map (fun field => (fun type => (field, type)) <$>
      index.resolve field.type.node field.type.span) = fields.map .ok) :
    fields.map (·.1) = plain ∧
      ∀ field ∈ fields, index.find? field.1.type.node = some field.2 := by
  induction plain generalizing fields with
  | nil =>
      obtain rfl := List.map_eq_nil_iff.mp h.symm
      simp
  | cons first rest ih =>
      cases fields with
      | nil => cases h
      | cons field others =>
          rw [List.map_cons, List.map_cons] at h
          obtain ⟨hfirst, hrest⟩ := List.cons.inj h
          obtain ⟨hnames, hfind⟩ := ih hrest
          obtain ⟨type, hresolve, rfl⟩ := Except.map_eq_ok.mp hfirst
          unfold TypeIndex.resolve at hresolve
          split at hresolve
          next found hfound =>
            cases hresolve
            exact ⟨by rw [List.map_cons, hnames], List.forall_mem_cons.mpr ⟨hfound, hfind⟩⟩
          next => cases hresolve

/-- A plan that is built lays out the fields of its message, each with the
type that its type name stands for. -/
theorem PlainMessage.plan_eq_ok {message : PlainMessage} {index : TypeIndex} {plan : MessagePlan}
    (h : message.plan index = .ok plan) :
    ∃ fields : List (PlainField × ValueType), fields.map (·.1) = message.fields ∧
      (∀ field ∈ fields, index.find? field.1.type.node = some field.2) ∧
      plan = MessagePlan.ofFields message.name message.synthetic fields := by
  unfold PlainMessage.plan at h
  dsimp only at h
  split at h
  next fields hgather =>
    cases h
    obtain ⟨hnames, hfind⟩ := resolved_fields (eq_map_ok_of_gather hgather)
    exact ⟨fields, hnames, hfind, rfl⟩
  next => cases h

/-- The fields of a plan have the names of the fields of its message, in order. -/
theorem PlainMessage.map_name_plan {message : PlainMessage} {index : TypeIndex}
    {plan : MessagePlan} (h : message.plan index = .ok plan) :
    plan.fields.map (·.name) = message.fields.map (·.name) := by
  obtain ⟨fields, hnames, _, rfl⟩ := plan_eq_ok h
  rw [MessagePlan.ofFields_fields, ← hnames, List.map_map, List.map_map]
  rfl

theorem PlainMessage.map_number_plan {message : PlainMessage} {index : TypeIndex}
    {plan : MessagePlan} (h : message.plan index = .ok plan) :
    plan.fields.map (·.number) = message.fields.map (·.number) := by
  obtain ⟨fields, hnames, _, rfl⟩ := plan_eq_ok h
  rw [MessagePlan.ofFields_fields, ← hnames, List.map_map, List.map_map]
  rfl

/-- The plans of a schema are those of its plain messages, in order. -/
theorem Schema.build_eq_ok {schema : Schema} {set : PlanSet} : schema.build = .ok set ↔
    schema.check = [] ∧ ∃ messages, schema.plain.map (·.plan schema.plainIndex) =
      messages.map .ok ∧ set = ⟨schema.package.map (·.node), schema.enumTables, messages⟩ := by
  unfold Schema.build
  cases hcheck : schema.check with
  | cons error rest => simp
  | nil =>
      dsimp only
      constructor
      · intro h
        split at h
        next messages hgather =>
          cases h
          exact ⟨rfl, messages, eq_map_ok_of_gather hgather, rfl⟩
        next => cases h
      · rintro ⟨-, messages, hplans, rfl⟩
        rw [hplans, gather_map_ok]

namespace Schema

variable {schema : Schema} {set : PlanSet}

theorem check_of_build (h : schema.build = .ok set) : schema.check = [] := (build_eq_ok.mp h).1

theorem enums_of_build (h : schema.build = .ok set) : set.enums = schema.enumTables := by
  obtain ⟨_, _, _, rfl⟩ := build_eq_ok.mp h
  rfl

/-- Each plain message has its plan at its place. -/
theorem forall₂_of_build (h : schema.build = .ok set) :
    List.Forall₂ (fun plain plan => plain.plan schema.plainIndex = .ok plan) schema.plain
      set.messages := by
  obtain ⟨_, messages, hplans, rfl⟩ := build_eq_ok.mp h
  rw [← List.forall₂_eq_eq_eq, List.forall₂_map_left_iff, List.forall₂_map_right_iff] at hplans
  exact hplans

theorem exists_plain_of_build (h : schema.build = .ok set) {plan : MessagePlan}
    (hplan : plan ∈ set.messages) :
    ∃ plain ∈ schema.plain, plain.plan schema.plainIndex = .ok plan := by
  obtain ⟨_, messages, hplans, rfl⟩ := build_eq_ok.mp h
  have hmem : (Except.ok plan : Except (List CheckError) MessagePlan) ∈ messages.map .ok :=
    List.mem_map_of_mem hplan
  rw [← hplans] at hmem
  exact List.mem_map.mp hmem

theorem exists_plan_of_build (h : schema.build = .ok set) {plain : PlainMessage}
    (hplain : plain ∈ schema.plain) :
    ∃ plan ∈ set.messages, plain.plan schema.plainIndex = .ok plan := by
  obtain ⟨_, messages, hplans, rfl⟩ := build_eq_ok.mp h
  have hmem : plain.plan schema.plainIndex ∈ messages.map .ok :=
    hplans ▸ List.mem_map_of_mem hplain
  obtain ⟨plan, hplan, heq⟩ := List.mem_map.mp hmem
  exact ⟨plan, hplan, heq.symm⟩

end Schema

end WireCodec
