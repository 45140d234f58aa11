import WireCodec.Proofs.Lists
import WireCodec.Proofs.Plan.Closed

/-! # Plans with a map spelled out

The entries of a map field may be spelled out: the field becomes a plain list
of messages of another name, which have the fields of the entries. This relates
the plans of both sides, message by message.
-/

namespace WireCodec

variable {entry message : String}

/-- A field with the type of the entries becomes a list of messages of a name. -/
def FieldPlan.spellOut (entry message : String) (field : FieldPlan) : FieldPlan :=
  if field.type = .message entry then { field with type := .message message, isMapEntry := false }
  else field

/-- A plan is laid out by the fields of another one, with the entries spelled out. -/
structure MessagePlan.SpellsOut (entry message : String) (plan plan' : MessagePlan) : Prop where
  laidOut : plan'.LaidOut
  fields : plan'.fields = plan.fields.map (FieldPlan.spellOut entry message)
  required : plan'.required = plan.required

/-- The plans of one set are those of another one with the entries of a map
spelled out as messages of a name. -/
structure PlanSet.SpellsOut (entry message : String) (set set' : PlanSet) : Prop where
  enums : set'.enums = set.enums
  plans : ∀ name plan, name ≠ entry → set.message? name = some plan →
    ∃ plan', set'.message? name = some plan' ∧ plan'.name = plan.name ∧
      plan'.synthetic = plan.synthetic ∧ plan.SpellsOut entry message plan'
  entries : ∃ plan plan' key value, set.message? entry = some plan ∧ plan.IsEntry key value ∧
    set'.message? message = some plan' ∧ plan.SpellsOut entry message plan'
  maps : ∀ plan ∈ set.messages, ∀ field ∈ plan.fields, field.type = .message entry →
    field.isMapEntry = true

namespace FieldPlan

variable {field : FieldPlan}

theorem spellOut_name : (field.spellOut entry message).name = field.name := by
  unfold spellOut
  split <;> rfl

theorem spellOut_number : (field.spellOut entry message).number = field.number := by
  unfold spellOut
  split <;> rfl

theorem spellOut_of_ne (h : field.type ≠ .message entry) :
    field.spellOut entry message = field := if_neg h

theorem spellOut_of_eq (h : field.type = .message entry) : field.spellOut entry message =
    { field with type := .message message, isMapEntry := false } := if_pos h

end FieldPlan

namespace MessagePlan.SpellsOut

variable {plan plan' : MessagePlan} (h : plan.SpellsOut entry message plan')
include h

theorem getElem? (index : Nat) : plan'.fields[index]? =
    (plan.fields[index]?).map (FieldPlan.spellOut entry message) := by
  rw [h.fields, List.getElem?_map]

/-- The same names are those of fields. -/
theorem isNone_field? (name : String) : (plan'.field? name).isNone = (plan.field? name).isNone := by
  unfold MessagePlan.field?
  rw [h.fields, List.find?_map, Option.isNone_map]
  simp only [Function.comp_def, FieldPlan.spellOut_name]

/-- A number leads to the same place, or nowhere on both sides. -/
theorem arm? (hplan : plan.LaidOut) (number : UInt32) :
    plan.arm? number = none ∧ plan'.arm? number = none ∨
      ∃ (index : Nat) (field : FieldPlan), plan.fields[index]? = some field ∧
        plan.arm? number = some (field.armAt index) ∧
        plan'.arm? number = some ((field.spellOut entry message).armAt index) := by
  let Matches (arm arm' : DecodeArm) : Prop := ∃ (index : Nat) (field : FieldPlan),
    plan.fields[index]? = some field ∧ arm = field.armAt index ∧
      arm' = (field.spellOut entry message).armAt index
  have harms : List.Forall₂ Matches plan.arms plan'.arms := by
    rw [hplan.arms, h.laidOut.arms, h.fields]
    refine List.forall₂_iff_get.mpr ⟨by simp, ?_⟩
    intro index hleft hright
    simp only [List.get_eq_getElem, List.getElem_mapIdx, List.getElem_map]
    rw [List.length_mapIdx] at hleft
    exact ⟨index, _, List.getElem?_eq_getElem hleft, rfl, rfl⟩
  have hnumbers : ∀ arm arm', Matches arm arm' →
      (arm.number == number) = (arm'.number == number) := by
    rintro _ _ ⟨index, field, -, rfl, rfl⟩
    simp only [FieldPlan.armAt, FieldPlan.spellOut_number]
  rcases find?_of_forall₂ harms hnumbers with hnone | hsome
  · exact .inl hnone
  · obtain ⟨_, _, harm, harm', index, field, hindex, rfl, rfl⟩ := hsome
    exact .inr ⟨index, field, hindex, harm, harm'⟩

end MessagePlan.SpellsOut

namespace PlanSet.SpellsOut

variable {set set' : PlanSet} {plan plan' : MessagePlan} {key : ScalarType} {value : ValueType}

/-- Messages for entries have the same fields on both sides. -/
theorem fields_of_isEntry (h : set.SpellsOut entry message set') (hplan : plan ∈ set.messages)
    (hentry : plan.IsEntry key value) (hspells : plan.SpellsOut entry message plan') :
    value ≠ .message entry ∧
      plan'.fields = [.ofEntry keyField 1 (.scalar key), .ofEntry valueField 2 value] := by
  have hvalue : value ≠ .message entry := by
    rintro rfl
    have hmap := h.maps plan hplan (.ofEntry valueField 2 (.message entry))
      (by simp [hentry.fields]) rfl
    cases hmap
  have hkey : ValueType.scalar key ≠ .message entry := by simp
  refine ⟨hvalue, ?_⟩
  rw [hspells.fields, hentry.fields, List.map_cons, List.map_cons, List.map_nil,
    FieldPlan.spellOut_of_ne hkey, FieldPlan.spellOut_of_ne hvalue]

end PlanSet.SpellsOut

end WireCodec
