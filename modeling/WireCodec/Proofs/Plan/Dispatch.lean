import Mathlib.Data.List.Nodup
import WireCodec.Proofs.Plan.Closed
import WireCodec.Proofs.Wire.ScalarForm

/-! # Dispatch by field numbers

The keys that the steps of a plan write keep all bits of their field numbers,
and each leads to the first arm with its number. That is the arm of the very
field for all fields exactly if no number repeats, which no check asks of a
declared message.
-/

namespace WireCodec

namespace MessagePlan

/-- The numbers of the arms, in the order in which they are tried. -/
def armNumbers (plan : MessagePlan) : List UInt32 := plan.arms.map (·.number)

/-- The key that is written for the field at an index is read as it was, and
leads to the arm of the field at another index. -/
def LeadsTo (plan : MessagePlan) (index target : Nat) : Prop :=
  ∃ step arm, plan.steps[index]? = some step ∧ step.field = index ∧
    Key.ofWord step.tag.key.word = step.tag.key ∧ plan.arm? step.tag.key.number = some arm ∧
      plan.arms[target]? = some arm ∧ arm.field = target

variable {plan : MessagePlan}

theorem LaidOut.armNumbers_eq (h : plan.LaidOut) :
    plan.armNumbers = plan.fields.map (·.number) := by
  unfold armNumbers
  rw [h.arms]
  refine List.ext_getElem (by simp) fun index _ _ => ?_
  simp only [List.getElem_map, List.getElem_mapIdx]
  rfl

/-- An arm is found at the first place of its number. -/
theorem arm?_eq_getElem? (plan : MessagePlan) (number : UInt32) :
    plan.arm? number = plan.arms[plan.armNumbers.idxOf number]? := by
  rw [arm?, List.find?_eq_getElem?_findIdx, armNumbers, List.idxOf, List.findIdx_map]
  rfl

section Laid

variable (hlaid : plan.LaidOut)
  (hnumbers : ∀ field ∈ plan.fields, field.number ≠ 0 ∧ field.number.toNat < 2 ^ 29)
include hlaid hnumbers

theorem LaidOut.leadsTo_first {index : Nat} {field : FieldPlan}
    (hfield : plan.fields[index]? = some field) :
    plan.LeadsTo index (plan.armNumbers.idxOf field.number) := by
  have hmem := List.mem_of_getElem? hfield
  have hstep : plan.steps[index]? = some (field.stepAt index) := by
    rw [hlaid.steps, List.getElem?_mapIdx, hfield]
    rfl
  have hnumber : field.number ∈ plan.armNumbers :=
    hlaid.armNumbers_eq ▸ List.mem_map_of_mem hmem
  have hplace := List.idxOf_lt_length_of_mem hnumber
  generalize hfirst : plan.armNumbers.idxOf field.number = first at hplace
  have hlength : plan.armNumbers.length = plan.fields.length := by
    rw [hlaid.armNumbers_eq, List.length_map]
  have harm : plan.arms[first]? = some (plan.fields[first].armAt first) := by
    rw [hlaid.arms, List.getElem?_mapIdx, List.getElem?_eq_getElem (hlength ▸ hplace)]
    rfl
  refine ⟨field.stepAt index, plan.fields[first].armAt first, hstep, rfl, ?_, ?_, harm, rfl⟩
  · exact Key.ofWord_word (hnumbers field hmem).2 (WireType.code_lt _)
  · change plan.arm? field.number = _
    rw [arm?_eq_getElem?, hfirst, harm]

/-- All keys lead to the arms of their own fields exactly if the numbers are
distinct. -/
theorem LaidOut.nodup_iff_leadsTo : plan.armNumbers.Nodup ↔
    ∀ index < plan.fields.length, plan.LeadsTo index index := by
  have hlength : plan.armNumbers.length = plan.fields.length := by
    rw [hlaid.armNumbers_eq, List.length_map]
  have hget : ∀ index (hindex : index < plan.fields.length),
      plan.armNumbers[index]? = some plan.fields[index].number := by
    intro index hindex
    rw [hlaid.armNumbers_eq, List.getElem?_map, List.getElem?_eq_getElem hindex]
    rfl
  constructor
  · intro hnodup index hindex
    obtain ⟨hplace, hnumber⟩ := List.getElem?_eq_some_iff.mp (hget index hindex)
    have hlead := hlaid.leadsTo_first hnumbers (List.getElem?_eq_getElem hindex)
    rwa [← hnumber, hnodup.idxOf_getElem] at hlead
  · intro hown
    refine List.nodup_iff_getElem?_ne_getElem?.mpr fun before after hlt hafter hsame => ?_
    have hbefore : before < plan.armNumbers.length := Nat.lt_trans hlt hafter
    rw [hget before (hlength ▸ hbefore), hget after (hlength ▸ hafter),
      Option.some.injEq] at hsame
    -- one key would lead to two arms
    have hnumber : ∀ index (hindex : index < plan.fields.length), ∃ arm,
        plan.arm? plan.fields[index].number = some arm ∧ arm.field = index := by
      intro index hindex
      obtain ⟨step, arm, hstep, -, -, harm, -, hfield⟩ := hown index hindex
      rw [hlaid.steps, List.getElem?_mapIdx, List.getElem?_eq_getElem hindex] at hstep
      cases hstep
      exact ⟨arm, harm, hfield⟩
    obtain ⟨arm, harm, rfl⟩ := hnumber before (hlength ▸ hbefore)
    obtain ⟨other, hother, rfl⟩ := hnumber after (hlength ▸ hafter)
    rw [← hsame, harm, Option.some.injEq] at hother
    exact absurd (congrArg DecodeArm.field hother) (Nat.ne_of_lt hlt)

end Laid

end MessagePlan

/-- The numbers of a plan are those of the declaration it is built for, or 1
and 2 for an entry. -/
theorem Schema.armNumbers_of_build {source : String} {schema : Schema} {set : PlanSet}
    (hcompile : compile source = .ok schema) (hbuild : schema.build = .ok set)
    {plan : MessagePlan} (hplan : plan ∈ set.messages) :
    plan.synthetic = true ∧ plan.armNumbers = [1, 2] ∨
      ∃ decl ∈ schema.messages, plan.BuiltFor schema decl.node ∧
        plan.armNumbers = decl.node.fields.map (·.node.number.node) := by
  obtain ⟨hcheck, -⟩ := sound_of_compile hcompile
  obtain ⟨plain, hplain, hplanned⟩ := Schema.exists_plain_of_build hbuild hplan
  have hlaid := Schema.laidOut_of_plan hplain hplanned
  rcases Schema.mem_plain.mp hplain with ⟨decl, hdecl, rfl⟩ | hentry
  · refine .inr ⟨decl, hdecl, hplanned, ?_⟩
    rw [hlaid.armNumbers_eq, PlainMessage.map_number_plan hplanned, List.map_map]
    exact List.map_congr_left fun field _ => field.node.plain_number _
  · obtain ⟨key, value, hisEntry⟩ := Schema.isEntry_of_plan hcheck hentry hplanned
    refine .inl ⟨hisEntry.synthetic, ?_⟩
    rw [hlaid.armNumbers_eq, hisEntry.fields]
    rfl

/-- Every source text that compiles has plans whose field numbers fit a key.
The key of a field leads to the first arm with its number; it is the arm of
the field for all fields of a plan exactly if the numbers of the plan are
distinct, which they are in the plan of every entry, and in that of a declared
message if its declaration repeats none. -/
theorem Schema.keys_lead_of_compile {source : String} {schema : Schema}
    (hcompile : compile source = .ok schema) :
    ∃ set, schema.build = .ok set ∧ ∀ plan ∈ set.messages,
      (∀ number ∈ plan.armNumbers, 1 ≤ number.toNat ∧ number.toNat ≤ 2 ^ 29 - 1) ∧
      (∀ index field, plan.fields[index]? = some field →
        plan.LeadsTo index (plan.armNumbers.idxOf field.number)) ∧
      (plan.armNumbers.Nodup ↔ ∀ index < plan.fields.length, plan.LeadsTo index index) ∧
      (plan.synthetic = true ∧ plan.armNumbers.Nodup ∨
        ∃ decl ∈ schema.messages, plan.BuiltFor schema decl.node ∧
          (plan.armNumbers.Nodup ↔ (decl.node.fields.map (·.node.number.node)).Nodup)) := by
  obtain ⟨hcheck, -⟩ := sound_of_compile hcompile
  obtain ⟨set, hbuild⟩ := Schema.exists_build hcheck
  have hclosed := closed_of_build hcompile hbuild
  refine ⟨set, hbuild, fun plan hplan => ?_⟩
  have hlaid := (hclosed plan hplan).toLaidOut
  have hnumbers : ∀ field ∈ plan.fields, field.number ≠ 0 ∧ field.number.toNat < 2 ^ 29 :=
    fun field hfield => ⟨((hclosed plan hplan).fields field hfield).number_ne_zero,
      ((hclosed plan hplan).fields field hfield).number_lt⟩
  refine ⟨?_, fun index field => hlaid.leadsTo_first hnumbers, hlaid.nodup_iff_leadsTo hnumbers, ?_⟩
  · rw [hlaid.armNumbers_eq]
    refine List.forall_mem_map.mpr fun field hfield => ?_
    obtain ⟨hzero, hlt⟩ := hnumbers field hfield
    have hpos : field.number.toNat ≠ 0 := fun h => hzero (UInt32.toNat_inj.mp h)
    omega
  · rcases Schema.armNumbers_of_build hcompile hbuild hplan with ⟨hsynthetic, heq⟩ | h
    · exact .inl ⟨hsynthetic, heq ▸ by decide⟩
    · obtain ⟨decl, hdecl, hbuilt, heq⟩ := h
      exact .inr ⟨decl, hdecl, hbuilt, heq ▸ Iff.rfl⟩

/-! ## Pairs

A message with two fields of one number, which the check lets pass.
-/

def pairSource : String :=
  "message Pair \x7b optional int32 left = 1; optional int32 right = 1; \x7d"

def pairPlan : MessagePlan :=
  .ofFields "Pair" false
    [(⟨"left", 1, .detached "int32", .optional, none, false⟩, .scalar .int32),
      (⟨"right", 1, .detached "int32", .optional, none, false⟩, .scalar .int32)]

theorem compile_pairSource : ∃ schema, compile pairSource = .ok schema ∧
    schema.build = .ok ⟨none, [], [pairPlan]⟩ :=
  Except.exists_of_any (by decide +kernel)

theorem keys_lead_pair : ∃ schema, compile pairSource = .ok schema ∧
    ∃ set, schema.build = .ok set ∧ ∀ plan ∈ set.messages,
      (∀ number ∈ plan.armNumbers, 1 ≤ number.toNat ∧ number.toNat ≤ 2 ^ 29 - 1) ∧
      (∀ index field, plan.fields[index]? = some field →
        plan.LeadsTo index (plan.armNumbers.idxOf field.number)) := by
  obtain ⟨schema, hcompile, -⟩ := compile_pairSource
  obtain ⟨set, hbuild, hplans⟩ := Schema.keys_lead_of_compile hcompile
  refine ⟨schema, hcompile, set, hbuild, fun plan hplan => ?_⟩
  obtain ⟨hrange, hfirst, -⟩ := hplans plan hplan
  exact ⟨hrange, hfirst⟩

/-- The key of the second field leads to the arm of the first one. -/
theorem pair_leads_astray : (∃ schema, compile pairSource = .ok schema ∧
      schema.build = .ok ⟨none, [], [pairPlan]⟩) ∧ ¬pairPlan.armNumbers.Nodup ∧
    pairPlan.LeadsTo 1 0 ∧ ¬pairPlan.LeadsTo 1 1 := by
  refine ⟨compile_pairSource, by decide, ?_, ?_⟩
  · exact ⟨⟨1, ⟨1, .varint⟩, .single⟩, ⟨1, 0, .varint, .assign⟩, rfl, rfl, rfl, rfl, rfl, rfl⟩
  · rintro ⟨step, arm, hstep, -, -, harm, -, hfield⟩
    cases hstep
    cases harm
    exact absurd hfield (by decide)

end WireCodec
