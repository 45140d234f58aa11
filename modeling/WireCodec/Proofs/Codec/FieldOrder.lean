import WireCodec.Proofs.Codec.RoundTrip
import WireCodec.Proofs.Codec.Sequences

/-! # Order of fields

Occurrences of different fields may stand in any order. Each is read as
changes to the one field that has its number, and changes to different fields
do not see each other.
-/

namespace WireCodec

namespace PlanSet

variable {set : PlanSet} {plan : MessagePlan} {occurrences first second : List (List UInt8)}

/-- The changes to a field are those of the occurrences that have its number. -/
theorem filter_changesOf (hplan : plan.Coherent set)
    (hoccurrences : ∀ bytes ∈ occurrences, set.IsOccurrence plan bytes) {field : FieldPlan}
    (hfield : field ∈ plan.fields) :
    (occurrences.flatMap (set.changesOf plan)).filter (·.name = field.name) =
      (occurrences.filter (fieldNumber? · = some field.number)).flatMap fun bytes =>
        (set.changesOf plan bytes).filter (·.name = field.name) := by
  refine filter_flatMap ?_
  intro bytes hbytes change hchange hname
  obtain ⟨found, hfound, hnumber, hfoundName⟩ :=
    (hoccurrences bytes hbytes).changes_of_number hplan change hchange
  have heq : found.name = field.name := hfoundName.symm.trans (of_decide_eq_true hname)
  obtain rfl := List.inj_on_of_nodup_map hplan.names hfound hfield heq
  exact decide_eq_true hnumber

theorem filter_changesOf_eq_nil (hplan : plan.Coherent set)
    (hoccurrences : ∀ bytes ∈ occurrences, set.IsOccurrence plan bytes) {name : String}
    (hname : ∀ field ∈ plan.fields, field.name ≠ name) :
    (occurrences.flatMap (set.changesOf plan)).filter (·.name = name) = [] := by
  refine List.filter_eq_nil_iff.mpr ?_
  intro change hchange hsame
  obtain ⟨bytes, hbytes, hchange⟩ := List.mem_flatMap.mp hchange
  obtain ⟨field, hfield, _, hfieldName⟩ :=
    (hoccurrences bytes hbytes).changes_of_number hplan change hchange
  exact hname field hfield (hfieldName.symm.trans (of_decide_eq_true hsame))

/-- Occurrences may be put in any order in which those of one field number
keep theirs. -/
theorem decode_perm {source : String} {schema : Schema} (hcompile : compile source = .ok schema)
    (hdistinct : schema.DistinctFields) (hbuild : schema.build = .ok set)
    (hplan : plan ∈ set.messages) (hfirst : ∀ bytes ∈ first, set.IsOccurrence plan bytes)
    (hperm : first.Perm second)
    (horder : ∀ number : UInt32, first.filter (fieldNumber? · = some number) =
      second.filter (fieldNumber? · = some number)) :
    set.decode plan first.flatten.toArray = set.decode plan second.flatten.toArray := by
  have hset := coherent_of_build hcompile hdistinct hbuild
  have hcoherent := hset plan hplan
  have hsecond : ∀ bytes ∈ second, set.IsOccurrence plan bytes := fun bytes hbytes =>
    hfirst bytes (hperm.mem_iff.mpr hbytes)
  have hchanges : Change.applyAll (first.flatMap (set.changesOf plan)) [] =
      Change.applyAll (second.flatMap (set.changesOf plan)) [] := by
    refine Change.applyAll_congr ?_
    intro name
    by_cases hname : ∃ field ∈ plan.fields, field.name = name
    · obtain ⟨field, hfield, rfl⟩ := hname
      rw [filter_changesOf hcoherent hfirst hfield,
        filter_changesOf hcoherent hsecond hfield, horder]
    · have hother : ∀ field ∈ plan.fields, field.name ≠ name := fun field hfield heq =>
        hname ⟨field, hfield, heq⟩
      rw [filter_changesOf_eq_nil hcoherent hfirst hother,
        filter_changesOf_eq_nil hcoherent hsecond hother]
  rw [decode_of_readsAs (readsAs_flatten hfirst), decode_of_readsAs (readsAs_flatten hsecond),
    Except.ok_bind, Except.ok_bind, hchanges]

end PlanSet

/-- Two sizes of a node with its hue in front of them, and with the hue between them. -/
theorem decode_perm_node : nodePlans.decode nodePlan #[8, 0, 16, 1, 16, 1] =
    nodePlans.decode nodePlan #[16, 1, 8, 0, 16, 1] := by
  obtain ⟨schema, hcompile, hdistinct, hbuild⟩ := compile_nodeSource
  have hplan : nodePlan ∈ nodePlans.messages := List.mem_cons_self
  have hfirst : ∀ bytes ∈ [[8, 0], [16, 1], [16, 1]], nodePlans.IsOccurrence nodePlan bytes := by
    simp [PlanSet.isOccurrence_of_parses parses_red, PlanSet.isOccurrence_of_parses parses_size]
  have hperm : List.Perm [[(8 : UInt8), 0], [16, 1], [16, 1]] [[16, 1], [8, 0], [16, 1]] :=
    .swap _ _ _
  have hred : fieldNumber? [8, 0] = some 1 := rfl
  have hsize : fieldNumber? [16, 1] = some 2 := rfl
  refine PlanSet.decode_perm hcompile hdistinct hbuild hplan hfirst hperm ?_
  intro number
  by_cases hnumber : number = 1
  · simp [hred, hsize, hnumber]
  · simp [List.filter_cons, hred, hsize, Ne.symm hnumber]

end WireCodec
