import WireCodec.Proofs.Codec.Decoded
import WireCodec.Proofs.Wire.Complete

/-! # Outcomes of complete occurrences

Reading messages is uniform at every level, so each complete occurrence has
one outcome, wherever it stands among others: an error, or changes to the one
field that has its number.
-/

namespace WireCodec

variable {set : PlanSet} {nested : MessagePlan → Read Record}

section Uniform

variable (hnested : ∀ plan, (nested plan).Uniform)
include hnested

theorem uniform_readValue (type : ValueType) : (readValue set nested type).Uniform := by
  cases type with
  | scalar type => exact ((Read.uniform_scalar type).map _).map _
  | enum name =>
      refine (Read.uniform_scalar .int32).bind fun number => ?_
      split
      · exact Read.uniform_throw _
      · exact Read.uniform_pure _
  | message name =>
      unfold readValue
      dsimp only
      split
      · exact Read.uniform_throw _
      · exact (hnested _).delimited.map _

theorem uniform_collectItem (field : FieldPlan) (changes : List Change) :
    (collectItem set nested field changes).Uniform :=
  (uniform_readValue hnested field.type).map _

theorem uniform_readPair (entry : String) : (readPair set nested entry).Uniform := by
  unfold readPair
  split
  · exact Read.uniform_throw _
  · refine (hnested _).delimited.bind fun pair => ?_
    split
    · exact Read.uniform_throw _
    · split
      · exact Read.uniform_throw _
      · exact Read.uniform_pure _

theorem uniform_fieldChanges (plan : MessagePlan) (found : Key) :
    (fieldChanges set nested plan found).Uniform := by
  unfold fieldChanges
  split
  · exact (Read.uniform_skip _).map _
  · unfold armChanges
    split
    · exact Read.uniform_throw _
    · split
      · exact (Read.uniform_expect _ _).bind fun _ => (uniform_readValue hnested _).map _
      · exact (Read.uniform_expect _ _).bind fun _ => uniform_collectItem hnested _ _
      · exact Read.uniform_packable (uniform_collectItem hnested _) _ _ _
      · exact (Read.uniform_expect _ _).bind fun _ => (uniform_readPair hnested _).map _

theorem uniform_occurrenceChanges (plan : MessagePlan) :
    (occurrenceChanges set nested plan).Uniform := by
  refine Read.uniform_key.bind fun found => ?_
  cases found with
  | none => exact Read.uniform_pure _
  | some found => exact (uniform_fieldChanges hnested plan found).map _

theorem uniform_readOccurrence (plan : MessagePlan) (record : Record) :
    (readOccurrence set nested plan record).Uniform := by
  rw [readOccurrence_eq]
  exact (uniform_occurrenceChanges hnested plan).map _

variable (set) in
theorem uniform_occurrences (plan : MessagePlan) (record : Record) :
    (Read.iterate (readOccurrence set nested plan) (fun record =>
      Read.advances_key (steady_readField set nested plan record)) record).Uniform :=
  Read.Uniform.iterate (uniform_readOccurrence hnested plan) record

theorem uniform_readMessageWith (plan : MessagePlan) :
    (readMessageWith set nested plan).Uniform := by
  refine (uniform_occurrences set hnested plan []).bind fun record => ?_
  unfold MessagePlan.complete
  split
  · exact Read.uniform_pure _
  · exact Read.uniform_throw _

end Uniform

theorem uniform_readMessageWithin (levels : Nat) (plan : MessagePlan) :
    (readMessageWithin set levels plan).Uniform := by
  induction levels generalizing plan with
  | zero => exact uniform_readMessageWith (fun _ => Read.uniform_throw _) plan
  | succ levels ih => exact uniform_readMessageWith ih plan

theorem uniform_nestedReader (levels : Nat) (plan : MessagePlan) :
    (nestedReader set levels plan).Uniform := by
  cases levels with
  | zero => exact Read.uniform_throw _
  | succ levels => exact uniform_readMessageWithin levels plan

theorem FieldPlan.natural_of_action {field : FieldPlan} {natural : WireType}
    (h : field.action = .appendPackable natural) : natural = field.type.wireType := by
  unfold FieldPlan.action at h
  split at h
  · cases h
  · split at h
    · split at h <;> cases h
      rfl
    · cases h

theorem FieldPlan.isMapEntry_of_action {field : FieldPlan} {entry : String}
    (h : field.action = .mergeEntry entry) : field.isMapEntry = true := by
  unfold FieldPlan.action at h
  split at h
  next hmap => exact hmap
  next =>
    split at h
    · split at h <;> cases h
    · cases h

section Determined

variable (hnested : ∀ plan, (nested plan).Uniform) {depth : Nat} {bytes : List UInt8}
include hnested

theorem determined_readValue {type : ValueType} (h : ValueForm type.wireType bytes) :
    (readValue set nested type).Determined depth bytes := by
  cases type with
  | scalar type => exact ((Read.determined_scalar h).map _).map _
  | enum name =>
      have hform : ValueForm ScalarType.int32.wireType bytes := h
      refine (Read.determined_scalar hform).bind_nil fun number => ?_
      split
      · exact Read.determined_throw _
      · exact Read.determined_pure _
  | message name =>
      unfold readValue
      dsimp only
      split
      · exact Read.determined_throw _
      · exact (Read.determined_delimited (hnested _) h).map _

theorem determined_readPair {entry : String} (h : ValueForm .lengthDelimited bytes) :
    (readPair set nested entry).Determined depth bytes := by
  unfold readPair
  split
  · exact Read.determined_throw _
  · refine (Read.determined_delimited (hnested _) h).bind_nil fun pair => ?_
    split
    · exact Read.determined_throw _
    · split
      · exact Read.determined_throw _
      · exact Read.determined_pure _

theorem determined_changes {field : FieldPlan} (hfield : field.Coherent set) {number : UInt32}
    {wireType : WireType} (h : ValueForm wireType bytes) :
    (field.changes set nested ⟨number, wireType.code⟩).Determined depth bytes := by
  have hform : ∀ {expected : WireType}, wireType.code = expected.code →
      ValueForm expected bytes := by
    intro expected hcode
    have heq : wireType = expected := by cases wireType <;> cases expected <;> first | rfl | cases hcode
    exact heq ▸ h
  have hitem : ∀ changes, wireType.code = field.type.wireType.code →
      (collectItem set nested field changes).Determined depth bytes := fun changes hcode =>
    (determined_readValue hnested (hform hcode)).map _
  unfold FieldPlan.changes
  split
  next => exact .expect _ fun hcode => (determined_readValue hnested (hform hcode)).map _
  next => exact .expect _ (hitem [])
  next natural haction =>
    unfold Read.packable
    split
    next hrun =>
      refine Read.determined_delimited (Read.uniform_run (uniform_collectItem hnested field) _) ?_
      exact hform hrun.1
    next =>
      refine .expect _ fun hcode => hitem [] ?_
      exact hcode.trans (congrArg WireType.code (FieldPlan.natural_of_action haction))
  next entry haction =>
    refine .expect _ fun hcode => (determined_readPair hnested (hform ?_)).map _
    obtain ⟨_, _, _, _, _, htype, _⟩ := hfield.entry (FieldPlan.isMapEntry_of_action haction)
    exact hcode.trans (congrArg (ValueType.wireType · |>.code) htype)

/-- A complete occurrence is refused, or read as changes to fields of its number. -/
theorem determined_occurrence {plan : MessagePlan} (hplan : plan.Coherent set) {number : UInt32}
    (h : OccurrenceForm number bytes) :
    ∃ outcome : Except DecodeError (List Change),
      Read.Parses (occurrenceChanges set nested plan) depth bytes (some <$> outcome) ∧
      ∀ changes, outcome = .ok changes → ∀ change ∈ changes, ∃ field ∈ plan.fields,
        field.number = number ∧ change.name = field.name := by
  cases h with
  | @intro wireType groups value hgroups hshort hkey hnumber hvalue =>
      have hread := Read.parses_key_of_groups depth hgroups hshort hkey hnumber
      have hdetermined : (fieldChanges set nested plan ⟨number, wireType.code⟩).Determined depth
          value := by
        by_cases hfield : ∃ field ∈ plan.fields, field.number = number
        · obtain ⟨field, hmem, rfl⟩ := hfield
          rw [fieldChanges_of_mem hplan hmem]
          exact determined_changes hnested (hplan.fields field hmem) hvalue
        · have hnone : plan.arm? number = none :=
            hplan.arm?_eq_none.mpr fun field hmem heq => hfield ⟨field, hmem, heq⟩
          unfold fieldChanges
          rw [hnone]
          exact ⟨_, (Read.parses_skip hvalue).map _⟩
      obtain ⟨outcome, hparses⟩ := hdetermined
      refine ⟨outcome, parses_occurrence_of_key hread hparses, ?_⟩
      rintro changes rfl change hchange
      -- which field is changed does not depend on what is nested in the occurrence
      have htrivial : ∀ name plan, set.message? name = some plan →
          (nested plan).Yields fun _ => True := fun _ plan _ => Read.yields_trivial (nested plan)
      obtain ⟨field, hfield, hnumber, hname, _⟩ := hparses.of_yields
        (yields_fieldChanges htrivial hplan.toLaidOut ⟨number, wireType.code⟩) change hchange
      exact ⟨field, hfield, hnumber, hname⟩

end Determined

end WireCodec
