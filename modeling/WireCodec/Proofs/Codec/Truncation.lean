import Mathlib.Data.List.Permutation
import WireCodec.Proofs.Codec.RoundTrip
import WireCodec.Proofs.Codec.Sequences
import WireCodec.Proofs.Plan.Closed
import WireCodec.Proofs.Wire.Truncation

/-! # Truncated messages

A sequence of occurrences that is cut off within one of them is refused for
want of bytes, wherever in that occurrence the cut is and whatever field it is
of. Cut off between two of them it is a sequence of occurrences, which may lack
a required field and nothing else.
-/

namespace WireCodec

variable {set : PlanSet} {nested : MessagePlan → Read Record}

theorem exacting_readValue (type : ValueType) : (readValue set nested type).Exacting := by
  cases type with
  | scalar type => exact ((Read.exacting_scalar type).map _).map _
  | enum name =>
      refine (Read.exacting_scalar .int32).bind (Read.local_scalar .int32) fun number => ?_
      split
      · exact Read.exacting_throw _
      · exact Read.exacting_pure _
  | message name =>
      unfold readValue
      dsimp only
      split
      · exact Read.exacting_throw _
      · exact (Read.exacting_delimited _).map _

section Exacting

variable (hnested : ∀ plan, (nested plan).Uniform)
include hnested

theorem exacting_readPair (entry : String) : (readPair set nested entry).Exacting := by
  unfold readPair
  split
  · exact Read.exacting_throw _
  · refine (Read.exacting_delimited _).bind (Read.local_delimited (hnested _)) fun pair => ?_
    split
    · exact Read.exacting_throw _
    · split
      · exact Read.exacting_throw _
      · exact Read.exacting_pure _

theorem exacting_fieldChanges (plan : MessagePlan) (found : Key) :
    (fieldChanges set nested plan found).Exacting := by
  have hitem : ∀ field changes, (collectItem set nested field changes).Exacting :=
    fun field _ => (exacting_readValue field.type).map _
  unfold fieldChanges
  split
  · exact (Read.exacting_skip _).map _
  · unfold armChanges
    split
    · exact Read.exacting_throw _
    · split
      · exact (Read.exacting_expect _ _).bind (Read.local_expect _ _) fun _ =>
          (exacting_readValue _).map _
      · exact (Read.exacting_expect _ _).bind (Read.local_expect _ _) fun _ => hitem _ _
      · exact Read.exacting_packable (hitem _) _ _ _
      · exact (Read.exacting_expect _ _).bind (Read.local_expect _ _) fun _ =>
          (exacting_readPair hnested _).map _

/-- An occurrence of which some bytes are there, but not all, is not read. -/
theorem finishes_occurrence_of_cut {plan : MessagePlan} {depth : Nat} {cut more : List UInt8}
    {changes : List Change}
    (h : Read.Parses (occurrenceChanges set nested plan) depth (cut ++ more) (.ok (some changes)))
    (hcut : cut ≠ []) (hmore : more ≠ []) :
    Read.Finishes (occurrenceChanges set nested plan) depth cut (.error .unexpectedEof) := by
  refine Read.finishes_key_bind_of_cut (fun answer => ?_) (fun answer => ?_) h hcut hmore
  · cases answer with
    | none => exact Read.exacting_pure _
    | some found => exact (exacting_fieldChanges hnested plan found).map _
  · cases answer with
    | none => exact Read.uniform_pure _
    | some found => exact (uniform_fieldChanges hnested plan found).map _

end Exacting

namespace PlanSet

variable {plan : MessagePlan} {occurrences : List (List UInt8)}

theorem decode_of_cut (h : ∀ bytes ∈ occurrences, set.IsOccurrence plan bytes)
    {cut more : List UInt8} (hbytes : set.IsOccurrence plan (cut ++ more)) (hcut : cut ≠ [])
    (hmore : more ≠ []) :
    set.decode plan (occurrences.flatten ++ cut).toArray = .error .unexpectedEof := by
  have hstop := finishes_occurrence_of_cut (uniform_nestedReader nestingLimit) hbytes.parses hcut
    hmore
  refine decode_append (readsAs_flatten h) (Read.Finishes.iterate_error ?_)
  rw [readOccurrence_eq]
  exact hstop.map _

/-- Complete occurrences lack a required field at most. -/
theorem decode_flatten (hplan : plan.LaidOut) (hdeclared : plan.synthetic = false)
    (h : ∀ bytes ∈ occurrences, set.IsOccurrence plan bytes) :
    (∃ record, set.decode plan occurrences.flatten.toArray = .ok record) ∨
      ∃ field ∈ plan.fields, set.decode plan occurrences.flatten.toArray =
        .error (.missingRequiredField field.name) := by
  rw [decode_of_readsAs (readsAs_flatten h), Except.ok_bind, MessagePlan.completed]
  split
  next => exact .inl ⟨_, rfl⟩
  next hmissing =>
    obtain ⟨field, hfield, -, rfl⟩ := hplan.exists_of_firstMissing? hmissing
    refine .inr ⟨field, hfield, ?_⟩
    rw [MessagePlan.missingField, hdeclared, if_neg Bool.false_ne_true]

/-- A part of complete occurrences, from the first one on, is refused for want
of bytes if it ends within one of them. If it ends between two of them, it is a
message or lacks a required field. -/
theorem decode_truncated {source : String} {schema : Schema}
    (hcompile : compile source = .ok schema) (hbuild : schema.build = .ok set) {message : String}
    (hplan : set.declared? message = some plan)
    (h : ∀ bytes ∈ occurrences, set.IsOccurrence plan bytes) {part : List UInt8}
    (hpart : part <+: occurrences.flatten) :
    ((¬ ∃ count, part = (occurrences.take count).flatten) →
      set.decode plan part.toArray = .error .unexpectedEof) ∧
    ((∃ count, part = (occurrences.take count).flatten) →
      (∃ record, set.decode plan part.toArray = .ok record) ∨
        ∃ field ∈ plan.fields,
          set.decode plan part.toArray = .error (.missingRequiredField field.name)) := by
  obtain ⟨hmessage, hdeclared⟩ := Option.filter_eq_some_iff.mp hplan
  have hclosed := (closed_of_build hcompile hbuild).of_message? hmessage
  have htake : ∀ count, ∀ bytes ∈ occurrences.take count, set.IsOccurrence plan bytes :=
    fun count bytes hbytes => h bytes (List.mem_of_mem_take hbytes)
  constructor
  · intro hwithin
    obtain hbetween | ⟨count, cut, more, rfl, hmem, hcut, hmore⟩ := prefix_flatten hpart
    · exact absurd hbetween hwithin
    · exact decode_of_cut (htake count) (h _ hmem) hcut hmore
  · rintro ⟨count, rfl⟩
    exact decode_flatten hclosed.toLaidOut (by simpa using hdeclared) (htake count)

/-- A node cut off in the node within it, and one cut off before its hue. -/
theorem decode_truncated_node :
    nodePlans.decode nodePlan #[16, 1, 8, 0, 34, 2, 8] = .error .unexpectedEof ∧
      ((∃ record, nodePlans.decode nodePlan #[16, 1] = .ok record) ∨
        ∃ field ∈ nodePlan.fields,
          nodePlans.decode nodePlan #[16, 1] = .error (.missingRequiredField field.name)) := by
  obtain ⟨schema, hcompile, -, hbuild⟩ := compile_nodeSource
  have hplan : nodePlans.declared? "Node" = some nodePlan := rfl
  have hnext : nodePlans.IsOccurrence nodePlan [34, 2, 8, 0] :=
    ⟨[("next", .message [("hue", .enum "RED")])], ⟨4, 4, 0⟩, by cbv, rfl⟩
  have hoccurrences : ∀ bytes ∈ [[16, 1], [8, 0], [34, 2, 8, 0]],
      nodePlans.IsOccurrence nodePlan bytes := by
    simp [isOccurrence_of_parses parses_red, isOccurrence_of_parses parses_size, hnext]
  have hwithin : [16, 1, 8, 0, 34, 2, 8] <+: [[(16 : UInt8), 1], [8, 0], [34, 2, 8, 0]].flatten :=
    ⟨[0], rfl⟩
  have hbetween : [16, 1] <+: [[(16 : UInt8), 1], [8, 0], [34, 2, 8, 0]].flatten :=
    ⟨[8, 0, 34, 2, 8, 0], rfl⟩
  refine ⟨(decode_truncated hcompile hbuild hplan hoccurrences hwithin).1 ?_,
    (decode_truncated hcompile hbuild hplan hoccurrences hbetween).2 ⟨1, rfl⟩⟩
  rintro ⟨count, hcount⟩
  rcases count with _ | _ | _ | count
  · cases hcount
  · cases hcount
  · cases hcount
  · simp at hcount

end PlanSet

end WireCodec
