import WireCodec.Proofs.Codec.RoundTrip
import WireCodec.Proofs.Codec.Sequences
import WireCodec.Proofs.Plan.Closed

/-! # Unknown fields

An occurrence of a field number that a message does not declare leaves no
trace, wherever it stands among the others and whatever its payload looks
like. Wire types that have no values are refused.
-/

namespace WireCodec

namespace Read

/-- A wire type that has no values is not passed over. -/
theorem parses_skip_unimplemented {wireType : UInt8} (h : wireType ∈ [3, 4, 6, 7]) {depth : Nat}
    (bytes : List UInt8) :
    Parses (skip wireType) depth bytes (.error (.unimplementedWireType wireType)) := by
  have hcodes : wireType ≠ WireType.varint.code ∧ wireType ≠ WireType.fixed64.code ∧
      wireType ≠ WireType.lengthDelimited.code ∧ wireType ≠ WireType.fixed32.code := by
    simp only [List.mem_cons, List.not_mem_nil, or_false] at h
    rcases h with rfl | rfl | rfl | rfl <;> decide
  obtain ⟨hvarint, hfixed64, hpayload, hfixed32⟩ := hcodes
  unfold skip
  rw [if_neg hvarint, if_neg hfixed64, if_neg hpayload, if_neg hfixed32]
  exact parses_throw _ bytes

end Read

variable {set : PlanSet} {nested : MessagePlan → Read Record} {plan : MessagePlan} {depth : Nat}
  {number : UInt32}

section Unknown

variable (hplan : plan.LaidOut) (hnumber : ∀ field ∈ plan.fields, field.number ≠ number)
include hplan hnumber

/-- Behind the key of a field that is not declared, a value is passed over. -/
theorem fieldChanges_of_unknown (wireType : UInt8) :
    fieldChanges set nested plan ⟨number, wireType⟩ = (fun _ => []) <$> Read.skip wireType := by
  unfold fieldChanges
  rw [hplan.arm?_eq_none.mpr hnumber]

/-- An occurrence of a field that is not declared is read as no change. -/
theorem readsAs_unknown {bytes : List UInt8} (h : OccurrenceForm number bytes) :
    ReadsAs set nested plan depth bytes (.ok []) := by
  cases h with
  | intro hgroups hshort hkey hnonzero hvalue =>
      refine .of_occurrence (parses_occurrence_of_key
        (Read.parses_key_of_groups depth hgroups hshort hkey hnonzero) ?_)
      rw [fieldChanges_of_unknown hplan hnumber]
      exact (Read.parses_skip hvalue).map _

theorem readsAs_unimplemented {groups : List UInt8} {wireType : UInt8}
    (hgroups : Varint.Terminated groups) (hshort : groups.length ≤ 10)
    (hkey : Key.ofWord (UInt32.ofNat (Varint.value groups)) = ⟨number, wireType⟩)
    (hnonzero : number ≠ 0) (hwireType : wireType ∈ [3, 4, 6, 7]) (rest : List UInt8) :
    ReadsAs set nested plan depth (groups ++ rest) (.error (.unimplementedWireType wireType)) := by
  have hskip : Read.Parses (fieldChanges set nested plan ⟨number, wireType⟩) depth []
      (.error (.unimplementedWireType wireType)) := by
    rw [fieldChanges_of_unknown hplan hnumber]
    exact (Read.parses_skip_unimplemented hwireType []).map _
  have h := parses_occurrence_of_key
    (Read.parses_key_of_groups depth hgroups hshort hkey hnonzero) hskip
  rw [List.append_nil] at h
  exact .stop h rest

end Unknown

/-- Behind any occurrences, one of a field number that a message does not
declare does not change what is decoded, and one of a wire type that has no
values makes decoding fail. -/
theorem PlanSet.decode_unknown_field {source : String} {schema : Schema}
    (hcompile : compile source = .ok schema) (hbuild : schema.build = .ok set)
    (hplan : plan ∈ set.messages) (hnumber : ∀ field ∈ plan.fields, field.number ≠ number)
    {before : List (List UInt8)} (hbefore : ∀ bytes ∈ before, set.IsOccurrence plan bytes)
    (rest : List UInt8) :
    (∀ unknown, OccurrenceForm number unknown →
      set.decode plan (before.flatten ++ unknown ++ rest).toArray =
        set.decode plan (before.flatten ++ rest).toArray) ∧
    ∀ groups wireType, Varint.Terminated groups → groups.length ≤ 10 →
      Key.ofWord (UInt32.ofNat (Varint.value groups)) = ⟨number, wireType⟩ → number ≠ 0 →
      wireType ∈ [3, 4, 6, 7] →
      set.decode plan (before.flatten ++ groups ++ rest).toArray =
        .error (.unimplementedWireType wireType) := by
  have hlaidOut : plan.LaidOut := (closed_of_build hcompile hbuild plan hplan).toLaidOut
  have hreads := PlanSet.readsAs_flatten hbefore
  constructor
  · intro unknown hunknown
    have hboth := hreads.append (readsAs_unknown hlaidOut hnumber hunknown)
    simp only [Except.ok_bind, Except.map_ok, List.append_nil] at hboth
    exact PlanSet.decode_append_congr hboth hreads rest
  · intro groups wireType hgroups hshort hkey hnonzero hwireType
    have hboth := hreads.append
      (readsAs_unimplemented hlaidOut hnumber hgroups hshort hkey hnonzero hwireType rest)
    rw [← List.append_assoc] at hboth
    exact PlanSet.decode_of_readsAs hboth

/-- A node with a payload that is no text, and one with the start of a group,
both under a number that nodes do not have. -/
theorem decode_unknown_field_node :
    nodePlans.decode nodePlan #[8, 0, 74, 1, 255, 16, 1] =
        nodePlans.decode nodePlan #[8, 0, 16, 1] ∧
      nodePlans.decode nodePlan #[8, 0, 75, 16, 1] = .error (.unimplementedWireType 3) := by
  obtain ⟨schema, hcompile, -, hbuild⟩ := compile_nodeSource
  have hgroups : ∀ group : UInt8, Varint.continues group = false → Varint.Terminated [group] :=
    fun group hlast => .last hlast
  have hunknown : OccurrenceForm 9 ([74] ++ ([1] ++ [255])) :=
    .intro (hgroups 74 rfl) (by decide) rfl (by decide)
      (.payload (hgroups 1 rfl) (by decide) (by decide))
  have hred : ∀ bytes ∈ [[8, 0]], nodePlans.IsOccurrence nodePlan bytes := by
    simpa using PlanSet.isOccurrence_of_parses parses_red
  have hnumber : ∀ field ∈ nodePlan.fields, field.number ≠ 9 := by simp [nodePlan_fields]
  obtain ⟨hpass, hrefuse⟩ := PlanSet.decode_unknown_field hcompile hbuild List.mem_cons_self
    hnumber hred [16, 1]
  exact ⟨hpass _ hunknown,
    hrefuse [75] 3 (hgroups 75 rfl) (by decide) rfl (by decide) (by decide)⟩

end WireCodec
