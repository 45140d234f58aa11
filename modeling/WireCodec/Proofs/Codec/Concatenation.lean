import WireCodec.Proofs.Codec.Assignments
import WireCodec.Proofs.Codec.FieldOrder
import WireCodec.Proofs.Codec.Merge

/-! # Concatenated encodings

An encoding that stands behind the occurrences of another one is read as its
message merged into the one before: what it is read from are changes, and the
changes of both are made one after the other.
-/

namespace WireCodec

theorem MessagePlan.yields_complete (plan : MessagePlan) (record : Record) :
    (plan.complete record).Yields (· = record) := by
  unfold MessagePlan.complete
  split
  · exact Read.yields_pure rfl
  · exact Read.yields_throw _

namespace PlanSet

variable {set : PlanSet} {plan : MessagePlan}

variable (set plan) in
/-- None of the occurrences that an encoding is read from has an undeclared
number for a single field. -/
def DeclaresNumbers (encoding : List UInt8) : Prop :=
  ∀ (before : List (List UInt8)) (bytes after : List UInt8),
    encoding = before.flatten ++ (bytes ++ after) →
    (∀ bytes ∈ before, set.IsOccurrence plan bytes) → set.IsOccurrence plan bytes →
    ∀ field ∈ plan.fields, field.cardinality ≠ .repeated → ¬ set.Undeclares field bytes

theorem IsOccurrence.ne_nil {bytes : List UInt8} (h : set.IsOccurrence plan bytes) :
    bytes ≠ [] := by
  obtain ⟨_, key, value, rfl, _, hkey, _⟩ := h.parts
  cases (Key.spelledBy_of_parses hkey).1.terminated <;> simp

/-- A sequence of occurrences declares its numbers if each of them does. -/
theorem declaresNumbers_flatten {occurrences : List (List UInt8)}
    (h : ∀ bytes ∈ occurrences, set.IsOccurrence plan bytes)
    (hdeclares : ∀ bytes ∈ occurrences, ∀ field ∈ plan.fields, field.cardinality ≠ .repeated →
      ¬ set.Undeclares field bytes) : set.DeclaresNumbers plan occurrences.flatten := by
  intro before bytes after hsplit hbefore hbytes
  -- the occurrences in front of it are those of the sequence, and so is it
  induction occurrences generalizing before with
  | nil =>
      have hnil := (List.nil_eq_append_iff.mp hsplit).2
      exact absurd (List.append_eq_nil_iff.mp hnil).1 hbytes.ne_nil
  | cons first rest ih =>
      obtain ⟨hfirst, hrest⟩ := List.forall_mem_cons.mp h
      obtain ⟨hdeclares, hothers⟩ := List.forall_mem_cons.mp hdeclares
      cases before with
      | nil =>
          obtain ⟨-, rfl, -⟩ := hfirst.parses.unique hbytes.parses hsplit
          exact hdeclares
      | cons other before =>
          obtain ⟨hother, hbefore⟩ := List.forall_mem_cons.mp hbefore
          rw [List.flatten_cons, List.flatten_cons, List.append_assoc] at hsplit
          obtain ⟨-, -, hsplit⟩ := hfirst.parses.unique hother.parses hsplit
          exact ih hrest hothers before hsplit hbefore

/-- What the loop over the occurrences of a message has passed when it is done:
occurrences, and behind them the end of the message. -/
theorem exists_occurrences_of_iterate {input : Bytes} {before after : Cursor}
    {record record' : Record} (hinside : before.Inside input) (hdepth : before.depth = 0) {advances}
    (hrun : Read.iterate (readOccurrence set (nestedReader set nestingLimit) plan) advances record
      input before = .ok record' after) : ∃ (occurrences : List (List UInt8)) (rest : List UInt8),
    before.view input = occurrences.flatten ++ rest ∧
      (∀ bytes ∈ occurrences, set.IsOccurrence plan bytes) ∧
      record' = Change.applyAll (occurrences.flatMap (set.changesOf plan)) record ∧
      Read.Finishes (occurrenceChanges set (nestedReader set nestingLimit) plan) 0 rest
        (.ok none) := by
  have hnested := @uniform_nestedReader set nestingLimit
  induction hrun using Read.iterate_ok_induction with
  | stop before hfound =>
      rw [readOccurrence_eq] at hfound
      obtain ⟨answer, hchanges, hanswer⟩ := Read.map_eq_ok.mp hfound
      obtain rfl := Option.map_eq_none_iff.mp hanswer
      have hend := (uniform_occurrenceChanges hnested plan).finishes_of_run hinside hchanges
      rw [hdepth] at hend
      exact ⟨[], before.view input, rfl, by simp, rfl, hend⟩
  | next record before next middle hfound _ ih =>
      obtain ⟨found, changes, key, value, rest, hview, rfl, hkey, hvalue⟩ :=
        parses_of_readOccurrence hnested hinside hfound
      rw [hdepth] at hkey hvalue
      have hparses := parses_occurrence_of_key hkey hvalue
      have hnext : next = Change.applyAll changes record := by
        have hstep := hparses input before rest hinside hdepth hview
        rw [readOccurrence_eq, Read.map_of_ok hstep] at hfound
        cases hfound
        rfl
      obtain ⟨occurrences, rest', hrest, hall, rfl, hend⟩ :=
        ih (hinside.forward hview) hdepth
      refine ⟨(key ++ value) :: occurrences, rest', ?_, ?_, ?_, hend⟩
      · rw [hview, ← Cursor.view_forward hview, hrest, List.flatten_cons, List.append_assoc _ _ rest']
      · exact List.forall_mem_cons.mpr ⟨isOccurrence_of_parses hparses, hall⟩
      · rw [List.flatMap_cons, changesOf_of_parses hparses, Change.applyAll_append, hnext]

/-- A message that is decoded is read from occurrences and what ends them. -/
theorem exists_occurrences_of_decode {bytes : List UInt8} {record : Record}
    (hdecode : set.decode plan bytes.toArray = .ok record) :
    ∃ (occurrences : List (List UInt8)) (rest : List UInt8),
      bytes = occurrences.flatten ++ rest ∧
      (∀ bytes ∈ occurrences, set.IsOccurrence plan bytes) ∧
      record = Change.applyAll (occurrences.flatMap (set.changesOf plan)) [] ∧
      Read.Finishes (occurrenceChanges set (nestedReader set nestingLimit) plan) 0 rest
        (.ok none) := by
  obtain ⟨after, hrun⟩ := exists_run_of_decode hdecode
  have hread : readMessageWith set (nestedReader set nestingLimit) plan bytes.toArray
      (.start bytes.toArray) = .ok record after := hrun
  obtain ⟨found, middle, hloop, hcomplete⟩ := Read.bind_eq_ok.mp hread
  obtain rfl : record = found := plan.yields_complete found _ _ _ _ hcomplete
  have hview : (Cursor.start bytes.toArray).view bytes.toArray = bytes :=
    Cursor.view_start bytes.toArray
  rw [← hview]
  exact exists_occurrences_of_iterate (Cursor.inside_start _) rfl hloop

/-- An occurrence is read as changes in the shape of their fields. Unless it is
one with an undeclared number, none of them takes a value away. -/
theorem IsOccurrence.decodedChange (hplan : plan.Coherent set) {bytes : List UInt8}
    (h : set.IsOccurrence plan bytes) {field : FieldPlan} (hfield : field ∈ plan.fields)
    {change : Change} (hchange : change ∈ set.changesOf plan bytes)
    (hname : change.name = field.name) :
    DecodedChange set (fun _ _ => True) field change.what ∧
      (¬ set.Undeclares field bytes → change.what ≠ .assign none) := by
  obtain ⟨found, _, _, _, _, _, hvalue⟩ := h.parts
  have htrivial : ∀ name plan, set.message? name = some plan →
      (nestedReader set nestingLimit plan).Yields fun _ => True :=
    fun _ _ _ => Read.yields_trivial _
  obtain ⟨other, hother, -, hotherName, hdecoded⟩ :=
    hvalue.of_yields (yields_fieldChanges htrivial hplan.toLaidOut found) change hchange
  obtain rfl := List.inj_on_of_nodup_map hplan.names hother hfield (hotherName.symm.trans hname)
  refine ⟨hdecoded, fun hdeclares hnone => ?_⟩
  have hsingle : other.cardinality ≠ .repeated := by
    rw [hnone] at hdecoded
    cases hdecoded with
    | assign _ hsingle _ => exact hsingle
  have haction : other.action = .assign := (hplan.fields other hother).action_of_single hsingle
  have htop : set.IsOccurrenceAt 0 plan bytes := h
  obtain ⟨changes, hparses, hassigns⟩ := htop.exists_changes hplan
  have hassigns := hassigns other hother haction
  rw [changesOf_of_parses hparses] at hchange
  split at hassigns
  · obtain ⟨value, rfl, hvalue⟩ := hassigns
    obtain rfl := List.mem_singleton.mp hchange
    exact hdeclares (hvalue.mp (FieldChange.assign.inj hnone))
  · exact hassigns change hchange hname

section Merge

variable (hplan : plan.Coherent set) {first second : List (List UInt8)}
  (hfirst : ∀ bytes ∈ first, set.IsOccurrence plan bytes)
  (hsecond : ∀ bytes ∈ second, set.IsOccurrence plan bytes)
  (hdeclares : ∀ bytes ∈ second, ∀ field ∈ plan.fields, field.cardinality ≠ .repeated →
    ¬ set.Undeclares field bytes)
include hplan hfirst hsecond hdeclares

/-- Each field of the first message goes on with the changes of the second one. -/
theorem value?_applyAll_eq_merge {field : FieldPlan} (hfield : field ∈ plan.fields) :
    let changes := first.flatMap (set.changesOf plan)
    let others := second.flatMap (set.changesOf plan)
    Record.value? (Change.applyAll others (Change.applyAll changes [])) field.name =
      field.merge (Record.value? (Change.applyAll changes []) field.name)
        (Record.value? (Change.applyAll others []) field.name) := by
  intro changes others
  have hdecoded : DecodedChanges set (fun _ _ => True) plan changes := by
    intro change hchange
    obtain ⟨bytes, hbytes, hchange⟩ := List.mem_flatMap.mp hchange
    obtain ⟨other, hother, -, hname⟩ :=
      (hfirst bytes hbytes).changes_of_number hplan change hchange
    exact ⟨other, hother, hname,
      ((hfirst bytes hbytes).decodedChange hplan hother hchange hname).1⟩
  have hothers : ∀ change ∈ others.filter (·.name = field.name),
      DecodedChange set (fun _ _ => True) field change.what ∧ change.what ≠ .assign none := by
    intro change hchange
    obtain ⟨hchange, hname⟩ := List.mem_filter.mp hchange
    obtain ⟨bytes, hbytes, hchange⟩ := List.mem_flatMap.mp hchange
    obtain ⟨hdecodedChange, hsome⟩ :=
      (hsecond bytes hbytes).decodedChange hplan hfield hchange (of_decide_eq_true hname)
    refine ⟨hdecodedChange, fun hnone => ?_⟩
    have hsingle : field.cardinality ≠ .repeated := by
      rw [hnone] at hdecodedChange
      cases hdecodedChange with
      | assign _ hsingle _ => exact hsingle
    exact hsome (hdeclares bytes hbytes field hfield hsingle) hnone
  have hfold := (hdecoded.decodedField hplan.names hfield).foldl_merge hothers .absent
  rw [Change.value?_applyAll, Change.value?_applyAll others []]
  rwa [FieldPlan.merge_none] at hfold

/-- What the changes of two encodings make of an empty message is the first
message with the second one merged into it. -/
theorem applyAll_eq_merge :
    let changes := first.flatMap (set.changesOf plan)
    let others := second.flatMap (set.changesOf plan)
    Change.applyAll others (Change.applyAll changes []) =
      plan.merge (Change.applyAll changes []) (Change.applyAll others []) := by
  intro changes others
  refine Sorted.ext (Change.increasing_applyAll (Change.increasing_applyAll Sorted.increasing_nil _)
    _) (Sorted.increasing_ofList _) fun name => ?_
  change Record.value? _ name = Record.value? _ name
  by_cases hname : ∃ field ∈ plan.fields, field.name = name
  · obtain ⟨field, hfield, rfl⟩ := hname
    rw [MessagePlan.value?_merge hplan.names hfield]
    exact value?_applyAll_eq_merge hplan hfirst hsecond hdeclares hfield
  · have hother : ∀ field ∈ plan.fields, field.name ≠ name := fun field hfield heq =>
      hname ⟨field, hfield, heq⟩
    have hmerged : Record.value? (plan.merge (Change.applyAll changes [])
        (Change.applyAll others [])) name = none := by
      refine Option.eq_none_iff_forall_ne_some.mpr fun value hvalue => ?_
      obtain ⟨field, hfield, heq, -⟩ := (MessagePlan.value?_merge_eq_some hplan.names).mp hvalue
      exact hother field hfield heq
    rw [hmerged, Change.value?_applyAll, Change.value?_applyAll,
      filter_changesOf_eq_nil hplan hfirst hother, filter_changesOf_eq_nil hplan hsecond hother]
    rfl

end Merge

/-- Behind occurrences of a message that is decoded, an encoding of another one
is read as that one merged into the first, if it declares its numbers. -/
theorem decode_append_eq_merge {source : String} {schema : Schema}
    (hcompile : compile source = .ok schema) (hdistinct : schema.DistinctFields)
    (hbuild : schema.build = .ok set) {name : String} (hplan : set.declared? name = some plan)
    {first : List (List UInt8)} (hfirst : ∀ bytes ∈ first, set.IsOccurrence plan bytes)
    {second : List UInt8} (hdeclares : set.DeclaresNumbers plan second)
    {record other : Record} (hdecode : set.decode plan first.flatten.toArray = .ok record)
    (hdecode' : set.decode plan second.toArray = .ok other) :
    set.decode plan (first.flatten ++ second).toArray = .ok (plan.merge record other) ∧
      ∀ field ∈ plan.fields, Record.value? (plan.merge record other) field.name =
        field.merge (Record.value? record field.name) (Record.value? other field.name) := by
  have hcoherent := (coherent_of_build hcompile hdistinct hbuild).of_declared? hplan
  refine ⟨?_, fun field hfield => MessagePlan.value?_merge hcoherent.names hfield⟩
  obtain ⟨occurrences, rest, rfl, hsecond, rfl, hend⟩ := exists_occurrences_of_decode hdecode'
  have hdeclared : ∀ bytes ∈ occurrences, ∀ field ∈ plan.fields, field.cardinality ≠ .repeated →
      ¬ set.Undeclares field bytes := by
    intro bytes hbytes
    obtain ⟨before, after, rfl⟩ := List.append_of_mem hbytes
    refine hdeclares before bytes (after.flatten ++ rest) ?_
      (fun other hother => hsecond other (by simp [hother])) (hsecond bytes hbytes)
    simp
  have hreads := readsAs_flatten hfirst
  rw [decode_of_readsAs hreads, Except.ok_bind] at hdecode
  -- the first message is that of its changes, and has its required fields
  obtain ⟨rfl, hrequired⟩ := (MessagePlan.completed_eq_ok hcoherent.toLaidOut).mp hdecode
  let changes := first.flatMap (set.changesOf plan)
  let others := occurrences.flatMap (set.changesOf plan)
  let merged := plan.merge (Change.applyAll changes []) (Change.applyAll others [])
  have hcompleted : plan.completed merged = .ok merged := by
    refine (MessagePlan.completed_eq_ok hcoherent.toLaidOut).mpr ⟨rfl, ?_⟩
    intro field hfield hcardinality
    rw [Record.contains, MessagePlan.value?_merge hcoherent.names hfield]
    exact FieldPlan.isSome_merge (hrequired field hfield hcardinality)
  have hloop : Read.Finishes (Read.iterate (readOccurrence set (nestedReader set nestingLimit) plan)
      (fun record => Read.advances_key (steady_readField set _ plan record))
      (Change.applyAll changes [])) 0 (occurrences.flatten ++ rest)
      (.ok (Change.applyAll others (Change.applyAll changes []))) := by
    refine (readsAs_flatten hsecond).finishes_append (Read.finishes_iterate_none ?_)
    rw [readOccurrence_eq]
    exact hend.map _
  rw [decode_append hreads hloop, Except.ok_bind,
    applyAll_eq_merge hcoherent hfirst hsecond hdeclared]
  exact hcompleted

/-- Two nodes with a size each. -/
theorem decode_append_eq_merge_node :
    nodePlans.decode nodePlan #[8, 0, 16, 1, 16, 1, 8, 0] =
      .ok [("hue", .enum "RED"), ("sizes", .list [.int32 (-1), .int32 (-1)])] := by
  obtain ⟨schema, hcompile, hdistinct, hbuild⟩ := compile_nodeSource
  have hred := isOccurrence_of_parses (@parses_red (nestedReader nodePlans nestingLimit) 0)
  have hsize := isOccurrence_of_parses (@parses_size (nestedReader nodePlans nestingLimit) 0)
  have hfirst : ∀ bytes ∈ [[8, 0], [16, 1]], nodePlans.IsOccurrence nodePlan bytes := by
    simp [hred, hsize]
  have hsecond : ∀ bytes ∈ [[16, 1], [8, 0]], nodePlans.IsOccurrence nodePlan bytes := by
    simp [hred, hsize]
  have hundeclared : ∀ bytes ∈ [[16, 1], [8, 0]], ∀ field ∈ nodePlan.fields,
      field.cardinality ≠ .repeated → ¬ nodePlans.Undeclares field bytes := by
    intro bytes hbytes field hfield hsingle
    have haction := (nodePlan_coherent.fields field hfield).action_of_single hsingle
    simp only [List.mem_cons, List.not_mem_nil, or_false] at hbytes
    rcases hbytes with rfl | rfl
    · exact not_undeclares_of_parses nodePlan_coherent hfield haction
        (@parses_size (nestedReader nodePlans nestingLimit) 0) (by simp [sizeChange])
    · exact not_undeclares_of_parses nodePlan_coherent hfield haction
        (@parses_red (nestedReader nodePlans nestingLimit) 0) (by simp [redChange])
  have hdecode : nodePlans.decode nodePlan [[8, 0], [16, 1]].flatten.toArray =
      .ok [("hue", .enum "RED"), ("sizes", .list [.int32 (-1)])] :=
    decode_of_readsAs (.next parses_red (.next parses_size .nil))
  have hdecode' : nodePlans.decode nodePlan [[16, 1], [8, 0]].flatten.toArray =
      .ok [("hue", .enum "RED"), ("sizes", .list [.int32 (-1)])] :=
    decode_of_readsAs (.next parses_size (.next parses_red .nil))
  obtain ⟨hmerged, -⟩ := decode_append_eq_merge hcompile hdistinct hbuild
    (rfl : nodePlans.declared? "Node" = some nodePlan) hfirst
    (declaresNumbers_flatten hsecond hundeclared) hdecode hdecode'
  exact hmerged

end PlanSet

end WireCodec
