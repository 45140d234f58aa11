import WireCodec.Proofs.Codec.RoundTrip
import WireCodec.Proofs.Codec.SpelledDecode
import WireCodec.Proofs.Codec.SpelledEncode
import WireCodec.Proofs.Plan.SpelledBuild

/-! # Maps are lists of entries

A map field is encoded and decoded like a repeated field of messages that
require a key and a value: the bytes are the same, and what is decoded is the
list merged into a map. Only what a missing key or value is called differs.
-/

namespace WireCodec

variable {set set' : PlanSet} {entry message : String}

/-! ## Reporting entries -/

/-- Plans in which the messages of a name are reported as entries of a map:
where one lacks a field, the error is that of a malformed entry. -/
def PlanSet.reportEntries (set : PlanSet) (message : String) : PlanSet :=
  { set with
    messages := set.messages.map fun plan =>
      { plan with synthetic := plan.synthetic || plan.name = message } }

theorem PlanSet.message?_reportEntries {name : String} {plan : MessagePlan}
    (h : set.message? name = some plan) : (set.reportEntries message).message? name =
      some { plan with synthetic := plan.synthetic || name = message } := by
  have hname := (set.mem_of_message? h).2
  unfold PlanSet.message? at h ⊢
  simp only [reportEntries, ← List.map_reverse, List.find?_map, Function.comp_def, h, hname,
    Option.map_some]

theorem MessagePlan.SpellsOut.reported {plan plan' : MessagePlan}
    (h : plan.SpellsOut entry message plan') (synthetic : Bool) :
    plan.SpellsOut entry message { plan' with synthetic } :=
  ⟨⟨h.laidOut.steps, h.laidOut.arms, h.laidOut.required⟩, h.fields, h.required⟩

/-- Reporting the messages of a fresh name as entries leaves the other plans as they are. -/
theorem PlanSet.SpellsOut.reportEntries (h : set.SpellsOut entry message set')
    (hfresh : set.message? message = none) :
    set.SpellsOut entry message (set'.reportEntries message) := by
  constructor
  case enums => exact h.enums
  case plans =>
    intro name plan hname hplan
    obtain ⟨plan', hplan', hname', hsynthetic, hspells⟩ := h.plans name plan hname hplan
    have hne : name ≠ message := by
      rintro rfl
      cases hfresh.symm.trans hplan
    refine ⟨_, PlanSet.message?_reportEntries hplan', hname', ?_, hspells.reported _⟩
    simp [hsynthetic, hne]
  case entries =>
    obtain ⟨plan, plan', key, value, hplan, hentry, hplan', hspells⟩ := h.entries
    exact ⟨plan, _, key, value, hplan, hentry, PlanSet.message?_reportEntries hplan',
      hspells.reported _⟩
  case maps => exact h.maps

/-! ## Faults -/

/-- An error is the same for a map field and for the list that it is spelled
out as, but where an entry lacks its key or its value. -/
def DecodeError.SameFault (e e' : DecodeError) : Prop :=
  e = e' ∨ ∃ name ∈ [keyField, valueField],
    e = .malformedMapEntry name ∧ e' = .missingRequiredField name

theorem PlanSet.SpellsOut.synthetic_of_entry (h : set.SpellsOut entry message set')
    {plan : MessagePlan} (hplan : set.message? entry = some plan) : plan.synthetic = true := by
  obtain ⟨found, _, _, _, hfound, hentry, -, -⟩ := h.entries
  cases hfound.symm.trans hplan
  exact hentry.synthetic

/-- The two sides differ in what they call a key or a value that an entry lacks. -/
theorem PlanSet.SpellsOut.faultsAgree (h : set.SpellsOut entry message set')
    (hdeclared : ∀ plan', set'.message? message = some plan' → plan'.synthetic = false) :
    FaultsAgree set set' entry message DecodeError.SameFault := by
  refine ⟨fun e => .inl rfl, ?_⟩
  intro plan plan' hplan hplan' name hname
  refine .inr ⟨name, hname, ?_, ?_⟩
  · unfold MessagePlan.missingField
    rw [if_pos (h.synthetic_of_entry hplan)]
    rcases List.mem_cons.mp hname with rfl | hname
    · rfl
    · obtain rfl := List.mem_singleton.mp hname
      rfl
  · unfold MessagePlan.missingField
    rw [hdeclared plan' hplan']
    rfl

/-- Where the messages for entries are reported as such, all errors are the same. -/
theorem PlanSet.SpellsOut.faultsAgree_reportEntries (h : set.SpellsOut entry message set') :
    FaultsAgree set (set'.reportEntries message) entry message Eq := by
  refine ⟨fun e => rfl, ?_⟩
  intro plan plan' hplan hplan' name _
  obtain ⟨_, found, _, _, _, _, hfound, _⟩ := h.entries
  cases (PlanSet.message?_reportEntries hfound).symm.trans hplan'
  unfold MessagePlan.missingField
  simp [h.synthetic_of_entry hplan]

/-! ## Encoding and decoding -/

section Decode

variable (h : set.SpellsOut entry message set') (hset : set.Coherent) (hclosed : set.Closed)
  {plan plan' : MessagePlan} (hplan : plan ∈ set.messages)
  (hspells : plan.SpellsOut entry message plan') (hsynthetic : plan'.synthetic = plan.synthetic)
include h hset hclosed hplan hspells hsynthetic

/-- What is decoded is what the other side decodes, with the lists of entries
merged; where that fails, so does this. -/
theorem PlanSet.SpellsOut.decode_iff
    (hdeclared : ∀ plan', set'.message? message = some plan' → plan'.synthetic = false)
    (input : Bytes) :
    (∀ record, set.decode plan input = .ok record ↔
        ∃ spelled, set'.decode plan' input = .ok spelled ∧
          record = set.merge entry plan spelled) ∧
      ∀ e, set.decode plan input = .error e →
        ∃ e', set'.decode plan' input = .error e' ∧ e.SameFault e' := by
  have hfault := h.faultsAgree hdeclared
  obtain ⟨hok, herror⟩ := h.decode_related hset hclosed hfault
    (hspells.counterpart hplan hsynthetic hfault.refl) input
  cases hdecode' : set'.decode plan' input with
  | ok spelled =>
      rw [hok spelled hdecode']
      refine ⟨fun record => ⟨?_, ?_⟩, ?_⟩
      · rintro ⟨⟩
        exact ⟨spelled, rfl, rfl⟩
      · rintro ⟨_, ⟨⟩, rfl⟩
        rfl
      · rintro _ ⟨⟩
  | error e' =>
      obtain ⟨e, hdecode, he⟩ := herror e' hdecode'
      rw [hdecode]
      refine ⟨fun record => ⟨?_, ?_⟩, ?_⟩
      · rintro ⟨⟩
      · rintro ⟨_, ⟨⟩, _⟩
      · rintro _ ⟨⟩
        exact ⟨e', rfl, he⟩

/-- Decoding is merging the lists of entries that are decoded where the entries
are reported as such. -/
theorem PlanSet.SpellsOut.decode_eq_merge (hfresh : set.message? message = none) (input : Bytes) :
    set.decode plan input =
      set.merge entry plan <$> (set'.reportEntries message).decode plan' input := by
  obtain ⟨hok, herror⟩ := (h.reportEntries hfresh).decode_related hset hclosed
    h.faultsAgree_reportEntries (hspells.counterpart hplan hsynthetic fun _ => rfl) input
  cases hdecode' : (set'.reportEntries message).decode plan' input with
  | ok spelled => exact hok spelled hdecode'
  | error e' =>
      obtain ⟨e, hdecode, rfl⟩ := herror e' hdecode'
      exact hdecode

end Decode

/-- A map field is encoded and decoded as the repeated field of entry messages
that it may be spelled out as. The bytes and the errors of encoding are those
of the map as a list of its entries; a decoded list is merged into the decoded
map; and all errors of decoding are the same when those entries are reported as such. -/
theorem codec_spellOut {source : String} {schema : Schema}
    (hcompile : compile source = .ok schema) (hdistinct : schema.DistinctFields)
    {owner field message : String} {key value : Spanned String}
    (hmap : schema.HasMap owner field key value) (hfresh : schema.Fresh owner field message) :
    ∃ set set', schema.build = .ok set ∧
      (schema.spellOut owner field message key value).build = .ok set' ∧
      ∀ name plan, set.declared? name = some plan → ∃ plan', set'.declared? name = some plan' ∧
        (∀ record, record.HoldsMaps set (entryName owner field) plan →
          set'.encode plan' (set.spellOut (entryName owner field) plan record) =
            set.encode plan record) ∧
        ∀ input,
          (∀ record, set.decode plan input = .ok record ↔
            ∃ spelled, set'.decode plan' input = .ok spelled ∧
              record = set.merge (entryName owner field) plan spelled) ∧
          (∀ e, set.decode plan input = .error e →
            ∃ e', set'.decode plan' input = .error e' ∧ e.SameFault e') ∧
          set.decode plan input =
            set.merge (entryName owner field) plan <$>
              (set'.reportEntries message).decode plan' input := by
  obtain ⟨hcheck, hsound⟩ := sound_of_compile hcompile
  have hwords := Schema.hasWords_of_compile hcompile
  obtain ⟨set, hbuild⟩ := Schema.exists_build hcheck
  obtain ⟨set', hbuild'⟩ := Schema.exists_build (Schema.check_spellOut hmap hcheck hfresh)
  have hset := coherent_of_build hcompile hdistinct hbuild
  have hclosed := closed_of_build hcompile hbuild
  have h := Schema.spellsOut_of_build hmap hcheck hwords hfresh hsound hbuild hbuild'
  refine ⟨set, set', hbuild, hbuild', fun name plan hdeclared => ?_⟩
  obtain ⟨hplan, hsynthetic⟩ := Option.filter_eq_some_iff.mp hdeclared
  have hname : name ≠ entryName owner field := by
    rintro rfl
    rw [h.synthetic_of_entry hplan] at hsynthetic
    cases hsynthetic
  obtain ⟨plan', hplan', hname', hsame, hspells⟩ := h.plans name plan hname hplan
  have hmem := (set.mem_of_message? hplan).1
  refine ⟨plan', Option.filter_eq_some_iff.mpr ⟨hplan', by rwa [hsame]⟩, ?_, fun input => ?_⟩
  · exact fun record => h.encode_eq hset hclosed hmem hspells hname'
  · have hdeclared' : ∀ pair, set'.message? message = some pair → pair.synthetic = false :=
      fun _ => Schema.synthetic_of_build hmap hcheck hwords hbuild'
    obtain ⟨hok, herror⟩ := h.decode_iff hset hclosed hmem hspells hsame hdeclared' input
    exact ⟨hok, herror, h.decode_eq_merge hset hclosed hmem hspells hsame
      (hfresh.message?_eq_none hbuild) input⟩

/-! ## Nodes

The children of a node by name, spelled out as a list of pairs.
-/

/-- The one field of a node that holds entries. -/
def kidsField : FieldPlan := ⟨"kids", 3, .repeated, .message "Node.KidsEntry", false, true⟩

theorem eq_kidsField {field : FieldPlan} (hfield : field ∈ nodePlan.fields)
    (h : field.type = .message "Node.KidsEntry" ∨ field.name = "kids") : field = kidsField := by
  rw [nodePlan_fields] at hfield
  simp only [List.mem_cons, List.not_mem_nil, or_false] at hfield
  rcases hfield with rfl | rfl | rfl | rfl <;> first | rfl | simp at h

theorem holdsMaps_leafNode (symbol : String) : Record.HoldsMaps nodePlans "Node.KidsEntry" nodePlan
    [("hue", .enum symbol), ("sizes", .list [])] := by
  refine .intro (fun field hfield htype value hvalue => ?_)
    (fun field hfield value hvalue fields hfields => ?_)
  · obtain rfl := eq_kidsField hfield (.inl htype)
    cases hvalue
  · have hmem := Sorted.mem_of_find? hvalue
    simp only [List.mem_cons, List.not_mem_nil, or_false, Prod.mk.injEq] at hmem
    rcases hmem with ⟨-, rfl⟩ | ⟨-, rfl⟩ <;> simp [Value.elements] at hfields

theorem holdsMaps_nodeRecord :
    Record.HoldsMaps nodePlans "Node.KidsEntry" nodePlan nodeRecord := by
  refine .intro (fun field hfield htype value hvalue => ?_)
    (fun field hfield value hvalue fields hfields inner hinner => ?_)
  · obtain rfl := eq_kidsField hfield (.inl htype)
    cases hvalue
    exact ⟨_, rfl⟩
  · have hmem := Sorted.mem_of_find? hvalue
    simp only [nodeRecord, List.mem_cons, List.not_mem_nil, or_false, Prod.mk.injEq] at hmem
    rcases hmem with ⟨-, rfl⟩ | ⟨hname, rfl⟩ | ⟨-, rfl⟩
    · simp [Value.elements] at hfields
    · obtain rfl := eq_kidsField hfield (.inr hname)
      simp only [Value.elements, List.map_cons, List.map_nil, List.mem_singleton,
        Value.message.injEq] at hfields
      subst hfields
      cases hinner
      exact holdsMaps_leafNode "RED"
    · simp [Value.elements] at hfields

theorem spellable_nodeSource : ∃ schema, compile nodeSource = .ok schema ∧
    schema.DistinctFields ∧ schema.build = .ok nodePlans ∧
    schema.HasMap "Node" "kids" ⟨"bool", ⟨103, 107⟩⟩ ⟨"Node", ⟨109, 113⟩⟩ ∧
    schema.Fresh "Node" "kids" "Kid" :=
  Except.exists_of_any (by decide +kernel)

theorem codec_spellOut_node : ∃ schema set' plan', compile nodeSource = .ok schema ∧
    (schema.spellOut "Node" "kids" "Kid" ⟨"bool", ⟨103, 107⟩⟩ ⟨"Node", ⟨109, 113⟩⟩).build =
      .ok set' ∧
    set'.declared? "Node" = some plan' ∧
    set'.encode plan'
        [("hue", .enum "CRIMSON"),
          ("kids", .list [.message [("key", .bool true),
            ("value", .message [("hue", .enum "RED"), ("sizes", .list [])])]]),
          ("sizes", .list [.int32 (-1)])] =
      .ok #[8, 0, 18, 1, 1, 26, 6, 8, 1, 18, 2, 8, 0] ∧
    ∀ input, nodePlans.decode nodePlan input = nodePlans.merge "Node.KidsEntry" nodePlan <$>
      (set'.reportEntries "Kid").decode plan' input := by
  obtain ⟨schema, hcompile, hdistinct, hbuild, hmap, hfresh⟩ := spellable_nodeSource
  obtain ⟨set, set', hset, hset', halike⟩ := codec_spellOut hcompile hdistinct hmap hfresh
  obtain rfl : nodePlans = set := Except.ok.inj (hbuild.symm.trans hset)
  obtain ⟨plan', hplan', hencode, hdecode⟩ := halike "Node" nodePlan rfl
  refine ⟨schema, set', plan', hcompile, hset', hplan', ?_, fun input => (hdecode input).2.2⟩
  exact (hencode nodeRecord holdsMaps_nodeRecord).trans encode_nodeRecord

end WireCodec
