import WireCodec.Proofs.Codec.Decoded
import WireCodec.Proofs.Codec.SpelledChanges
import WireCodec.Proofs.Plan.SpelledOut
import WireCodec.Proofs.Wire.Related

/-! # Decoding maps that are spelled out

A map field is read like the list of its entries, which is merged into a map:
occurrence by occurrence and level by level the readers of both sides take the
same way. They differ in what they call a key or a value that an entry lacks.
-/

namespace WireCodec

variable {set set' : PlanSet} {entry message : String} {plan plan' : MessagePlan}
  {fault : DecodeError → DecodeError → Prop} {nested nested' : MessagePlan → Read Record}

/-- A message of a key, of a kind that keys have, and a value. -/
def IsPair (record : Record) (key : MapKey) (value : Value) : Prop :=
  (Record.value? record keyField).bind Value.toMapKey? = some key ∧
    Record.value? record valueField = some value

theorem Value.toMapKey?_ofScalar {type : ScalarType} (h : type.isMapKey = true)
    (x : type.Carrier) : ∃ key, (Value.ofScalar type x).toMapKey? = some key := by
  cases type <;> first | exact ⟨_, rfl⟩ | cases h

/-- What is read as an entry has a key and a value. -/
theorem DecodedMessage.isPair {Nested : MessagePlan → Record → Prop} {key : ScalarType}
    {value : ValueType} (hentry : plan.IsEntry key value) {record : Record}
    (h : DecodedMessage set Nested plan record) : ∃ key value, IsPair record key value := by
  have hkeyField : .ofEntry keyField 1 (.scalar key) ∈ plan.fields := by simp [hentry.fields]
  have hvalueField : .ofEntry valueField 2 value ∈ plan.fields := by simp [hentry.fields]
  obtain ⟨found, hfound⟩ := Option.isSome_iff_exists.mp (h.required _ hvalueField rfl)
  obtain ⟨keyFound, hkeyFound⟩ := Option.isSome_iff_exists.mp (h.required _ hkeyField rfl)
  have hdecoded := h.fields _ hkeyField
  rw [hkeyFound] at hdecoded
  cases hdecoded with
  | single _ _ hvalue =>
      cases hvalue with
      | scalar type x =>
          obtain ⟨mapKey, hmapKey⟩ := Value.toMapKey?_ofScalar hentry.mapKey x
          exact ⟨mapKey, found, Option.bind_eq_some_iff.mpr ⟨_, hkeyFound, hmapKey⟩, hfound⟩
  | list _ hrepeated => cases hrepeated
  | map hmap => cases hmap

/-! ## Counterparts -/

variable (set entry message fault) in
/-- Two plans are laid out by the same fields but for those spelled out, and
what they call a missing field is related. -/
structure MessagePlan.Counterpart (plan plan' : MessagePlan) : Prop where
  member : plan ∈ set.messages
  spells : plan.SpellsOut entry message plan'
  missing : ∀ field ∈ plan.fields,
    fault (plan.missingField field.name) (plan'.missingField field.name)

variable (set entry message fault) in
/-- Messages nested in others are read alike on both sides, and the entries
among them have a key and a value. -/
structure NestedAgree (nested nested' : MessagePlan → Read Record) : Prop where
  related : ∀ plan plan' : MessagePlan, plan.Counterpart set entry message fault plan' →
    Read.Related fault (fun record record' => record = set.merge entry plan record') (nested plan)
      (nested' plan')
  pairs : ∀ plan key value, plan ∈ set.messages → MessagePlan.IsEntry plan key value →
    Read.Yields (nested plan) fun record => ∃ key value, IsPair record key value

variable (set set' entry message fault) in
/-- Faults of both sides: every error is related to itself, and so is what the
two sides call a key or a value that an entry lacks. -/
structure FaultsAgree : Prop where
  refl : ∀ e, fault e e
  entries : ∀ plan plan', set.message? entry = some plan → set'.message? message = some plan' →
    ∀ name ∈ [keyField, valueField], fault (plan.missingField name) (plan'.missingField name)

section Sides

variable (h : set.SpellsOut entry message set') (hset : set.Coherent) (hclosed : set.Closed)
  (hfault : FaultsAgree set set' entry message fault)

theorem MessagePlan.SpellsOut.counterpart (hspells : plan.SpellsOut entry message plan')
    (hplan : plan ∈ set.messages) (hsynthetic : plan'.synthetic = plan.synthetic)
    (hrefl : ∀ e, fault e e) : plan.Counterpart set entry message fault plan' := by
  refine ⟨hplan, hspells, fun field _ => ?_⟩
  unfold MessagePlan.missingField
  rw [hsynthetic]
  exact hrefl _

include h hfault in
theorem exists_counterpart {name : String} (hname : name ≠ entry)
    (hplan : set.message? name = some plan) : ∃ plan', set'.message? name = some plan' ∧
      plan.Counterpart set entry message fault plan' := by
  obtain ⟨plan', hplan', -, hsynthetic, hspells⟩ := h.plans name plan hname hplan
  exact ⟨plan', hplan',
    hspells.counterpart (set.mem_of_message? hplan).1 hsynthetic hfault.refl⟩

/-! ## Values -/

section Nested

variable (hnested : NestedAgree set entry message fault nested nested')
include h hfault hnested

theorem related_readValue {type : ValueType} (hhas : set.Has type)
    (htype : type ≠ .message entry) :
    Read.Related fault (fun found found' =>
        found = found'.map (rewriteValue set entry Value.mergeEntries type))
      (readValue set nested type) (readValue set' nested' type) := by
  cases type with
  | scalar type =>
      have hvalue : Read.Related fault (fun found found' =>
          found = rewriteValue set entry Value.mergeEntries (.scalar type) found')
          (Read.value type) (Read.value type) := by
        refine (Read.related_self hfault.refl (Read.scalar type)).map ?_
        rintro x _ rfl
        exact (rewriteValue_ofScalar _ type x).symm
      refine hvalue.map ?_
      rintro _ found rfl
      rfl
  | enum name =>
      have htable : set'.enum? name = set.enum? name := by
        unfold PlanSet.enum?
        rw [h.enums]
      refine (Read.related_self hfault.refl (Read.scalar .int32)).bind ?_
      rintro number _ rfl
      rw [htable]
      split
      next => exact Read.related_throw (hfault.refl _)
      next table _ =>
        refine Read.related_pure ?_
        cases table.symbol? number <;> rfl
  | message name =>
      obtain ⟨plan, hplan⟩ := hhas
      have hname : name ≠ entry := fun heq => htype (heq ▸ rfl)
      obtain ⟨plan', hplan', hcounterpart⟩ := exists_counterpart h hfault hname hplan
      have hread := (hnested.related plan plan' hcounterpart).delimited hfault.refl
      simp only [readValue, hplan, hplan']
      refine hread.map ?_
      rintro _ record rfl
      simp [rewriteValue, PlanSet.nested?, hplan, PlanSet.merge]

theorem related_collectItem {field field' : FieldPlan} (hname : field'.name = field.name)
    (hsame : field'.type = field.type) (hfield : plan.field? field.name = some field)
    (hhas : set.Has field.type) (htype : field.type ≠ .message entry)
    {changes changes' : List Change}
    (hchanges : List.Forall₂ (Change.Merges set entry plan) changes changes') :
    Read.Related fault (List.Forall₂ (Change.Merges set entry plan))
      (collectItem set nested field changes) (collectItem set' nested' field' changes') := by
  unfold collectItem
  rw [hname, hsame]
  refine (related_readValue h hfault hnested hhas htype).map ?_
  rintro _ item rfl
  exact List.rel_append hchanges (.cons (.append hfield htype item) .nil)

/-- An entry is read as the key and the value of the message that it is spelled out as. -/
theorem related_readPair {name : String} (hname : name ≠ entry)
    (hplan : set.message? name = some plan) {key : ScalarType} {value : ValueType}
    (hentry : plan.IsEntry key value) :
    Read.Related fault (fun pair pair' =>
        pair = (pair'.1, rewriteValue set entry Value.mergeEntries value pair'.2))
      (readPair set nested name) (readPair set' nested' name) := by
  obtain ⟨plan', hplan', hcounterpart⟩ := exists_counterpart h hfault hname hplan
  obtain ⟨hvalue, -⟩ := h.fields_of_isEntry hcounterpart.member hentry hcounterpart.spells
  have hread := (hnested.related plan plan' hcounterpart).delimited hfault.refl
  unfold readPair
  simp only [hplan, hplan']
  refine hread.bind ?_
  rintro _ pair rfl
  have hkeyFound : (Record.value? (set.merge entry plan pair) keyField).bind Value.toMapKey? =
      (Record.value? pair keyField).bind Value.toMapKey? := by
    have hscalar : ValueType.scalar key ≠ .message entry := by simp
    have hfound := set.value?_merge (.ofEntry keyField 1 (.scalar key)) hentry.field?_key hscalar pair
    change Record.value? _ keyField = (Record.value? pair keyField).map _ at hfound
    rw [hfound]
    cases Record.value? pair keyField with
    | none => rfl
    | some found => exact toMapKey?_rewriteValue _ found
  have hvalueFound : Record.value? (set.merge entry plan pair) valueField =
      (Record.value? pair valueField).map (rewriteValue set entry Value.mergeEntries value) :=
    set.value?_merge (.ofEntry valueField 2 value) hentry.field?_value hvalue pair
  rw [hkeyFound, hvalueFound]
  cases (Record.value? pair keyField).bind Value.toMapKey? with
  | none => exact Read.related_throw (hfault.refl _)
  | some key =>
      cases Record.value? pair valueField with
      | none => exact Read.related_throw (hfault.refl _)
      | some found => exact Read.related_pure rfl

/-- An entry of the field that is spelled out is read like the message of its
key and value. -/
theorem related_entry :
    Read.Related fault (fun pair item => ∃ found, item = some found ∧ ∀ entries,
        insertEntry entries (rewriteValue set entry Value.mergeEntries (.message entry) found) =
          Sorted.insert pair.1 pair.2 entries)
      (readPair set nested entry) (readValue set' nested' (.message message)) := by
  obtain ⟨plan, plan', key, value, hplan, hentry, hplan', hspells⟩ := h.entries
  obtain ⟨hmem, -⟩ := set.mem_of_message? hplan
  have hcounterpart : plan.Counterpart set entry message fault plan' := by
    refine ⟨hmem, hspells, fun field hfield => hfault.entries plan plan' hplan hplan' _ ?_⟩
    rw [hentry.fields] at hfield
    exact List.mem_map_of_mem (f := FieldPlan.name) hfield
  have hread := ((hnested.related plan plan' hcounterpart).of_yields
    (hnested.pairs plan key value hmem hentry)).delimited hfault.refl
  simp only [readPair, readValue, hplan, hplan']
  rw [← bind_pure_comp]
  refine hread.bind ?_
  rintro _ pair ⟨⟨mapKey, found, hkey, hvalue⟩, rfl⟩
  rw [hkey, hvalue]
  refine Read.related_pure ⟨.message pair, rfl, fun entries => ?_⟩
  have hmerged : rewriteValue set entry Value.mergeEntries (.message entry) (.message pair) =
      .message (set.merge entry plan pair) := by
    simp only [rewriteValue, PlanSet.nested?, hplan, PlanSet.merge]
  simp only [hmerged, insertEntry, hkey, hvalue]

/-! ## Occurrences -/

variable {field : FieldPlan}

/-- An occurrence of the field that is spelled out is read as an entry on one
side and as an item on the other. -/
theorem related_changes_entry (hfieldCoherent : field.Coherent set)
    (hfield : plan.field? field.name = some field) (htype : field.type = .message entry)
    (hmap : field.isMapEntry = true) (found : Key) :
    Read.Related fault (List.Forall₂ (Change.Merges set entry plan))
      (field.changes set nested found)
      ((field.spellOut entry message).changes set' nested' found) := by
  have haction : field.action = .mergeEntry entry := by
    simp [FieldPlan.action, hmap, htype, ValueType.name]
  have haction' : (field.spellOut entry message).action = .append := by
    rw [FieldPlan.spellOut_of_eq htype]
    simp [FieldPlan.action, (hfieldCoherent.entry hmap).1, ValueType.packable]
  unfold FieldPlan.changes
  rw [haction, haction', htype]
  simp only [FieldPlan.spellOut_of_eq htype, collectItem]
  refine Read.Related.expect hfault.refl ?_ found _
  refine (related_entry h hfault hnested).map ?_
  rintro ⟨key, value⟩ _ ⟨item, rfl, hitem⟩
  exact .cons (.entry hfield htype (htype ▸ hitem)) .nil

/-- An occurrence of any other field is read alike on both sides. -/
theorem related_changes_other (hfieldCoherent : field.Coherent set)
    (hfield : plan.field? field.name = some field) (htype : field.type ≠ .message entry)
    (hhas : set.Has field.type) (found : Key) :
    Read.Related fault (List.Forall₂ (Change.Merges set entry plan))
      (field.changes set nested found) (field.changes set' nested' found) := by
  unfold FieldPlan.changes FieldPlan.action
  cases hmap : field.isMapEntry with
  | true =>
      obtain ⟨-, name, entryPlan, key, value, hname, hplan, hentry⟩ := hfieldCoherent.entry hmap
      have hne : name ≠ entry := fun heq => htype (hname.trans (heq ▸ rfl))
      have htypes : Reference.entryTypes? set field.type = some (.scalar key, value) :=
        hname ▸ Reference.entryTypes?_of_isEntry hplan hentry
      have hpair := related_readPair h hfault hnested hne hplan hentry
      have hentryName : field.type.name = name := by rw [hname, ValueType.name]
      rw [hentryName]
      refine Read.Related.expect hfault.refl (hpair.map ?_) found _
      rintro _ ⟨mapKey, held⟩ rfl
      exact .cons (.put hfield htype htypes mapKey held) .nil
  | false =>
      by_cases hrepeated : field.cardinality = .repeated
      · by_cases hpackable : field.type.packable = true
        · simp only [Bool.false_eq_true, hrepeated, hpackable, if_true, if_false]
          refine Read.Related.packable hfault.refl (fun changes changes' hchanges => ?_) .nil found _
          exact related_collectItem h hfault hnested rfl rfl hfield hhas htype hchanges
        · simp only [Bool.false_eq_true, hrepeated, hpackable, if_true, if_false]
          refine Read.Related.expect hfault.refl ?_ found _
          exact related_collectItem h hfault hnested rfl rfl hfield hhas htype .nil
      · simp only [Bool.false_eq_true, hrepeated, if_false]
        refine Read.Related.expect hfault.refl ?_ found _
        refine (related_readValue h hfault hnested hhas htype).map ?_
        rintro _ value rfl
        exact .cons (.assign hfield htype value) .nil

/-! ## Messages -/

include hset hclosed

/-- What follows a key is read alike on both sides. -/
theorem related_fieldChanges (hcounterpart : plan.Counterpart set entry message fault plan')
    (found : Key) : Read.Related fault (List.Forall₂ (Change.Merges set entry plan))
      (fieldChanges set nested plan found) (fieldChanges set' nested' plan' found) := by
  have hplan := hset plan hcounterpart.member
  have hspells := hcounterpart.spells
  rcases hspells.arm? hplan.toLaidOut found.number with ⟨hnone, hnone'⟩ | harm
  · unfold fieldChanges
    rw [hnone, hnone']
    refine (Read.related_self hfault.refl _).map ?_
    rintro _ _ _
    exact .nil
  · obtain ⟨index, field, hindex, harm, harm'⟩ := harm
    have hindex' : plan'.fields[index]? = some (field.spellOut entry message) := by
      rw [hspells.getElem?, hindex, Option.map_some]
    rw [fieldChanges_of_arm? hindex harm, fieldChanges_of_arm? hindex' harm']
    have hmem := List.mem_of_getElem? hindex
    have hfieldCoherent := hplan.fields field hmem
    have hfield := hplan.field?_of_mem hmem
    by_cases htype : field.type = .message entry
    · have hmap := h.maps plan hcounterpart.member field hmem htype
      exact related_changes_entry h hfault hnested hfieldCoherent hfield htype hmap found
    · rw [FieldPlan.spellOut_of_ne htype]
      exact related_changes_other h hfault hnested hfieldCoherent hfield htype
        ((hclosed plan hcounterpart.member).types field hmem) found

theorem related_readOccurrence (hcounterpart : plan.Counterpart set entry message fault plan')
    {record record' : Record} (hrecord : record = set.merge entry plan record') :
    Read.Related fault (Option.Rel fun record record' => record = set.merge entry plan record')
      (readOccurrence set nested plan record) (readOccurrence set' nested' plan' record') := by
  subst hrecord
  rw [readOccurrence_eq, readOccurrence_eq]
  have hoccurrence : Read.Related fault (Option.Rel (List.Forall₂ (Change.Merges set entry plan)))
      (occurrenceChanges set nested plan) (occurrenceChanges set' nested' plan') := by
    refine (Read.related_self hfault.refl Read.key).bind ?_
    rintro found _ rfl
    cases found with
    | none => exact Read.related_pure .none
    | some found =>
        refine (related_fieldChanges h hset hclosed hfault hnested hcounterpart found).map ?_
        exact fun _ _ hchanges => .some hchanges
  refine hoccurrence.map ?_
  rintro _ _ (⟨hchanges⟩ | _)
  · exact .some (applyAll_merge hchanges record')
  · exact .none

omit hnested h hclosed hfault in
/-- The same required field is missing first on both sides. -/
theorem related_firstMissing? (hcounterpart : plan.Counterpart set entry message fault plan')
    (record : Record) {indices : List Nat}
    (hindices : ∀ index ∈ indices, ∃ field, plan.fields[index]? = some field) :
    Option.Rel fault (plan.firstMissing? (set.merge entry plan record) indices)
      (plan'.firstMissing? record indices) := by
  induction indices with
  | nil => exact .none
  | cons index rest ih =>
      obtain ⟨⟨field, hindex⟩, hrest⟩ := List.forall_mem_cons.mp hindices
      have hmem := List.mem_of_getElem? hindex
      have hfield := (hset plan hcounterpart.member).field?_of_mem hmem
      have hcontains : Record.contains (set.merge entry plan record) field.name =
          Record.contains record field.name := by
        unfold Record.contains
        rw [PlanSet.merge, value?_rewriteFields hfield, Option.isSome_map]
      unfold MessagePlan.firstMissing?
      rw [hcounterpart.spells.getElem?, hindex]
      simp only [Option.map_some, hcontains, FieldPlan.spellOut_name]
      split
      · exact ih hrest
      · exact .some (hcounterpart.missing field hmem)

/-- A message is read alike on both sides if the messages nested in it are. -/
theorem related_readMessageWith (hcounterpart : plan.Counterpart set entry message fault plan') :
    Read.Related fault (fun record record' => record = set.merge entry plan record')
      (readMessageWith set nested plan) (readMessageWith set' nested' plan') := by
  have hplan := hset plan hcounterpart.member
  refine Read.Related.bind (Read.Related.iterate (fun record record' hrecord =>
    related_readOccurrence h hset hclosed hfault hnested hcounterpart hrecord) rfl) ?_
  rintro _ record rfl
  have hrequired : ∀ index ∈ plan.required, ∃ field, plan.fields[index]? = some field := by
    intro index hindex
    obtain ⟨field, hfield, -⟩ := (hplan.required index).mp hindex
    exact ⟨field, hfield⟩
  have hmissing := related_firstMissing? hset hcounterpart record hrequired
  unfold MessagePlan.complete
  rw [hcounterpart.spells.required]
  generalize plan.firstMissing? _ _ = missing at hmissing ⊢
  generalize plan'.firstMissing? _ _ = missing' at hmissing ⊢
  cases hmissing with
  | none => exact Read.related_pure rfl
  | some he => exact Read.related_throw he

end Nested

include h hset hclosed hfault

/-- At every level of nesting, messages are read alike on both sides. -/
theorem nestedAgree (levels : Nat) :
    NestedAgree set entry message fault (nestedReader set levels) (nestedReader set' levels) := by
  induction levels with
  | zero =>
      refine ⟨fun _ _ _ => Read.related_throw (hfault.refl _), ?_⟩
      exact fun _ _ _ _ _ => Read.yields_throw _
  | succ levels ih =>
      constructor
      · intro plan plan' hcounterpart
        change Read.Related fault _ (readMessageWithin set levels plan)
          (readMessageWithin set' levels plan')
        rw [readMessageWithin_eq, readMessageWithin_eq]
        exact related_readMessageWith h hset hclosed hfault ih hcounterpart
      · intro plan key value hplan hentry
        change Read.Yields (readMessageWithin set levels plan) _
        rw [readMessageWithin_eq]
        have hanything : ∀ name inner, set.message? name = some inner →
            (nestedReader set levels inner).Yields fun _ => True :=
          fun _ inner _ => Read.yields_trivial _
        refine (yields_readMessageWith hanything (hset plan hplan).toLaidOut
          (hset plan hplan).names).mono ?_
        exact fun record hrecord => hrecord.isPair hentry

/-- An input is decoded to related messages on both sides, or refused with related errors. -/
theorem PlanSet.SpellsOut.decode_related
    (hcounterpart : plan.Counterpart set entry message fault plan') (input : Bytes) :
    (∀ record, set'.decode plan' input = .ok record →
        set.decode plan input = .ok (set.merge entry plan record)) ∧
      ∀ e', set'.decode plan' input = .error e' →
        ∃ e, set.decode plan input = .error e ∧ fault e e' := by
  have hread := related_readMessageWith h hset hclosed hfault
    (nestedAgree h hset hclosed hfault nestingLimit) hcounterpart input (.start input)
  unfold PlanSet.decode readMessage
  have hlevels : nestingLimit - (Cursor.start input).depth = nestingLimit := rfl
  rw [hlevels, readMessageWithin_eq, readMessageWithin_eq]
  generalize readMessageWith set _ plan input _ = run at hread ⊢
  generalize readMessageWith set' _ plan' input _ = run' at hread ⊢
  cases hread with
  | ok hrecord =>
      refine ⟨fun record hok => ?_, fun e' herror => ?_⟩
      · cases hok
        rw [hrecord]
      · cases herror
  | error he =>
      refine ⟨fun record hok => ?_, fun e' herror => ?_⟩
      · cases hok
      · cases herror
        exact ⟨_, rfl, he⟩

end Sides

end WireCodec
