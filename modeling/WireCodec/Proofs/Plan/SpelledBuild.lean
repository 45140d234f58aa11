import WireCodec.Proofs.Plan.SpelledOut
import WireCodec.Proofs.Plan.SpelledSchema

/-! # Building plans with a map spelled out

The plans for a schema in which a map field is spelled out are those for the
schema with the map, spelled out in the same place. The plan for the entries is
the one plan that is not declared on one side and declared on the other.
-/

namespace WireCodec

namespace Schema

section Plain

variable {schema : Schema} {set : PlanSet}

/-- The last plain message of a name. -/
def plain? (schema : Schema) (name : String) : Option PlainMessage :=
  schema.plain.reverse.find? (·.name == name)

theorem mem_of_plain? {name : String} {plain : PlainMessage} (h : schema.plain? name = some plain) :
    plain ∈ schema.plain ∧ plain.name = name :=
  ⟨List.mem_reverse.mp (List.mem_of_find?_eq_some h), by simpa using List.find?_some h⟩

/-- Looking for a name finds a plain message and the plan for it, or neither. -/
theorem plain?_or_message? (hbuild : schema.build = .ok set) (name : String) :
    schema.plain? name = none ∧ set.message? name = none ∨
      ∃ plain plan, schema.plain? name = some plain ∧ set.message? name = some plan ∧
        plain.plan schema.plainIndex = .ok plan := by
  refine find?_of_forall₂ (List.rel_reverse (forall₂_of_build hbuild)) ?_
  intro plain plan hplan
  obtain ⟨fields, -, -, rfl⟩ := PlainMessage.plan_eq_ok hplan
  rw [MessagePlan.ofFields_name]

theorem exists_plain?_of_message? (hbuild : schema.build = .ok set) {name : String}
    {plan : MessagePlan} (hplan : set.message? name = some plan) :
    ∃ plain, schema.plain? name = some plain ∧ plain.plan schema.plainIndex = .ok plan := by
  rcases plain?_or_message? hbuild name with ⟨-, hnone⟩ | ⟨plain, found, hplain, hfound, hplanned⟩
  · cases hnone.symm.trans hplan
  · cases hfound.symm.trans hplan
    exact ⟨plain, hplain, hplanned⟩

theorem exists_message?_of_plain? (hbuild : schema.build = .ok set) {name : String}
    {plain : PlainMessage} (hplain : schema.plain? name = some plain) :
    ∃ plan, set.message? name = some plan ∧ plain.plan schema.plainIndex = .ok plan := by
  rcases plain?_or_message? hbuild name with ⟨hnone, -⟩ | ⟨found, plan, hfound, hplan, hplanned⟩
  · cases hnone.symm.trans hplain
  · cases hfound.symm.trans hplain
    exact ⟨plan, hplan, hplanned⟩

theorem mem_messages_plainIndex {name : String} :
    name ∈ schema.plainIndex.messages ↔ ∃ plain ∈ schema.plain, plain.name = name := by
  refine TypeIndex.messages_foldl_addMessage.trans ?_
  constructor
  · rintro (hentry | hdeclared)
    · obtain ⟨plain, hplain, rfl⟩ := List.mem_map.mp hentry
      exact ⟨plain, List.mem_of_mem_filter hplain, rfl⟩
    · obtain ⟨decl, hdecl, rfl⟩ := List.mem_map.mp hdeclared
      exact ⟨_, mem_plain.mpr (.inl ⟨decl, hdecl, rfl⟩), rfl⟩
  · rintro ⟨plain, hplain, rfl⟩
    rcases mem_plain.mp hplain with ⟨decl, hdecl, rfl⟩ | hentry
    · exact .inr (List.mem_map_of_mem hdecl)
    · refine .inl (List.mem_map_of_mem (List.mem_filter.mpr ⟨hplain, ?_⟩))
      obtain ⟨_, _, _, _, _, _, _, rfl⟩ := mem_entries.mp hentry
      rfl

/-- Names that a schema declares have no dot, and neither have those of scalars. -/
theorem HasWords.dot_not_mem (hwords : schema.HasWords) {name : String}
    (h : ((TypeIndex.ofSchema schema).find? name).isSome) : '.' ∉ name.toList := by
  rcases TypeIndex.find?_isSome.mp h with hscalar | hmessage | henum
  · obtain ⟨type, htype⟩ := Option.isSome_iff_exists.mp hscalar
    obtain rfl : type.name = name := by simpa using List.find?_some htype
    exact type.dot_not_mem_name
  · obtain ⟨decl, hdecl, rfl⟩ := List.mem_map.mp hmessage
    exact (hwords.messages decl hdecl).dot_not_mem
  · obtain ⟨decl, hdecl, rfl⟩ := List.mem_map.mp henum
    exact (hwords.enums decl hdecl).dot_not_mem

end Plain

section Spelled

variable {schema : Schema} {set set' : PlanSet} {owner field message : String}
  {key value : Spanned String} (hmap : schema.HasMap owner field key value)
  (hcheck : schema.check = []) (hwords : schema.HasWords)
  (hfresh : schema.Fresh owner field message)

include hfresh in
/-- No plain message has a fresh name. -/
theorem Fresh.ne_of_mem_plain {plain : PlainMessage} (hplain : plain ∈ schema.plain) :
    plain.name ≠ message := by
  rintro rfl
  rcases mem_plain.mp hplain with ⟨decl, hdecl, rfl⟩ | hentry
  · refine hfresh.declared _ (List.mem_map_of_mem (List.mem_append_left _ ?_)) rfl
    exact List.mem_map_of_mem hdecl
  · obtain ⟨_, _, _, _, _, _, _, rfl⟩ := mem_entries.mp hentry
    exact hfresh.word.dot_not_mem (dot_mem_entryName _ _)

include hmap hcheck hwords in
/-- Any other name is that of the same plain message as before. -/
theorem plain?_spellOut {name : String} (hentry : name ≠ entryName owner field)
    (hname : name ≠ message) : (schema.spellOut owner field message key value).plain? name =
      (schema.plain? name).map (PlainMessage.spellOut (entryName owner field) message) := by
  have hkept : ∀ plain : PlainMessage, (plain.name ≠ entryName owner field ∧ plain.name = name) ↔
      plain.name = name := by
    rintro plain
    exact and_iff_right_of_imp fun heq => heq ▸ hentry
  unfold plain?
  rw [plain_spellOut hmap hcheck hwords, List.reverse_append, List.reverse_singleton,
    List.singleton_append,
    List.find?_cons_of_neg (by simpa using Ne.symm hname),
    ← List.map_reverse, List.find?_map, ← List.filter_reverse, List.find?_filter]
  simp only [Function.comp_def, PlainMessage.spellOut, decide_eq_true_eq, beq_iff_eq, hkept]
  rfl

include hmap hcheck hwords in
/-- The fresh name is that of the entries. -/
theorem plain?_message_spellOut : (schema.spellOut owner field message key value).plain? message =
    some (.ofPair message key value) := by
  unfold plain?
  rw [plain_spellOut hmap hcheck hwords, List.reverse_append, List.reverse_singleton,
    List.singleton_append]
  exact List.find?_cons_of_pos (beq_self_eq_true message)

/-! ## Types -/

include hmap hcheck hwords

/-- Any other name stands for the same type as before. -/
theorem find?_plainIndex_spellOut {name : String} (hentry : name ≠ entryName owner field)
    (hname : name ≠ message) :
    (schema.spellOut owner field message key value).plainIndex.find? name =
      schema.plainIndex.find? name := by
  refine TypeIndex.find?_congr ?_ ?_
  · simp only [mem_messages_plainIndex, plain_spellOut hmap hcheck hwords, List.mem_append,
      List.mem_map, List.mem_filter, List.mem_singleton]
    constructor
    · rintro ⟨_, ⟨plain, ⟨hplain, -⟩, rfl⟩ | rfl, rfl⟩
      · exact ⟨plain, hplain, rfl⟩
      · exact absurd rfl hname
    · rintro ⟨plain, hplain, rfl⟩
      exact ⟨_, .inl ⟨plain, ⟨hplain, decide_eq_true hentry⟩, rfl⟩, rfl⟩
  · unfold plainIndex
    rw [TypeIndex.enums_foldl_addMessage, TypeIndex.enums_foldl_addMessage]
    rfl

include hfresh

theorem find?_message_plainIndex_spellOut :
    (schema.spellOut owner field message key value).plainIndex.find? message =
      some (.message message) := by
  have hmem : message ∈ (schema.spellOut owner field message key value).plainIndex.messages := by
    refine mem_messages_plainIndex.mpr ⟨.ofPair message key value, ?_, rfl⟩
    rw [plain_spellOut hmap hcheck hwords]
    exact List.mem_append_right _ (List.mem_singleton_self _)
  simp [TypeIndex.find?, hfresh.scalar, hmem]

omit hmap in
/-- The type names of the other fields are not those of the entries on either side. -/
theorem type_ne_of_not_spelled {plain : PlainMessage} (hplain : plain ∈ schema.plain)
    {found : PlainField} (hfound : found ∈ plain.fields)
    (hother : ¬(found.isMapEntry ∧ found.type.node = entryName owner field)) :
    found.type.node ≠ entryName owner field ∧ found.type.node ≠ message := by
  cases hisMap : found.isMapEntry with
  | true =>
      obtain ⟨-, entry, hentry, hname⟩ := entry_of_mem_plain hplain hfound hisMap
      refine ⟨fun heq => hother ⟨hisMap, heq⟩, ?_⟩
      exact hname ▸ hfresh.ne_of_mem_plain (mem_plain.mpr (.inr hentry))
  | false =>
      have hsome := find?_ofSchema_isSome_of_mem_plain hcheck hplain hfound hisMap
      refine ⟨fun heq => ?_, fun heq => ?_⟩
      · exact hwords.dot_not_mem (heq ▸ hsome) (dot_mem_entryName owner field)
      · rw [heq, hfresh.find?_eq_none] at hsome
        cases hsome

/-- A plain field is resolved and planned as before, but for the one that is spelled out. -/
theorem plan_spellOut {plain : PlainMessage} (hplain : plain ∈ schema.plain) {found : PlainField}
    (hfound : found ∈ plain.fields) {type type' : ValueType}
    (htype : schema.plainIndex.find? found.type.node = some type)
    (htype' : (schema.spellOut owner field message key value).plainIndex.find?
      (found.spellOut (entryName owner field) message).type.node = some type') :
    (found.spellOut (entryName owner field) message).plan type' =
      (found.plan type).spellOut (entryName owner field) message := by
  by_cases hspelled : found.isMapEntry ∧ found.type.node = entryName owner field
  · have hentry : schema.plainIndex.find? (entryName owner field) =
        some (.message (entryName owner field)) := find?_entry hmap.mem_entries
    rw [hspelled.2, hentry] at htype
    cases htype
    rw [PlainField.spellOut, if_pos hspelled] at htype' ⊢
    rw [find?_message_plainIndex_spellOut hmap hcheck hwords hfresh] at htype'
    cases htype'
    rw [FieldPlan.spellOut_of_eq rfl]
    simp [PlainField.plan, PlainField.isPacked, ValueType.packable]
  · obtain ⟨hentry, hmessage⟩ :=
      type_ne_of_not_spelled hcheck hwords hfresh hplain hfound hspelled
    rw [PlainField.spellOut, if_neg hspelled] at htype' ⊢
    rw [find?_plainIndex_spellOut hmap hcheck hwords hentry hmessage, htype] at htype'
    cases htype'
    have hne : type ≠ .message (entryName owner field) := by
      rintro rfl
      exact hentry (TypeIndex.eq_of_find?_message htype).symm
    exact (FieldPlan.spellOut_of_ne hne).symm

/-! ## Plans -/

/-- Plans are laid out alike, with the map spelled out. -/
theorem spellsOut_of_plan {plain plain' : PlainMessage} (hplain : plain ∈ schema.plain)
    (hplain' : plain' ∈ (schema.spellOut owner field message key value).plain)
    (hfields : plain'.fields =
      plain.fields.map (PlainField.spellOut (entryName owner field) message))
    {plan plan' : MessagePlan} (hplan : plain.plan schema.plainIndex = .ok plan)
    (hplan' : plain'.plan (schema.spellOut owner field message key value).plainIndex = .ok plan') :
    plan.SpellsOut (entryName owner field) message plan' := by
  have hlaidOut := laidOut_of_plan hplain' hplan'
  obtain ⟨fields, hnames, hfind, rfl⟩ := PlainMessage.plan_eq_ok hplan
  obtain ⟨fields', hnames', hfind', rfl⟩ := PlainMessage.plan_eq_ok hplan'
  have hspelled : List.Forall₂
      (fun found found' => found.1.spellOut (entryName owner field) message = found'.1)
      fields fields' := by
    rw [hfields, ← hnames, List.map_map] at hnames'
    rw [← List.forall₂_eq_eq_eq, List.forall₂_map_left_iff, List.forall₂_map_right_iff] at hnames'
    exact hnames'.flip.imp fun _ _ heq => heq.symm
  have hplans : List.Forall₂ (fun found found' => found'.1.plan found'.2 =
      (found.1.plan found.2).spellOut (entryName owner field) message) fields fields' := by
    refine forall₂_of_mem hspelled ?_
    rintro ⟨found, type⟩ hfound ⟨found', type'⟩ hfound' heq
    dsimp only at heq
    subst heq
    exact plan_spellOut hmap hcheck hwords hfresh hplain (hnames ▸ List.mem_map_of_mem hfound)
      (hfind _ hfound) (hfind' _ hfound')
  have hsame : fields'.map (fun found => found.1.plan found.2) =
      (fields.map fun found => found.1.plan found.2).map
        (FieldPlan.spellOut (entryName owner field) message) := by
    rw [List.map_map, ← List.forall₂_eq_eq_eq, List.forall₂_map_left_iff,
      List.forall₂_map_right_iff]
    exact hplans.flip
  refine ⟨hlaidOut, ?_, ?_⟩
  · rw [MessagePlan.ofFields_fields, MessagePlan.ofFields_fields, hsame]
  · have hcardinality : ∀ found : FieldPlan,
        (found.spellOut (entryName owner field) message).cardinality = found.cardinality := by
      intro found
      unfold FieldPlan.spellOut
      split <;> rfl
    rw [MessagePlan.ofFields_required, MessagePlan.ofFields_required, MessagePlan.ofFields_fields,
      MessagePlan.ofFields_fields, hsame, List.findIdxs_map]
    simp only [Function.comp_def, hcardinality]

/-- The plans for a schema with a map spelled out are those for the schema with
the map, spelled out. -/
theorem spellsOut_of_build (hsound : ∀ decl ∈ schema.messages, decl.node.Sound)
    (hbuild : schema.build = .ok set)
    (hbuild' : (schema.spellOut owner field message key value).build = .ok set') :
    set.SpellsOut (entryName owner field) message set' := by
  constructor
  case enums =>
    rw [enums_of_build hbuild, enums_of_build hbuild']
    rfl
  case plans =>
    intro name plan hname hplan
    obtain ⟨plain, hplain, hplanned⟩ := exists_plain?_of_message? hbuild hplan
    obtain ⟨hmem, hplainName⟩ := mem_of_plain? hplain
    have hne : name ≠ message := hplainName ▸ hfresh.ne_of_mem_plain hmem
    have hplain' := plain?_spellOut hmap hcheck hwords hname hne
    rw [hplain, Option.map_some] at hplain'
    obtain ⟨plan', hplan', hplanned'⟩ := exists_message?_of_plain? hbuild' hplain'
    refine ⟨plan', hplan', ?_, ?_, spellsOut_of_plan hmap hcheck hwords hfresh hmem
      (mem_of_plain? hplain').1 rfl hplanned hplanned'⟩
    · rw [(set'.mem_of_message? hplan').2, (set.mem_of_message? hplan).2]
    · obtain ⟨_, -, -, rfl⟩ := PlainMessage.plan_eq_ok hplanned
      obtain ⟨_, -, -, rfl⟩ := PlainMessage.plan_eq_ok hplanned'
      rw [MessagePlan.ofFields_synthetic, MessagePlan.ofFields_synthetic]
      rfl
  case entries =>
    have hentry := hmap.mem_entries
    obtain ⟨plan, hplan, hplanned⟩ := exists_entryPlan hsound hbuild hentry
    obtain ⟨keyType, valueType, hisEntry⟩ := isEntry_of_plan hcheck hentry hplanned
    have hplain' : (schema.spellOut owner field message key value).plain? message =
        some (.ofPair message key value) := plain?_message_spellOut hmap hcheck hwords
    obtain ⟨plan', hplan', hplanned'⟩ := exists_message?_of_plain? hbuild' hplain'
    have hfields := congrArg PlainMessage.fields
      (spellOut_of_mem_entries (entryName owner field) message hentry)
    exact ⟨plan, plan', keyType, valueType, hplan, hisEntry, hplan', spellsOut_of_plan hmap hcheck
      hwords hfresh (mem_plain.mpr (.inr hentry)) (mem_of_plain? hplain').1 hfields.symm hplanned
      hplanned'⟩
  case maps =>
    intro plan hplan found hfound htype
    obtain ⟨plain, hplain, hplanned⟩ := exists_plain_of_build hbuild hplan
    obtain ⟨fields, hnames, hfind, rfl⟩ := PlainMessage.plan_eq_ok hplanned
    rw [MessagePlan.ofFields_fields] at hfound
    obtain ⟨⟨declared, type⟩, hmem, rfl⟩ := List.mem_map.mp hfound
    obtain rfl : type = .message (entryName owner field) := htype
    by_contra hisMap
    have hother : ¬(declared.isMapEntry ∧ declared.type.node = entryName owner field) :=
      fun h => hisMap h.1
    have hdeclared : declared ∈ plain.fields := hnames ▸ List.mem_map_of_mem hmem
    obtain ⟨hne, -⟩ := type_ne_of_not_spelled hcheck hwords hfresh hplain hdeclared hother
    exact hne (TypeIndex.eq_of_find?_message (hfind _ hmem)).symm

omit hfresh in
/-- The message that spells out the entries is declared. -/
theorem synthetic_of_build (hbuild' : (schema.spellOut owner field message key value).build =
    .ok set') {plan' : MessagePlan} (hplan' : set'.message? message = some plan') :
    plan'.synthetic = false := by
  obtain ⟨plain', hplain', hplanned'⟩ := exists_plain?_of_message? hbuild' hplan'
  rw [plain?_message_spellOut hmap hcheck hwords] at hplain'
  cases hplain'
  obtain ⟨_, -, -, rfl⟩ := PlainMessage.plan_eq_ok hplanned'
  rw [MessagePlan.ofFields_synthetic]
  rfl

omit hmap hcheck hwords in
/-- No plan has a fresh name. -/
theorem Fresh.message?_eq_none (hbuild : schema.build = .ok set) : set.message? message = none := by
  cases hplan : set.message? message with
  | none => rfl
  | some plan =>
      obtain ⟨plain, hplain, -⟩ := exists_plain?_of_message? hbuild hplan
      obtain ⟨hmem, hname⟩ := mem_of_plain? hplain
      exact absurd hname (hfresh.ne_of_mem_plain hmem)

end Spelled

end Schema

end WireCodec
