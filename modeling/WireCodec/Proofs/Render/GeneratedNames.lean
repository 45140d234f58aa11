import Mathlib.Data.List.Perm.Basic
import WireCodec.Proofs.Lists
import WireCodec.Proofs.Plan.Closed
import WireCodec.Proofs.Render.Declarations
import WireCodec.Proofs.Schema.Names

/-! # Names in generated code

Generated code declares a type for each enum, each message and each kind of
map entry. The check keeps the names of entries apart from all others; names
that a source text chooses can still meet, as a forbidden word and its escape,
or as two symbols that differ in case or in underscores only.
-/

namespace WireCodec

/-! ## Names of types -/

theorem filter_dots {letters : List Char} (h : ∀ c ∈ letters, isWordPart c = true) :
    letters.filter (· != '.') = letters := by
  refine List.filter_eq_self.mpr fun c hc => ?_
  have hpart := h c hc
  by_contra hdot
  obtain rfl : c = '.' := by simpa using hdot
  revert hpart
  decide

theorem IsWord.flatName_eq {name : String} (h : IsWord name) : flatName name = name := by
  rw [flatName, filter_dots h, String.ofList_toList]

theorem isWordPart_toUpper {c : Char} (h : isWordPart c = true) : isWordPart c.toUpper = true := by
  obtain ⟨n, hn, rfl⟩ := exists_ofNat h
  revert n
  decide +kernel

theorem isWordPart_camelLetters {letters : List Char} (h : ∀ c ∈ letters, isWordPart c = true)
    (start : Bool) : ∀ c ∈ camelLetters start letters, isWordPart c = true := by
  induction letters generalizing start with
  | nil => simp [camelLetters]
  | cons c rest ih =>
      obtain ⟨hc, hrest⟩ := List.forall_mem_cons.mp h
      unfold camelLetters
      split
      · exact ih hrest true
      split
      · have hupper : Text.upper c = [c.toUpper] := if_pos (toNat_lt_of_isWordPart hc)
        rw [hupper]
        exact List.forall_mem_cons.mpr ⟨isWordPart_toUpper hc, ih hrest false⟩
      · exact List.forall_mem_cons.mpr ⟨hc, ih hrest false⟩

/-- The flat name of an entry is a word that ends in a fixed way. -/
theorem flatName_entryName {message field : String} (hmessage : IsWord message)
    (hfield : IsWord field) : IsWord (flatName (entryName message field)) ∧
      "Entry".toList <:+ (flatName (entryName message field)).toList := by
  have hcamel := isWordPart_camelLetters hfield true
  have hflat : (flatName (entryName message field)).toList =
      message.toList ++ (camelLetters true field.toList ++ "Entry".toList) := by
    simp only [flatName, entryName, upperCamel, String.toList_append, String.toList_ofList,
      List.filter_append, filter_dots hmessage, filter_dots hcamel, List.append_assoc]
    rfl
  rw [IsWord, hflat]
  have hending : ∀ c ∈ "Entry".toList, isWordPart c = true := List.all_eq_true.mp (by decide)
  refine ⟨List.forall_mem_append.mpr ⟨hmessage, List.forall_mem_append.mpr ⟨hcamel, hending⟩⟩, ?_⟩
  exact ⟨message.toList ++ camelLetters true field.toList, by simp⟩

theorem forbidden_not_entry {word : String} (h : word ∈ forbiddenWords) :
    ¬"Entry".toList <:+ word.toList ∧ ¬"Entry".toList <:+ (word ++ "_").toList := by
  revert word
  decide +kernel

/-! ## The declarations for a schema -/

/-- The type that stands for a message. -/
def PlainMessage.declaration (plain : PlainMessage) : Declaration :=
  ⟨typeIdentifier plain.name, plain.fields.map (identifier ·.name)⟩

namespace Schema

variable {schema : Schema}

/-- The names that types are declared for, as source text can spell them. -/
def typeNames (schema : Schema) : List String :=
  schema.enumTables.map (flatName ·.name) ++ schema.plain.map (flatName ·.name)

/-- The declared names and the names of entries are those of the types. -/
theorem typeNames_perm (hmessages : ∀ decl ∈ schema.messages, IsWord decl.node.name.node)
    (henums : ∀ decl ∈ schema.enums, IsWord decl.node.name.node) :
    (schema.declaredNames.map (·.1) ++ schema.entries.map (flatName ·.name)).Perm
      schema.typeNames := by
  have hplain : (schema.messages.map (·.node.name.node) ++
      schema.entries.map (flatName ·.name)).Perm (schema.plain.map (flatName ·.name)) := by
    have hsplit := (List.flatMap_append_perm schema.messages
      (fun message => [PlainMessage.mk message.node.name.node false
        (message.node.fields.map (·.node.plain message.node.name.node))])
      fun message => message.node.fields.filterMap (·.node.entry? message.node.name.node)).map
        (flatName ·.name)
    rw [List.map_append, List.map_flatMap] at hsplit
    have hnames : (schema.messages.flatMap fun message =>
        [flatName message.node.name.node]) = schema.messages.map (·.node.name.node) := by
      rw [← List.map_eq_flatMap]
      exact List.map_congr_left fun decl hdecl => (hmessages decl hdecl).flatName_eq
    exact hnames ▸ hsplit
  have hnames : schema.enumTables.map (flatName ·.name) =
      schema.enums.map (·.node.name.node) := by
    rw [enumTables, List.map_map]
    exact List.map_congr_left fun decl hdecl => (henums decl hdecl).flatName_eq
  have hdeclared : schema.declaredNames.map (·.1) =
      schema.messages.map (·.node.name.node) ++ schema.enums.map (·.node.name.node) := by
    simp only [declaredNames, List.map_append, List.map_map]
    rfl
  rw [hdeclared, typeNames, hnames]
  refine (List.perm_append_comm.append_right _).trans ?_
  rw [List.append_assoc]
  exact hplain.append_left _

variable (hwords : schema.HasWords)
include hwords

theorem HasWords.isWord_entry {entry : PlainMessage} (hentry : entry ∈ schema.entries) :
    IsWord (flatName entry.name) ∧ "Entry".toList <:+ (flatName entry.name).toList := by
  obtain ⟨decl, hdecl, field, hfield, key, value, -, rfl⟩ := mem_entries.mp hentry
  exact flatName_entryName (hwords.messages decl hdecl) (hwords.fields decl hdecl field hfield)

theorem HasWords.isWord_plain {plain : PlainMessage} (hplain : plain ∈ schema.plain) :
    IsWord (flatName plain.name) ∧ ∀ field ∈ plain.fields, IsWord field.name := by
  rcases mem_plain.mp hplain with ⟨decl, hdecl, rfl⟩ | hentry
  · have hname := hwords.messages decl hdecl
    refine ⟨hname.flatName_eq.symm ▸ hname, List.forall_mem_map.mpr fun field hfield => ?_⟩
    rw [Field.plain_name]
    exact hwords.fields decl hdecl field hfield
  · refine ⟨(hwords.isWord_entry hentry).1, ?_⟩
    obtain ⟨_, _, _, _, key, value, _, rfl⟩ := mem_entries.mp hentry
    have hparts : IsWord keyField ∧ IsWord valueField :=
      ⟨List.all_eq_true.mp (by decide), List.all_eq_true.mp (by decide)⟩
    simpa [PlainMessage.ofMap, PlainField.ofEntry] using hparts

theorem HasWords.isWord_table {table : EnumTable} (htable : table ∈ schema.enumTables) :
    IsWord (flatName table.name) ∧ ∀ value ∈ table.values, IsWord value.1 := by
  obtain ⟨decl, hdecl, rfl⟩ := List.mem_map.mp htable
  have hname := hwords.enums decl hdecl
  refine ⟨hname.flatName_eq.symm ▸ hname, List.forall_mem_map.mpr fun value hvalue => ?_⟩
  have hvalue := hwords.values decl hdecl value hvalue
  dsimp only
  unfold stripEnumName
  split
  next hstrip =>
    intro c hc
    rw [String.toList_ofList] at hc
    refine hvalue c ?_
    rw [← List.append_eq_of_isPrefixOf?_eq_some hstrip]
    exact List.mem_append_right _ hc
  next => exact hvalue

/-- Types are named apart exactly if the declared names differ, and none of them is a
forbidden word that is declared with an underscore as well. -/
theorem HasWords.nodup_typeNames_iff (hcheck : schema.check = []) :
    (schema.typeNames.map identifier).Nodup ↔ (schema.declaredNames.map (·.1)).Nodup ∧
      ¬EscapeClash (schema.declaredNames.map (·.1)) := by
  have hperm := typeNames_perm hwords.messages hwords.enums
  obtain ⟨hentries, hfree⟩ := nodup_of_checkEntryNames (List.append_eq_nil_iff.mp hcheck).2
  have hflat : schema.entries.map (flatName ·.name) =
      schema.mapFields.map fun field => flatName (entryName field.1 field.2.node) := by
    have hnames := congrArg (List.map flatName) schema.map_name_entries
    rwa [List.map_map, List.map_map] at hnames
  have hwordy : ∀ name ∈ schema.typeNames, IsWord name := by
    refine List.forall_mem_append.mpr ⟨List.forall_mem_map.mpr ?_, List.forall_mem_map.mpr ?_⟩
    · exact fun table htable => (hwords.isWord_table htable).1
    · exact fun plain hplain => (hwords.isWord_plain hplain).1
  have hnodup : schema.typeNames.Nodup ↔ (schema.declaredNames.map (·.1)).Nodup := by
    rw [← hperm.nodup_iff, List.nodup_append]
    refine ⟨And.left, fun hdeclared => ⟨hdeclared, hflat ▸ hentries, ?_⟩⟩
    intro name hname entry hentry
    obtain ⟨declared, hdeclared, rfl⟩ := List.mem_map.mp hname
    rw [hflat] at hentry
    obtain ⟨field, hfield, rfl⟩ := List.mem_map.mp hentry
    exact hfree field hfield declared hdeclared
  -- the names of entries are neither forbidden words nor their escapes
  have hdeclared : ∀ {name : String}, ¬"Entry".toList <:+ name.toList →
      (name ∈ schema.typeNames ↔ name ∈ schema.declaredNames.map (·.1)) := by
    intro name hname
    rw [← hperm.mem_iff, List.mem_append]
    refine or_iff_left fun hentry => ?_
    obtain ⟨entry, hmem, rfl⟩ := List.mem_map.mp hentry
    exact hname (hwords.isWord_entry hmem).2
  have hclash : EscapeClash schema.typeNames ↔ EscapeClash (schema.declaredNames.map (·.1)) := by
    refine exists_congr fun word => and_congr_right fun hforbidden => ?_
    obtain ⟨hword, hescaped⟩ := forbidden_not_entry hforbidden
    rw [hdeclared hword, hdeclared hescaped]
  rw [nodup_identifiers_iff hwordy, hnodup, hclash]

/-- The code for a plain message declares its type. -/
theorem HasWords.declarations_anyCode {plain : PlainMessage} (hplain : plain ∈ schema.plain)
    {index : TypeIndex} {plan : MessagePlan} (hplan : plain.plan index = .ok plan) (set : PlanSet)
    (mode : DeriveMode) :
    (plan.anyCode set mode).filterMap Code.declaration? = [plain.declaration] := by
  obtain ⟨hname, hfields⟩ := hwords.isWord_plain hplain
  have hnames := PlainMessage.map_name_plan hplan
  obtain ⟨fields, -, -, hbuilt⟩ := PlainMessage.plan_eq_ok hplan
  have hplanName : plan.name = plain.name := hbuilt ▸ MessagePlan.ofFields_name
  have hsynthetic : plan.synthetic = plain.synthetic := hbuilt ▸ MessagePlan.ofFields_synthetic
  have hsame : plan.declaration = plain.declaration := by
    have hmembers := congrArg (List.map identifier) hnames
    rw [List.map_map, List.map_map] at hmembers
    exact congrArg₂ Declaration.mk (congrArg typeIdentifier hplanName) hmembers
  rw [← hplanName] at hname
  rw [MessagePlan.anyCode, hsynthetic, ← hsame]
  rcases mem_plain.mp hplain with ⟨decl, -, rfl⟩ | hentry
  · refine MessagePlan.declarations_code hname (fun field hfield => ?_) set mode
    obtain ⟨plainField, hmem, heq⟩ := List.mem_map.mp (hnames ▸ List.mem_map_of_mem hfield)
    exact heq ▸ hfields plainField hmem
  · obtain ⟨_, _, _, _, key, value, _, rfl⟩ := mem_entries.mp hentry
    exact MessagePlan.declarations_entryCode hname hnames

theorem HasWords.isIdentifierPart_variants {table : EnumTable}
    (htable : table ∈ schema.enumTables) :
    ∀ variant ∈ table.variants, ∀ c ∈ variant.2.toList, isIdentifierPart c = true := by
  refine List.forall_mem_map.mpr fun pair hpair => ?_
  have hword := EnumTable.isWord_of_mem_canonical (hwords.isWord_table htable).2 hpair
  have hletters := map_capital (isPartLetter_of_mem_symbolLetters hword)
  dsimp only
  rw [variantIdentifier_eq hword]
  exact isIdentifierPart_identifier hletters.2.1

/-- The source text for a schema declares a type for each enum and each plain message. -/
theorem HasWords.declarations_of_build {set : PlanSet} (hbuild : schema.build = .ok set)
    (mode : DeriveMode) : set.declarations mode =
      schema.enumTables.map EnumTable.declaration ++
        schema.plain.map PlainMessage.declaration := by
  have hhead : set.headCode.filterMap Code.declaration? = [] := by
    have hpackage (name : String) : Code.declaredName? ("// package: " ++ name) = none :=
      Code.declaredName?_eq_none (c := '/') (by simp [String.toList_append]) (by decide)
    have hfirst : Code.declaredName? "// Code generated by protowirec. DO NOT EDIT." = none := rfl
    cases hset : set.package <;>
      simp [PlanSet.headCode, hset, Code.declaration?, toString, hfirst, hpackage]
  have henums : (set.enums.flatMap fun table => Code.blank :: table.code mode).filterMap
      Code.declaration? = schema.enumTables.map EnumTable.declaration := by
    rw [enums_of_build hbuild, List.filterMap_flatMap, List.map_eq_flatMap]
    refine List.flatMap_congr fun table htable => ?_
    exact EnumTable.declarations_code (hwords.isWord_table htable).1
      (hwords.isIdentifierPart_variants htable) mode
  have hmessages : (set.messages.flatMap fun plan =>
      Code.blank :: plan.anyCode set mode).filterMap Code.declaration? =
        schema.plain.map PlainMessage.declaration := by
    rw [List.filterMap_flatMap, List.map_eq_flatMap]
    refine (flatMap_eq_of_forall₂ (forall₂_of_build hbuild) ?_).symm
    intro plain hplain plan _ hplan
    exact (hwords.declarations_anyCode hplain hplan set mode).symm
  rw [PlanSet.declarations, PlanSet.code, List.filterMap_append, List.filterMap_append, hhead,
    henums, hmessages, List.nil_append]

omit hwords in
/-- What source text is generated for a compiled schema, and when its names differ. A type
is declared for each enum, message and kind of entry. The names of types are distinct exactly
if the declared names are and hold no forbidden word beside its escape; so are the names of
the fields of a message, while those of an entry always differ. An enum has one variant
for each of its numbers, and they differ exactly if no two symbols that stand for numbers are
spelled alike. -/
theorem generated_names_of_compile {source : String} (hcompile : compile source = .ok schema) :
    ∃ set, schema.build = .ok set ∧ ∀ mode,
      set.source mode = Code.printAll 0 (set.code mode) ∧
      set.declarations mode = schema.enumTables.map EnumTable.declaration ++
        schema.plain.map PlainMessage.declaration ∧
      (((set.declarations mode).map (·.name)).Nodup ↔
        (schema.declaredNames.map (·.1)).Nodup ∧
          ¬EscapeClash (schema.declaredNames.map (·.1))) ∧
      (∀ plain ∈ schema.plain, (plain.declaration.members.Nodup ↔
        (plain.fields.map (·.name)).Nodup ∧ ¬EscapeClash (plain.fields.map (·.name)))) ∧
      (∀ entry ∈ schema.entries, entry.declaration.members.Nodup) ∧
      ∀ table ∈ schema.enumTables,
        table.declaration.members.length = (table.values.map (·.2)).dedup.length ∧
          (table.declaration.members.Nodup ↔ ¬table.SpelledAlike) := by
  obtain ⟨hcheck, -⟩ := sound_of_compile hcompile
  obtain ⟨set, hbuild⟩ := exists_build hcheck
  have hwords := hasWords_of_compile hcompile
  refine ⟨set, hbuild, fun mode => ⟨rfl, hwords.declarations_of_build hbuild mode, ?_, ?_, ?_, ?_⟩⟩
  · have hnames : (set.declarations mode).map (·.name) = schema.typeNames.map identifier := by
      rw [hwords.declarations_of_build hbuild, typeNames]
      simp only [List.map_append, List.map_map]
      rfl
    rw [hnames]
    exact hwords.nodup_typeNames_iff hcheck
  · intro plain hplain
    have hfields := List.forall_mem_map.mpr (hwords.isWord_plain hplain).2
    have hmembers := nodup_identifiers_iff hfields
    rwa [List.map_map] at hmembers
  · intro entry hentry
    obtain ⟨_, _, _, _, key, value, _, rfl⟩ := mem_entries.mp hentry
    change [identifier keyField, identifier valueField].Nodup
    decide +kernel
  · intro table htable
    refine ⟨?_, EnumTable.nodup_variants_iff (hwords.isWord_table htable).2⟩
    rw [EnumTable.declaration, List.length_map, EnumTable.length_variants]

end Schema

/-! ## Signals

An enum, two messages and two fields whose names differ, but not in generated code.
-/

def signalSource : String :=
  "enum Signal \x7b RED = 0; red = 1; \x7d message self \x7b \x7d " ++
    "message self_ \x7b optional int32 super = 1; optional int32 super_ = 2; \x7d"

def signalPlans : PlanSet where
  package := none
  enums := [⟨"Signal", [("RED", 0), ("red", 1)]⟩]
  messages :=
    [.ofFields "self" false [],
      .ofFields "self_" false
        [(⟨"super", 1, .detached "int32", .optional, none, false⟩, .scalar .int32),
          (⟨"super_", 2, .detached "int32", .optional, none, false⟩, .scalar .int32)]]

theorem compile_signalSource : ∃ schema, compile signalSource = .ok schema ∧
    schema.declaredNames.map (·.1) = ["self", "self_", "Signal"] :=
  Except.exists_of_any (by decide +kernel)

theorem generated_names_signal : ∃ schema, compile signalSource = .ok schema ∧
    ∃ set, schema.build = .ok set ∧
      ∀ mode, ¬((set.declarations mode).map (·.name)).Nodup := by
  obtain ⟨schema, hcompile, hnames⟩ := compile_signalSource
  obtain ⟨set, hbuild, hgenerated⟩ := Schema.generated_names_of_compile hcompile
  refine ⟨schema, hcompile, set, hbuild, fun mode hnodup => ?_⟩
  obtain ⟨-, -, htypes, -⟩ := hgenerated mode
  rw [hnames] at htypes
  exact (htypes.mp hnodup).2 ⟨"self", by decide, by decide, by decide⟩

theorem declarations_signalPlans : signalPlans.declarations .never =
    [⟨"Signal", ["Red", "Red"]⟩, ⟨"self_", []⟩, ⟨"self_", ["super_", "super_"]⟩] := by
  decide +kernel

/-- All names that are declared differ, but those that are generated do not. -/
theorem generated_names_clash : (∃ schema, compile signalSource = .ok schema ∧
      (schema.build = .ok signalPlans ∧ (schema.declaredNames.map (·.1)).Nodup ∧
        schema.DistinctNames ∧ ∀ table ∈ schema.enumTables, (table.values.map (·.1)).Nodup)) ∧
    ¬((signalPlans.declarations .never).map (·.name)).Nodup ∧
    ∀ name ∈ ["Signal", "self_"], ∃ declaration ∈ signalPlans.declarations .never,
      declaration.name = name ∧ ¬declaration.members.Nodup := by
  refine ⟨Except.exists_of_any (by decide +kernel), ?_⟩
  rw [declarations_signalPlans]
  decide

end WireCodec
