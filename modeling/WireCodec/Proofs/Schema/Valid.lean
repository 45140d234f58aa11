import WireCodec.Proofs.Plan.Closed

/-! # Valid schemas

What makes a schema valid, said of its declarations alone: names stand for
types, keys and packed fields are of types that allow it, and the types of map
entries have names of their own. The check accepts exactly the valid schemas,
and building a schema fails for no other reason than the check.
-/

namespace WireCodec

/-! ## What names stand for -/

/-- A keyword is the name of one scalar type. -/
theorem ScalarType.ofName?_eq_some {name : String} {type : ScalarType} :
    ofName? name = some type ↔ type.name = name := by
  constructor
  · intro h
    simpa using List.find?_some h
  · rintro rfl
    cases type <;> decide

theorem ScalarType.ofName?_eq_none {name : String} :
    ofName? name = none ↔ ∀ type : ScalarType, type.name ≠ name := by
  simp only [Option.eq_none_iff_forall_ne_some, ne_eq, ofName?_eq_some]

namespace Schema

variable (schema : Schema)

/-- A schema declares a message of this name. -/
def DeclaresMessage (name : String) : Prop := ∃ decl ∈ schema.messages, decl.node.name.node = name

/-- A schema declares an enum of this name. -/
def DeclaresEnum (name : String) : Prop := ∃ decl ∈ schema.enums, decl.node.name.node = name

/-- A name is a keyword, or it is declared. -/
def HasType (name : String) : Prop :=
  (∃ type : ScalarType, type.name = name) ∨ schema.DeclaresMessage name ∨ schema.DeclaresEnum name

/-- What a name stands for. A keyword stands for the scalar type whatever is
declared, and a name that is declared both ways for the message. -/
inductive StandsFor : String → ValueType → Prop
  | scalar (type : ScalarType) : StandsFor type.name (.scalar type)
  | message {name : String} (hkeyword : ∀ type : ScalarType, type.name ≠ name)
      (hmessage : schema.DeclaresMessage name) : StandsFor name (.message name)
  | enum {name : String} (hkeyword : ∀ type : ScalarType, type.name ≠ name)
      (hmessage : ¬schema.DeclaresMessage name) (henum : schema.DeclaresEnum name) :
      StandsFor name (.enum name)

/-- The names of the types that are made for the entries of maps, without dots. -/
def entryTypeNames : List String := schema.entries.map (flatName ·.name)

end Schema

/-- A type is an enum, or a scalar other than texts and bytes. -/
def ValueType.FitsRuns (type : ValueType) : Prop :=
  (∃ name, type = .enum name) ∨
    ∃ scalar : ScalarType, type = .scalar scalar ∧ scalar ≠ .string ∧ scalar ≠ .bytes

/-- A type is a scalar other than floating-point numbers and bytes. -/
def ValueType.FitsKeys (type : ValueType) : Prop :=
  ∃ scalar : ScalarType, type = .scalar scalar ∧
    scalar ≠ .float ∧ scalar ≠ .double ∧ scalar ≠ .bytes

/-- The types that a field names are there, its keys are of a type for keys,
and a field that asks for packed runs is a repeated one of a type for runs. -/
structure Field.Valid (schema : Schema) (field : Field) : Prop where
  named : ∀ name, field.type.node = .named name → schema.HasType name
  value : ∀ key value, field.type.node = .map key value → schema.HasType value.node
  key : ∀ key value, field.type.node = .map key value →
    ∃ type, schema.StandsFor key.node type ∧ type.FitsKeys
  packed : ∀ option, field.packed = some option → option.node = true →
    field.cardinality = .repeated ∧ ∃ name type,
      field.type.node = .named name ∧ schema.StandsFor name type ∧ type.FitsRuns

/-- All fields are valid, and the types for the entries of maps have names
that differ from each other and from those that are declared. -/
structure Schema.Valid (schema : Schema) : Prop where
  fields : ∀ decl ∈ schema.messages, ∀ field ∈ decl.node.fields, field.node.Valid schema
  entryTypes : schema.entryTypeNames.Nodup
  undeclared : ∀ name ∈ schema.entryTypeNames,
    ¬schema.DeclaresMessage name ∧ ¬schema.DeclaresEnum name

theorem ValueType.packable_iff {type : ValueType} : type.packable = true ↔ type.FitsRuns := by
  cases type with
  | scalar type => cases type <;> simp [packable, ScalarType.packable, FitsRuns]
  | enum name | message name => simp [packable, FitsRuns]

theorem ScalarType.isMapKey_iff {type : ScalarType} :
    type.isMapKey = true ↔ type ≠ .float ∧ type ≠ .double ∧ type ≠ .bytes := by
  cases type <;> decide

section Check

variable {schema : Schema} {name : String} {type : ValueType}

theorem Schema.mem_messages_ofSchema :
    name ∈ (TypeIndex.ofSchema schema).messages ↔ schema.DeclaresMessage name :=
  List.mem_map

theorem Schema.mem_enums_ofSchema :
    name ∈ (TypeIndex.ofSchema schema).enums ↔ schema.DeclaresEnum name :=
  List.mem_map

theorem Schema.find?_ofSchema :
    (TypeIndex.ofSchema schema).find? name = some type ↔ schema.StandsFor name type := by
  constructor
  · intro h
    unfold TypeIndex.find? at h
    split at h
    next scalar hkeyword =>
      cases h
      obtain rfl := ScalarType.ofName?_eq_some.mp hkeyword
      exact .scalar scalar
    next hkeyword =>
      have hkeyword := ScalarType.ofName?_eq_none.mp hkeyword
      split at h
      next hmessage =>
        cases h
        exact .message hkeyword (mem_messages_ofSchema.mp (List.contains_iff_mem.mp hmessage))
      next hmessage =>
        split at h
        next henum =>
          cases h
          refine .enum hkeyword (fun hdeclared => hmessage ?_)
            (mem_enums_ofSchema.mp (List.contains_iff_mem.mp henum))
          exact List.contains_iff_mem.mpr (mem_messages_ofSchema.mpr hdeclared)
        next => cases h
  · intro h
    unfold TypeIndex.find?
    cases h with
    | scalar scalar => rw [ScalarType.ofName?_eq_some.mpr rfl]
    | message hkeyword hmessage =>
        rw [ScalarType.ofName?_eq_none.mpr hkeyword]
        simp [mem_messages_ofSchema.mpr hmessage]
    | enum hkeyword hmessage henum =>
        rw [ScalarType.ofName?_eq_none.mpr hkeyword]
        simp [mt mem_messages_ofSchema.mp hmessage, mem_enums_ofSchema.mpr henum]

theorem Schema.exists_standsFor_iff :
    (∃ type, schema.StandsFor name type) ↔ schema.HasType name := by
  simp only [← find?_ofSchema, ← Option.isSome_iff_exists]
  rw [TypeIndex.find?_isSome, mem_messages_ofSchema, mem_enums_ofSchema,
    Option.isSome_iff_exists]
  simp only [ScalarType.ofName?_eq_some, HasType]

/-! ## The check -/

theorem errorsOf_resolve_eq_nil {span : Span} :
    errorsOf ((TypeIndex.ofSchema schema).resolve name span) = [] ↔ schema.HasType name := by
  rw [errorsOf_eq_nil, ← Schema.exists_standsFor_iff]
  simp only [TypeIndex.resolve_eq_ok, Schema.find?_ofSchema]

theorem checkMapKey_eq_nil {key : Spanned String} :
    checkMapKey (.ofSchema schema) key = [] ↔
      ∃ type, schema.StandsFor key.node type ∧ type.FitsKeys := by
  simp only [← Schema.find?_ofSchema, ValueType.FitsKeys, ← ScalarType.isMapKey_iff]
  unfold checkMapKey TypeIndex.resolve
  cases (TypeIndex.ofSchema schema).find? key.node with
  | none => simp
  | some type => cases type <;> simp

/-- Nothing is wrong with a packed option beside what is wrong with the type. -/
theorem checkPacked_eq_nil {message : String} {field : Field}
    (htype : ∀ name, field.type.node = .named name → schema.HasType name) :
    checkPacked (.ofSchema schema) message field = [] ↔
      ∀ option, field.packed = some option → option.node = true →
        field.cardinality = .repeated ∧ ∃ name type,
          field.type.node = .named name ∧ schema.StandsFor name type ∧ type.FitsRuns := by
  unfold checkPacked
  rcases field.packed with _ | ⟨_ | _, span⟩
  · simp
  · simp
  · cases hnamed : field.type.node with
    | map key value => simp
    | named name =>
        obtain ⟨type, hstands⟩ := Schema.exists_standsFor_iff.mpr (htype name hnamed)
        by_cases hrepeated : field.cardinality = .repeated
        · simp [← Schema.find?_ofSchema, Schema.find?_ofSchema.mpr hstands,
            ← ValueType.packable_iff, hrepeated]
        · simp [hrepeated]

theorem checkField_eq_nil_iff {message : String} {field : Field} :
    checkField (.ofSchema schema) message field = [] ↔ field.Valid schema := by
  have htype : checkType (.ofSchema schema) field = [] ↔
      (∀ name, field.type.node = .named name → schema.HasType name) ∧
      (∀ key value, field.type.node = .map key value → schema.HasType value.node) ∧
      ∀ key value, field.type.node = .map key value →
        ∃ type, schema.StandsFor key.node type ∧ type.FitsKeys := by
    unfold checkType
    cases field.type.node with
    | named name => simp [errorsOf_resolve_eq_nil]
    | map key value => simp [errorsOf_resolve_eq_nil, checkMapKey_eq_nil, and_comm]
  rw [checkField, List.append_eq_nil_iff, htype]
  constructor
  · rintro ⟨⟨hnamed, hvalue, hkey⟩, hpacked⟩
    exact ⟨hnamed, hvalue, hkey, (checkPacked_eq_nil hnamed).mp hpacked⟩
  · rintro ⟨hnamed, hvalue, hkey, hpacked⟩
    exact ⟨⟨hnamed, hvalue, hkey⟩, (checkPacked_eq_nil hnamed).mpr hpacked⟩

theorem Schema.entryTypeNames_eq : schema.entryTypeNames =
    schema.mapFields.map fun field => flatName (entryName field.1 field.2.node) := by
  have hnames := congrArg (List.map flatName) schema.map_name_entries
  rwa [List.map_map, List.map_map] at hnames

/-- The names that are taken when the pass over entry names begins are the
declared ones; what it takes in addition are entry names that it has passed. -/
theorem Schema.checkEntryNames_declaredNames :
    checkEntryNames schema.declaredNames schema.mapFields = [] ↔
      schema.entryTypeNames.Nodup ∧ ∀ name ∈ schema.entryTypeNames,
        ¬schema.DeclaresMessage name ∧ ¬schema.DeclaresEnum name := by
  have htaken : (∀ field ∈ schema.mapFields, ∀ name ∈ schema.declaredNames,
      name.1 ≠ flatName (entryName field.1 field.2.node)) ↔ ∀ name ∈ schema.entryTypeNames,
        ¬schema.DeclaresMessage name ∧ ¬schema.DeclaresEnum name := by
    rw [entryTypeNames_eq, List.forall_mem_map]
    refine forall₂_congr fun field _ => ?_
    simp only [declaredNames, List.forall_mem_map, List.mem_append, or_imp, forall_and,
      DeclaresMessage, DeclaresEnum, not_exists, not_and, ne_eq]
  rw [← htaken, entryTypeNames_eq]
  constructor
  · exact nodup_of_checkEntryNames
  · exact fun ⟨hnodup, hfree⟩ => checkEntryNames_eq_nil hnodup hfree

/-- The check accepts exactly the valid schemas. -/
theorem Schema.check_eq_nil_iff (schema : Schema) : schema.check = [] ↔ schema.Valid := by
  unfold Schema.check
  rw [List.append_eq_nil_iff, checkEntryNames_declaredNames]
  simp only [List.flatMap_eq_nil_iff, checkField_eq_nil_iff]
  constructor
  · rintro ⟨hfields, hentries, hundeclared⟩
    exact ⟨hfields, hentries, hundeclared⟩
  · rintro ⟨hfields, hentries, hundeclared⟩
    exact ⟨hfields, hentries, hundeclared⟩

end Check

/-! ## Building -/

/-- Building a schema fails with what the check finds wrong, in the same order,
and for no other reason: where nothing is wrong, no message is refused later. -/
theorem Schema.build_fails_iff (schema : Schema) :
    (∀ errors, schema.build = .error errors ↔ schema.check = errors ∧ errors ≠ []) ∧
      ((∃ set, schema.build = .ok set) ↔ schema.check = []) ∧
      (schema.check ≠ [] ∨
        ∀ plain ∈ schema.plain, ∃ plan, plain.plan schema.plainIndex = .ok plan) := by
  cases hcheck : schema.check with
  | nil =>
      obtain ⟨set, hbuild⟩ := Schema.exists_build hcheck
      refine ⟨fun errors => ?_, ?_, .inr fun plain hplain => exists_plan_of_check hcheck hplain⟩
      · rw [hbuild]
        constructor
        · intro h
          cases h
        · rintro ⟨rfl, hne⟩
          exact absurd rfl hne
      · exact ⟨fun _ => rfl, fun _ => ⟨set, hbuild⟩⟩
  | cons error rest =>
      have hbuild : schema.build = .error (error :: rest) := by
        rw [Schema.build, hcheck]
      refine ⟨fun errors => ?_, ?_, .inl (List.cons_ne_nil error rest)⟩
      · rw [hbuild, Except.error.injEq]
        exact ⟨fun h => ⟨h, h ▸ List.cons_ne_nil error rest⟩, And.left⟩
      · simp [hbuild]

end WireCodec
