import WireCodec.Proofs.Plan.Closed
import WireCodec.Proofs.Schema.Names

/-! # Schemas with a map spelled out

A map field may be declared as what it stands for: a repeated field of a
message that requires a key and a value. With a fresh name for that message the
check accepts such a schema whenever it accepts the one with the map.
-/

namespace WireCodec

/-- A map field as a repeated field of a message. -/
def Field.spellOut (message : String) (field : Field) : Field :=
  { field with
    type := ⟨.named message, field.type.span⟩
    cardinality := .repeated
    packed := none }

/-- A field of a message, spelled out if it is the map field of a name and the
message is its owner. -/
def MessageDecl.spelledField (owner field message : String) (decl : MessageDecl)
    (declared : Spanned Field) : Spanned Field :=
  if decl.name.node = owner ∧ declared.node.isMap ∧ declared.node.name.node = field then
    ⟨declared.node.spellOut message, declared.span⟩
  else declared

/-- A message with the map field of an owner spelled out. -/
def MessageDecl.spellOut (owner field message : String) (decl : MessageDecl) : MessageDecl :=
  { decl with fields := decl.fields.map (decl.spelledField owner field message) }

/-- A required field of a message that stands for the entries of a map. -/
def Field.ofEntry (name : String) (number : UInt32) (type : Spanned String) : Field :=
  ⟨.detached name, ⟨.named type.node, type.span⟩, .detached number, .required, none⟩

/-- A schema with the map field of an owner spelled out as a repeated field of
a message, which is declared behind all others. -/
def Schema.spellOut (schema : Schema) (owner field message : String) (key value : Spanned String) :
    Schema :=
  let messages := schema.messages.map fun decl =>
    ⟨decl.node.spellOut owner field message, decl.span⟩
  { schema with messages }.withMessage message
    [.ofEntry keyField 1 key, .ofEntry valueField 2 value]

/-- A name that stands for nothing in a schema, and not for the entries of
another map field either. -/
structure Schema.Fresh (schema : Schema) (owner field message : String) : Prop where
  word : IsWord message
  scalar : ScalarType.ofName? message = none
  declared : ∀ name ∈ schema.declaredNames, name.1 ≠ message
  entries : ∀ other ∈ schema.mapFields, flatName (entryName other.1 other.2.node) = message →
    entryName other.1 other.2.node = entryName owner field

instance (schema : Schema) (owner field message : String) :
    Decidable (schema.Fresh owner field message) :=
  decidable_of_iff (message.toList.all isWordPart = true ∧
      ScalarType.ofName? message = none ∧ (∀ name ∈ schema.declaredNames, name.1 ≠ message) ∧
      ∀ other ∈ schema.mapFields, flatName (entryName other.1 other.2.node) = message →
        entryName other.1 other.2.node = entryName owner field)
    ⟨fun ⟨word, scalar, declared, entries⟩ =>
        ⟨List.all_eq_true.mp word, scalar, declared, entries⟩,
      fun h => ⟨List.all_eq_true.mpr h.word, h.scalar, h.declared, h.entries⟩⟩

/-- A field of plain messages with the entries of a name spelled out. -/
def PlainField.spellOut (entry message : String) (field : PlainField) : PlainField :=
  if field.isMapEntry ∧ field.type.node = entry then
    { field with type := ⟨message, field.type.span⟩, packed := none, isMapEntry := false }
  else field

/-- A plain message with the entries of a name spelled out in its fields. -/
def PlainMessage.spellOut (entry message : String) (plain : PlainMessage) : PlainMessage :=
  { plain with fields := plain.fields.map (PlainField.spellOut entry message) }

/-- The plain message that spells out the entries of a map. -/
def PlainMessage.ofPair (name : String) (key value : Spanned String) : PlainMessage :=
  { ofMap name key value with synthetic := false }

@[simp]
theorem PlainMessage.name_ofPair {name : String} {key value : Spanned String} :
    (ofPair name key value).name = name := rfl

/-- A message of a name has a map field of a name. -/
def Schema.HasMap (schema : Schema) (owner field : String) (key value : Spanned String) : Prop :=
  ∃ decl ∈ schema.messages, ∃ declared ∈ decl.node.fields, decl.node.name.node = owner ∧
    declared.node.name.node = field ∧ declared.node.type.node = .map key value

instance (schema : Schema) (owner field : String) (key value : Spanned String) :
    Decidable (schema.HasMap owner field key value) :=
  inferInstanceAs (Decidable (∃ decl ∈ schema.messages, ∃ declared ∈ decl.node.fields, _ ∧ _))

namespace Schema

variable {schema : Schema} {owner field message : String} {key value : Spanned String}

theorem mem_mapFields {decl : Spanned MessageDecl} (hdecl : decl ∈ schema.messages)
    {declared : Spanned Field} (hdeclared : declared ∈ decl.node.fields)
    (hmap : declared.node.isMap = true) :
    (decl.node.name.node, declared.node.name) ∈ schema.mapFields := by
  refine List.mem_flatMap.mpr ⟨decl, hdecl, List.mem_map.mpr ⟨declared, ?_, rfl⟩⟩
  exact List.mem_filter.mpr ⟨hdeclared, hmap⟩

/-- The name of an entry message belongs to one map field. -/
theorem HasMap.eq_of_entryName (hmap : schema.HasMap owner field key value)
    (hcheck : schema.check = []) {decl : Spanned MessageDecl} (hdecl : decl ∈ schema.messages)
    {declared : Spanned Field} (hdeclared : declared ∈ decl.node.fields)
    (hisMap : declared.node.isMap = true)
    (hname : entryName decl.node.name.node declared.node.name.node = entryName owner field) :
    decl.node.name.node = owner ∧ declared.node.name.node = field := by
  obtain ⟨other, hother, found, hfound, rfl, rfl, htype⟩ := hmap
  have hnodup : (schema.mapFields.map fun field => entryName field.1 field.2.node).Nodup := by
    rw [← schema.map_name_entries]
    exact Schema.nodup_entries hcheck
  have hfoundMap : found.node.isMap = true := by rw [Field.isMap, htype]
  have heq := List.inj_on_of_nodup_map hnodup (mem_mapFields hdecl hdeclared hisMap)
    (mem_mapFields hother hfound hfoundMap) hname
  exact ⟨congrArg (·.1) heq, congrArg (·.2.node) heq⟩

/-! ## Plain messages -/

section Plain

variable (hmap : schema.HasMap owner field key value) (hcheck : schema.check = [])
  (hwords : schema.HasWords)

include hmap hcheck in
/-- A declared field stands for the same plain field and the same entries, but
for the one that is spelled out. -/
theorem plain_spelledField {decl : Spanned MessageDecl} (hdecl : decl ∈ schema.messages)
    {declared : Spanned Field} (hdeclared : declared ∈ decl.node.fields) :
    (decl.node.spelledField owner field message declared).node.plain decl.node.name.node =
        (declared.node.plain decl.node.name.node).spellOut (entryName owner field) message ∧
      (decl.node.spelledField owner field message declared).node.entry? decl.node.name.node =
        (declared.node.entry? decl.node.name.node).filter
          (·.name ≠ entryName owner field) := by
  cases htype : declared.node.type.node with
  | named type =>
      have hsame : decl.node.spelledField owner field message declared = declared := by
        simp [MessageDecl.spelledField, Field.isMap, htype]
      rw [hsame]
      simp [Field.plain, Field.entry?, htype, PlainField.spellOut]
  | map key value =>
      by_cases hname : entryName decl.node.name.node declared.node.name.node =
          entryName owner field
      · have hisMap : declared.node.isMap = true := by rw [Field.isMap, htype]
        obtain ⟨howner, hfield⟩ := hmap.eq_of_entryName hcheck hdecl hdeclared hisMap hname
        have hspelled : decl.node.spelledField owner field message declared =
            ⟨declared.node.spellOut message, declared.span⟩ := by
          simp [MessageDecl.spelledField, howner, hisMap, hfield]
        rw [hspelled]
        simp [Field.plain, Field.entry?, Field.spellOut, htype, PlainField.spellOut, hname,
          PlainMessage.ofMap, Option.filter_some]
      · have hsame : decl.node.spelledField owner field message declared = declared := by
          refine if_neg ?_
          rintro ⟨rfl, -, rfl⟩
          exact hname rfl
        rw [hsame]
        simp [Field.plain, Field.entry?, htype, PlainField.spellOut, hname, PlainMessage.ofMap,
          Option.filter_some]

theorem spellOut_of_mem_entries (entry message : String) {plain : PlainMessage}
    (hplain : plain ∈ schema.entries) : plain.spellOut entry message = plain := by
  obtain ⟨_, _, _, _, key, value, _, rfl⟩ := Schema.mem_entries.mp hplain
  simp [PlainMessage.spellOut, PlainMessage.ofMap, PlainField.ofEntry, PlainField.spellOut]

include hmap hcheck in
/-- A message has the same entries, but for those that are spelled out. -/
theorem filterMap_entry?_spellOut {decl : Spanned MessageDecl} (hdecl : decl ∈ schema.messages) :
    (decl.node.spellOut owner field message).fields.filterMap
        (·.node.entry? decl.node.name.node) =
      (decl.node.fields.filterMap (·.node.entry? decl.node.name.node)).filter
        (·.name ≠ entryName owner field) := by
  unfold MessageDecl.spellOut
  rw [List.filterMap_map, List.filter_filterMap]
  refine List.filterMap_congr fun declared hdeclared => ?_
  exact (plain_spelledField hmap hcheck hdecl hdeclared).2

include hmap hcheck in
/-- The entries of a schema are the same, but for those that are spelled out. -/
theorem entries_spellOut : (schema.spellOut owner field message key value).entries =
    schema.entries.filter (·.name ≠ entryName owner field) := by
  unfold entries spellOut withMessage
  rw [List.flatMap_append, List.flatMap_map, List.filter_flatMap]
  refine (List.append_nil _).trans ?_
  exact List.flatMap_congr fun decl hdecl => filterMap_entry?_spellOut hmap hcheck hdecl

include hmap hcheck hwords

/-- A declared message stands for the same plain messages, but for the entries
that are spelled out. -/
theorem plain_spelledMessage {decl : Spanned MessageDecl} (hdecl : decl ∈ schema.messages) :
    (decl.node.spellOut owner field message).plain =
      (decl.node.plain.filter (·.name ≠ entryName owner field)).map
        (PlainMessage.spellOut (entryName owner field) message) := by
  have hname : decl.node.name.node ≠ entryName owner field := by
    intro hname
    have hdot := (hwords.messages decl hdecl).dot_not_mem
    rw [hname] at hdot
    exact hdot (dot_mem_entryName owner field)
  unfold MessageDecl.plain
  rw [List.filter_cons_of_pos (by simpa using hname), List.map_cons]
  refine congrArg₂ List.cons ?_ ?_
  · unfold PlainMessage.spellOut MessageDecl.spellOut
    simp only [List.map_map]
    refine congrArg _ (List.map_congr_left fun declared hdeclared => ?_)
    exact (plain_spelledField hmap hcheck hdecl hdeclared).1
  · have hsame : ∀ plain ∈ (decl.node.fields.filterMap
        (·.node.entry? decl.node.name.node)).filter (·.name ≠ entryName owner field),
        plain.spellOut (entryName owner field) message = plain := by
      intro plain hplain
      have hentry : plain ∈ schema.entries :=
        List.mem_flatMap.mpr ⟨decl, hdecl, List.mem_of_mem_filter hplain⟩
      exact spellOut_of_mem_entries _ _ hentry
    rw [List.map_congr_left hsame, List.map_id']
    exact filterMap_entry?_spellOut hmap hcheck hdecl

/-- The plain messages are the same but for the entries, which are declared at the end. -/
theorem plain_spellOut : (schema.spellOut owner field message key value).plain =
    (schema.plain.filter (·.name ≠ entryName owner field)).map
        (PlainMessage.spellOut (entryName owner field) message) ++
      [.ofPair message key value] := by
  have hlast : (schema.spellOut owner field message key value).plain =
      schema.messages.flatMap (fun decl => (decl.node.spellOut owner field message).plain) ++
        [.ofPair message key value] := by
    unfold spellOut withMessage plain
    rw [List.flatMap_append, List.flatMap_map]
    rfl
  rw [hlast]
  refine congrArg (· ++ _) ?_
  unfold plain
  rw [List.filter_flatMap, List.map_flatMap]
  exact List.flatMap_congr fun decl hdecl => plain_spelledMessage hmap hcheck hwords hdecl

end Plain

end Schema

/-! ## The check -/

/-- Where the names of a field stand for the same, the check accepts it as before. -/
theorem checkField_eq_nil_of_find? {index index' : TypeIndex} {owner : String} {field : Field}
    (hindex : ∀ name type, index.find? name = some type → index'.find? name = some type)
    (h : checkField index owner field = []) : checkField index' owner field = [] := by
  have hresolve : ∀ name span, errorsOf (index.resolve name span) = [] →
      index'.resolve name span = index.resolve name span := by
    intro name span hname
    obtain ⟨type, htype⟩ := errorsOf_eq_nil.mp hname
    rw [htype, TypeIndex.resolve_eq_ok]
    exact hindex name type (TypeIndex.resolve_eq_ok.mp htype)
  obtain ⟨hchecked, hpacked⟩ := List.append_eq_nil_iff.mp h
  refine List.append_eq_nil_iff.mpr ?_
  unfold checkType at hchecked ⊢
  unfold checkPacked at hpacked ⊢
  cases htype : field.type.node with
  | named name =>
      rw [htype] at hchecked hpacked
      have hname : index'.find? name = index.find? name := by
        obtain ⟨type, htype⟩ := errorsOf_eq_nil.mp hchecked
        have hfound := TypeIndex.resolve_eq_ok.mp htype
        rw [hfound, hindex name type hfound]
      refine ⟨?_, ?_⟩
      · dsimp only at hchecked ⊢
        rw [hresolve name _ hchecked]
        exact hchecked
      · simp only [hname]
        exact hpacked
  | map key value =>
      rw [htype] at hchecked hpacked
      obtain ⟨hkey, hvalue⟩ := List.append_eq_nil_iff.mp hchecked
      refine ⟨List.append_eq_nil_iff.mpr ⟨?_, ?_⟩, hpacked⟩
      · have hkeyFound : errorsOf (index.resolve key.node key.span) = [] := by
          unfold checkMapKey at hkey
          split at hkey
          next hok => exact errorsOf_eq_nil.mpr ⟨_, hok⟩
          all_goals cases hkey
        unfold checkMapKey
        rw [hresolve _ _ hkeyFound]
        exact hkey
      · rw [hresolve _ _ hvalue]
        exact hvalue

theorem checkField_spellOut {index : TypeIndex} {owner message : String} {type : ValueType}
    {field : Field} (h : index.find? message = some type) :
    checkField index owner (field.spellOut message) = [] := by
  refine List.append_eq_nil_iff.mpr ⟨?_, rfl⟩
  exact errorsOf_eq_nil.mpr ⟨type, TypeIndex.resolve_eq_ok.mpr h⟩

theorem checkField_ofEntry {index : TypeIndex} {owner name : String} {number : UInt32}
    {type : Spanned String} {found : ValueType} (h : index.find? type.node = some found) :
    checkField index owner (.ofEntry name number type) = [] := by
  refine List.append_eq_nil_iff.mpr ⟨?_, rfl⟩
  exact errorsOf_eq_nil.mpr ⟨found, TypeIndex.resolve_eq_ok.mpr h⟩

namespace Schema

variable {schema : Schema} {owner field message : String} {key value : Spanned String}

section Check

variable (hmap : schema.HasMap owner field key value) (hcheck : schema.check = [])
  (hfresh : schema.Fresh owner field message)

include hmap in
theorem HasMap.mem_entries :
    PlainMessage.ofMap (entryName owner field) key value ∈ schema.entries := by
  obtain ⟨decl, hdecl, declared, hdeclared, rfl, rfl, htype⟩ := hmap
  exact Schema.mem_entries.mpr ⟨decl, hdecl, declared, hdeclared, key, value, htype, rfl⟩

include hmap hcheck in
/-- The types of the keys and the values of a map stand for something. -/
theorem HasMap.find?_isSome : ((TypeIndex.ofSchema schema).find? key.node).isSome ∧
    ((TypeIndex.ofSchema schema).find? value.node).isSome := by
  have hplain := Schema.mem_plain.mpr (.inr hmap.mem_entries)
  exact ⟨find?_ofSchema_isSome_of_mem_plain hcheck hplain List.mem_cons_self rfl,
    find?_ofSchema_isSome_of_mem_plain hcheck hplain (List.mem_cons_of_mem _ List.mem_cons_self)
      rfl⟩

theorem mem_messages_spellOut {decl : Spanned MessageDecl}
    (h : decl ∈ (schema.spellOut owner field message key value).messages) :
    (∃ other ∈ schema.messages, decl = ⟨other.node.spellOut owner field message, other.span⟩) ∨
      decl = .detached ⟨.detached message,
        [.detached (.ofEntry keyField 1 key), .detached (.ofEntry valueField 2 value)]⟩ := by
  rcases List.mem_append.mp h with hmem | hlast
  · obtain ⟨other, hother, rfl⟩ := List.mem_map.mp hmem
    exact .inl ⟨other, hother, rfl⟩
  · exact .inr (List.mem_singleton.mp hlast)

theorem ofSchema_spellOut : TypeIndex.ofSchema (schema.spellOut owner field message key value) =
    ⟨schema.messages.map (·.node.name.node) ++ [message], schema.enums.map (·.node.name.node)⟩ := by
  unfold TypeIndex.ofSchema spellOut withMessage
  simp [MessageDecl.spellOut, Spanned.detached]

include hfresh

/-- A fresh name stands for nothing. -/
theorem Fresh.find?_eq_none : (TypeIndex.ofSchema schema).find? message = none := by
  have hmessage : message ∉ schema.messages.map (·.node.name.node) := by
    intro hmem
    obtain ⟨decl, hdecl, rfl⟩ := List.mem_map.mp hmem
    refine hfresh.declared _ (List.mem_map_of_mem (List.mem_append_left _ ?_)) rfl
    exact List.mem_map_of_mem hdecl
  have henum : message ∉ schema.enums.map (·.node.name.node) := by
    intro hmem
    obtain ⟨decl, hdecl, rfl⟩ := List.mem_map.mp hmem
    refine hfresh.declared _ (List.mem_map_of_mem (List.mem_append_right _ ?_)) rfl
    exact List.mem_map_of_mem hdecl
  simp [TypeIndex.find?, TypeIndex.ofSchema, hfresh.scalar, hmessage, henum]

/-- What stands for something stands for the same when a map is spelled out. -/
theorem find?_ofSchema_spellOut {name : String} {type : ValueType}
    (h : (TypeIndex.ofSchema schema).find? name = some type) :
    (TypeIndex.ofSchema (schema.spellOut owner field message key value)).find? name =
      some type := by
  have hname : name ≠ message := by
    rintro rfl
    cases h.symm.trans hfresh.find?_eq_none
  rw [← h, ofSchema_spellOut]
  exact TypeIndex.find?_congr (by simp [TypeIndex.ofSchema, hname]) rfl

theorem find?_message_ofSchema_spellOut :
    (TypeIndex.ofSchema (schema.spellOut owner field message key value)).find? message =
      some (.message message) := by
  rw [ofSchema_spellOut]
  simp [TypeIndex.find?, hfresh.scalar]

include hmap hcheck

/-- The entry names are still not taken. -/
theorem checkEntryNames_spellOut :
    checkEntryNames (schema.spellOut owner field message key value).declaredNames
      (schema.spellOut owner field message key value).mapFields = [] := by
  obtain ⟨hnodup, hfree⟩ := nodup_of_checkEntryNames (List.append_eq_nil_iff.mp hcheck).2
  have hnames : (schema.spellOut owner field message key value).mapFields.map
        (fun field => entryName field.1 field.2.node) =
      (schema.mapFields.map fun field => entryName field.1 field.2.node).filter
        (· ≠ entryName owner field) := by
    rw [← map_name_entries, ← map_name_entries, entries_spellOut hmap hcheck, List.filter_map]
    rfl
  have hother : ∀ found ∈ (schema.spellOut owner field message key value).mapFields,
      ∃ other ∈ schema.mapFields, entryName other.1 other.2.node = entryName found.1 found.2.node ∧
        entryName other.1 other.2.node ≠ entryName owner field := by
    intro found hfound
    have hmem := List.mem_map_of_mem (f := fun field => entryName field.1 field.2.node) hfound
    rw [hnames] at hmem
    obtain ⟨hmem, hne⟩ := List.mem_filter.mp hmem
    obtain ⟨other, hother, heq⟩ := List.mem_map.mp hmem
    exact ⟨other, hother, heq, heq ▸ of_decide_eq_true hne⟩
  refine checkEntryNames_eq_nil ?_ ?_
  · have hflat := congrArg (List.map flatName) hnames
    rw [List.map_map] at hflat
    refine hflat ▸ List.Sublist.nodup ((List.filter_sublist).map flatName) ?_
    rw [List.map_map]
    exact hnodup
  · intro found hfound name hname
    obtain ⟨other, hmem, heq, hne⟩ := hother found hfound
    rw [← heq]
    have hdeclared : name.1 = message ∨ ∃ declared ∈ schema.declaredNames, declared.1 = name.1 := by
      obtain ⟨spanned, hspanned, rfl⟩ := List.mem_map.mp hname
      rcases List.mem_append.mp hspanned with hmessage | henum
      · obtain ⟨decl, hdecl, rfl⟩ := List.mem_map.mp hmessage
        rcases mem_messages_spellOut hdecl with ⟨other, hother, rfl⟩ | rfl
        · refine .inr ⟨(other.node.name.node, other.node.name.span), ?_, rfl⟩
          exact List.mem_map_of_mem (List.mem_append_left _ (List.mem_map_of_mem hother))
        · exact .inl rfl
      · exact .inr ⟨_, List.mem_map_of_mem (List.mem_append_right _ henum), rfl⟩
    rcases hdeclared with hname | ⟨declared, hdeclared, hname⟩
    · exact fun hflat => hne (hfresh.entries other hmem (hflat.symm.trans hname))
    · exact hname ▸ hfree other hmem declared hdeclared

/-- The check accepts a schema with a map spelled out. -/
theorem check_spellOut : (schema.spellOut owner field message key value).check = [] := by
  refine List.append_eq_nil_iff.mpr ⟨?_, checkEntryNames_spellOut hmap hcheck hfresh⟩
  refine List.flatMap_eq_nil_iff.mpr fun decl hdecl =>
    List.flatMap_eq_nil_iff.mpr fun declared hdeclared => ?_
  rcases mem_messages_spellOut hdecl with ⟨other, hother, rfl⟩ | rfl
  · obtain ⟨found, hfound, rfl⟩ := List.mem_map.mp hdeclared
    unfold MessageDecl.spelledField
    split
    · exact checkField_spellOut (find?_message_ofSchema_spellOut hfresh)
    · exact checkField_eq_nil_of_find? (fun _ _ => find?_ofSchema_spellOut hfresh)
        (checkField_eq_nil hcheck hother hfound)
  · obtain ⟨hkey, hvalue⟩ := hmap.find?_isSome hcheck
    obtain ⟨keyType, hkey⟩ := Option.isSome_iff_exists.mp hkey
    obtain ⟨valueType, hvalue⟩ := Option.isSome_iff_exists.mp hvalue
    rcases List.mem_cons.mp hdeclared with rfl | hlast
    · exact checkField_ofEntry (find?_ofSchema_spellOut hfresh hkey)
    · obtain rfl := List.mem_singleton.mp hlast
      exact checkField_ofEntry (find?_ofSchema_spellOut hfresh hvalue)

end Check

end Schema

end WireCodec
