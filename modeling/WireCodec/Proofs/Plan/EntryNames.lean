import Mathlib.Data.List.Nodup
import WireCodec.Plan.Build
import WireCodec.Proofs.Schema.SourceText

/-! # Names of entry messages

In a schema that passes the check no two entry messages share a name, and none
has a name that source text can declare: a name among the plain messages of
such a schema says whether it is an entry message, and which one.
-/

namespace WireCodec

theorem ScalarType.dot_not_mem_name (type : ScalarType) : '.' ∉ type.name.toList := by
  cases type <;> decide

theorem IsWord.dot_not_mem {name : String} (h : IsWord name) : '.' ∉ name.toList := by
  intro hdot
  have hpart := h '.' hdot
  revert hpart
  decide

theorem dot_mem_entryName (message field : String) : '.' ∈ (entryName message field).toList := by
  simp [entryName]

/-- The entry messages of a schema. -/
def Schema.entries (schema : Schema) : List PlainMessage :=
  schema.messages.flatMap fun message =>
    message.node.fields.filterMap (·.node.entry? message.node.name.node)

theorem Schema.mem_plain {schema : Schema} {plain : PlainMessage} :
    plain ∈ schema.plain ↔ (∃ message ∈ schema.messages, plain =
      ⟨message.node.name.node, false,
        message.node.fields.map (·.node.plain message.node.name.node)⟩) ∨
      plain ∈ schema.entries := by
  unfold Schema.plain Schema.entries
  simp only [List.mem_flatMap, MessageDecl.plain, List.mem_cons]
  constructor
  · rintro ⟨message, hmessage, hplain | hplain⟩
    · exact Or.inl ⟨message, hmessage, hplain⟩
    · exact Or.inr ⟨message, hmessage, hplain⟩
  · rintro (⟨message, hmessage, hplain⟩ | ⟨message, hmessage, hplain⟩)
    · exact ⟨message, hmessage, Or.inl hplain⟩
    · exact ⟨message, hmessage, Or.inr hplain⟩

theorem Schema.mem_entries {schema : Schema} {plain : PlainMessage} :
    plain ∈ schema.entries ↔ ∃ message ∈ schema.messages, ∃ field ∈ message.node.fields,
      ∃ key value, field.node.type.node = .map key value ∧
        plain = .ofMap (entryName message.node.name.node field.node.name.node) key value := by
  unfold Schema.entries
  simp only [List.mem_flatMap, List.mem_filterMap]
  constructor
  · rintro ⟨message, hmessage, field, hfield, hentry⟩
    refine ⟨message, hmessage, field, hfield, ?_⟩
    unfold Field.entry? at hentry
    split at hentry
    next => cases hentry
    next key value htype =>
      cases hentry
      exact ⟨key, value, htype, rfl⟩
  · rintro ⟨message, hmessage, field, hfield, key, value, htype, rfl⟩
    exact ⟨message, hmessage, field, hfield, by simp [Field.entry?, htype]⟩

theorem Schema.map_name_entries (schema : Schema) :
    schema.entries.map (·.name) =
      schema.mapFields.map fun field => entryName field.1 field.2.node := by
  unfold Schema.entries Schema.mapFields
  rw [List.map_flatMap, List.map_flatMap]
  refine congrArg (fun f => List.flatMap f schema.messages) ?_
  funext message
  induction message.node.fields with
  | nil => rfl
  | cons field rest ih =>
      cases htype : field.node.type.node with
      | named type =>
          simpa [List.filterMap_cons, List.filter_cons, Field.entry?, Field.isMap, htype] using ih
      | map key value =>
          simpa [List.filterMap_cons, List.filter_cons, Field.entry?, Field.isMap, htype,
            PlainMessage.ofMap] using ih

/-- Names that the check lets pass are not taken, and differ even without dots. -/
theorem nodup_of_checkEntryNames {taken : TakenNames} {fields : List (String × Spanned String)}
    (h : checkEntryNames taken fields = []) :
    (fields.map fun field => flatName (entryName field.1 field.2.node)).Nodup ∧
      ∀ field ∈ fields, ∀ name ∈ taken, name.1 ≠ flatName (entryName field.1 field.2.node) := by
  induction fields generalizing taken with
  | nil => simp
  | cons first rest ih =>
      obtain ⟨message, field⟩ := first
      unfold checkEntryNames at h
      dsimp only at h
      split at h
      next => cases h
      next hfree =>
        obtain ⟨hnodup, hrest⟩ := ih h
        have hfirst : ∀ name ∈ taken, name.1 ≠ flatName (entryName message field.node) := by
          intro name hname
          simpa using List.find?_eq_none.mp hfree name hname
        have hlast : (flatName (entryName message field.node), field.span) ∈
            taken ++ [(flatName (entryName message field.node), field.span)] := by simp
        refine ⟨List.nodup_cons.mpr ⟨?_, hnodup⟩, List.forall_mem_cons.mpr ⟨hfirst, ?_⟩⟩
        · intro hmem
          obtain ⟨other, hother, heq⟩ := List.mem_map.mp hmem
          exact hrest other hother _ hlast heq.symm
        · intro other hother name hname
          exact hrest other hother name (List.mem_append_left _ hname)

/-- Names that are not taken, and differ without dots, pass the check. -/
theorem checkEntryNames_eq_nil {taken : TakenNames} {fields : List (String × Spanned String)}
    (hnodup : (fields.map fun field => flatName (entryName field.1 field.2.node)).Nodup)
    (htaken : ∀ field ∈ fields, ∀ name ∈ taken,
      name.1 ≠ flatName (entryName field.1 field.2.node)) :
    checkEntryNames taken fields = [] := by
  induction fields generalizing taken with
  | nil => rfl
  | cons first rest ih =>
      obtain ⟨owner, field⟩ := first
      obtain ⟨hfirst, hrest⟩ := List.forall_mem_cons.mp htaken
      obtain ⟨hnew, hothers⟩ := List.nodup_cons.mp hnodup
      have hfree : taken.find? (·.1 == flatName (entryName owner field.node)) = none :=
        List.find?_eq_none.mpr fun name hname => by simpa using hfirst name hname
      unfold checkEntryNames
      simp only [hfree]
      refine ih hothers fun other hother name hname => ?_
      rcases List.mem_append.mp hname with hname | hname
      · exact hrest other hother name hname
      · obtain rfl := List.mem_singleton.mp hname
        exact fun heq => hnew (List.mem_map.mpr ⟨other, hother, heq.symm⟩)

theorem Schema.nodup_entries {schema : Schema} (hcheck : schema.check = []) :
    (schema.entries.map (·.name)).Nodup := by
  have hnames := (nodup_of_checkEntryNames (List.append_eq_nil_iff.mp hcheck).2).1
  rw [schema.map_name_entries]
  refine List.Nodup.of_map flatName ?_
  rw [List.map_map]
  exact hnames

/-- The plain messages with the name of an entry message are that entry message. -/
theorem Schema.eq_of_mem_entries {schema : Schema} (hcheck : schema.check = [])
    (hsound : ∀ message ∈ schema.messages, message.node.Sound) {entry plain : PlainMessage}
    (hentry : entry ∈ schema.entries) (hplain : plain ∈ schema.plain)
    (hname : plain.name = entry.name) : plain = entry := by
  rcases Schema.mem_plain.mp hplain with ⟨message, hmessage, rfl⟩ | hmem
  · obtain ⟨_, _, _, _, _, _, _, rfl⟩ := Schema.mem_entries.mp hentry
    -- names of entries have a dot in them, declared names have none
    have hdot := (hsound message hmessage).name.dot_not_mem
    have hname : message.node.name.node = entryName _ _ := hname
    rw [hname] at hdot
    exact absurd (dot_mem_entryName _ _) hdot
  · exact List.inj_on_of_nodup_map (Schema.nodup_entries hcheck) hmem hentry hname

/-- The check accepts every field. -/
theorem Schema.checkField_eq_nil {schema : Schema} (hcheck : schema.check = [])
    {message : Spanned MessageDecl} (hmessage : message ∈ schema.messages)
    {field : Spanned Field} (hfield : field ∈ message.node.fields) :
    checkField (.ofSchema schema) message.node.name.node field.node = [] := by
  have hall := (List.append_eq_nil_iff.mp hcheck).1
  exact List.flatMap_eq_nil_iff.mp (List.flatMap_eq_nil_iff.mp hall message hmessage) field hfield

/-- The key type of a map field that the check accepts is a scalar that keys may have. -/
theorem mapKey_of_checkField {index : TypeIndex} {message : String} {field : Field}
    (h : checkField index message field = []) {key value : Spanned String}
    (htype : field.type.node = .map key value) :
    ∃ type, ScalarType.ofName? key.node = some type ∧ type.isMapKey = true := by
  have hkey : checkMapKey index key = [] := by
    have hboth := (List.append_eq_nil_iff.mp h).1
    rw [checkType, htype] at hboth
    exact (List.append_eq_nil_iff.mp hboth).1
  unfold checkMapKey at hkey
  split at hkey
  next type hresolve =>
    split at hkey
    next hmapKey =>
      refine ⟨type, ?_, hmapKey⟩
      unfold TypeIndex.resolve TypeIndex.find? at hresolve
      cases hname : ScalarType.ofName? key.node with
      | none =>
          rw [hname] at hresolve
          dsimp only at hresolve
          split at hresolve
          next found hfound =>
            cases hresolve
            split at hfound
            · cases hfound
            split at hfound <;> cases hfound
          next => cases hresolve
      | some found =>
          rw [hname] at hresolve
          cases hresolve
          rfl
    next => cases hkey
  · cases hkey
  · cases hkey

end WireCodec
