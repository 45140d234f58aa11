import WireCodec.Proofs.Codec.SpelledValues

/-! # Changes and merging

Merging a message after changes is the same as changing the merged message.
What is appended to a list of entries is put into the map that the list is
merged into; other changes stay what they are, and the values in them are
merged.
-/

namespace WireCodec

variable {set : PlanSet} {entry : String} {plan : MessagePlan} {field : FieldPlan}

/-! ## Rewritten records -/

section Rewriting

variable {change : Value → Value} (hfield : plan.field? field.name = some field)
include hfield

theorem rewriteFields_cons (value : Value) (rest : Record) :
    rewriteFields set entry change plan ((field.name, value) :: rest) =
      (field.name, rewriteField set entry change field value) ::
        rewriteFields set entry change plan rest := by
  rw [rewriteFields, hfield, rewriteField]

theorem rewriteFields_assign (record : Record) (value : Value) :
    rewriteFields set entry change plan (Record.assign record field.name value) =
      Record.assign (rewriteFields set entry change plan record) field.name
        (rewriteField set entry change field value) := by
  unfold Record.assign
  induction record with
  | nil => rw [Sorted.insert, rewriteFields_cons hfield, rewriteFields, Sorted.insert]
  | cons pair rest ih =>
      obtain ⟨other, old⟩ := pair
      unfold Sorted.insert
      rw [rewriteFields]
      dsimp only
      cases compare field.name other with
      | lt => rw [rewriteFields_cons hfield, rewriteFields]
      | eq => rw [rewriteFields_cons hfield]
      | gt => rw [rewriteFields, ih]

omit hfield in
theorem rewriteFields_remove (record : Record) (name : String) :
    rewriteFields set entry change plan (Record.remove record name) =
      Record.remove (rewriteFields set entry change plan record) name := by
  unfold Record.remove Sorted.erase
  induction record with
  | nil => rfl
  | cons pair rest ih =>
      obtain ⟨other, old⟩ := pair
      rw [rewriteFields]
      by_cases hname : other = name
      · rw [List.filter_cons_of_neg (by simpa using hname),
          List.filter_cons_of_neg (by simpa using hname), ih]
      · rw [List.filter_cons_of_pos (by simpa using hname),
          List.filter_cons_of_pos (by simpa using hname), rewriteFields, ih]

end Rewriting

/-! ## Changes -/

variable (set entry plan) in
/-- What a change becomes when the message is merged. -/
inductive Change.Merges : Change → Change → Prop
  | assign {field : FieldPlan} (hfield : plan.field? field.name = some field)
      (htype : field.type ≠ .message entry) (value : Option Value) :
      Merges ⟨field.name, .assign (value.map (rewriteValue set entry Value.mergeEntries field.type))⟩
        ⟨field.name, .assign value⟩
  | append {field : FieldPlan} (hfield : plan.field? field.name = some field)
      (htype : field.type ≠ .message entry) (item : Option Value) :
      Merges ⟨field.name, .append (item.map (rewriteValue set entry Value.mergeEntries field.type))⟩
        ⟨field.name, .append item⟩
  | put {field : FieldPlan} (hfield : plan.field? field.name = some field)
      (htype : field.type ≠ .message entry) {types : ValueType × ValueType}
      (htypes : Reference.entryTypes? set field.type = some types) (key : MapKey) (value : Value) :
      Merges ⟨field.name, .put key (rewriteValue set entry Value.mergeEntries types.2 value)⟩
        ⟨field.name, .put key value⟩
  | entry {field : FieldPlan} (hfield : plan.field? field.name = some field)
      (htype : field.type = .message entry) {item : Value} {key : MapKey} {value : Value}
      (hitem : ∀ entries, insertEntry entries
        (rewriteValue set entry Value.mergeEntries field.type item) =
          Sorted.insert key value entries) :
      Merges ⟨field.name, .put key value⟩ ⟨field.name, .append (some item)⟩

section Values

variable (set entry) in
/-- What a field holds, merged. -/
abbrev mergeField (field : FieldPlan) : Value → Value := rewriteField set entry Value.mergeEntries field

theorem mergeField_of_ne (htype : field.type ≠ .message entry) :
    mergeField set entry field = rewriteValue set entry Value.mergeEntries field.type :=
  funext fun _ => if_neg htype

theorem map_apply_append (htype : field.type ≠ .message entry) (item : Value)
    (old : Option Value) :
    (FieldChange.apply (.append (some item)) old).map (mergeField set entry field) =
      FieldChange.apply
        (.append (some (rewriteValue set entry Value.mergeEntries field.type item)))
        (old.map (mergeField set entry field)) := by
  rw [mergeField_of_ne htype]
  by_cases hlist : ∃ items, old = some (.list items)
  · obtain ⟨items, rfl⟩ := hlist
    simp [FieldChange.apply, rewriteValue, rewriteItems_eq]
  · rw [FieldChange.apply_append_of_ne fun items heq => hlist ⟨items, heq⟩,
      FieldChange.apply_append_of_ne ?_]
    · simp [rewriteValue, rewriteItems_eq]
    · intro new heq
      obtain ⟨value, rfl, hvalue⟩ := Option.map_eq_some_iff.mp heq
      obtain ⟨items, rfl⟩ := eq_list_of_rewriteValue hvalue
      exact hlist ⟨items, rfl⟩

theorem map_apply_put (htype : field.type ≠ .message entry) {types : ValueType × ValueType}
    (htypes : Reference.entryTypes? set field.type = some types) (key : MapKey) (value : Value)
    (old : Option Value) :
    (FieldChange.apply (.put key value) old).map (mergeField set entry field) =
      FieldChange.apply (.put key (rewriteValue set entry Value.mergeEntries types.2 value))
        (old.map (mergeField set entry field)) := by
  rw [mergeField_of_ne htype]
  by_cases hmap : ∃ entries, old = some (.map entries)
  · obtain ⟨entries, rfl⟩ := hmap
    have hinsert := Sorted.insert_map (f := id) (fun _ _ => rfl)
      (rewriteValue set entry Value.mergeEntries types.2) key value entries
    simp only [id_eq] at hinsert
    simp [FieldChange.apply, rewriteValue, htypes, rewriteEntries_eq, hinsert]
  · rw [FieldChange.apply_put_of_ne fun entries heq => hmap ⟨entries, heq⟩,
      FieldChange.apply_put_of_ne ?_]
    · simp [rewriteValue, htypes, rewriteEntries_eq]
    · intro new heq
      obtain ⟨value, rfl, hvalue⟩ := Option.map_eq_some_iff.mp heq
      obtain ⟨entries, rfl⟩ := eq_map_of_rewriteValue hvalue
      exact hmap ⟨entries, rfl⟩

/-- An entry that is appended to a list is put into the map that the list is merged into. -/
theorem map_apply_entry (htype : field.type = .message entry) {item : Value} {key : MapKey}
    {value : Value} (hitem : ∀ entries, insertEntry entries
      (rewriteValue set entry Value.mergeEntries field.type item) =
        Sorted.insert key value entries) (old : Option Value) :
    (FieldChange.apply (.append (some item)) old).map (mergeField set entry field) =
      FieldChange.apply (.put key value) (old.map (mergeField set entry field)) := by
  have hmerge : mergeField set entry field = fun value =>
      (rewriteValue set entry Value.mergeEntries field.type value).mergeEntries := by
    funext value
    exact if_pos htype
  rw [hmerge]
  by_cases hlist : ∃ items, old = some (.list items)
  · obtain ⟨items, rfl⟩ := hlist
    simp [FieldChange.apply, rewriteValue, rewriteItems_eq, Value.mergeEntries, hitem]
  · rw [FieldChange.apply_append_of_ne fun items heq => hlist ⟨items, heq⟩]
    cases old with
    | none =>
        simp [FieldChange.apply, rewriteValue, rewriteItems_eq, Value.mergeEntries, hitem,
          Sorted.insert]
    | some old =>
        have hitems : (rewriteValue set entry Value.mergeEntries field.type old).items = [] := by
          unfold Value.items
          split
          next items heq =>
            obtain ⟨items, rfl⟩ := eq_list_of_rewriteValue heq
            exact absurd ⟨items, rfl⟩ hlist
          next => rfl
        simp [FieldChange.apply, rewriteValue, rewriteItems_eq, Value.mergeEntries, hitems,
          hitem, Sorted.insert]

end Values

/-- Merging goes along with a change to a value of a field. -/
theorem Change.Merges.apply {change change' : Change}
    (h : Change.Merges set entry plan change change') (record : Record) :
    change.apply (set.merge entry plan record) = set.merge entry plan (change'.apply record) := by
  -- where both changes assign a value, it is enough that these go along with each other
  have hassign : ∀ {field : FieldPlan}, plan.field? field.name = some field →
      ∀ {what what' : FieldChange} {value value' : Value},
        what.apply (Record.value? (set.merge entry plan record) field.name) = some value →
        what'.apply (Record.value? record field.name) = some value' →
        (∀ old, (what'.apply old).map (mergeField set entry field) =
          what.apply (old.map (mergeField set entry field))) →
        Record.assign (set.merge entry plan record) field.name value =
          set.merge entry plan (Record.assign record field.name value') := by
    intro field hfield what what' value value' hvalue hvalue' hmap
    rw [PlanSet.merge, value?_rewriteFields hfield, ← hmap, hvalue', Option.map_some,
      Option.some.injEq] at hvalue
    rw [PlanSet.merge, PlanSet.merge, rewriteFields_assign hfield, ← hvalue]
  cases h with
  | @assign field hfield htype value =>
      cases value with
      | none => exact (rewriteFields_remove record field.name).symm
      | some value =>
          have hvalue : rewriteValue set entry Value.mergeEntries field.type value =
              rewriteField set entry Value.mergeEntries field value := (if_neg htype).symm
          rw [Option.map_some, hvalue]
          exact (rewriteFields_assign hfield record value).symm
  | @append field hfield htype item =>
      cases item with
      | none => rfl
      | some item =>
          obtain ⟨value, hleft, hvalue⟩ :=
            exists_appendItem_eq (set.merge entry plan record) field.name
              (rewriteValue set entry Value.mergeEntries field.type item)
          obtain ⟨value', hright, hvalue'⟩ := exists_appendItem_eq record field.name item
          change Record.appendItem _ _ _ = set.merge entry plan (Record.appendItem _ _ _)
          rw [hleft, hright]
          exact hassign hfield hvalue hvalue' (map_apply_append htype item)
  | @put field hfield htype types htypes key value =>
      obtain ⟨new, hleft, hnew⟩ := exists_putEntry_eq (set.merge entry plan record) field.name key
        (rewriteValue set entry Value.mergeEntries types.2 value)
      obtain ⟨new', hright, hnew'⟩ := exists_putEntry_eq record field.name key value
      change Record.putEntry _ _ _ _ = set.merge entry plan (Record.putEntry _ _ _ _)
      rw [hleft, hright]
      exact hassign hfield hnew hnew' (map_apply_put htype htypes key value)
  | @entry field hfield htype item key value hitem =>
      obtain ⟨new, hleft, hnew⟩ :=
        exists_putEntry_eq (set.merge entry plan record) field.name key value
      obtain ⟨new', hright, hnew'⟩ := exists_appendItem_eq record field.name item
      change Record.putEntry _ _ _ _ = set.merge entry plan (Record.appendItem _ _ _)
      rw [hleft, hright]
      exact hassign hfield hnew hnew' (map_apply_entry htype hitem)

/-- Merging goes along with changes in a row. -/
theorem applyAll_merge {changes changes' : List Change}
    (h : List.Forall₂ (Change.Merges set entry plan) changes changes') (record : Record) :
    Change.applyAll changes (set.merge entry plan record) =
      set.merge entry plan (Change.applyAll changes' record) := by
  induction h generalizing record with
  | nil => rfl
  | @cons change change' rest rest' hfirst _ ih =>
      have hcons : ∀ (change : Change) (rest : List Change) (record : Record),
          Change.applyAll (change :: rest) record = Change.applyAll rest (change.apply record) :=
        fun _ _ _ => rfl
      rw [hcons, hcons, hfirst.apply, ih]

end WireCodec
