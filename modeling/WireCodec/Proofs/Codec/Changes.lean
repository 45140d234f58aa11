import WireCodec.Codec.Decode
import WireCodec.Proofs.Outcome
import WireCodec.Proofs.Value.Sorted
import WireCodec.Proofs.Wire.Parses

/-! # Changes

What reading an occurrence does to a message does not depend on what the
message is before: it is read as changes to single fields. Reading a message
is reading the changes of all of its occurrences and making them in order, and
what is found under a name depends on the changes to that name alone.
-/

namespace WireCodec

/-- A change to the value of a field. -/
inductive FieldChange where
  /-- The value is replaced, or taken away. -/
  | assign (value : Option Value)
  /-- An item is appended, if there is one. -/
  | append (item : Option Value)
  /-- An entry is put into a map. -/
  | put (key : MapKey) (value : Value)

/-- What a change makes of the value of a field. -/
def FieldChange.apply : FieldChange → Option Value → Option Value
  | assign value, _ => value
  | append none, old => old
  | append (some item), some (.list items) => some (.list (items ++ [item]))
  | append (some item), _ => some (.list [item])
  | put key value, some (.map entries) => some (.map (Sorted.insert key value entries))
  | put key value, _ => some (.map [(key, value)])

theorem FieldChange.apply_append_of_ne {item : Value} {old : Option Value}
    (h : ∀ items, old ≠ some (.list items)) :
    FieldChange.apply (.append (some item)) old = some (.list [item]) := by
  cases old with
  | none => rfl
  | some value => cases value <;> first | rfl | exact absurd rfl (h _)

theorem FieldChange.apply_put_of_ne {key : MapKey} {value : Value} {old : Option Value}
    (h : ∀ entries, old ≠ some (.map entries)) :
    FieldChange.apply (.put key value) old = some (.map [(key, value)]) := by
  cases old with
  | none => rfl
  | some value => cases value <;> first | rfl | exact absurd rfl (h _)

/-- A change to a field of a message. -/
structure Change where
  name : String
  what : FieldChange

namespace Change

/-- Makes a change to a message. -/
def apply (change : Change) (record : Record) : Record :=
  match change.what with
  | .assign value => Record.assign? record change.name value
  | .append item => Record.appendItem? record change.name item
  | .put key value => Record.putEntry record change.name key value

/-- Makes changes to a message, in order. -/
def applyAll (changes : List Change) (record : Record) : Record :=
  changes.foldl (fun record change => change.apply record) record

theorem applyAll_append (first second : List Change) (record : Record) :
    applyAll (first ++ second) record = applyAll second (applyAll first record) :=
  List.foldl_append

theorem value?_assign (record : Record) (field name : String) (value : Value) :
    Record.value? (Record.assign record field value) name =
      if name = field then some value else Record.value? record name := by
  simp [Record.value?, Record.assign, Sorted.find?_insert]

theorem value?_remove (record : Record) (field name : String) :
    Record.value? (Record.remove record field) name =
      if name = field then none else Record.value? record name := by
  simp [Record.value?, Record.remove, Sorted.find?_erase]

/-- Appending an item gives the field the value that the change makes of it. -/
theorem exists_appendItem_eq (record : Record) (field : String) (item : Value) :
    ∃ value, Record.appendItem record field item = Record.assign record field value ∧
      FieldChange.apply (.append (some item)) (Record.value? record field) = some value := by
  unfold Record.appendItem
  split
  next items hitems =>
    rw [hitems]
    exact ⟨_, rfl, rfl⟩
  next hother => exact ⟨_, rfl, FieldChange.apply_append_of_ne hother⟩

theorem exists_putEntry_eq (record : Record) (field : String) (key : MapKey) (value : Value) :
    ∃ new, Record.putEntry record field key value = Record.assign record field new ∧
      FieldChange.apply (.put key value) (Record.value? record field) = some new := by
  unfold Record.putEntry
  split
  next entries hentries =>
    rw [hentries]
    exact ⟨_, rfl, rfl⟩
  next hother => exact ⟨_, rfl, FieldChange.apply_put_of_ne hother⟩

theorem value?_apply (change : Change) (record : Record) (name : String) :
    Record.value? (change.apply record) name =
      if name = change.name then change.what.apply (Record.value? record change.name)
      else Record.value? record name := by
  obtain ⟨field, what⟩ := change
  cases what with
  | assign value =>
      cases value with
      | none => exact value?_remove record field name
      | some value => exact value?_assign record field name value
  | append item =>
      cases item with
      | none =>
          by_cases hname : name = field
          · rw [if_pos hname, hname]
            rfl
          · rw [if_neg hname]
            rfl
      | some item =>
          obtain ⟨value, hassign, happly⟩ := exists_appendItem_eq record field item
          change Record.value? (Record.appendItem record field item) name = _
          rw [hassign, value?_assign, happly]
  | put key value =>
      obtain ⟨new, hassign, happly⟩ := exists_putEntry_eq record field key value
      change Record.value? (Record.putEntry record field key value) name = _
      rw [hassign, value?_assign, happly]

/-- What is found under a name after changes depends on the changes to that name. -/
theorem value?_applyAll (changes : List Change) (record : Record) (name : String) :
    Record.value? (applyAll changes record) name =
      (changes.filter (·.name = name)).foldl (fun old change => change.what.apply old)
        (Record.value? record name) := by
  induction changes generalizing record with
  | nil => rfl
  | cons change rest ih =>
      have hcons : applyAll (change :: rest) record = applyAll rest (change.apply record) := rfl
      rw [hcons, ih, value?_apply]
      by_cases hname : change.name = name
      · rw [List.filter_cons_of_pos (by simpa using hname), if_pos hname.symm, hname]
        rfl
      · rw [List.filter_cons_of_neg (by simpa using hname), if_neg (Ne.symm hname)]

theorem increasing_apply {record : Record} (h : Sorted.Increasing record) (change : Change) :
    Sorted.Increasing (change.apply record) := by
  obtain ⟨field, what⟩ := change
  cases what with
  | assign value =>
      cases value with
      | none => exact Sorted.increasing_erase h
      | some value => exact Sorted.increasing_insert h
  | append item =>
      cases item with
      | none => exact h
      | some item =>
          obtain ⟨value, hassign, _⟩ := exists_appendItem_eq record field item
          change Sorted.Increasing (Record.appendItem record field item)
          rw [hassign]
          exact Sorted.increasing_insert h
  | put key value =>
      obtain ⟨new, hassign, _⟩ := exists_putEntry_eq record field key value
      change Sorted.Increasing (Record.putEntry record field key value)
      rw [hassign]
      exact Sorted.increasing_insert h

theorem increasing_applyAll {record : Record} (h : Sorted.Increasing record)
    (changes : List Change) : Sorted.Increasing (applyAll changes record) := by
  induction changes generalizing record with
  | nil => exact h
  | cons change rest ih => exact ih (increasing_apply h change)

/-- Changes to different fields do not see each other, so the order of changes
matters among those to one field only. -/
theorem applyAll_congr {first second : List Change}
    (h : ∀ name, first.filter (·.name = name) = second.filter (·.name = name)) :
    applyAll first [] = applyAll second [] := by
  refine Sorted.ext (increasing_applyAll Sorted.increasing_nil _)
    (increasing_applyAll Sorted.increasing_nil _) ?_
  intro name
  change Record.value? _ name = Record.value? _ name
  rw [value?_applyAll, value?_applyAll, h]

end Change

/-! ## Reading changes -/

namespace Read

variable {α σ τ : Type} {f : σ → τ}

theorem delimited_map (f : σ → τ) (body : Read σ) :
    delimited (f <$> body) = f <$> delimited body := by
  have hwithLimit : ∀ length, withLimit length (f <$> body) = f <$> withLimit length body := by
    intro length
    funext input cursor
    simp only [withLimit, Functor.map, EStateM.map]
    split
    · rfl
    next inner _ => cases body input inner <;> rfl
  have hdeeper : ∀ inner : Read σ, deeper (f <$> inner) = f <$> deeper inner := by
    intro inner
    funext input cursor
    simp only [deeper, Functor.map, EStateM.map]
    cases inner input { cursor with depth := cursor.depth + 1 } <;> rfl
  simp only [delimited, hwithLimit, hdeeper, map_bind]

/-- A loop over the image of a state is the image of the loop. -/
theorem iterate_map {step : σ → Read (Option σ)} {advances : ∀ s, Advances (step s)}
    {step' : τ → Read (Option τ)} {advances' : ∀ t, Advances (step' t)}
    (h : ∀ s, step' (f s) = Option.map f <$> step s) (s : σ) :
    iterate step' advances' (f s) = f <$> iterate step advances s := by
  funext input cursor
  -- the loop over states is followed, and the other one goes along with it
  induction s, cursor using iterate.induct step advances input with
  | case1 s before e after hfound =>
      have hfound' : step' (f s) input before = .error e after := by
        rw [h]
        exact map_of_error hfound
      rw [iterate_of_error hfound', map_of_error (iterate_of_error hfound)]
  | case2 s before after hfound =>
      have hfound' : step' (f s) input before = .ok none after := by
        rw [h]
        exact map_of_ok hfound
      rw [iterate_of_none hfound', map_of_ok (iterate_of_none hfound)]
  | case3 s before next after hfound ih =>
      have hfound' : step' (f s) input before = .ok (some (f next)) after := by
        rw [h]
        exact map_of_ok hfound
      rw [iterate_of_some hfound', ih]
      simp only [Functor.map, EStateM.map, iterate_of_some hfound]

/-- Collecting elements into the image of a state gives the image of what is collected. -/
theorem packable_map {element : σ → Read σ} {consumes : ∀ s, Consumes (element s)}
    {element' : τ → Read τ} {consumes' : ∀ t, Consumes (element' t)}
    (h : ∀ s, element' (f s) = f <$> element s) (found : Key) (natural : UInt8) (s : σ) :
    packable found natural element' consumes' (f s) =
      f <$> packable found natural element consumes s := by
  have hrun : run element' consumes' (f s) = f <$> run element consumes s := by
    refine iterate_map ?_ s
    intro s
    rw [h]
    simp only [map_bind]
    congr 1
    funext ended
    cases ended <;> simp
  unfold packable
  split
  · rw [hrun, delimited_map]
  · simp only [h, map_bind]

end Read

section Reading

variable (set : PlanSet) (nested : MessagePlan → Read Record)

/-- Reads one value as one more item of a list field. -/
def collectItem (field : FieldPlan) (changes : List Change) : Read (List Change) :=
  (fun item => changes ++ [⟨field.name, .append item⟩]) <$> readValue set nested field.type

theorem consumes_collectItem (field : FieldPlan) (changes : List Change) :
    Read.Consumes (collectItem set nested field changes) :=
  (consumes_readValue set nested field.type).map _

/-- Reads an entry message as a key and a value. -/
def readPair (entry : String) : Read (MapKey × Value) :=
  match set.message? entry with
  | none => throw (.danglingReference entry)
  | some plan => do
    let pair ← Read.delimited (nested plan)
    match (Record.value? pair keyField).bind Value.toMapKey? with
    | none => throw (.malformedMapEntry keyField)
    | some key =>
      match Record.value? pair valueField with
      | none => throw (.malformedMapEntry valueField)
      | some value => return (key, value)

/-- Reads an occurrence of a field with the given arm as changes. -/
def armChanges (plan : MessagePlan) (found : Key) (arm : DecodeArm) : Read (List Change) :=
  match plan.fields[arm.field]? with
  | none => throw (.danglingReference plan.name)
  | some field =>
    match arm.action with
    | .assign => do
      Read.expect found arm.wireType.code
      (fun value => [⟨field.name, .assign value⟩]) <$> readValue set nested field.type
    | .append => do
      Read.expect found arm.wireType.code
      collectItem set nested field []
    | .appendPackable natural =>
      Read.packable found natural.code (collectItem set nested field)
        (consumes_collectItem set nested field) []
    | .mergeEntry entry => do
      Read.expect found arm.wireType.code
      (fun pair => [⟨field.name, .put pair.1 pair.2⟩]) <$> readPair set nested entry

/-- Reads what follows a key as changes. -/
def fieldChanges (plan : MessagePlan) (found : Key) : Read (List Change) :=
  match plan.arm? found.number with
  | none => (fun _ => []) <$> Read.skip found.wireType
  | some arm => armChanges set nested plan found arm

/-- Reads a field occurrence as changes; `none` where the message ends. -/
def occurrenceChanges (plan : MessagePlan) : Read (Option (List Change)) := do
  match ← Read.key with
  | none => return none
  | some found => some <$> fieldChanges set nested plan found

theorem readEntry_eq (field : FieldPlan) (entry : String) (record : Record) :
    readEntry set nested field entry record =
      (fun pair => Record.putEntry record field.name pair.1 pair.2) <$>
        readPair set nested entry := by
  unfold readEntry readPair
  cases set.message? entry with
  | none => rfl
  | some plan =>
      simp only [map_bind]
      congr 1
      funext pair
      cases (Record.value? pair keyField).bind Value.toMapKey? with
      | none => rfl
      | some key => cases Record.value? pair valueField <;> rfl

theorem readArm_eq (plan : MessagePlan) (found : Key) (arm : DecodeArm) (record : Record) :
    readArm set nested plan found arm record =
      (Change.applyAll · record) <$> armChanges set nested plan found arm := by
  unfold readArm armChanges
  cases plan.fields[arm.field]? with
  | none => rfl
  | some field =>
      have hitem : ∀ changes, readItem set nested field (Change.applyAll changes record) =
          (Change.applyAll · record) <$> collectItem set nested field changes := by
        intro changes
        unfold readItem collectItem
        simp only [Functor.map_map, Change.applyAll_append]
        rfl
      cases arm.action with
      | assign =>
          simp only [map_bind, Functor.map_map]
          rfl
      | append =>
          simp only [map_bind]
          rw [← hitem]
          rfl
      | appendPackable natural =>
          exact Read.packable_map hitem found natural.code []
      | mergeEntry entry =>
          simp only [map_bind, Functor.map_map, readEntry_eq]
          rfl

theorem readOccurrence_eq (plan : MessagePlan) (record : Record) :
    readOccurrence set nested plan record =
      Option.map (Change.applyAll · record) <$> occurrenceChanges set nested plan := by
  unfold readOccurrence occurrenceChanges
  simp only [map_bind]
  congr 1
  funext found
  cases found with
  | none => simp
  | some found =>
      have hfield : readField set nested plan record found =
          (Change.applyAll · record) <$> fieldChanges set nested plan found := by
        unfold readField fieldChanges
        cases plan.arm? found.number with
        | none =>
            simp only [Functor.map_map]
            rfl
        | some arm => exact readArm_eq set nested plan found arm record
      simp only [hfield, Functor.map_map]
      rfl

end Reading

end WireCodec
