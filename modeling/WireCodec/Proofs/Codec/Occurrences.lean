import WireCodec.Proofs.Codec.Changes
import WireCodec.Proofs.Plan.Coherent
import WireCodec.Proofs.Wire.ScalarForm

/-! # Occurrences of fields

What the reader of a coherent plan makes of a key and what follows it, by the
form in which the field is written, and what it makes of a whole message when
the outcome of each occurrence is known.
-/

namespace WireCodec

/-- A message, or the error for the first required field that it lacks. -/
def MessagePlan.completed (plan : MessagePlan) (record : Record) : Except DecodeError Record :=
  match plan.firstMissing? record plan.required with
  | none => .ok record
  | some e => .error e

variable {set : PlanSet} {nested : MessagePlan → Read Record} {plan : MessagePlan} {depth : Nat}

variable (set nested plan depth) in
/-- Bytes are read as occurrences of fields, with these changes or this error. -/
inductive ReadsAs : List UInt8 → Except DecodeError (List Change) → Prop
  | nil : ReadsAs [] (.ok [])
  | next {bytes rest : List UInt8} {changes : List Change}
      {outcome : Except DecodeError (List Change)}
      (hbytes : Read.Parses (occurrenceChanges set nested plan) depth bytes (.ok (some changes)))
      (hrest : ReadsAs rest outcome) : ReadsAs (bytes ++ rest) ((changes ++ ·) <$> outcome)
  | stop {bytes : List UInt8} {e : DecodeError}
      (hbytes : Read.Parses (occurrenceChanges set nested plan) depth bytes (.error e))
      (rest : List UInt8) : ReadsAs (bytes ++ rest) (.error e)

theorem ReadsAs.of_occurrence {bytes : List UInt8} {outcome : Except DecodeError (List Change)}
    (h : Read.Parses (occurrenceChanges set nested plan) depth bytes (some <$> outcome)) :
    ReadsAs set nested plan depth bytes outcome := by
  cases outcome with
  | ok changes => simpa using ReadsAs.next h .nil
  | error e => simpa using ReadsAs.stop h []

theorem ReadsAs.append {first second : List UInt8}
    {outcome outcome' : Except DecodeError (List Change)}
    (hfirst : ReadsAs set nested plan depth first outcome)
    (hsecond : ReadsAs set nested plan depth second outcome') :
    ReadsAs set nested plan depth (first ++ second)
      (do let changes ← outcome; (changes ++ ·) <$> outcome') := by
  induction hfirst with
  | nil =>
      cases outcome' <;> simpa using hsecond
  | @next bytes rest changes outcome hbytes hrest ih =>
      rw [List.append_assoc]
      convert ReadsAs.next hbytes ih using 1
      cases outcome <;> cases outcome' <;> simp
  | stop hbytes rest =>
      rw [List.append_assoc]
      exact ReadsAs.stop hbytes _

theorem ReadsAs.finishes_iterate {bytes : List UInt8} {outcome : Except DecodeError (List Change)}
    (h : ReadsAs set nested plan depth bytes outcome) {advances} (record : Record) :
    Read.Finishes (Read.iterate (readOccurrence set nested plan) advances record) depth bytes
      ((Change.applyAll · record) <$> outcome) := by
  induction h generalizing record with
  | nil =>
      refine Read.finishes_iterate_none ?_
      rw [readOccurrence_eq]
      have hend : Read.Finishes (occurrenceChanges set nested plan) depth [] (.ok none) := by
        intro input cursor hinside hdepth hview
        obtain ⟨after, hkey, hafter⟩ := Read.finishes_key depth input cursor hinside hdepth hview
        exact ⟨after, Read.bind_of_ok hkey, hafter⟩
      exact hend.map _
  | @next bytes rest changes outcome hbytes hrest ih =>
      have hstep : Read.Parses (readOccurrence set nested plan record) depth bytes
          (.ok (some (Change.applyAll changes record))) := by
        rw [readOccurrence_eq]
        exact hbytes.map _
      convert Read.Finishes.iterate_some hstep (ih _) using 1
      cases outcome with
      | ok others => simp [Change.applyAll_append]
      | error e => rfl
  | stop hbytes rest =>
      refine Read.Finishes.iterate_error (Read.Parses.finishes_error ?_ rest)
      rw [readOccurrence_eq]
      exact hbytes.map _

/-- Occurrences that are read whatever follows, in front of others. -/
theorem ReadsAs.finishes_append {bytes : List UInt8} {changes : List Change}
    (h : ReadsAs set nested plan depth bytes (.ok changes)) {advances} {record : Record}
    {rest : List UInt8} {outcome : Except DecodeError Record}
    (hrest : Read.Finishes (Read.iterate (readOccurrence set nested plan) advances
      (Change.applyAll changes record)) depth rest outcome) :
    Read.Finishes (Read.iterate (readOccurrence set nested plan) advances record) depth
      (bytes ++ rest) outcome := by
  generalize hchanges : Except.ok changes = read at h
  induction h generalizing changes record with
  | nil =>
      cases hchanges
      exact hrest
  | @next bytes others first read hbytes _ ih =>
      obtain ⟨second, rfl, hsecond⟩ := Except.map_eq_ok.mp hchanges.symm
      rw [← hsecond, Change.applyAll_append] at hrest
      have hstep : Read.Parses (readOccurrence set nested plan record) depth bytes
          (.ok (some (Change.applyAll first record))) := by
        rw [readOccurrence_eq]
        exact hbytes.map _
      rw [List.append_assoc]
      exact Read.Finishes.iterate_some hstep (ih hrest rfl)
  | stop => cases hchanges

/-- A message is what the loop over its occurrences makes of an empty message,
if no required field is missing. -/
theorem finishes_readMessageWith {bytes : List UInt8} {outcome : Except DecodeError Record}
    (h : Read.Finishes (Read.iterate (readOccurrence set nested plan) (fun record =>
      Read.advances_key (steady_readField set nested plan record)) []) depth bytes outcome) :
    Read.Finishes (readMessageWith set nested plan) depth bytes
      (do plan.completed (← outcome)) := by
  cases outcome with
  | error e =>
      intro input cursor hinside hdepth hview
      obtain ⟨after, hrun⟩ := h input cursor hinside hdepth hview
      exact ⟨after, Read.bind_of_error hrun⟩
  | ok record =>
      change Read.Finishes _ _ _ (plan.completed record)
      unfold MessagePlan.completed
      cases hmissing : plan.firstMissing? record plan.required with
      | none =>
          intro input cursor hinside hdepth hview
          obtain ⟨after, hrun, hafter⟩ := h input cursor hinside hdepth hview
          refine ⟨after, ?_, hafter⟩
          rw [readMessageWith, Read.bind_of_ok hrun, MessagePlan.complete, hmissing]
          rfl
      | some e =>
          intro input cursor hinside hdepth hview
          obtain ⟨after, hrun, _⟩ := h input cursor hinside hdepth hview
          refine ⟨after, ?_⟩
          rw [readMessageWith, Read.bind_of_ok hrun, MessagePlan.complete, hmissing]
          rfl

/-- A message is read by making the changes of its occurrences to an empty
message, and then asking for the required fields. -/
theorem ReadsAs.finishes {bytes : List UInt8} {outcome : Except DecodeError (List Change)}
    (h : ReadsAs set nested plan depth bytes outcome) :
    Read.Finishes (readMessageWith set nested plan) depth bytes
      (do plan.completed (Change.applyAll (← outcome) [])) := by
  have hfinishes := finishes_readMessageWith (h.finishes_iterate [])
  cases outcome with
  | error e => exact hfinishes
  | ok changes => exact hfinishes

/-! ## Occurrences of a field -/

section Field

variable {field : FieldPlan}

theorem ValueType.wireType_ne_of_packable {type : ValueType} (h : type.packable = true) :
    type.wireType.code ≠ WireType.lengthDelimited.code := by
  cases type with
  | scalar type => cases type <;> first | decide | cases h
  | enum name => simp [ValueType.wireType, WireType.code]
  | message name => cases h

variable (set nested field) in
/-- Reads what follows a key of a field as changes. -/
def FieldPlan.changes (found : Key) : Read (List Change) :=
  match field.action with
  | .assign => do
    Read.expect found field.type.wireType.code
    (fun value => [⟨field.name, .assign value⟩]) <$> readValue set nested field.type
  | .append => do
    Read.expect found field.type.wireType.code
    collectItem set nested field []
  | .appendPackable natural =>
    Read.packable found natural.code (collectItem set nested field)
      (consumes_collectItem set nested field) []
  | .mergeEntry entry => do
    Read.expect found field.type.wireType.code
    (fun pair => [⟨field.name, .put pair.1 pair.2⟩]) <$> readPair set nested entry

/-- What follows a key with an arm is read as changes to the field of that arm. -/
theorem fieldChanges_of_arm? {found : Key} {index : Nat} (hindex : plan.fields[index]? = some field)
    (harm : plan.arm? found.number = some (field.armAt index)) :
    fieldChanges set nested plan found = field.changes set nested found := by
  unfold fieldChanges armChanges FieldPlan.changes
  cases haction : field.action <;> simp only [harm, FieldPlan.armAt, hindex, haction]

theorem fieldChanges_of_mem (hplan : plan.Coherent set) (hfield : field ∈ plan.fields)
    (wireType : UInt8) : fieldChanges set nested plan ⟨field.number, wireType⟩ =
      field.changes set nested ⟨field.number, wireType⟩ := by
  obtain ⟨index, hindex, harm⟩ := hplan.arm?_of_mem hfield
  exact fieldChanges_of_arm? hindex harm

theorem parses_occurrence_of_key {found : Key} {key bytes : List UInt8}
    {outcome : Except DecodeError (List Change)}
    (hkey : Read.Parses Read.key depth key (.ok (some found)))
    (h : Read.Parses (fieldChanges set nested plan found) depth bytes outcome) :
    Read.Parses (occurrenceChanges set nested plan) depth (key ++ bytes) (some <$> outcome) :=
  hkey.bind (h.map some)

/-- An occurrence of a field is its key and what follows the key. -/
theorem parses_occurrence (hplan : plan.Coherent set) (hfield : field ∈ plan.fields)
    {wireType : WireType} {bytes : List UInt8} {outcome : Except DecodeError (List Change)}
    (h : Read.Parses (field.changes set nested ⟨field.number, wireType.code⟩) depth bytes outcome) :
    Read.Parses (occurrenceChanges set nested plan) depth
      (Key.form ⟨field.number, wireType.code⟩ ++ bytes) (some <$> outcome) := by
  have hcoherent := hplan.fields field hfield
  rw [← fieldChanges_of_mem hplan hfield] at h
  exact parses_occurrence_of_key
    (Read.parses_key depth hcoherent.number_ne_zero hcoherent.number_lt wireType.code_lt) h

theorem parses_expect (found : Key) : Read.Parses (Read.expect found found.wireType) depth []
    (.ok ()) := by
  unfold Read.expect
  rw [if_pos rfl]
  exact Read.parses_pure ()

/-- What the form in which a field is written says about the field. -/
theorem FieldPlan.of_form (field : FieldPlan) :
    match field.form with
    | .single => field.isMapEntry = false ∧ field.action = .assign ∧
        field.writtenAs = field.type.wireType
    | .each => field.isMapEntry = false ∧ field.cardinality = .repeated ∧
        field.writtenAs = field.type.wireType
    | .packed => field.isMapEntry = false ∧ field.packed = true ∧
        field.writtenAs = .lengthDelimited
    | .mapEntries entry => field.isMapEntry = true ∧ field.action = .mergeEntry entry ∧
        field.writtenAs = .lengthDelimited := by
  unfold FieldPlan.form FieldPlan.action FieldPlan.writtenAs
  cases field.isMapEntry with
  | true => exact ⟨rfl, rfl, rfl⟩
  | false =>
      cases field.packed with
      | true => exact ⟨rfl, rfl, rfl⟩
      | false =>
          by_cases hrepeated : field.cardinality = .repeated
          · simp [hrepeated]
          · simp [hrepeated]

theorem FieldPlan.form_eq_single (hform : field.form = .single) :
    field.isMapEntry = false ∧ field.action = .assign ∧
      field.writtenAs = field.type.wireType := by
  have h := field.of_form
  rwa [hform] at h

theorem FieldPlan.form_eq_each (hform : field.form = .each) :
    field.isMapEntry = false ∧ field.cardinality = .repeated ∧
      field.writtenAs = field.type.wireType := by
  have h := field.of_form
  rwa [hform] at h

theorem FieldPlan.form_eq_packed (hform : field.form = .packed) :
    field.isMapEntry = false ∧ field.packed = true ∧ field.writtenAs = .lengthDelimited := by
  have h := field.of_form
  rwa [hform] at h

theorem FieldPlan.form_eq_mapEntries {entry : String} (hform : field.form = .mapEntries entry) :
    field.isMapEntry = true ∧ field.action = .mergeEntry entry ∧
      field.writtenAs = .lengthDelimited := by
  have h := field.of_form
  rwa [hform] at h

theorem FieldPlan.form_of_packed (hmap : field.isMapEntry = false) (hpacked : field.packed = true) :
    field.form = .packed := by
  simp [FieldPlan.form, hmap, hpacked]

theorem FieldPlan.form_of_each (hmap : field.isMapEntry = false) (hpacked : field.packed = false)
    (hrepeated : field.cardinality = .repeated) : field.form = .each := by
  simp [FieldPlan.form, hmap, hpacked, hrepeated]

theorem FieldPlan.form_of_map (hmap : field.isMapEntry = true) :
    field.form = .mapEntries field.type.name := by
  simp [FieldPlan.form, hmap]

theorem FieldPlan.action_of_repeated (hmap : field.isMapEntry = false)
    (hrepeated : field.cardinality = .repeated) : field.action =
      if field.type.packable then .appendPackable field.type.wireType else .append := by
  simp [FieldPlan.action, hmap, hrepeated]

theorem parses_single (haction : field.action = .assign) {bytes : List UInt8}
    {outcome : Except DecodeError (Option Value)}
    (h : Read.Parses (readValue set nested field.type) depth bytes outcome) :
    Read.Parses (field.changes set nested ⟨field.number, field.type.wireType.code⟩) depth bytes
      ((fun value => [⟨field.name, .assign value⟩]) <$> outcome) := by
  unfold FieldPlan.changes
  rw [haction]
  exact (parses_expect _).bind (h.map _)

/-- One element of a repeated field under its natural wire type, whether the
field is packable or not. -/
theorem parses_element (hmap : field.isMapEntry = false)
    (hrepeated : field.cardinality = .repeated) {bytes : List UInt8}
    {outcome : Except DecodeError (Option Value)}
    (h : Read.Parses (readValue set nested field.type) depth bytes outcome) :
    Read.Parses (field.changes set nested ⟨field.number, field.type.wireType.code⟩) depth bytes
      ((fun item => [⟨field.name, .append item⟩]) <$> outcome) := by
  have hitem : Read.Parses (do
      Read.expect ⟨field.number, field.type.wireType.code⟩ field.type.wireType.code
      collectItem set nested field []) depth bytes
      ((fun item => [⟨field.name, .append item⟩]) <$> outcome) :=
    (parses_expect _).bind (h.map _)
  unfold FieldPlan.changes
  rw [FieldPlan.action_of_repeated hmap hrepeated]
  by_cases hpackable : field.type.packable = true
  · rw [if_pos hpackable]
    dsimp only
    unfold Read.packable
    rw [if_neg fun hboth => hboth.2 hboth.1]
    exact hitem
  · rw [if_neg hpackable]
    exact hitem

/-- Under the wire type of payloads, a packable repeated field takes a run. -/
theorem FieldPlan.changes_run (hmap : field.isMapEntry = false)
    (hrepeated : field.cardinality = .repeated) (hpackable : field.type.packable = true) :
    field.changes set nested ⟨field.number, WireType.lengthDelimited.code⟩ =
      Read.delimited (Read.run (collectItem set nested field)
        (consumes_collectItem set nested field) []) := by
  unfold FieldPlan.changes
  rw [FieldPlan.action_of_repeated hmap hrepeated, if_pos hpackable]
  dsimp only
  unfold Read.packable
  rw [if_pos ⟨rfl, ValueType.wireType_ne_of_packable hpackable⟩]

/-- A run is read element by element, each of which takes up at least one byte. -/
theorem finishes_run {items : List (Option Value)} {trees : List WireValue}
    (h : List.Forall₂ (fun item tree => tree.bytes ≠ [] ∧
      Read.Parses (readValue set nested field.type) depth tree.bytes (.ok item)) items trees)
    (before : List Change) :
    Read.Finishes (Read.run (collectItem set nested field)
      (consumes_collectItem set nested field) before) depth (WireValue.runBytes trees)
      (.ok (before ++ items.map fun item => ⟨field.name, .append item⟩)) := by
  induction h generalizing before with
  | nil =>
      rw [List.map_nil, List.append_nil]
      exact Read.finishes_iterate_none (Read.finishes_ifEnd none)
  | @cons item tree items trees hfirst hrest ih =>
      obtain ⟨hbytes, hread⟩ := hfirst
      have hstep : Read.Parses (some <$> collectItem set nested field before) depth tree.bytes
          (.ok (some (before ++ [⟨field.name, .append item⟩]))) := (hread.map _).map some
      have hnext := ih (before ++ [⟨field.name, .append item⟩])
      rw [List.append_assoc] at hnext
      exact Read.Finishes.iterate_some (hstep.ifEnd hbytes) hnext

end Field

end WireCodec
