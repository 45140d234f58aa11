import WireCodec.Proofs.Codec.Occurrences

/-! # Levels of nesting

What nests no deeper than there are levels left is read, and what nests deeper
is refused. This outcome composes: the parts of a message are read within the
levels that the deepest of them needs.
-/

namespace WireCodec

variable {α β : Type}

/-- The outcome of reading something that nests `depth` levels deep where
`levels` are left. -/
def withinLevels (levels depth : Nat) (a : α) : Except DecodeError α :=
  if depth ≤ levels then .ok a else .error .nestingTooDeep

@[simp]
theorem withinLevels_zero (levels : Nat) (a : α) : withinLevels levels 0 a = .ok a :=
  if_pos (Nat.zero_le levels)

@[simp]
theorem map_withinLevels (levels depth : Nat) (a : α) (f : α → β) :
    f <$> withinLevels levels depth a = withinLevels levels depth (f a) := by
  unfold withinLevels
  split <;> rfl

theorem withinLevels_max (levels first second : Nat) (a : α) (f : α → β) :
    (do let a ← withinLevels levels first a; withinLevels levels second (f a)) =
      withinLevels levels (max first second) (f a) := by
  unfold withinLevels
  by_cases hfirst : first ≤ levels
  · by_cases hsecond : second ≤ levels
    · rw [if_pos (Nat.max_le.mpr ⟨hfirst, hsecond⟩)]
      simp [hfirst, hsecond]
    · simp only [hfirst, hsecond, if_true, if_false, Except.ok_bind]
      rw [if_neg (by omega)]
  · simp only [hfirst, if_false, Except.error_bind]
    rw [if_neg (by omega)]

theorem Read.Parses.map_within {read : Read α} {depth : Nat} {bytes : List UInt8}
    {levels nesting : Nat} {a : α} (h : Parses read depth bytes (withinLevels levels nesting a))
    (f : α → β) : Parses (f <$> read) depth bytes (withinLevels levels nesting (f a)) := by
  rw [← map_withinLevels]
  exact h.map f

theorem Read.Parses.bind_within {read : Read α} {next : α → Read β} {depth : Nat}
    {bytes : List UInt8} {levels nesting : Nat} {a : α} {b : β}
    (hread : Parses read depth bytes (withinLevels levels nesting a))
    (hnext : Parses (next a) depth [] (.ok b)) :
    Parses (read >>= next) depth bytes (withinLevels levels nesting b) := by
  unfold withinLevels at hread ⊢
  split at hread
  next hle =>
    rw [if_pos hle]
    exact hread.bind_nil hnext
  next hgt =>
    rw [if_neg hgt]
    exact hread.bind_error

variable (set : PlanSet)

/-- The reader for the messages that are nested in one where payloads may nest
a number of levels deep. -/
def nestedReader : Nat → MessagePlan → Read Record
  | 0 => fun _ => throw .nestingTooDeep
  | levels + 1 => readMessageWithin set levels

theorem readMessageWithin_eq (levels : Nat) :
    readMessageWithin set levels = readMessageWith set (nestedReader set levels) := by
  cases levels <;> rfl

variable {set}

theorem finishes_readMessage {plan : MessagePlan} {depth : Nat} {bytes : List UInt8}
    {outcome : Except DecodeError Record}
    (h : Read.Finishes (readMessageWithin set (nestingLimit - depth) plan) depth bytes outcome) :
    Read.Finishes (readMessage set plan) depth bytes outcome := by
  cases outcome with
  | ok record =>
      rintro input cursor hinside rfl hview
      exact h input cursor hinside rfl hview
  | error e =>
      rintro input cursor hinside rfl hview
      exact h input cursor hinside rfl hview

/-- What decoding answers is what comes of reading the whole input as one message. -/
theorem PlanSet.decode_of_finishes {plan : MessagePlan} {bytes : List UInt8}
    {outcome : Except DecodeError Record}
    (h : Read.Finishes (readMessage set plan) 0 bytes outcome) :
    set.decode plan bytes.toArray = outcome := by
  have hview : (Cursor.start bytes.toArray).view bytes.toArray = bytes :=
    Cursor.view_start bytes.toArray
  cases outcome with
  | ok record =>
      obtain ⟨after, hrun, _⟩ := h _ _ (Cursor.inside_start _) rfl hview
      simp only [PlanSet.decode, hrun]
  | error e =>
      obtain ⟨after, hrun⟩ := h _ _ (Cursor.inside_start _) rfl hview
      simp only [PlanSet.decode, hrun]

/-- What is decoded was read as one message from the start of the input. -/
theorem PlanSet.exists_run_of_decode {plan : MessagePlan} {input : Bytes} {record : Record}
    (h : set.decode plan input = .ok record) :
    ∃ after, readMessage set plan input (.start input) = .ok record after := by
  unfold PlanSet.decode at h
  split at h
  next after hrun =>
    cases h
    exact ⟨after, hrun⟩
  next => cases h

/-- A payload is entered if there is a level left for it. -/
theorem parses_delimited_within {body : Read α} {levels depth nesting : Nat}
    {payload : List UInt8} {a : α} (hlevels : levels + depth = nestingLimit)
    (hpayload : payload.length < 2 ^ 32)
    (hbody : ∀ inner, levels = inner + 1 →
      Read.Finishes body (depth + 1) payload (withinLevels inner nesting a)) :
    Read.Parses (Read.delimited body) depth (delimitedForm payload)
      (withinLevels levels (nesting + 1) a) := by
  cases levels with
  | zero => exact Read.parses_delimited_of_limit (by omega) _
  | succ inner =>
      have h := (hbody inner rfl).delimited (by omega) hpayload
      unfold withinLevels at h ⊢
      simpa only [Nat.add_le_add_iff_right] using h

theorem ReadsAs.append_within {plan : MessagePlan} {nested : MessagePlan → Read Record}
    {levels depth nesting nesting' : Nat} {bytes bytes' : List UInt8}
    {changes changes' : List Change}
    (h : ReadsAs set nested plan depth bytes (withinLevels levels nesting changes))
    (h' : ReadsAs set nested plan depth bytes' (withinLevels levels nesting' changes')) :
    ReadsAs set nested plan depth (bytes ++ bytes')
      (withinLevels levels (max nesting nesting') (changes ++ changes')) := by
  have happend := h.append h'
  simp only [map_withinLevels] at happend
  rwa [withinLevels_max] at happend

theorem ReadsAs.nil_within {plan : MessagePlan} {nested : MessagePlan → Read Record}
    {levels depth : Nat} : ReadsAs set nested plan depth (WireValue.messageBytes [])
      (withinLevels levels (WireValue.messageDepth []) []) := by
  rw [WireValue.messageDepth, withinLevels_zero]
  exact .nil

/-- An occurrence of a field in front of other occurrences. -/
theorem ReadsAs.cons_within {plan : MessagePlan} (hplan : plan.Coherent set) {field : FieldPlan}
    (hfield : field ∈ plan.fields) {wireType : WireType} {nested : MessagePlan → Read Record}
    {levels depth : Nat} {tree : WireValue} {rest : List (Key × WireValue)}
    {changes others : List Change}
    (htree : Read.Parses (field.changes set nested ⟨field.number, wireType.code⟩) depth tree.bytes
      (withinLevels levels tree.depth changes))
    (hrest : ReadsAs set nested plan depth (WireValue.messageBytes rest)
      (withinLevels levels (WireValue.messageDepth rest) others)) :
    ReadsAs set nested plan depth
      (WireValue.messageBytes ((⟨field.number, wireType.code⟩, tree) :: rest))
      (withinLevels levels
        (WireValue.messageDepth ((⟨field.number, wireType.code⟩, tree) :: rest))
        (changes ++ others)) := by
  have hfirst : ReadsAs set nested plan depth
      (Key.form ⟨field.number, wireType.code⟩ ++ tree.bytes)
      (withinLevels levels tree.depth changes) :=
    .of_occurrence (parses_occurrence hplan hfield htree)
  exact hfirst.append_within hrest

theorem ReadsAs.finishes_within {plan : MessagePlan} {nested : MessagePlan → Read Record}
    {levels depth nesting : Nat} {bytes : List UInt8} {changes : List Change} {record : Record}
    (h : ReadsAs set nested plan depth bytes (withinLevels levels nesting changes))
    (hcompleted : plan.completed (Change.applyAll changes []) = .ok record) :
    Read.Finishes (readMessageWith set nested plan) depth bytes
      (withinLevels levels nesting record) := by
  have hfinishes := h.finishes
  unfold withinLevels at hfinishes ⊢
  by_cases hnesting : nesting ≤ levels
  · rw [if_pos hnesting] at hfinishes ⊢
    rwa [Except.ok_bind, hcompleted] at hfinishes
  · rw [if_neg hnesting] at hfinishes ⊢
    exact hfinishes

/-- A value of a field that holds one, as the change that it is read as. -/
theorem parses_single_within {field : FieldPlan} (haction : field.action = .assign)
    {nested : MessagePlan → Read Record} {levels depth nesting : Nat} {bytes : List UInt8}
    {value : Option Value}
    (h : Read.Parses (readValue set nested field.type) depth bytes
      (withinLevels levels nesting value)) :
    Read.Parses (field.changes set nested ⟨field.number, field.type.wireType.code⟩) depth bytes
      (withinLevels levels nesting [⟨field.name, .assign value⟩]) := by
  have hsingle := parses_single haction h
  rwa [map_withinLevels] at hsingle

theorem MessagePlan.firstMissing?_eq_none {plan : MessagePlan} {record : Record}
    {indices : List Nat} : plan.firstMissing? record indices = none ↔
      ∀ index ∈ indices, ∃ field, plan.fields[index]? = some field ∧
        Record.contains record field.name = true := by
  induction indices with
  | nil => simp [MessagePlan.firstMissing?]
  | cons index rest ih =>
      unfold MessagePlan.firstMissing?
      cases hfield : plan.fields[index]? with
      | none => simp [hfield]
      | some field =>
          by_cases hcontains : Record.contains record field.name = true
          · simp [hfield, hcontains, ih]
          · simp [hfield, hcontains]

/-- The first required field that a message lacks is one of them. -/
theorem MessagePlan.LaidOut.exists_of_firstMissing? {plan : MessagePlan}
    (hplan : plan.LaidOut) {record : Record}
    {e : DecodeError} (h : plan.firstMissing? record plan.required = some e) :
    ∃ field ∈ plan.fields, Record.contains record field.name = false ∧
      e = plan.missingField field.name := by
  have hmissing : ∀ indices : List Nat, (∀ index ∈ indices, index ∈ plan.required) →
      plan.firstMissing? record indices = some e → ∃ field ∈ plan.fields,
        Record.contains record field.name = false ∧ e = plan.missingField field.name := by
    intro indices hindices he
    induction indices with
    | nil => cases he
    | cons index rest ih =>
        obtain ⟨hindex, hrest⟩ := List.forall_mem_cons.mp hindices
        obtain ⟨field, hget, _⟩ := (hplan.required index).mp hindex
        unfold MessagePlan.firstMissing? at he
        rw [hget] at he
        dsimp only at he
        split at he
        next => exact ih hrest he
        next hcontains =>
          cases he
          exact ⟨field, List.mem_of_getElem? hget, eq_false_of_ne_true hcontains, rfl⟩
  exact hmissing plan.required (fun _ hindex => hindex) h

theorem MessagePlan.completed_eq_ok {plan : MessagePlan} (hplan : plan.LaidOut)
    {record record' : Record} : plan.completed record = .ok record' ↔ record' = record ∧
      ∀ field ∈ plan.fields, field.cardinality = .required →
        Record.contains record field.name = true := by
  have hmissing : plan.firstMissing? record plan.required = none ↔
      ∀ field ∈ plan.fields, field.cardinality = .required →
        Record.contains record field.name = true := by
    rw [MessagePlan.firstMissing?_eq_none]
    constructor
    · intro h field hfield hrequired
      obtain ⟨index, hindex, hget⟩ := List.getElem_of_mem hfield
      have hget : plan.fields[index]? = some field := by
        rw [List.getElem?_eq_getElem hindex, hget]
      obtain ⟨other, hother, hcontains⟩ :=
        h index ((hplan.required index).mpr ⟨field, hget, hrequired⟩)
      rw [hget] at hother
      cases hother
      exact hcontains
    · intro h index hindex
      obtain ⟨field, hget, hrequired⟩ := (hplan.required index).mp hindex
      exact ⟨field, hget, h field (List.mem_of_getElem? hget) hrequired⟩
  rw [← hmissing]
  unfold MessagePlan.completed
  cases plan.firstMissing? record plan.required with
  | none => simp [eq_comm]
  | some e => simp

end WireCodec
